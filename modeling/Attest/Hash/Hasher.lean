import Attest.Hash.Digest

namespace Attest

/-- `context` is gone when the hasher is spent; `count` is the number of bytes it took. -/
structure Hasher where
  context : Option Sha256.Context
  count : Nat
deriving DecidableEq, Repr

namespace Hasher

inductive Error where
  | updateAfterFinish
  | alreadyFinished
deriving DecidableEq, Repr

def Error.message : Error → String
  | .updateAfterFinish => "update called on a finalized hasher"
  | .alreadyFinished => "hasher already finalized"

def new : Hasher := ⟨some .empty, 0⟩

def isFinished (h : Hasher) : Bool := h.context.isNone

def update (h : Hasher) (data : Bytes) : Except Error Hasher :=
  match h.context with
  | some c => .ok ⟨some (c.feed data), h.count + data.length⟩
  | none => .error .updateAfterFinish

/-- Pieces taken in turn; the first error ends it. The hasher comes back with what it took. -/
def updateAll (h : Hasher) : List Bytes → Except Error Unit × Hasher
  | [] => (.ok (), h)
  | data :: rest =>
    match h.update data with
    | .ok h => updateAll h rest
    | .error e => (.error e, h)

def finish (h : Hasher) : Except Error (Digest × Hasher) :=
  match h.context with
  | some c => .ok (⟨c.finish, c.length_finish⟩, { h with context := none })
  | none => .error .alreadyFinished

def describe (h : Hasher) : String :=
  s!"StreamingHasher \x7b finalized: {h.isFinished}, bytes: {h.count} \x7d"

end Hasher
end Attest
