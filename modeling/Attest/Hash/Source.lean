import Attest.Hash.Hasher
import Attest.Json.Record

namespace Attest

structure StreamRules where
  chunkSize : Nat
deriving DecidableEq, Repr

namespace StreamRules

def default : StreamRules := ⟨8192⟩

open Json in
def fields : List (Record.Field StreamRules) :=
  [.optional "chunk_size" [] .size fun n r => { r with chunkSize := n }]

def decoder : Json.Decoder StreamRules := Json.Record.decode fields default

def toJson (r : StreamRules) : Json := .ofMembers [("chunk_size", .ofInt r.chunkSize)]

def capacity (r : StreamRules) : Nat := max r.chunkSize 1

end StreamRules

inductive Poll where
  | pending
  | data (bytes : Bytes)
  | ended
  | failed (reason : String)
deriving DecidableEq, Repr

/-- A source gives `chunks` in turn and then ends, or fails if it has a reason to. If it `stalls`, it
has nothing yet the first time it is asked for something. -/
structure Source where
  chunks : List Bytes
  failure : Option String
  stalls : Bool
deriving DecidableEq, Repr

namespace Source

/-- A chunk in parts of `capacity` bytes; it has at most `parts` of them. -/
def split (capacity : Nat) : (parts : Nat) → Bytes → List Bytes
  | _, [] => []
  | 0, _ :: _ => []
  | parts + 1, chunk => chunk.take capacity :: split capacity parts (chunk.drop capacity)

/-- The answers of the source to a reader with room for `capacity` bytes. -/
def polls (s : Source) (capacity : Nat) : List Poll :=
  let parts := s.chunks.flatMap fun chunk => split capacity chunk.length chunk
  let last := match s.failure with
    | some reason => Poll.failed reason
    | none => Poll.ended
  (parts.map Poll.data ++ [last]).flatMap fun p => if s.stalls then [.pending, p] else [p]

end Source

namespace Stream

inductive Error where
  | failed (reason : String)
  | cancelled (count : Nat)
  | hasher (error : Hasher.Error)
deriving DecidableEq, Repr

def Error.message : Error → String
  | .failed reason => "stream read failed: " ++ reason
  | .cancelled count => s!"stream hashing cancelled after {count} bytes"
  | .hasher error => error.message

structure Outcome where
  result : Except Error Digest
  reads : Nat

/-- Asks for one answer after another. `cancelled k` tells whether the `k`-th check cancels; `reads`
counts the answers that were no mere delay. -/
def follow (cancelled : Nat → Bool) (check reads : Nat) (h : Hasher) : List Poll → Outcome
  | [] => ⟨h.finish.mapError .hasher |>.map Prod.fst, reads⟩
  | poll :: rest =>
    if cancelled check then ⟨.error (.cancelled h.count), reads⟩
    else match poll with
      | .pending => follow cancelled (check + 1) reads h rest
      | .ended => ⟨h.finish.mapError .hasher |>.map Prod.fst, reads + 1⟩
      | .failed reason => ⟨.error (.failed reason), reads + 1⟩
      | .data bytes =>
        match h.update bytes with
        | .ok h => follow cancelled (check + 1) (reads + 1) h rest
        | .error e => ⟨.error (.hasher e), reads + 1⟩

/-- The digest of everything a source gives, unless it fails or is cancelled before it ends. -/
def hash (rules : StreamRules) (source : Source) (cancelled : Nat → Bool) : Outcome :=
  follow cancelled 0 0 .new (source.polls rules.capacity)

def never : Nat → Bool := fun _ => false

def after (n : Nat) : Nat → Bool := fun check => n ≤ check

end Stream
end Attest
