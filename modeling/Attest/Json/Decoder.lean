import Attest.Json.Basic
import Attest.Json.Outline

namespace Attest.Json

inductive Fault where
  | malformed
  | missingField (name : String)
  | duplicateField (name : String)
  | refused (reason : String)
deriving DecidableEq, Repr

/-- A text that is malformed, or of another shape than the one wanted, is not described further. -/
def Fault.message : Fault → String
  | .malformed => "<json>"
  | .missingField name => s!"missing field `{name}`"
  | .duplicateField name => s!"duplicate field `{name}`"
  | .refused reason => reason

abbrev Decoder (α : Type) := (depth : Nat) → Outline → Except Fault α

def maxDepth : Nat := 127

def read (decoder : Decoder α) (bytes : Bytes) : Except Fault α := do
  let (outline, ended) := Outline.ofBytes bytes
  let a ← decoder maxDepth outline
  if ended then return a else throw .malformed

namespace Decoder

def string : Decoder String
  | _, .string (some s) => .ok s
  | _, _ => .error .malformed

def bool : Decoder Bool
  | _, .bool b => .ok b
  | _, _ => .error .malformed

def nat (limit : Nat) : Decoder Nat
  | _, .number l =>
    if l.isInteger ∧ ¬l.negative ∧ l.whole ≤ limit then .ok l.whole else .error .malformed
  | _, _ => .error .malformed

def size : Decoder Nat := nat (Nat.pow 2 64 - 1)

/-- A literal of digits, with or without a minus sign, in the range of 64 bits; a zero has none. -/
def int64 : Decoder Int
  | _, .number l =>
    if l.isInteger then
      if l.negative then
        if l.whole ≠ 0 ∧ l.whole ≤ Nat.pow 2 63 then .ok (-l.whole) else .error .malformed
      else if l.whole < Nat.pow 2 63 then .ok l.whole
      else .error .malformed
    else .error .malformed
  | _, _ => .error .malformed

def optional (decoder : Decoder α) : Decoder (Option α)
  | _, .null => .ok none
  | depth, o => some <$> decoder depth o

def list (decoder : Decoder α) : Decoder (List α)
  | depth + 1, .array items => items.mapM (decoder depth)
  | _, _ => .error .malformed

/-- One member: a key with a text, and what `decode` makes of the value. -/
def member (decode : Outline → Except Fault α) : Option String × Outline → Except Fault (String × α)
  | (none, _) => .error .malformed
  | (some key, o) => (key, ·) <$> decode o

/-- An object with any keys; of several members with one key the last one counts. -/
def entries (decoder : Decoder α) : Decoder (List (String × α))
  | depth + 1, .object members => Entries.ofList <$> members.mapM (member (decoder depth))
  | _, _ => .error .malformed

/-- Any value, as it stands. -/
def content : Decoder Json
  | _, .null => .ok .null
  | _, .bool b => .ok (.bool b)
  | _, .number l => .ok (.number l)
  | _, .string (some s) => .ok (.string s)
  | depth + 1, .array items => .array <$> items.mapM (content depth)
  | depth + 1, .object members =>
    (fun members => .object (Entries.ofList members)) <$> members.mapM (member (content depth))
  | _, _ => .error .malformed

/-- An object that begins with this key stands for a number, which its only member spells. -/
def numberKey : String := "$serde_json::private::Number"

def standsForNumber : List (Option String × Outline) → Bool
  | (key, _) :: _ => key == some numberKey
  | [] => false

def spelledNumber : List (Option String × Outline) → Except Fault Json
  | [(_, .string (some s))] => (Literal.ofText? s).elim (.error .malformed) fun l => .ok (.number l)
  | _ => .error .malformed

/-- Any value, where objects may stand for numbers. -/
def value : Decoder Json
  | _, .null => .ok .null
  | _, .bool b => .ok (.bool b)
  | _, .number l => .ok (.number l)
  | _, .string (some s) => .ok (.string s)
  | depth + 1, .array items => .array <$> items.mapM (value depth)
  | depth + 1, .object members =>
    if standsForNumber members then spelledNumber members
    else (fun members => .object (Entries.ofList members)) <$> members.mapM (member (value depth))
  | _, _ => .error .malformed

/-- One of some names: the name, or an object whose only member has that key and is null. -/
def name (names : List (String × α)) : Decoder α
  | _, .string (some s) => (Entries.get? s names).elim (.error .malformed) .ok
  | _ + 1, .object [(some s, .null)] => (Entries.get? s names).elim (.error .malformed) .ok
  | _, _ => .error .malformed

end Decoder
end Attest.Json
