import Attest.Json.Decoder

namespace Attest.Json

/-- A field of a record of type `σ`: reading it changes the record that is being built. -/
structure Record.Field (σ : Type) where
  name : String
  aliases : List String
  required : Bool
  decode : Decoder (σ → σ)

namespace Record
namespace Field

def mandatory (name : String) (decoder : Decoder α) (set : α → σ → σ) : Field σ :=
  ⟨name, [], true, fun depth o => set <$> decoder depth o⟩

def optional (name : String) (aliases : List String) (decoder : Decoder α) (set : α → σ → σ) :
    Field σ :=
  ⟨name, aliases, false, fun depth o => set <$> decoder depth o⟩

def answersTo (f : Field σ) (key : String) : Bool := key == f.name || f.aliases.contains key

end Field

/-- The names of the fields seen so far are kept, to find one that comes again. -/
def decodeMembers (fields : List (Field σ)) (depth : Nat) :
    List (Option String × Outline) → List String → σ → Except Fault (List String × σ)
  | [], seen, r => .ok (seen, r)
  | (none, _) :: _, _, _ => .error .malformed
  | (some key, o) :: rest, seen, r =>
    match fields.find? (·.answersTo key) with
    | none => if o.isWhole then decodeMembers fields depth rest seen r else .error .malformed
    | some f =>
      if seen.contains f.name then .error (.duplicateField f.name)
      else do
        let change ← f.decode depth o
        decodeMembers fields depth rest (f.name :: seen) (change r)

def decodeItems (depth : Nat) : List (Field σ) → List Outline → σ → Except Fault σ
  | [], [], r => .ok r
  | [], _ :: _, _ => .error .malformed
  | f :: fields, [], r => if f.required then .error .malformed else decodeItems depth fields [] r
  | f :: fields, o :: rest, r => do
    let change ← f.decode depth o
    decodeItems depth fields rest (change r)

/-- Unknown keys are passed over, whatever whole value they have. A record may also be written as an array of its
fields in their order, from whose end optional ones may be left off. -/
def decode (fields : List (Field σ)) (blank : σ) : Decoder σ
  | depth + 1, .object members => do
    let (seen, r) ← decodeMembers fields depth members [] blank
    match fields.find? fun f => f.required && !seen.contains f.name with
    | some f => throw (.missingField f.name)
    | none => return r
  | depth + 1, .array items => decodeItems depth fields items blank
  | _, _ => .error .malformed

end Record
end Attest.Json
