import Attest.Json.Record

namespace Attest.Json.Tagged

def choose (kinds : List (String × Decoder α)) (depth : Nat) (o : Outline) :
    Except Fault (Decoder α) := do
  match Entries.get? (← Decoder.string depth o) kinds with
  | some decoder => return decoder
  | none => throw .malformed

/-- The decoder that the tag among the members chooses, and the other members. They are read to their
end before they are given a meaning. -/
def split (tag : String) (kinds : List (String × Decoder α)) (depth : Nat) :
    List (Option String × Outline) → Option (Decoder α) →
      Except Fault (Option (Decoder α) × List (Option String × Outline))
  | [], chosen => .ok (chosen, [])
  | (none, _) :: _, _ => .error .malformed
  | (some key, o) :: rest, chosen =>
    if key = tag then
      if chosen.isSome then .error (.duplicateField tag)
      else do
        let decoder ← choose kinds depth o
        split tag kinds depth rest (some decoder)
    else do
      let _ ← Decoder.content depth o
      let (chosen, others) ← split tag kinds depth rest chosen
      return (chosen, (some key, o) :: others)

/-- The tag may stand anywhere in an object; in an array it comes first. A number that no word of 64 bits holds
counts as an object whose members are unknown. -/
def decode (tag : String) (kinds : List (String × Decoder α)) : Decoder α
  | depth + 1, .object members => do
    match ← split tag kinds depth members none with
    | (some decoder, others) => decoder (depth + 1) (.object others)
    | (none, _) => throw (.missingField tag)
  | _ + 1, .array [] => .error (.missingField tag)
  | depth + 1, .array (o :: others) => do
    let decoder ← choose kinds depth o
    let _ ← others.mapM (Decoder.content depth)
    decoder (depth + 1) (.array others)
  | _, .number l => .error (if l.isWord then .malformed else .missingField tag)
  | _, _ => .error .malformed

end Attest.Json.Tagged
