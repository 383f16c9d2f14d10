import Attest.Canonical.Native
import Attest.Proofs.Canonical.Settled
import Attest.Proofs.Outcome

namespace Attest

theorem Literal.ofText?_text (l : Literal) : ofText? l.text = some l := by
  have read := l.scan_chars Stops.nil
  rw [List.append_nil] at read
  rw [ofText?, text, Utf8.encode_ofList, read]

namespace Json

theorem ofPairs_of_texts (members : List (String × Json)) :
    ofPairs (members.map fun member => (string member.1, member.2)) = .ok (ofMembers members) := by
  apply bind_eq_ok.mpr
  refine ⟨members, mapM_eq_ok_iff.mpr (List.forall₂_map_left_iff.mpr ?_), rfl⟩
  exact List.forall₂_same.mpr fun _ _ => rfl

mutual

theorem converted_ofJson : (j : Json) →
    ∃ k, j.converted = .ok k ∧ Canonical.ofJson k = Canonical.ofJson j
  | .null => ⟨.null, rfl, rfl⟩
  | .bool b => ⟨.bool b, rfl, rfl⟩
  | .string s => ⟨.string s, rfl, rfl⟩
  | .number l => by
    refine ⟨.number l, ?_, rfl⟩
    rw [converted, l.ofText?_text]
  | .array items => by
    rcases convertedItems_ofItems items with ⟨others, done, same⟩
    refine ⟨.array others, ?_, ?_⟩
    · rw [converted, done]
      rfl
    · rw [Canonical.ofJson, Canonical.ofJson, same]
  | .object members => by
    rcases convertedMembers_ofMembers members with ⟨others, done, same⟩
    refine ⟨ofMembers others, ?_, ?_⟩
    · rw [converted, done]
      show (ofPairs _).mapError ConversionFault.key = _
      rw [ofPairs_of_texts]
      rfl
    · rw [ofJson_ofMembers, Canonical.ofJson, ← same, ofMembers_eq_mapValues]

theorem convertedItems_ofItems : (items : List Json) →
    ∃ others, convertedItems items = .ok others ∧ Canonical.ofItems others = Canonical.ofItems items
  | [] => ⟨[], rfl, rfl⟩
  | item :: items => by
    rcases converted_ofJson item with ⟨other, first, same⟩
    rcases convertedItems_ofItems items with ⟨others, rest, alike⟩
    refine ⟨other :: others, ?_, ?_⟩
    · rw [convertedItems, first, rest]
      rfl
    · rw [Canonical.ofItems, Canonical.ofItems, same, alike]

theorem convertedMembers_ofMembers : (members : List (String × Json)) →
    ∃ others, convertedMembers members = .ok (others.map fun member => (string member.1, member.2)) ∧
      Canonical.ofMembers others = Canonical.ofMembers members
  | [] => ⟨[], rfl, rfl⟩
  | (key, value) :: members => by
    rcases converted_ofJson value with ⟨other, first, same⟩
    rcases convertedMembers_ofMembers members with ⟨others, rest, alike⟩
    refine ⟨(key, other) :: others, ?_, ?_⟩
    · rw [convertedMembers, first, rest]
      rfl
    · rw [Canonical.ofMembers, Canonical.ofMembers, same, alike]

end

theorem convertedBytes_eq (j : Json) : j.convertedBytes = .ok j.canonicalBytes := by
  rcases converted_ofJson j with ⟨k, done, same⟩
  rw [convertedBytes, done]
  show Except.ok k.canonicalBytes = _
  rw [canonicalBytes, canonicalText, same, canonicalBytes, canonicalText]

end Json
end Attest
