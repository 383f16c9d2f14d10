import Attest.Canonical.Views
import Attest.Proofs.Canonical.Native

namespace Attest

open Utf8

namespace Json

/-- Escaping the bytes of a character is escaping the character: bytes past ASCII stay as they are. -/
theorem flatMap_escapeByte_encodeChar (c : Char) :
    (String.utf8EncodeChar c).flatMap escapeByte = ofChars (escapeChar c) := by
  by_cases ascii : c.toNat < 0x80
  · have table : ∀ n < 0x80, escapeByte (.ofNat n) = ofChars (escapeChar (.ofNat n)) := by decide
    have own := table c.toNat ascii
    rw [Char.ofNat_toNat] at own
    rw [encodeChar_of_ascii ascii, List.flatMap_singleton, own]
  · have wide : 0x80 ≤ c.toNat := Nat.le_of_not_lt ascii
    have plain : ∀ b ∈ String.utf8EncodeChar c, escapeByte b = [b] := by
      intro b member
      have high := toNat_of_mem_encodeChar wide member
      have other : ∀ a : UInt8, a.toNat < 0x80 → b ≠ a := by
        rintro a low rfl
        exact absurd high (Nat.not_le_of_lt low)
      have visible : ¬ b < 0x20 := fun small => by
        have below : b.toNat < 0x20 := UInt8.lt_iff_toNat_lt.mp small
        omega
      simp [escapeByte, other 0x22 (by decide), other 0x5C (by decide), other 0x08 (by decide),
        other 0x09 (by decide), other 0x0A (by decide), other 0x0C (by decide), other 0x0D (by decide),
        visible]
    have same : escapeChar c = [c] := by
      have other : ∀ d : Char, d.toNat < 0x80 → c ≠ d := by
        rintro d low rfl
        exact ascii low
      have visible : ¬ c.toNat < 0x20 := by omega
      simp [escapeChar, other '"' (by decide), other '\\' (by decide), other '\x08' (by decide),
        other '\x0c' (by decide), other '\n' (by decide), other '\r' (by decide),
        other '\t' (by decide), visible]
    have kept := List.flatMap_congr plain
    rw [kept, List.flatMap_singleton', same, ofChars_cons, ofChars_nil, List.append_nil]

theorem serializedString_eq (s : String) : serializedString s = ofChars (quote s) := by
  have escaped : (encode s).flatMap escapeByte = ofChars (s.toList.flatMap escapeChar) := by
    rw [encode, ofChars, List.flatMap_assoc, List.flatMap_assoc]
    exact List.flatMap_congr fun c _ => flatMap_escapeByte_encodeChar c
  rw [serializedString, ofChars_quote, escaped, List.cons_append]

end Json

namespace Canonical

mutual

theorem rebuilt_eq_toJson : (c : Canonical) → c.Normal → c.rebuilt = c.toJson
  | .null, _ | .bool _, _ | .string _, _ => rfl
  | .number l, _ => by rw [rebuilt, l.ofText?_text, toJson]
  | .array items, normal => congrArg Json.array (rebuiltItems_eq_toItems items normal)
  | .object members, ⟨ascending, normal⟩ => by
    have inside := rebuiltMembers_eq_toMembers members normal
    have kept : Entries.Ascending (toMembers members) := by
      rw [Json.toMembers_eq_mapValues]
      exact ascending.mapValues toJson
    rw [rebuilt, inside, toJson, Json.ofMembers, Entries.ofList_of_ascending kept]

theorem rebuiltItems_eq_toItems : (items : List Canonical) → NormalItems items →
    rebuiltItems items = toItems items
  | [], _ => rfl
  | item :: items, ⟨first, others⟩ => by
    rw [rebuiltItems, rebuilt_eq_toJson item first, rebuiltItems_eq_toItems items others, toItems]

theorem rebuiltMembers_eq_toMembers : (members : List (String × Canonical)) → NormalMembers members →
    rebuiltMembers members = toMembers members
  | [], _ => rfl
  | (key, value) :: members, ⟨first, others⟩ => by
    rw [rebuiltMembers, rebuilt_eq_toJson value first, rebuiltMembers_eq_toMembers members others,
      toMembers]

end

section

variable (double : Double → Bytes)

theorem serializedItems_false_cons (item : Canonical) (items : List Canonical) :
    serializedItems double false (item :: items) = 0x2C :: serializedItems double true (item :: items) :=
  rfl

theorem serializedMembers_false_cons (member : String × Canonical) (members : List (String × Canonical)) :
    serializedMembers double false (member :: members) =
      0x2C :: serializedMembers double true (member :: members) :=
  rfl

theorem charsOfItems_cons (item next : Canonical) (items : List Canonical) :
    charsOfItems (item :: next :: items) = item.chars ++ ',' :: charsOfItems (next :: items) := rfl

theorem charsOfMembers_cons (key : String) (value : Canonical) (next : String × Canonical)
    (members : List (String × Canonical)) : charsOfMembers ((key, value) :: next :: members) =
      Json.quote key ++ ':' :: value.chars ++ ',' :: charsOfMembers (next :: members) := rfl

mutual

theorem serialized_eq_ofChars : (c : Canonical) → c.serialized double = ofChars c.chars
  | .null | .bool true | .bool false => rfl
  | .number l => by
    rw [serialized, l.ofText?_text]
    exact encode_ofList l.chars
  | .string s => Json.serializedString_eq s
  | .array items => by
    rw [serialized, serializedItems_eq_ofChars items, chars, ofChars_append]
    rfl
  | .object members => by
    rw [serialized, serializedMembers_eq_ofChars members, chars, ofChars_append]
    rfl

theorem serializedItems_eq_ofChars : (items : List Canonical) →
    serializedItems double true items = ofChars (charsOfItems items)
  | [] => rfl
  | [item] => by
    rw [serializedItems, serializedItems, serialized_eq_ofChars item, charsOfItems, List.append_nil]
    rfl
  | item :: next :: items => by
    have others := serializedItems_eq_ofChars (next :: items)
    rw [serializedItems, serialized_eq_ofChars item, serializedItems_false_cons, others,
      charsOfItems_cons, ofChars_append]
    rfl

theorem serializedMembers_eq_ofChars : (members : List (String × Canonical)) →
    serializedMembers double true members = ofChars (charsOfMembers members)
  | [] => rfl
  | [(key, value)] => by
    rw [serializedMembers, serializedMembers, serialized_eq_ofChars value, Json.serializedString_eq,
      charsOfMembers, ofChars_append, List.append_nil]
    rfl
  | (key, value) :: next :: members => by
    have others := serializedMembers_eq_ofChars (next :: members)
    rw [serializedMembers, serialized_eq_ofChars value, Json.serializedString_eq,
      serializedMembers_false_cons, others, charsOfMembers_cons, ofChars_append, ofChars_append]
    rfl

end

/-- What a serializer writes is the canonical text, and the value put together anew has the same
canonical form, whatever doubles would be written as. -/
theorem views_agree (j : Json) :
    ofJson (ofJson j).rebuilt = ofJson j ∧ (ofJson j).serialized double = (ofJson j).bytes := by
  constructor
  · rw [rebuilt_eq_toJson _ (normal_ofJson j), ofJson_toJson_ofJson]
  · rw [serialized_eq_ofChars, bytes, text, encode_ofList]

end

end Canonical
end Attest
