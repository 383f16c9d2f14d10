import Attest.Proofs.Canonical.Normal
import Attest.Proofs.Json.Reading
import Attest.Proofs.Hash.Collision

namespace Attest.Canonical

mutual

theorem chars_toJson : (c : Canonical) → c.toJson.chars = c.chars
  | .null | .bool true | .bool false | .number _ | .string _ => rfl
  | .array items => by
    rw [toJson, Json.chars, chars, charsOfItems_toItems items]
  | .object members => by
    rw [toJson, Json.chars, chars, charsOfMembers_toMembers members]

theorem charsOfItems_toItems : (items : List Canonical) →
    Json.charsOfItems (toItems items) = charsOfItems items
  | [] => rfl
  | [item] => chars_toJson item
  | item :: next :: items => by
    have first := chars_toJson item
    have others := charsOfItems_toItems (next :: items)
    simp only [toItems, Json.charsOfItems, charsOfItems, first] at others ⊢
    rw [others]

theorem charsOfMembers_toMembers : (members : List (String × Canonical)) →
    Json.charsOfMembers (toMembers members) = charsOfMembers members
  | [] => rfl
  | [(key, value)] => by
    rw [toMembers, toMembers, Json.charsOfMembers, charsOfMembers, chars_toJson value]
  | (key, value) :: next :: members => by
    have first := chars_toJson value
    have others := charsOfMembers_toMembers (next :: members)
    simp only [toMembers, Json.charsOfMembers, charsOfMembers, first] at others ⊢
    rw [others]

end

theorem text_toJson (c : Canonical) : c.toJson.text = c.text :=
  congrArg String.ofList (chars_toJson c)

mutual

theorem toJson_injective : (a b : Canonical) → a.toJson = b.toJson → a = b
  | .null, b, same | .bool _, b, same | .number _, b, same | .string _, b, same => by
    cases b <;> cases same; rfl
  | .array items, b, same => by
    cases b with
    | array others => exact congrArg _ (toItems_injective items others (Json.array.inj same))
    | _ => cases same
  | .object members, b, same => by
    cases b with
    | object others => exact congrArg _ (toMembers_injective members others (Json.object.inj same))
    | _ => cases same

theorem toItems_injective : (items others : List Canonical) → toItems items = toItems others →
    items = others
  | [], [], _ => rfl
  | [], _ :: _, same => nomatch same
  | _ :: _, [], same => nomatch same
  | item :: items, other :: others, same => by
    obtain ⟨first, more⟩ := List.cons.inj same
    rw [toJson_injective item other first, toItems_injective items others more]

theorem toMembers_injective : (members others : List (String × Canonical)) →
    toMembers members = toMembers others → members = others
  | [], [], _ => rfl
  | [], _ :: _, same => nomatch same
  | _ :: _, [], same => nomatch same
  | (key, value) :: members, (otherKey, other) :: others, same => by
    obtain ⟨first, more⟩ := List.cons.inj same
    obtain ⟨sameKey, sameValue⟩ := Prod.mk.inj first
    rw [sameKey, toJson_injective value other sameValue, toMembers_injective members others more]

end

theorem text_injective : Function.Injective text := by
  intro a b same
  rw [← text_toJson, ← text_toJson] at same
  exact toJson_injective a b (Json.text_injective same)

theorem eq_or_collision {a b : Canonical} (same : a.digest = b.digest) :
    a = b ∨ Collision [a.bytes, b.bytes] := by
  rcases Attest.eq_or_collision same with bytes | collision
  · exact .inl (text_injective (Utf8.encode_injective bytes))
  · exact .inr collision

theorem keys_toMembers (members : List (String × Canonical)) :
    Entries.keys (toMembers members) = Entries.keys members := by
  induction members with
  | nil => rfl
  | cons member members ih => exact congrArg (member.1 :: ·) ih

mutual

theorem ordered_toJson : (c : Canonical) → c.Normal → c.toJson.Ordered
  | .null, _ | .bool _, _ | .number _, _ | .string _, _ => trivial
  | .array items, normal => orderedItems_toItems items normal
  | .object members, ⟨ascending, normal⟩ => by
    refine ⟨?_, orderedMembers_toMembers members normal⟩
    rw [Entries.Ascending, keys_toMembers]
    exact ascending

theorem orderedItems_toItems : (items : List Canonical) → NormalItems items →
    Json.OrderedItems (toItems items)
  | [], _ => trivial
  | item :: items, ⟨first, others⟩ => ⟨ordered_toJson item first, orderedItems_toItems items others⟩

theorem orderedMembers_toMembers : (members : List (String × Canonical)) → NormalMembers members →
    Json.OrderedMembers (toMembers members)
  | [], _ => trivial
  | (_, value) :: members, ⟨first, others⟩ =>
    ⟨ordered_toJson value first, orderedMembers_toMembers members others⟩

end

theorem nestingOfMembers_toMembers_le {members : List (String × Canonical)} {depth : Nat}
    (shallow : ∀ entry ∈ members, entry.2.toJson.nesting ≤ depth) :
    Json.nestingOfMembers (toMembers members) ≤ depth := by
  induction members with
  | nil => exact Nat.zero_le _
  | cons member members ih =>
    obtain ⟨key, value⟩ := member
    apply Nat.max_le.mpr
    constructor
    · exact shallow (key, value) List.mem_cons_self
    · exact ih fun entry member => shallow entry (List.mem_cons_of_mem _ member)

theorem nesting_ofLiteral (l : Literal) : (ofLiteral l).toJson.nesting = 0 := by
  rcases ofLiteral_cases l with form | ⟨s, form⟩ | ⟨m, form⟩ <;> rw [form] <;> rfl

mutual

theorem nesting_ofJson_le : (j : Json) → (ofJson j).toJson.nesting ≤ j.nesting
  | .null | .bool _ | .string _ => Nat.le_refl _
  | .number l => (nesting_ofLiteral l).le
  | .array items => Nat.succ_le_succ (nesting_ofItems_le items)
  | .object members => by
    apply Nat.succ_le_succ
    apply nestingOfMembers_toMembers_le
    intro entry member
    exact nesting_ofMembers_le members entry (Entries.mem_of_mem_ofList member)

theorem nesting_ofItems_le : (items : List Json) →
    Json.nestingOfItems (toItems (ofItems items)) ≤ Json.nestingOfItems items
  | [] => Nat.le_refl _
  | item :: items => max_le_max (nesting_ofJson_le item) (nesting_ofItems_le items)

theorem nesting_ofMembers_le : (members : List (String × Json)) →
    ∀ entry ∈ ofMembers members, entry.2.toJson.nesting ≤ Json.nestingOfMembers members
  | [], _, member => nomatch member
  | (key, value) :: members, entry, member => by
    rcases List.mem_cons.mp member with rfl | member
    · exact (nesting_ofJson_le value).trans (Nat.le_max_left _ _)
    · exact (nesting_ofMembers_le members entry member).trans (Nat.le_max_right _ _)

end

/-- Two values are equivalent exactly if they have the same canonical form, and no text is that of
two canonical values. -/
theorem canonical_text_determines :
    (∀ a b : Json, a.equivalent b = true ↔ ofJson a = ofJson b) ∧ Function.Injective text := by
  refine ⟨fun a b => ?_, text_injective⟩
  unfold Json.equivalent Json.canonicalText
  rw [beq_iff_eq]
  exact text_injective.eq_iff

end Attest.Canonical
