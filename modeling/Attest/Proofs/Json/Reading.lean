import Attest.Json.Decoder
import Attest.Proofs.Entries
import Attest.Proofs.Json.Outline

namespace Attest.Json

open Utf8 (encode_ofList)

mutual

def outline : Json → Outline
  | .null => .null
  | .bool b => .bool b
  | .number l => .number l
  | .string s => .string (some s)
  | .array items => .array (outlineOfItems items)
  | .object members => .object (outlineOfMembers members)

def outlineOfItems : List Json → List Outline
  | [] => []
  | item :: items => item.outline :: outlineOfItems items

def outlineOfMembers : List (String × Json) → List (Option String × Outline)
  | [] => []
  | (key, value) :: members => (some key, value.outline) :: outlineOfMembers members

end

mutual

theorem outline_injective : (a b : Json) → a.outline = b.outline → a = b
  | .null, b, same => by cases b <;> cases same; rfl
  | .bool _, b, same => by cases b <;> cases same; rfl
  | .number _, b, same => by cases b <;> cases same; rfl
  | .string _, b, same => by cases b <;> cases same; rfl
  | .array items, b, same => by
    cases b with
    | array others => exact congrArg _ (outlineOfItems_injective items others (Outline.array.inj same))
    | _ => cases same
  | .object members, b, same => by
    cases b with
    | object others =>
      exact congrArg _ (outlineOfMembers_injective members others (Outline.object.inj same))
    | _ => cases same

theorem outlineOfItems_injective : (items others : List Json) →
    outlineOfItems items = outlineOfItems others → items = others
  | [], [], _ => rfl
  | [], _ :: _, same => nomatch same
  | _ :: _, [], same => nomatch same
  | item :: items, other :: others, same => by
    obtain ⟨first, more⟩ := List.cons.inj same
    rw [outline_injective item other first, outlineOfItems_injective items others more]

theorem outlineOfMembers_injective : (members others : List (String × Json)) →
    outlineOfMembers members = outlineOfMembers others → members = others
  | [], [], _ => rfl
  | [], _ :: _, same => nomatch same
  | _ :: _, [], same => nomatch same
  | (key, value) :: members, (otherKey, other) :: others, same => by
    obtain ⟨first, more⟩ := List.cons.inj same
    obtain ⟨sameKey, sameValue⟩ := Prod.mk.inj first
    rw [Option.some.inj sameKey, outline_injective value other sameValue,
      outlineOfMembers_injective members others more]

end

theorem outlineOfItems_eq_map (items : List Json) : outlineOfItems items = items.map outline := by
  induction items with
  | nil => rfl
  | cons item items ih => rw [outlineOfItems, ih, List.map_cons]

theorem outlineOfMembers_eq_map (members : List (String × Json)) :
    outlineOfMembers members = members.map fun member => (some member.1, member.2.outline) := by
  induction members with
  | nil => rfl
  | cons member members ih => rw [outlineOfMembers, ih, List.map_cons]

mutual

theorem isWhole_outline : (j : Json) → j.outline.isWhole = true
  | .null | .bool _ | .number _ | .string _ => rfl
  | .array items => allWhole_outlineOfItems items
  | .object members => allWholeMembers_outlineOfMembers members

theorem allWhole_outlineOfItems : (items : List Json) → Outline.allWhole (outlineOfItems items) = true
  | [] => rfl
  | item :: items => Bool.and_eq_true_iff.mpr ⟨isWhole_outline item, allWhole_outlineOfItems items⟩

theorem allWholeMembers_outlineOfMembers : (members : List (String × Json)) →
    Outline.allWholeMembers (outlineOfMembers members) = true
  | [] => rfl
  | (_, value) :: members =>
    Bool.and_eq_true_iff.mpr ⟨isWhole_outline value, allWholeMembers_outlineOfMembers members⟩

end

mutual

theorem tokens_outline : (j : Json) → j.outline.tokens = j.tokens
  | .null | .bool _ | .number _ | .string _ => rfl
  | .array items => by rw [outline, Outline.tokens, tokens, tokensOfItems_outline items]
  | .object members => by rw [outline, Outline.tokens, tokens, tokensOfMembers_outline members]

theorem tokensOfItems_outline : (items : List Json) →
    Outline.tokensOfItems (outlineOfItems items) = tokensOfItems items
  | [] => rfl
  | [item] => tokens_outline item
  | item :: next :: items => by
    have others := tokensOfItems_outline (next :: items)
    rw [outlineOfItems] at others
    rw [outlineOfItems, outlineOfItems, Outline.tokensOfItems_cons, others, tokens_outline item,
      tokensOfItems_cons]

theorem tokensOfMembers_outline : (members : List (String × Json)) →
    Outline.tokensOfMembers (outlineOfMembers members) = tokensOfMembers members
  | [] => rfl
  | [(key, value)] => by
    rw [outlineOfMembers, outlineOfMembers, Outline.tokensOfMembers, tokens_outline value, tokensOfMembers]
  | (key, value) :: next :: members => by
    have others := tokensOfMembers_outline (next :: members)
    rw [outlineOfMembers] at others
    rw [outlineOfMembers, outlineOfMembers, Outline.tokensOfMembers_cons, others, tokens_outline value,
      tokensOfMembers_cons]

end

namespace Outline

theorem ofBytes_of_tokens {bytes : Bytes} {j : Json} (scanned : Token.scan bytes = j.tokens) :
    ofBytes bytes = (j.outline, true) :=
  ofBytes_of_scan j.isWhole_outline (scanned.trans j.tokens_outline.symm)

theorem ofBytes_chars (j : Json) : ofBytes (Utf8.ofChars j.chars) = (j.outline, true) := by
  apply ofBytes_of_tokens
  have scanned := j.scan_chars Literal.Stops.nil
  rwa [List.append_nil, Token.scan_nil, List.append_nil] at scanned

end Outline

theorem text_injective : Function.Injective text := by
  intro a b same
  have bytes : Utf8.ofChars a.chars = Utf8.ofChars b.chars := by
    rw [← encode_ofList, ← encode_ofList]
    exact congrArg Utf8.encode same
  have found := congrArg Outline.ofBytes bytes
  rw [Outline.ofBytes_chars, Outline.ofBytes_chars] at found
  exact outline_injective a b (Prod.mk.inj found).1

mutual

def nesting : Json → Nat
  | .array items => nestingOfItems items + 1
  | .object members => nestingOfMembers members + 1
  | _ => 0

def nestingOfItems : List Json → Nat
  | [] => 0
  | item :: items => max item.nesting (nestingOfItems items)

def nestingOfMembers : List (String × Json) → Nat
  | [] => 0
  | (_, value) :: members => max value.nesting (nestingOfMembers members)

end

mutual

def Ordered : Json → Prop
  | .array items => OrderedItems items
  | .object members => Entries.Ascending members ∧ OrderedMembers members
  | _ => True

def OrderedItems : List Json → Prop
  | [] => True
  | item :: items => item.Ordered ∧ OrderedItems items

def OrderedMembers : List (String × Json) → Prop
  | [] => True
  | (_, value) :: members => value.Ordered ∧ OrderedMembers members

end

namespace Decoder

mutual

theorem content_outline : (j : Json) → {depth : Nat} → j.nesting ≤ depth → j.Ordered →
    content depth j.outline = .ok j
  | .null, depth, _, _ | .bool _, depth, _, _ | .number _, depth, _, _ | .string _, depth, _, _ => by
    cases depth <;> rfl
  | .array items, 0, shallow, _ | .object items, 0, shallow, _ => nomatch shallow
  | .array items, depth + 1, shallow, ordered => by
    have inside := mapM_outlineOfItems items (Nat.le_of_succ_le_succ shallow) ordered
    rw [outline, content, inside]
    rfl
  | .object members, depth + 1, shallow, ⟨ascending, ordered⟩ => by
    have inside := mapM_outlineOfMembers members (Nat.le_of_succ_le_succ shallow) ordered
    rw [outline, content, inside]
    exact congrArg (Except.ok ∘ Json.object) (Entries.ofList_of_ascending ascending)

theorem mapM_outlineOfItems : (items : List Json) → {depth : Nat} → nestingOfItems items ≤ depth →
    OrderedItems items → (outlineOfItems items).mapM (content depth) = .ok items
  | [], _, _, _ => rfl
  | item :: items, depth, shallow, ⟨first, others⟩ => by
    obtain ⟨low, lower⟩ := Nat.max_le.mp shallow
    rw [outlineOfItems, List.mapM_cons, content_outline item low first,
      mapM_outlineOfItems items lower others]
    rfl

theorem mapM_outlineOfMembers : (members : List (String × Json)) → {depth : Nat} →
    nestingOfMembers members ≤ depth → OrderedMembers members →
    (outlineOfMembers members).mapM (member (content depth)) = .ok members
  | [], _, _, _ => rfl
  | (key, item) :: members, depth, shallow, ⟨first, others⟩ => by
    obtain ⟨low, lower⟩ := Nat.max_le.mp shallow
    rw [outlineOfMembers, List.mapM_cons, member, content_outline item low first,
      mapM_outlineOfMembers members lower others]
    rfl

end

end Decoder

end Attest.Json
