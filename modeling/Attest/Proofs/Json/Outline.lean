import Attest.Json.Outline
import Attest.Proofs.Json.Layout

namespace Attest.Json.Outline

mutual

def tokens : Outline → List Token
  | .null => [.null]
  | .bool b => [.bool b]
  | .number l => [.number l]
  | .string text => [.string text]
  | .array items => .beginArray :: tokensOfItems items ++ [.endArray]
  | .object members => .beginObject :: tokensOfMembers members ++ [.endObject]
  | .broken => [.bad]

def tokensOfItems : List Outline → List Token
  | [] => []
  | [item] => item.tokens
  | item :: items => item.tokens ++ .comma :: tokensOfItems items

def tokensOfMembers : List (Option String × Outline) → List Token
  | [] => []
  | [(key, value)] => .string key :: .colon :: value.tokens
  | (key, value) :: members => .string key :: .colon :: value.tokens ++ .comma :: tokensOfMembers members

end

theorem tokensOfItems_cons (item next : Outline) (items : List Outline) :
    tokensOfItems (item :: next :: items) = item.tokens ++ .comma :: tokensOfItems (next :: items) := rfl

theorem tokensOfMembers_cons (key : Option String) (value : Outline) (next : Option String × Outline)
    (members : List (Option String × Outline)) : tokensOfMembers ((key, value) :: next :: members) =
      .string key :: .colon :: value.tokens ++ .comma :: tokensOfMembers (next :: members) := rfl

mutual

theorem isWhole_iff : (o : Outline) → (o.isWhole = true ↔ .bad ∉ o.tokens)
  | .null | .bool _ | .number _ | .string _ | .broken => by simp [isWhole, tokens]
  | .array items => by simp [isWhole, tokens, allWhole_iff_tokens items]
  | .object members => by simp [isWhole, tokens, allWholeMembers_iff_tokens members]

theorem allWhole_iff_tokens : (items : List Outline) → (allWhole items = true ↔ .bad ∉ tokensOfItems items)
  | [] => by simp [allWhole, tokensOfItems]
  | [item] => by simp [allWhole, tokensOfItems, isWhole_iff item]
  | item :: next :: items => by
    have others := allWhole_iff_tokens (next :: items)
    rw [allWhole, Bool.and_eq_true, isWhole_iff item, others, tokensOfItems_cons]
    simp

theorem allWholeMembers_iff_tokens : (members : List (Option String × Outline)) →
    (allWholeMembers members = true ↔ .bad ∉ tokensOfMembers members)
  | [] => by simp [allWholeMembers, tokensOfMembers]
  | [(key, item)] => by simp [allWholeMembers, tokensOfMembers, isWhole_iff item]
  | (key, item) :: next :: members => by
    have others := allWholeMembers_iff_tokens (next :: members)
    rw [allWholeMembers, Bool.and_eq_true, isWhole_iff item, others, tokensOfMembers_cons]
    simp

end

theorem tokens_head (o : Outline) : ∃ t ts, o.tokens = t :: ts ∧ t ≠ .endArray := by
  cases o <;> exact ⟨_, _, rfl, nofun⟩

theorem tokensOfItems_head (item : Outline) (items : List Outline) :
    ∃ t ts, tokensOfItems (item :: items) = t :: ts ∧ t ≠ .endArray := by
  obtain ⟨t, ts, first, other⟩ := item.tokens_head
  cases items with
  | nil => exact ⟨t, ts, first, other⟩
  | cons next items => exact ⟨t, _, by rw [tokensOfItems_cons, first, List.cons_append], other⟩

theorem tokensOfMembers_head (member : Option String × Outline) (members : List (Option String × Outline)) :
    ∃ ts, tokensOfMembers (member :: members) = .string member.1 :: ts := by
  cases members <;> exact ⟨_, rfl⟩

theorem value_beginArray {t : Token} (other : t ≠ .endArray) {steps : Nat} {tokens : List Token}
    {found : List Outline} {rest : Option (List Token)}
    (inside : items steps (t :: tokens) = (found, rest)) :
    value (steps + 1) (.beginArray :: t :: tokens) = (.array found, rest) := by
  cases t <;> first | exact absurd rfl other | rw [value.eq_def]; simp only [inside]

theorem value_beginObject {key : Option String} {steps : Nat} {tokens : List Token}
    {found : List (Option String × Outline)} {rest : Option (List Token)}
    (inside : members steps (.string key :: tokens) = (found, rest)) :
    value (steps + 1) (.beginObject :: .string key :: tokens) = (.object found, rest) := by
  rw [value.eq_def]
  simp only [inside]

mutual

theorem value_tokens : (o : Outline) → o.isWhole = true → (steps : Nat) →
    2 * o.tokens.length ≤ steps + 1 → (rest : List Token) → value steps (o.tokens ++ rest) = (o, some rest)
  | .null, _, 0, enough, _ | .bool _, _, 0, enough, _ | .number _, _, 0, enough, _
  | .string _, _, 0, enough, _ | .array _, _, 0, enough, _ | .object _, _, 0, enough, _ => by
    simp only [tokens, List.length_cons, List.length_append, List.length_nil] at enough
    omega
  | .null, _, _ + 1, _, _ | .bool _, _, _ + 1, _, _ | .number _, _, _ + 1, _, _
  | .string _, _, _ + 1, _, _ => rfl
  | .array [], _, _ + 1, _, _ | .object [], _, _ + 1, _, _ => rfl
  | .array (item :: more), whole, steps + 1, enough, rest => by
    simp only [tokens, List.length_cons, List.length_append, List.length_nil] at enough
    have inside := items_tokens item more whole steps (by omega) rest
    obtain ⟨t, ts, head, other⟩ := tokensOfItems_head item more
    rw [head, List.cons_append] at inside
    rw [tokens, head, List.cons_append, List.cons_append, List.cons_append, List.cons_append,
      List.append_assoc]
    exact value_beginArray other inside
  | .object (member :: more), whole, steps + 1, enough, rest => by
    simp only [tokens, List.length_cons, List.length_append, List.length_nil] at enough
    have inside := members_tokens member more whole steps (by omega) rest
    obtain ⟨ts, head⟩ := tokensOfMembers_head member more
    rw [head, List.cons_append] at inside
    rw [tokens, head, List.cons_append, List.cons_append, List.cons_append, List.cons_append,
      List.append_assoc]
    exact value_beginObject inside

theorem items_tokens : (item : Outline) → (more : List Outline) → allWhole (item :: more) = true →
    (steps : Nat) → 2 * (tokensOfItems (item :: more)).length ≤ steps → (rest : List Token) →
    items steps (tokensOfItems (item :: more) ++ .endArray :: rest) = (item :: more, some rest)
  | item, more, _, 0, enough, _ => by
    obtain ⟨t, ts, head, -⟩ := tokensOfItems_head item more
    simp [head] at enough
  | item, [], whole, steps + 1, enough, rest => by
    obtain ⟨here, -⟩ := Bool.and_eq_true_iff.mp whole
    rw [tokensOfItems] at enough ⊢
    have last := value_tokens item here steps (by omega) (.endArray :: rest)
    rw [items, last]
  | item, next :: more, whole, steps + 1, enough, rest => by
    obtain ⟨here, others⟩ := Bool.and_eq_true_iff.mp whole
    simp only [tokensOfItems_cons, List.length_append, List.length_cons] at enough
    have first := value_tokens item here steps (by omega)
      (.comma :: (tokensOfItems (next :: more) ++ .endArray :: rest))
    have others := items_tokens next more others steps (by omega) rest
    rw [tokensOfItems_cons, List.append_assoc, List.cons_append, items, first]
    simp only [others]

theorem members_tokens : (member : Option String × Outline) → (more : List (Option String × Outline)) →
    allWholeMembers (member :: more) = true → (steps : Nat) →
    2 * (tokensOfMembers (member :: more)).length ≤ steps → (rest : List Token) →
    members steps (tokensOfMembers (member :: more) ++ .endObject :: rest) = (member :: more, some rest)
  | member, more, _, 0, enough, _ => by
    obtain ⟨ts, head⟩ := tokensOfMembers_head member more
    simp [head] at enough
  | (key, item), [], whole, steps + 1, enough, rest => by
    obtain ⟨here, -⟩ := Bool.and_eq_true_iff.mp whole
    simp only [tokensOfMembers, List.length_cons] at enough
    have last := value_tokens item here steps (by omega) (.endObject :: rest)
    rw [tokensOfMembers, List.cons_append, List.cons_append, members, last]
  | (key, item), next :: more, whole, steps + 1, enough, rest => by
    obtain ⟨here, others⟩ := Bool.and_eq_true_iff.mp whole
    simp only [tokensOfMembers_cons, List.cons_append, List.length_append, List.length_cons] at enough
    have first := value_tokens item here steps (by omega)
      (.comma :: (tokensOfMembers (next :: more) ++ .endObject :: rest))
    have others := members_tokens next more others steps (by omega) rest
    rw [tokensOfMembers_cons, List.cons_append, List.cons_append, List.cons_append,
      List.cons_append, List.append_assoc, List.cons_append, members, first]
    simp only [others]

end

theorem ofBytes_of_scan {o : Outline} (whole : o.isWhole = true) {bytes : Bytes}
    (scanned : Token.scan bytes = o.tokens) : ofBytes bytes = (o, true) := by
  have read := value_tokens o whole _ (Nat.le_add_right (2 * o.tokens.length) 2) []
  rw [List.append_nil] at read
  rw [ofBytes, scanned, read]
  rfl

/-- What is read in so many steps is whole, and its tokens are those that were taken. -/
structure Taken (steps : Nat) : Prop where
  value : ∀ {input rest o}, value steps input = (o, some rest) → o.isWhole = true ∧ input = o.tokens ++ rest
  items : ∀ {input rest found}, items steps input = (found, some rest) →
    allWhole found = true ∧ found ≠ [] ∧ input = tokensOfItems found ++ .endArray :: rest
  members : ∀ {input rest found}, members steps input = (found, some rest) →
    allWholeMembers found = true ∧ found ≠ [] ∧ input = tokensOfMembers found ++ .endObject :: rest

namespace Taken

variable {steps : Nat} (taken : Taken steps) {input rest : List Token}

include taken

theorem value_succ {o : Outline} (read : Outline.value (steps + 1) input = (o, some rest)) :
    o.isWhole = true ∧ input = o.tokens ++ rest := by
  rw [Outline.value.eq_def] at read
  split at read
  · cases read
  iterate 5
    · cases read
      exact ⟨rfl, rfl⟩
  · rename_i n more _ same
    cases same
    cases inside : Outline.items steps more with
    | mk found ended =>
      simp only [inside, Prod.mk.injEq] at read
      obtain ⟨rfl, rfl⟩ := read
      obtain ⟨whole, -, front⟩ := taken.items inside
      refine ⟨whole, ?_⟩
      rw [front, tokens, List.cons_append, List.cons_append, List.append_assoc, List.singleton_append]
  · cases read
    exact ⟨rfl, rfl⟩
  · rename_i n more _ same
    cases same
    cases inside : Outline.members steps more with
    | mk found ended =>
      simp only [inside, Prod.mk.injEq] at read
      obtain ⟨rfl, rfl⟩ := read
      obtain ⟨whole, -, front⟩ := taken.members inside
      refine ⟨whole, ?_⟩
      rw [front, tokens, List.cons_append, List.cons_append, List.append_assoc, List.singleton_append]
  · cases read

theorem items_succ {found : List Outline} (read : Outline.items (steps + 1) input = (found, some rest)) :
    allWhole found = true ∧ found ≠ [] ∧ input = tokensOfItems found ++ .endArray :: rest := by
  rw [Outline.items] at read
  split at read
  · rename_i item more first
    obtain ⟨whole, front⟩ := taken.value first
    cases others : Outline.items steps more with
    | mk later ended =>
      simp only [others, Prod.mk.injEq] at read
      obtain ⟨rfl, rfl⟩ := read
      obtain ⟨wholes, some, behind⟩ := taken.items others
      refine ⟨by rw [allWhole, whole, wholes]; rfl, nofun, ?_⟩
      obtain ⟨next, later, rfl⟩ := List.exists_cons_of_ne_nil some
      rw [front, behind, tokensOfItems_cons, List.append_assoc, List.cons_append]
  · rename_i item more first
    cases read
    obtain ⟨whole, front⟩ := taken.value first
    exact ⟨by rw [allWhole, whole]; rfl, nofun, front⟩
  · cases read
  · cases read

theorem members_succ {found : List (Option String × Outline)}
    (read : Outline.members (steps + 1) input = (found, some rest)) :
    allWholeMembers found = true ∧ found ≠ [] ∧ input = tokensOfMembers found ++ .endObject :: rest := by
  rw [Outline.members.eq_def] at read
  split at read
  · rename_i n key behind same
    cases same
    split at read
    · rename_i item more first
      obtain ⟨whole, front⟩ := taken.value first
      cases others : Outline.members steps more with
      | mk later ended =>
        simp only [others, Prod.mk.injEq] at read
        obtain ⟨rfl, rfl⟩ := read
        obtain ⟨wholes, some, behind⟩ := taken.members others
        refine ⟨by rw [allWholeMembers, whole, wholes]; rfl, nofun, ?_⟩
        obtain ⟨next, later, rfl⟩ := List.exists_cons_of_ne_nil some
        rw [front, behind, tokensOfMembers_cons]
        simp only [List.cons_append, List.append_assoc]
    · rename_i item more first
      cases read
      obtain ⟨whole, front⟩ := taken.value first
      exact ⟨by rw [allWholeMembers, whole]; rfl, nofun, by rw [front]; rfl⟩
    · cases read
    · cases read
  · cases read
  · cases read

end Taken

theorem taken (steps : Nat) : Taken steps := by
  induction steps with
  | zero =>
    refine ⟨fun read => ?_, fun read => ?_, fun read => ?_⟩
    · rw [value] at read
      cases read
    · rw [items] at read
      cases read
    · rw [members.eq_def] at read
      cases read
  | succ steps ih => exact ⟨ih.value_succ, ih.items_succ, ih.members_succ⟩

/-- The outline is laid out in the text. -/
def Writes (o : Outline) (text : Bytes) : Prop := Layout o.tokens text

theorem Writes.isWhole {o : Outline} {text : Bytes} (writes : o.Writes text) : o.isWhole = true :=
  o.isWhole_iff.mpr writes.good

theorem ofBytes_eq_iff_writes {o : Outline} {text : Bytes} :
    ofBytes text = (o, true) ↔ o.Writes text := by
  constructor
  · intro read
    rw [ofBytes] at read
    cases found : value (2 * (Token.scan text).length + 1) (Token.scan text) with
    | mk o' ended =>
      simp only [found, Prod.mk.injEq, beq_iff_eq] at read
      obtain ⟨rfl, rfl⟩ := read
      obtain ⟨whole, front⟩ := (taken _).value found
      rw [List.append_nil] at front
      exact (Token.scan_eq_iff_layout (o'.isWhole_iff.mp whole)).mp front
  · intro writes
    exact ofBytes_of_scan writes.isWhole ((Token.scan_eq_iff_layout writes.good).mpr writes)

theorem Writes.unique {o o' : Outline} {text : Bytes} (writes : o.Writes text) (also : o'.Writes text) :
    o = o' := by
  have read := ofBytes_eq_iff_writes.mpr writes
  rw [ofBytes_eq_iff_writes.mpr also] at read
  exact (Prod.mk.inj read).1.symm

end Attest.Json.Outline
