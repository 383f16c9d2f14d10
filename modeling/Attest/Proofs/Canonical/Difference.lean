import Attest.Canonical.Difference

namespace Attest.Difference

variable {l : Location}

theorem ofParts_eq_nil_iff {a b : Canonical} : ofParts l a b = [] ↔ a = b := by
  unfold ofParts
  constructor
  · intro empty
    split at empty
    · cases empty
    · split at empty
      · cases empty
      · rename_i same
        exact Decidable.not_not.mp same
  · rintro rfl
    simp

theorem ofLengths_eq_nil_iff {m n : Nat} : ofLengths l m n = [] ↔ m = n := by
  unfold ofLengths
  split <;> simp [*]

theorem locateMembers_nil_eq_nil_iff {members : List (String × Canonical)} :
    locateMembers l [] members = [] ↔ [] = members := by
  rw [locateMembers, List.map_eq_nil_iff, eq_comm]

/-- The members of two objects taken apart as the walk does: the others that come first, and then the one
under the same key, if there is one. -/
theorem locateMembers_cons_cases (l : Location) (key : String) (a : Canonical)
    (as bs : List (String × Canonical)) :
    ∃ front back, bs = front ++ back ∧
      ((∃ b rest, back = (key, b) :: rest ∧ locateMembers l ((key, a) :: as) bs =
          front.map (onlyInB l) ++ (locate (l ++ [.key key]) a b ++ locateMembers l as rest)) ∨
        locateMembers l ((key, a) :: as) bs =
          front.map (onlyInB l) ++ onlyInA l (key, a) :: locateMembers l as back) := by
  refine ⟨bs.takeWhile (·.1 < key), bs.dropWhile (·.1 < key), List.takeWhile_append_dropWhile.symm, ?_⟩
  rw [locateMembers]
  generalize bs.dropWhile (·.1 < key) = back
  cases back with
  | nil => exact .inr rfl
  | cons member rest =>
    obtain ⟨other, b⟩ := member
    by_cases same : other = key
    · exact .inl ⟨b, rest, by rw [same], by simp only [if_pos same]⟩
    · exact .inr (by simp only [if_neg same])

theorem locateMembers_cons_eq_nil {key : String} {a : Canonical}
    {members others : List (String × Canonical)}
    (empty : locateMembers l ((key, a) :: members) others = []) :
    ∃ b rest, others = (key, b) :: rest ∧ locate (l ++ [.key key]) a b = [] ∧
      locateMembers l members rest = [] := by
  obtain ⟨front, back, split, ⟨b, rest, same, parts⟩ | parts⟩ :=
    locateMembers_cons_cases l key a members others
  · rw [parts, List.append_eq_nil_iff, List.append_eq_nil_iff, List.map_eq_nil_iff] at empty
    obtain ⟨rfl, here, later⟩ := empty
    exact ⟨b, rest, split.trans same, here, later⟩
  · rw [parts] at empty
    cases (List.append_eq_nil_iff.mp empty).2

section

variable {key : String} {a b : Canonical} {as bs : List (String × Canonical)}

theorem locateMembers_first_left (first : ∀ member ∈ bs.head?, key < member.1) :
    locateMembers l ((key, a) :: as) bs = onlyInA l (key, a) :: locateMembers l as bs := by
  cases bs with
  | nil => rfl
  | cons member bs =>
    have before : key < member.1 := first member rfl
    have notAfter : decide (member.1 < key) = false := decide_eq_false (String.lt_asymm before)
    have other : member.1 ≠ key := fun same => String.lt_irrefl key (same ▸ before)
    rw [locateMembers]
    simp only [List.takeWhile_cons, List.dropWhile_cons, notAfter, Bool.false_eq_true, if_false,
      List.map_nil, List.nil_append, if_neg other]

theorem locateMembers_first_right (first : ∀ member ∈ as.head?, key < member.1) :
    locateMembers l as ((key, b) :: bs) = onlyInB l (key, b) :: locateMembers l as bs := by
  cases as with
  | nil => simp only [locateMembers, List.map_cons]
  | cons member as =>
    have before : decide (key < member.1) = true := decide_eq_true (first member rfl)
    rw [locateMembers, locateMembers]
    simp only [List.takeWhile_cons, List.dropWhile_cons, before, if_true, List.map_cons,
      List.cons_append]

theorem locateMembers_both :
    locateMembers l ((key, a) :: as) ((key, b) :: bs) =
      locate (l ++ [.key key]) a b ++ locateMembers l as bs := by
  have own : decide (key < key) = false := decide_eq_false (String.lt_irrefl key)
  rw [locateMembers]
  simp only [List.takeWhile_cons, List.dropWhile_cons, own, Bool.false_eq_true, if_false, if_true,
    List.map_nil, List.nil_append]

end

mutual

theorem eq_of_locate_eq_nil : (l : Location) → (a b : Canonical) → locate l a b = [] → a = b
  | l, .object members, b, empty => by
    cases b with
    | object others => exact congrArg _ (eq_of_locateMembers_eq_nil l members others empty)
    | _ => exact ofParts_eq_nil_iff.mp empty
  | l, .array items, b, empty => by
    cases b with
    | array others =>
      rw [locate, List.append_eq_nil_iff, ofLengths_eq_nil_iff] at empty
      exact congrArg _ (eq_of_locateItems_eq_nil l 0 items others empty.1 empty.2)
    | _ => exact ofParts_eq_nil_iff.mp empty
  | _, .null, _, empty | _, .bool _, _, empty | _, .number _, _, empty | _, .string _, _, empty =>
    ofParts_eq_nil_iff.mp empty

theorem eq_of_locateItems_eq_nil : (l : Location) → (i : Nat) → (items others : List Canonical) →
    items.length = others.length → locateItems l i items others = [] → items = others
  | _, _, [], [], _, _ => rfl
  | _, _, [], _ :: _, lengths, _ => nomatch lengths
  | _, _, _ :: _, [], lengths, _ => nomatch lengths
  | l, i, a :: items, b :: others, lengths, empty => by
    rw [locateItems, List.append_eq_nil_iff] at empty
    rw [eq_of_locate_eq_nil _ a b empty.1,
      eq_of_locateItems_eq_nil l (i + 1) items others (Nat.succ.inj lengths) empty.2]

theorem eq_of_locateMembers_eq_nil : (l : Location) → (members others : List (String × Canonical)) →
    locateMembers l members others = [] → members = others
  | _, [], _, empty => locateMembers_nil_eq_nil_iff.mp empty
  | l, (key, a) :: members, others, empty => by
    obtain ⟨b, rest, rfl, here, later⟩ := locateMembers_cons_eq_nil empty
    rw [eq_of_locate_eq_nil _ a b here, eq_of_locateMembers_eq_nil l members rest later]

end

mutual

theorem locate_self : (l : Location) → (a : Canonical) → locate l a a = []
  | l, .object members => locateMembers_self l members
  | l, .array items => by
    rw [locate, locateItems_self l 0 items, List.append_nil, ofLengths_eq_nil_iff.mpr rfl]
  | _, .null | _, .bool _ | _, .number _ | _, .string _ => ofParts_eq_nil_iff.mpr rfl

theorem locateItems_self : (l : Location) → (i : Nat) → (items : List Canonical) →
    locateItems l i items items = []
  | _, _, [] => rfl
  | l, i, a :: items => by
    rw [locateItems, locate_self _ a, locateItems_self l (i + 1) items, List.append_nil]

theorem locateMembers_self : (l : Location) → (members : List (String × Canonical)) →
    locateMembers l members members = []
  | _, [] => rfl
  | l, (key, a) :: members => by
    rw [locateMembers_both, locate_self _ a, locateMembers_self l members, List.append_nil]

end

theorem between_eq_nil_iff {a b : Canonical} : between a b = [] ↔ a = b := by
  rw [between, List.map_eq_nil_iff]
  constructor
  · exact eq_of_locate_eq_nil [] a b
  · rintro rfl
    exact locate_self [] a

end Attest.Difference
