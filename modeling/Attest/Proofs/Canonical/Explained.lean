import Attest.Proofs.Canonical.Difference
import Attest.Proofs.Entries

namespace Attest

def Canonical.at? : (l : Location) → Canonical → Option Canonical
  | [], c => some c
  | .key key :: l, .object members => (Entries.get? key members).bind (at? l)
  | .index i :: l, .array items => items[i]?.bind (at? l)
  | _, _ => none

namespace Difference

/-- One of the entries is at the location, above it or below it. -/
def Explains (entries : List (Location × Difference)) (l : Location) : Prop :=
  ∃ entry ∈ entries, entry.1 <+: l ∨ l <+: entry.1

theorem Explains.mono {entries others : List (Location × Difference)} {l : Location}
    (explains : Explains entries l) (included : entries ⊆ others) : Explains others l := by
  obtain ⟨entry, there, related⟩ := explains
  exact ⟨entry, included there, related⟩

variable {l : Location}

theorem location_of_mem_ofParts {a b : Canonical} {entry : Location × Difference}
    (there : entry ∈ ofParts l a b) : entry.1 = l := by
  unfold ofParts at there
  split at there
  · exact congrArg Prod.fst (List.mem_singleton.mp there)
  · split at there
    · exact congrArg Prod.fst (List.mem_singleton.mp there)
    · cases there

theorem location_of_mem_ofLengths {m n : Nat} {entry : Location × Difference}
    (there : entry ∈ ofLengths l m n) : entry.1 = l := by
  unfold ofLengths at there
  split at there
  · cases there
  · exact congrArg Prod.fst (List.mem_singleton.mp there)

theorem locate_cases (l : Location) (a b : Canonical) :
    (∃ as bs, a = .object as ∧ b = .object bs) ∨ (∃ as bs, a = .array as ∧ b = .array bs) ∨
      locate l a b = ofParts l a b := by
  cases a with
  | object as =>
    cases b with
    | object bs => exact .inl ⟨as, bs, rfl, rfl⟩
    | _ => exact .inr (.inr rfl)
  | array as =>
    cases b with
    | array bs => exact .inr (.inl ⟨as, bs, rfl, rfl⟩)
    | _ => exact .inr (.inr rfl)
  | _ => exact .inr (.inr rfl)

mutual

theorem prefix_of_mem_locate : (l : Location) → (a b : Canonical) →
    ∀ entry ∈ locate l a b, l <+: entry.1
  | l, .object as, b, entry, there => by
    cases b with
    | object bs => exact prefix_of_mem_locateMembers l as bs entry there
    | _ => exact location_of_mem_ofParts there ▸ List.prefix_rfl
  | l, .array as, b, entry, there => by
    cases b with
    | array bs =>
      rcases List.mem_append.mp there with lengths | items
      · exact location_of_mem_ofLengths lengths ▸ List.prefix_rfl
      · exact prefix_of_mem_locateItems l 0 as bs entry items
    | _ => exact location_of_mem_ofParts there ▸ List.prefix_rfl
  | _, .null, _, _, there | _, .bool _, _, _, there | _, .number _, _, _, there
  | _, .string _, _, _, there => location_of_mem_ofParts there ▸ List.prefix_rfl

theorem prefix_of_mem_locateItems : (l : Location) → (i : Nat) → (as bs : List Canonical) →
    ∀ entry ∈ locateItems l i as bs, l <+: entry.1
  | _, _, [], _, _, there | _, _, _ :: _, [], _, there => nomatch there
  | l, i, a :: as, b :: bs, entry, there => by
    rcases List.mem_append.mp there with here | later
    · exact (List.prefix_append _ _).trans (prefix_of_mem_locate _ a b entry here)
    · exact prefix_of_mem_locateItems l (i + 1) as bs entry later

theorem prefix_of_mem_locateMembers : (l : Location) → (as bs : List (String × Canonical)) →
    ∀ entry ∈ locateMembers l as bs, l <+: entry.1
  | l, [], bs, entry, there => by
    rw [locateMembers] at there
    obtain ⟨member, -, rfl⟩ := List.mem_map.mp there
    exact List.prefix_append _ _
  | l, (key, a) :: as, bs, entry, there => by
    obtain ⟨front, back, -, ⟨b, rest, -, parts⟩ | parts⟩ := locateMembers_cons_cases l key a as bs
    · rw [parts, List.mem_append, List.mem_append] at there
      rcases there with passed | here | later
      · obtain ⟨member, -, rfl⟩ := List.mem_map.mp passed
        exact List.prefix_append _ _
      · exact (List.prefix_append _ _).trans (prefix_of_mem_locate _ a b entry here)
      · exact prefix_of_mem_locateMembers l as rest entry later
    · rw [parts, List.mem_append, List.mem_cons] at there
      rcases there with passed | rfl | later
      · obtain ⟨member, -, rfl⟩ := List.mem_map.mp passed
        exact List.prefix_append _ _
      · exact List.prefix_append _ _
      · exact prefix_of_mem_locateMembers l as back entry later

end

/-- What becomes of the parts that two values hold at one location: there are none, or a difference is
reported there and then, or there are two and they are walked together. -/
inductive Treated (entries : List (Location × Difference)) (l : Location) : (a b : Option Canonical) → Prop
  | absent : Treated entries l none none
  | reported {a b : Option Canonical} {entry : Location × Difference} (there : entry ∈ entries)
      (here : entry.1 = l) : Treated entries l a b
  | walked {a b : Canonical} (included : locate l a b ⊆ entries) : Treated entries l (some a) (some b)

theorem Treated.mono {entries others : List (Location × Difference)} {a b : Option Canonical}
    (treated : Treated entries l a b) (included : entries ⊆ others) : Treated others l a b := by
  cases treated with
  | absent => exact .absent
  | reported there here => exact .reported (included there) here
  | walked walk => exact .walked (List.Subset.trans walk included)

theorem onlyInB_treats {k : String} {members : List (String × Canonical)}
    (named : k ∈ Entries.keys members) (a b : Option Canonical) :
    Treated (members.map (onlyInB l)) (l ++ [.key k]) a b := by
  obtain ⟨member, there, rfl⟩ := List.mem_map.mp named
  exact .reported (List.mem_map_of_mem there) rfl

theorem locateMembers_treats (l : Location) (k : String) (as bs : List (String × Canonical)) :
    Treated (locateMembers l as bs) (l ++ [.key k]) (Entries.get? k as) (Entries.get? k bs) := by
  induction as generalizing bs with
  | nil =>
    rw [locateMembers]
    by_cases named : k ∈ Entries.keys bs
    · exact onlyInB_treats named _ _
    · rw [Entries.get?_of_not_mem named]
      exact .absent
  | cons head as ih =>
    obtain ⟨key, a⟩ := head
    obtain ⟨front, back, rfl, walk⟩ := locateMembers_cons_cases l key a as bs
    by_cases named : k ∈ Entries.keys front
    · have passed (a b : Option Canonical) : Treated (front.map (onlyInB l)) (l ++ [.key k]) a b :=
        onlyInB_treats named a b
      rcases walk with ⟨b, rest, -, parts⟩ | parts
      · exact parts ▸ (passed _ _).mono (List.subset_append_left _ _)
      · exact parts ▸ (passed _ _).mono (List.subset_append_left _ _)
    rw [Entries.get?_append_of_not_mem named, Entries.get?]
    rcases walk with ⟨b, rest, rfl, parts⟩ | parts
    · rw [parts, Entries.get?]
      by_cases same : k = key
      · rw [if_pos same, if_pos same, same]
        exact .walked (List.subset_append_of_subset_right _ (List.subset_append_left _ _))
      · rw [if_neg same, if_neg same]
        exact (ih rest).mono (List.subset_append_of_subset_right _ (List.subset_append_right _ _))
    · rw [parts]
      by_cases same : k = key
      · exact .reported (List.mem_append_right _ List.mem_cons_self) (same ▸ rfl)
      · rw [if_neg same]
        exact (ih back).mono (List.subset_append_of_subset_right _ (List.subset_cons_self _ _))

theorem locateItems_treats (l : Location) (i j : Nat) {as bs : List Canonical}
    (lengths : as.length = bs.length) :
    Treated (locateItems l i as bs) (l ++ [.index (i + j)]) as[j]? bs[j]? := by
  induction as generalizing i j bs with
  | nil =>
    rw [List.eq_nil_of_length_eq_zero lengths.symm]
    exact .absent
  | cons a as ih =>
    cases bs with
    | nil => cases lengths
    | cons b bs =>
      rw [locateItems]
      cases j with
      | zero => exact .walked (List.subset_append_left _ _)
      | succ j =>
        have index : i + (j + 1) = i + 1 + j := by omega
        rw [index]
        exact (ih (i + 1) j (Nat.succ.inj lengths)).mono (List.subset_append_right _ _)

/-- Values that hold different things at a location have a difference there, above it or below it. -/
theorem explains_of_ne {a b : Canonical} {steps : Location} (differ : a.at? steps ≠ b.at? steps) :
    Explains (locate l a b) (l ++ steps) := by
  induction steps generalizing l a b with
  | nil =>
    have some : locate l a b ≠ [] := fun none => differ (congrArg Option.some (eq_of_locate_eq_nil l a b none))
    obtain ⟨entry, there⟩ := List.exists_mem_of_ne_nil _ some
    rw [List.append_nil]
    exact ⟨entry, there, .inr (prefix_of_mem_locate l a b entry there)⟩
  | cons step steps ih =>
    have through {x y : Option Canonical} {entries : List (Location × Difference)}
        (treated : Treated entries (l ++ [step]) x y)
        (differ : x.bind (Canonical.at? steps) ≠ y.bind (Canonical.at? steps)) :
        Explains entries (l ++ step :: steps) := by
      rw [List.append_cons]
      cases treated with
      | absent => exact absurd rfl differ
      | reported there here => exact ⟨_, there, .inl (here ▸ List.prefix_append _ _)⟩
      | walked included => exact (ih differ).mono included
    rcases locate_cases l a b with ⟨as, bs, rfl, rfl⟩ | ⟨as, bs, rfl, rfl⟩ | parts
    · cases step with
      | index i => exact absurd rfl differ
      | key k => exact through (locateMembers_treats l k as bs) differ
    · cases step with
      | key k => exact absurd rfl differ
      | index i =>
        rw [locate]
        by_cases lengths : as.length = bs.length
        · have treated := locateItems_treats l 0 i lengths
          rw [Nat.zero_add] at treated
          exact (through treated differ).mono (List.subset_append_right _ _)
        · rw [ofLengths, if_neg lengths]
          exact ⟨_, List.mem_cons_self, .inl (List.prefix_append _ _)⟩
    · have unequal : ofParts l a b ≠ [] := by
        rw [ne_eq, ofParts_eq_nil_iff]
        rintro rfl
        exact differ rfl
      obtain ⟨entry, there⟩ := List.exists_mem_of_ne_nil _ unequal
      exact ⟨entry, parts ▸ there, .inl (location_of_mem_ofParts there ▸ List.prefix_append _ _)⟩

/-- There are no differences exactly between a value and itself, and wherever two values hold different
things one of the differences is there, above or below. -/
theorem nothing_is_missed (a b : Canonical) :
    (between a b = [] ↔ a = b) ∧
      ∀ l : Location, a.at? l ≠ b.at? l →
        ∃ entry ∈ locate [] a b, entry.2 ∈ between a b ∧ (entry.1 <+: l ∨ l <+: entry.1) := by
  refine ⟨between_eq_nil_iff, fun l differ => ?_⟩
  obtain ⟨entry, there, related⟩ := explains_of_ne (l := []) differ
  exact ⟨entry, there, List.mem_map_of_mem there, related⟩

/-- An item that only one of two arrays has is explained by their lengths. -/
theorem nothing_is_missed_beyond_end :
    let a : Canonical := .object [("a", .array [.null, .object [("b", .bool true)]])]
    let b : Canonical := .object [("a", .array [.null])]
    let l : Location := [.key "a", .index 1, .key "b"]
    a.at? l ≠ b.at? l ∧
      ∃ entry ∈ locate [] a b, entry.2 ∈ between a b ∧ (entry.1 <+: l ∨ l <+: entry.1) := by
  intro a b l
  have differ : a.at? l ≠ b.at? l := by decide
  exact ⟨differ, (nothing_is_missed a b).2 l differ⟩

end Difference
end Attest
