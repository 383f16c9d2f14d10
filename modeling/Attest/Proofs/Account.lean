import Mathlib.Data.List.Basic

namespace Attest

/-- The entries stand for what is found: each for one thing at one place, in the order of the places. -/
def Accounts {π ε : Type} (before : π → π → Prop) (found : π → ε → Prop) (entries : List ε) : Prop :=
  ∃ located : List (π × ε), located.map Prod.snd = entries ∧
    located.Pairwise (fun entry other => before entry.1 other.1) ∧
    ∀ place entry, (place, entry) ∈ located ↔ found place entry

namespace Accounts

variable {α π ρ ε δ : Type} {before : π → π → Prop} {found others : π → ε → Prop} {entries more : List ε}

theorem congr (accounts : Accounts before found entries)
    (same : ∀ place entry, found place entry ↔ others place entry) : Accounts before others entries := by
  obtain ⟨located, parts, ordered, exact⟩ := accounts
  exact ⟨located, parts, ordered, fun place entry => (exact place entry).trans (same place entry)⟩

theorem iff_eq (asymm : ∀ p q, before p q → ¬ before q p) (accounts : Accounts before found entries) :
    Accounts before found more ↔ more = entries := by
  constructor
  · rintro ⟨others, rfl, ordered, exact⟩
    obtain ⟨located, rfl, orderedToo, exactToo⟩ := accounts
    have distinct : ∀ {list : List (π × ε)}, list.Pairwise (fun entry other => before entry.1 other.1) →
        list.Nodup := by
      intro list ordered
      apply ordered.imp
      rintro entry _ before rfl
      exact asymm _ _ before before
    have same : others.Perm located := by
      apply (List.perm_ext_iff_of_nodup (distinct ordered) (distinct orderedToo)).mpr
      rintro ⟨place, entry⟩
      rw [exact, exactToo]
    rw [same.eq_of_pairwise _ ordered orderedToo]
    intro entry other _ _ first second
    exact absurd second (asymm _ _ first)
  · rintro rfl
    exact accounts

theorem nil (none : ∀ place entry, ¬ found place entry) : Accounts before found [] :=
  ⟨[], rfl, .nil, fun place entry => by simp [none]⟩

theorem append (first : Accounts before found entries) (second : Accounts before others more)
    (apart : ∀ place entry next other, found place entry → others next other → before place next) :
    Accounts before (fun place entry => found place entry ∨ others place entry) (entries ++ more) := by
  obtain ⟨located, rfl, ordered, exact⟩ := first
  obtain ⟨behind, rfl, orderedBehind, exactBehind⟩ := second
  refine ⟨located ++ behind, List.map_append, List.pairwise_append.mpr ⟨ordered, orderedBehind, ?_⟩, ?_⟩
  · intro entry there next after
    exact apart _ _ _ _ ((exact _ _).mp there) ((exactBehind _ _).mp after)
  · intro place entry
    rw [List.mem_append, exact, exactBehind]

theorem map {after : ρ → ρ → Prop} (accounts : Accounts before found entries) (place : π → ρ) (f : ε → δ)
    (monotone : ∀ p q, before p q → after (place p) (place q)) :
    Accounts after (fun p d => ∃ q entry, found q entry ∧ place q = p ∧ f entry = d) (entries.map f) := by
  obtain ⟨located, rfl, ordered, exact⟩ := accounts
  refine ⟨located.map (Prod.map place f), ?_, ?_, ?_⟩
  · rw [List.map_map, List.map_map]
    rfl
  · apply List.pairwise_map.mpr
    exact ordered.imp fun before => monotone _ _ before
  · intro p d
    simp only [List.mem_map, Prod.exists, Prod.map_apply, Prod.mk.injEq, exact]

theorem single (c : Prop) [Decidable c] (place : π) (entry : ε) :
    Accounts before (fun p e => c ∧ p = place ∧ e = entry) (if c then [entry] else []) := by
  by_cases holds : c
  · rw [if_pos holds]
    refine ⟨[(place, entry)], rfl, List.pairwise_singleton _ _, fun p e => ?_⟩
    simp [holds]
  · rw [if_neg holds]
    exact nil fun p e found => holds found.1

theorem flatMap {items : List α} {f : α → List ε} {found : Nat → α → π → ε → Prop}
    (each : ∀ i x, items[i]? = some x → Accounts before (found i x) (f x))
    (apart : ∀ i j x y place entry next other, i < j → found i x place entry → found j y next other →
      before place next) :
    Accounts before (fun place entry => ∃ i x, items[i]? = some x ∧ found i x place entry) (items.flatMap f) := by
  induction items generalizing found with
  | nil => exact nil fun _ _ ⟨_, _, there, _⟩ => nomatch there
  | cons item items ih =>
    have first := each 0 item rfl
    have behind : Accounts before (fun place entry => ∃ i x, items[i]? = some x ∧ found (i + 1) x place entry)
        (items.flatMap f) := by
      apply ih
      · intro i x there
        exact each (i + 1) x there
      · intro i j x y place entry next other later
        exact apart (i + 1) (j + 1) x y place entry next other (Nat.succ_lt_succ later)
    rw [List.flatMap_cons]
    apply (append first behind ?_).congr
    · intro place entry
      constructor
      · rintro (here | ⟨i, x, there, later⟩)
        · exact ⟨0, item, rfl, here⟩
        · exact ⟨i + 1, x, there, later⟩
      · rintro ⟨_ | i, x, there, found⟩
        · cases there
          exact .inl found
        · exact .inr ⟨i, x, there, found⟩
    · rintro place entry next other here ⟨i, x, -, later⟩
      exact apart 0 (i + 1) item x place entry next other (Nat.succ_pos i) here later

theorem filter (p : α → Bool) (items : List α) :
    Accounts (fun i j : Nat => i < j) (fun i x => items[i]? = some x ∧ p x = true) (items.filter p) := by
  have parts : items.filter p = items.flatMap fun x => if p x = true then [x] else [] := by
    induction items with
    | nil => rfl
    | cons item items ih =>
      rw [List.flatMap_cons, ← ih, List.filter_cons]
      split <;> rfl
  have each : ∀ i x, items[i]? = some x → Accounts (fun i j : Nat => i < j)
      (fun j y => p x = true ∧ j = i ∧ y = x) (if p x = true then [x] else []) := fun i x _ => single _ i x
  rw [parts]
  apply (flatMap each ?_).congr
  · intro i x
    constructor
    · rintro ⟨_, _, there, kept, rfl, rfl⟩
      exact ⟨there, kept⟩
    · rintro ⟨there, kept⟩
      exact ⟨i, x, there, kept, rfl, rfl⟩
  · rintro i j x y _ _ _ _ before ⟨-, rfl, -⟩ ⟨-, rfl, -⟩
    exact before

end Accounts
end Attest
