import Mathlib.Data.List.Nodup
import Mathlib.Data.List.Perm.Basic
import Mathlib.Logic.Function.Iterate
import Attest.Random

namespace Attest.Random

variable {α β : Type}

def step (r : Random) : Random := r.next.2

def after (n : Nat) (r : Random) : Random := step^[n] r

theorem after_succ (n : Nat) (r : Random) : r.after (n + 1) = r.step.after n :=
  Function.iterate_succ_apply step n r

def draws (n : Nat) (r : Random) : List UInt32 := (take next n r).1

theorem draws_succ (n : Nat) (r : Random) : r.draws (n + 1) = r.next.1 :: r.step.draws n := rfl

theorem length_draws (n : Nat) (r : Random) : (r.draws n).length = n := by
  induction n generalizing r with
  | zero => rfl
  | succ n ih => rw [draws_succ, List.length_cons, ih]

/-- A place for each place from the last one down to the second, and none is behind the one it is for. -/
def Places : List Nat → Prop
  | [] => True
  | j :: js => j ≤ js.length + 1 ∧ Places js

def chosen : List UInt32 → List Nat
  | [] => []
  | u :: us => min (below u (us.length + 2)) (us.length + 1) :: chosen us

theorem length_chosen (us : List UInt32) : (chosen us).length = us.length := by
  induction us with
  | nil => rfl
  | cons u us ih => rw [chosen, List.length_cons, List.length_cons, ih]

theorem places_chosen (us : List UInt32) : Places (chosen us) := by
  induction us with
  | nil => trivial
  | cons u us ih =>
    refine ⟨?_, ih⟩
    rw [length_chosen]
    exact Nat.min_le_right _ _

/-- Exchanges each item from the last one down to the second with the one at its place. -/
def arrange : List Nat → List α → List α
  | [], items => items
  | j :: js, items => arrange js (items.swap (js.length + 1) j)

theorem arrange_perm (js : List Nat) (items : List α) : (arrange js items).Perm items := by
  induction js generalizing items with
  | nil => exact .refl items
  | cons j js ih => exact (ih _).trans (List.swap_perm items _ j)

theorem map_swap (f : α → β) (items : List α) (i j : Nat) :
    (items.map f).swap i j = (items.swap i j).map f := by
  rw [List.swap_eq, List.swap_eq]
  by_cases inside : i < items.length ∧ j < items.length
  · have mapped : i < (items.map f).length ∧ j < (items.map f).length := by simpa using inside
    rw [dif_pos inside, dif_pos mapped]
    simp only [List.getElem_map, List.map_set]
  · have mapped : ¬ (i < (items.map f).length ∧ j < (items.map f).length) := by simpa using inside
    rw [dif_neg inside, dif_neg mapped]

theorem arrange_map (f : α → β) (js : List Nat) (items : List α) :
    arrange js (items.map f) = (arrange js items).map f := by
  induction js generalizing items with
  | nil => rfl
  | cons j js ih => rw [arrange, arrange, map_swap, ih]

theorem drop_swap {items : List α} {i j k : Nat} (left : i < k) (right : j < k) :
    (items.swap i j).drop k = items.drop k := by
  apply List.ext_getElem
  · simp
  · intro n before after
    rw [List.getElem_drop, List.getElem_drop, List.getElem_swap_of_ne (by omega) (by omega)]

theorem drop_arrange {js : List Nat} (places : Places js) (items : List α) :
    (arrange js items).drop (js.length + 1) = items.drop (js.length + 1) := by
  induction js generalizing items with
  | nil => rfl
  | cons j js ih =>
    obtain ⟨near, places⟩ := places
    have rest := congrArg (List.drop 1) (ih places (items.swap (js.length + 1) j))
    rw [List.drop_drop, List.drop_drop] at rest
    rw [arrange, List.length_cons, rest]
    exact drop_swap (by omega) (by omega)

theorem getElem?_arrange_cons {j : Nat} {js : List Nat} {items : List α} (places : Places (j :: js))
    (inside : js.length + 1 < items.length) :
    (arrange (j :: js) items)[js.length + 1]? = items[j]? := by
  obtain ⟨near, places⟩ := places
  have settled := congrArg (fun rest : List α => rest[0]?) (drop_arrange places (items.swap (js.length + 1) j))
  have behind : j < items.length := by omega
  simp only [List.getElem?_drop, Nat.add_zero] at settled
  rw [arrange, settled, List.getElem?_eq_getElem (by simpa using inside), List.getElem?_eq_getElem behind,
    List.getElem_swap_left_of_lt behind]

theorem arrange_inj {js ks : List Nat} {items : List α} (distinct : items.Nodup) (places : Places js)
    (others : Places ks) (lengths : js.length = ks.length) (inside : js.length < items.length)
    (same : arrange js items = arrange ks items) : js = ks := by
  induction js generalizing ks items with
  | nil => exact (List.length_eq_zero_iff.mp lengths.symm).symm
  | cons j js ih =>
    cases ks with
    | nil => cases lengths
    | cons k ks =>
      have shorter : js.length = ks.length := Nat.succ.inj lengths
      have inside : js.length + 1 < items.length := inside
      have first : items[j]? = items[k]? := by
        rw [← getElem?_arrange_cons places inside, ← getElem?_arrange_cons others (shorter ▸ inside), same, shorter]
      have near : j ≤ js.length + 1 := places.1
      obtain rfl : j = k := (List.getElem?_inj (by omega) distinct).mp first
      have moved : (items.swap (js.length + 1) j).Nodup := (List.swap_perm items _ j).nodup_iff.mpr distinct
      rw [arrange, arrange, ← shorter] at same
      rw [ih moved places.2 others.2 shorter (by simpa using Nat.lt_of_succ_lt inside) same]

theorem exists_place {n : Nat} {items target : List α} (same : target.Perm items) (inside : n < target.length)
    (settled : target.drop (n + 1) = items.drop (n + 1)) :
    ∃ j, ∃ behind : j < items.length, j ≤ n ∧ items[j] = target[n] := by
  have taken : (target.take (n + 1)).Perm (items.take (n + 1)) := by
    rw [← List.take_append_drop (n + 1) target, ← List.take_append_drop (n + 1) items, settled] at same
    exact (List.perm_append_right_iff _).mp same
  have last : target[n] ∈ items.take (n + 1) :=
    taken.mem_iff.mp (List.mem_take_iff_getElem.mpr ⟨n, by omega, rfl⟩)
  obtain ⟨j, near, found⟩ := List.mem_take_iff_getElem.mp last
  exact ⟨j, by omega, by omega, found⟩

theorem exists_places {n : Nat} {items target : List α} (same : target.Perm items) (inside : n < target.length)
    (settled : target.drop (n + 1) = items.drop (n + 1)) :
    ∃ js, Places js ∧ js.length = n ∧ arrange js items = target := by
  have lengths := same.length_eq
  obtain ⟨j, behind, near, found⟩ := exists_place same inside settled
  induction n generalizing items j with
  | zero =>
    obtain rfl : j = 0 := Nat.le_zero.mp near
    have whole : items.drop 0 = target.drop 0 := by
      rw [List.drop_eq_getElem_cons behind, List.drop_eq_getElem_cons inside, settled, found]
    exact ⟨[], trivial, rfl, whole⟩
  | succ n ih =>
    -- The last item that is not settled goes to its place, and one place less is left to settle.
    have moved : target.Perm (items.swap (n + 1) j) := same.trans (List.swap_perm items _ _).symm
    have kept : target.drop (n + 1) = (items.swap (n + 1) j).drop (n + 1) := by
      have before : n + 1 < (items.swap (n + 1) j).length := by rw [List.length_swap]; omega
      rw [List.drop_eq_getElem_cons inside, List.drop_eq_getElem_cons before, settled,
        drop_swap (by omega) (by omega), List.getElem_swap_left_of_lt behind, found]
    obtain ⟨k, within, close, here⟩ := exists_place moved (by omega) kept
    obtain ⟨js, places, length, arranged⟩ := ih moved (by omega) kept moved.length_eq k within close here
    refine ⟨j :: js, ⟨by omega, places⟩, by rw [List.length_cons, length], ?_⟩
    rw [arrange, length, arranged]

theorem toList_swapIfInBounds (items : Array α) (i j : Nat) :
    (items.swapIfInBounds i j).toList = items.toList.swap i j := by
  rw [Array.swapIfInBounds_def, List.swap_eq]
  by_cases left : i < items.size
  · by_cases right : j < items.size
    · rw [dif_pos left, dif_pos right, dif_pos ⟨left, right⟩, Array.toList_swap]
      rfl
    · rw [dif_pos left, dif_neg right, dif_neg fun both => right both.2]
  · rw [dif_neg left, dif_neg fun both => left both.1]

theorem shuffleFrom_eq (i : Nat) (items : Array α) (r : Random) :
    (shuffleFrom next i items r).1.toList = arrange (chosen (r.draws i)) items.toList ∧
      (shuffleFrom next i items r).2 = r.after i := by
  induction i generalizing items r with
  | zero => exact ⟨rfl, rfl⟩
  | succ i ih =>
    rw [shuffleFrom, draws_succ, after_succ, chosen, arrange, length_chosen, length_draws,
      ← toList_swapIfInBounds]
    exact ih _ r.step

theorem shuffle_eq (items : List α) (r : Random) :
    shuffle items r = (arrange (chosen (r.draws (items.length - 1))) items, r.after (items.length - 1)) := by
  obtain ⟨arranged, later⟩ := shuffleFrom_eq (items.length - 1) items.toArray r
  exact Prod.ext arranged later

theorem exists_unique_places {items target : List α} (distinct : items.Nodup) (same : target.Perm items) :
    ∃! js, Places js ∧ js.length = items.length - 1 ∧ arrange js items = target := by
  cases items with
  | nil =>
    refine ⟨[], ⟨trivial, rfl, same.eq_nil.symm⟩, ?_⟩
    rintro js ⟨-, none, -⟩
    exact List.length_eq_zero_iff.mp none
  | cons item items =>
    have lengths := same.length_eq
    rw [List.length_cons] at lengths
    have settled : target.drop (items.length + 1) = (item :: items).drop (items.length + 1) := by
      have none : (item :: items).drop (items.length + 1) = [] := List.drop_length
      rw [none, List.drop_of_length_le (Nat.le_of_eq lengths)]
    obtain ⟨js, places, length, arranged⟩ := exists_places same (by omega) settled
    refine ⟨js, ⟨places, length, arranged⟩, ?_⟩
    rintro ks ⟨others, otherLength, otherArranged⟩
    have inside : ks.length < (item :: items).length := by rw [otherLength]; exact Nat.lt_succ_self _
    exact arrange_inj distinct others places (otherLength.trans length.symm) inside
      (otherArranged.trans arranged.symm)

/-- A shuffle has the same items in another order and takes a draw for each item but the first. It treats items
alike, whatever they are: each draw chooses the place that one item is exchanged with. Of the choices that are
possible each leads to an arrangement of its own, and together they lead to all. -/
theorem shuffle_arranges_by_draws (r : Random) (items : List α) :
    (shuffle items r).1.Perm items ∧
    (shuffle items r).2 = r.after (items.length - 1) ∧
    (∀ {β : Type} (f : α → β), shuffle (items.map f) r = ((shuffle items r).1.map f, (shuffle items r).2)) ∧
    (shuffle items r).1 = arrange (chosen (r.draws (items.length - 1))) items ∧
    Places (chosen (r.draws (items.length - 1))) ∧
    (items.Nodup → ∀ target, target.Perm items →
      ∃! js, Places js ∧ js.length = items.length - 1 ∧ arrange js items = target) := by
  refine ⟨?_, ?_, ?_, ?_, places_chosen _, fun distinct target => exists_unique_places distinct⟩
  · rw [shuffle_eq]
    exact arrange_perm _ items
  · rw [shuffle_eq]
  · intro β f
    rw [shuffle_eq, shuffle_eq, List.length_map, arrange_map]
  · rw [shuffle_eq]

theorem shuffle_arranges_by_draws_eight :
    let items := [1, 2, 3, 4, 5, 6, 7, 8]
    let shuffled := [5, 2, 3, 8, 6, 7, 1, 4]
    items.Nodup ∧ (shuffle items (ofSeed "shuffle")).1 = shuffled ∧
      ∃! js, Places js ∧ js.length = 7 ∧ arrange js items = shuffled := by
  intro items shuffled
  have distinct : items.Nodup := by decide
  have result : (shuffle items (ofSeed "shuffle")).1 = shuffled := by decide +kernel
  obtain ⟨same, -, -, -, -, unique⟩ := shuffle_arranges_by_draws (ofSeed "shuffle") items
  exact ⟨distinct, result, unique distinct shuffled (result ▸ same)⟩

end Attest.Random
