import Attest.Order
import Attest.Proofs.Number.Compared

namespace Attest.Comparator

variable {α : Type} {c : Comparator α}

/-- What a sort asks of a comparator. Things may be equal without being the same. -/
structure Consistent (c : Comparator α) : Prop where
  refl (a : α) : c a a = .eq
  less_iff_greater (a b : α) : c a b = .lt ↔ c b a = .gt
  lt_trans {a b d : α} : c a b = .lt → c b d = .lt → c a d = .lt
  eq_trans {a b d : α} : c a b = .eq → c b d = .eq → c a d = .eq

namespace Consistent

variable (consistent : c.Consistent) {a b d : α}
include consistent

theorem eq_swap (a b : α) : c a b = (c b a).swap := by
  cases back : c b a with
  | lt => exact (consistent.less_iff_greater b a).mp back
  | gt => exact (consistent.less_iff_greater a b).mpr back
  | eq =>
    cases forth : c a b with
    | eq => rfl
    | lt =>
      have greater := (consistent.less_iff_greater a b).mp forth
      cases back.symm.trans greater
    | gt =>
      have less := (consistent.less_iff_greater b a).mpr forth
      cases back.symm.trans less

theorem eq_symm (equal : c a b = .eq) : c b a = .eq := by
  rw [consistent.eq_swap, equal]
  rfl

theorem lt_of_lt_of_eq (less : c a b = .lt) (equal : c b d = .eq) : c a d = .lt := by
  have back := consistent.eq_symm equal
  cases whole : c a d with
  | lt => rfl
  | eq =>
    have around := consistent.eq_trans whole back
    cases less.symm.trans around
  | gt =>
    have around := consistent.lt_trans ((consistent.less_iff_greater d a).mpr whole) less
    cases back.symm.trans around

theorem transCmp : Std.TransCmp c where
  eq_swap := consistent.eq_swap _ _
  isLE_trans := by
    intro a b d first second
    rw [Ordering.isLE_iff_ne_gt] at *
    intro greater
    have back := (consistent.less_iff_greater d a).mpr greater
    have around : c d b = .lt := by
      cases forth : c a b with
      | lt => exact consistent.lt_trans back forth
      | eq => exact consistent.lt_of_lt_of_eq back forth
      | gt => exact absurd forth first
    exact second ((consistent.less_iff_greater d b).mp around)

end Consistent

theorem consistent_iff : c.Consistent ↔ Std.TransCmp c := by
  constructor
  · exact Consistent.transCmp
  · intro lawful
    exact {
      refl := fun a => Std.ReflCmp.compare_self
      less_iff_greater := fun a b => Std.OrientedCmp.gt_iff_lt.symm
      lt_trans := Std.TransCmp.lt_trans
      eq_trans := Std.TransCmp.eq_trans }

instance transCmp_onText (key : α → String) : Std.TransCmp (onText key) :=
  inferInstanceAs (Std.TransCmp (compareOn key))

theorem onNumber_eq (key : α → Double) : onNumber key = compareOn fun a => (key a).orderKey := by
  funext a b
  exact Double.order_eq_compare (key a) (key b)

instance transCmp_onNumber (key : α → Double) : Std.TransCmp (onNumber key) := by
  rw [onNumber_eq]
  infer_instance

instance transCmp_swapped [Std.TransCmp c] : Std.TransCmp c.swapped :=
  inferInstanceAs (Std.TransCmp fun a b => c b a)

theorem chain_cons (c : Comparator α) (cs : List (Comparator α)) : chain (c :: cs) = compareLex c (chain cs) := rfl

theorem transCmp_chain {cs : List (Comparator α)} (lawful : ∀ c ∈ cs, Std.TransCmp c) :
    Std.TransCmp (chain cs) := by
  induction cs with
  | nil => exact { eq_swap := rfl, isLE_trans := fun _ _ => rfl }
  | cons c cs ih =>
    obtain ⟨first, others⟩ := List.forall_mem_cons.mp lawful
    have rest := ih others
    rw [chain_cons]
    infer_instance

theorem chain_eq_find (cs : List (Comparator α)) (a b : α) :
    chain cs a b = ((cs.map fun c => c a b).find? (· != .eq)).getD .eq := by
  induction cs with
  | nil => rfl
  | cons c cs ih =>
    rw [List.map_cons, List.find?_cons, chain_cons, compareLex]
    cases c a b with
    | eq => exact ih
    | lt => rfl
    | gt => rfl

/-- Doubles compare by the values they stand for, and by their patterns where one of them is a NaN. This is
one consistent order of all patterns, and what is chained from consistent comparators is consistent too. -/
theorem comparison_is_consistent :
    (∀ x y : Double, x.order y = match x.decode.extended?, y.decode.extended? with
      | some a, some b => compare a b
      | _, _ => compare x.patternKey y.patternKey) ∧
    Consistent Double.order ∧
    ∀ {α : Type} (cs : List (Comparator α)), (∀ c ∈ cs, c.Consistent) →
      (chain cs).Consistent ∧ ∀ a b, chain cs a b = ((cs.map fun c => c a b).find? (· != .eq)).getD .eq := by
  refine ⟨Double.order_eq, ?_, ?_⟩
  · have lawful : Std.TransCmp (onNumber id) := transCmp_onNumber id
    exact consistent_iff.mpr lawful
  · intro α cs consistent
    have lawful : Std.TransCmp (chain cs) := transCmp_chain fun c there => consistent_iff.mp (consistent c there)
    exact ⟨consistent_iff.mpr lawful, chain_eq_find cs⟩

/-- Two zeros of different sign are told apart by the names alone, which are compared backwards. -/
theorem comparison_is_consistent_zeros :
    let cs : List (Comparator (String × Double)) := [onNumber Prod.snd, (onText Prod.fst).swapped]
    (∀ c ∈ cs, c.Consistent) ∧ (chain cs).Consistent ∧
      chain cs ("a", ⟨0⟩) ("b", ⟨0x8000000000000000⟩) = .gt := by
  intro cs
  have consistent : ∀ c ∈ cs, c.Consistent := by
    intro c there
    simp only [cs, List.mem_cons, List.not_mem_nil, or_false] at there
    rcases there with rfl | rfl
    · exact consistent_iff.mpr (transCmp_onNumber Prod.snd)
    · exact consistent_iff.mpr transCmp_swapped
  exact ⟨consistent, (comparison_is_consistent.2.2 cs consistent).1, by decide⟩

end Attest.Comparator
