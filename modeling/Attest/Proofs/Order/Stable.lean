import Attest.Proofs.Order.Consistent
import Mathlib.Data.List.Basic

namespace Attest.Comparator

variable {α : Type} {c d : Comparator α}

def alike (c : Comparator α) (a b : α) : Bool := c a b == .eq

theorem alike_iff {a b : α} : c.alike a b = true ↔ c a b = .eq := beq_iff_eq

theorem alike_self [Std.TransCmp c] (a : α) : c.alike a a = true := alike_iff.mpr Std.ReflCmp.compare_self

theorem alike_compareLex (a b : α) : alike (compareLex c d) a b = (c.alike a b && d.alike a b) := by
  rw [Bool.eq_iff_iff, Bool.and_eq_true, alike_iff, alike_iff, alike_iff, compareLex, Ordering.then_eq_eq]

theorem alike_chain (cs : List (Comparator α)) (a b : α) :
    (chain cs).alike a b = cs.all fun c => c.alike a b := by
  induction cs with
  | nil => rfl
  | cons c cs ih => rw [List.all_cons, ← ih, chain_cons, alike_compareLex]

theorem perm_sort (c : Comparator α) (items : List α) : (c.sort items).Perm items :=
  List.mergeSort_perm items _

theorem ne_gt_trans [Std.TransCmp c] (a b d : α) (before : (c a b != .gt) = true)
    (after : (c b d != .gt) = true) : (c a d != .gt) = true := by
  rw [bne_iff_ne, ne_eq, ← Ordering.isLE_iff_ne_gt] at *
  exact Std.TransCmp.isLE_trans before after

theorem ne_gt_total [Std.TransCmp c] (a b : α) : (c a b != .gt || c b a != .gt) = true := by
  have back : c b a = (c a b).swap := Std.OrientedCmp.eq_swap
  rw [back]
  cases c a b <;> rfl

theorem pairwise_sort (c : Comparator α) [Std.TransCmp c] (items : List α) :
    (c.sort items).Pairwise fun a b => c a b ≠ .gt := by
  have sorted : (c.sort items).Pairwise fun a b => (c a b != .gt) = true :=
    List.pairwise_mergeSort ne_gt_trans ne_gt_total items
  exact sorted.imp bne_iff_ne.mp

def SameClasses (c : Comparator α) (l m : List α) : Prop := ∀ a, l.filter (c.alike a) = m.filter (c.alike a)

theorem sameClasses_sort (c : Comparator α) [Std.TransCmp c] (items : List α) :
    SameClasses c (c.sort items) items := by
  intro a
  have even : (items.filter (c.alike a)).Pairwise fun b d => (c b d != .gt) = true := by
    apply List.pairwise_of_forall_mem_list
    intro b first d second
    have left := alike_iff.mp (List.mem_filter.mp first).2
    have right := alike_iff.mp (List.mem_filter.mp second).2
    have equal : c b d = .eq := Std.TransCmp.eq_trans (Std.OrientedCmp.eq_symm left) right
    rw [equal]
    rfl
  have kept : (items.filter (c.alike a)).Sublist (c.sort items) :=
    List.sublist_mergeSort ne_gt_trans ne_gt_total even List.filter_sublist
  have inner := kept.filter (c.alike a)
  simp only [List.filter_filter, Bool.and_self] at inner
  have lengths := ((perm_sort c items).filter (c.alike a)).length_eq
  exact (inner.eq_of_length lengths.symm).symm

section

variable [Std.TransCmp c] {l m : List α}

theorem SameClasses.mem (same : SameClasses c l m) {a : α} (there : a ∈ l) : a ∈ m := by
  have own : a ∈ l.filter (c.alike a) := List.mem_filter.mpr ⟨there, alike_self a⟩
  rw [same a] at own
  exact List.mem_of_mem_filter own

theorem isLE_of_mem {x y : α} (sorted : (x :: l).Pairwise fun a b => c a b ≠ .gt) (there : y ∈ x :: l) :
    (c x y).isLE := by
  rcases List.mem_cons.mp there with rfl | behind
  · have equal : c y y = .eq := Std.ReflCmp.compare_self
    rw [equal]
    rfl
  · exact Ordering.isLE_iff_ne_gt.mpr ((List.pairwise_cons.mp sorted).1 y behind)

theorem SameClasses.eq (same : SameClasses c l m) (left : l.Pairwise fun a b => c a b ≠ .gt)
    (right : m.Pairwise fun a b => c a b ≠ .gt) : l = m := by
  induction l generalizing m with
  | nil =>
    have back : SameClasses c m [] := fun a => (same a).symm
    have none : m = [] := List.eq_nil_iff_forall_not_mem.mpr fun a there => List.not_mem_nil (back.mem there)
    exact none.symm
  | cons x l ih =>
    cases m with
    | nil => exact absurd (same.mem List.mem_cons_self) List.not_mem_nil
    | cons y m =>
      -- Each head is least in both lists, so the two are alike, and both are the first of their class.
      have back : SameClasses c (y :: m) (x :: l) := fun a => (same a).symm
      have equal : c x y = .eq := Std.OrientedCmp.isLE_antisymm
        (isLE_of_mem left (back.mem List.mem_cons_self)) (isLE_of_mem right (same.mem List.mem_cons_self))
      have heads := same x
      rw [List.filter_cons_of_pos (alike_self x), List.filter_cons_of_pos (alike_iff.mpr equal)] at heads
      obtain ⟨rfl, -⟩ := List.cons.inj heads
      have tails : SameClasses c l m := by
        intro a
        have whole := same a
        rw [List.filter_cons, List.filter_cons] at whole
        split at whole
        · exact (List.cons.inj whole).2
        · exact whole
      rw [ih tails left.of_cons right.of_cons]

end

/-- The second comparator decides among what is alike for the first, as sorting by it came before. -/
theorem pairwise_sort_sort [Std.TransCmp c] [Std.TransCmp d] (items : List α) :
    (c.sort (d.sort items)).Pairwise fun a b => compareLex c d a b ≠ .gt := by
  rw [List.pairwise_iff_forall_sublist]
  intro a b there
  have first := List.pairwise_iff_forall_sublist.mp (pairwise_sort c (d.sort items)) there
  cases order : c a b with
  | lt => simp [compareLex, order]
  | gt => exact absurd order first
  | eq =>
    have kept := there.filter (c.alike a)
    rw [sameClasses_sort c, List.filter_cons_of_pos (alike_self a), List.filter_cons_of_pos (alike_iff.mpr order),
      List.filter_nil] at kept
    have before : [a, b].Sublist (d.sort items) := kept.trans List.filter_sublist
    have second := List.pairwise_iff_forall_sublist.mp (pairwise_sort d items) before
    rw [compareLex, order]
    exact second

theorem filter_alike_compareLex (a : α) (items : List α) :
    items.filter (alike (compareLex c d) a) = (items.filter (c.alike a)).filter (d.alike a) := by
  rw [List.filter_filter]
  apply List.filter_congr
  intro b there
  rw [alike_compareLex, Bool.and_comm]

theorem sort_compareLex [Std.TransCmp c] [Std.TransCmp d] (items : List α) :
    sort (compareLex c d) items = c.sort (d.sort items) := by
  have same : SameClasses (compareLex c d) (sort (compareLex c d) items) (c.sort (d.sort items)) := by
    intro a
    calc (sort (compareLex c d) items).filter (alike (compareLex c d) a)
      _ = (items.filter (c.alike a)).filter (d.alike a) := by
        rw [sameClasses_sort _ items a, filter_alike_compareLex]
      _ = ((d.sort items).filter (d.alike a)).filter (c.alike a) := by
        rw [sameClasses_sort d items a, List.filter_comm]
      _ = ((c.sort (d.sort items)).filter (c.alike a)).filter (d.alike a) := by
        rw [sameClasses_sort c (d.sort items) a, List.filter_comm]
      _ = (c.sort (d.sort items)).filter (alike (compareLex c d) a) := (filter_alike_compareLex a _).symm
  exact same.eq (pairwise_sort _ items) (pairwise_sort_sort items)

theorem sort_chain {cs : List (Comparator α)} (lawful : ∀ c ∈ cs, Std.TransCmp c) (items : List α) :
    (chain cs).sort items = cs.foldr sort items := by
  induction cs with
  | nil => exact List.mergeSort_of_pairwise (List.pairwise_of_forall fun a b => rfl)
  | cons c cs ih =>
    obtain ⟨first, others⟩ := List.forall_mem_cons.mp lawful
    have rest := transCmp_chain others
    rw [chain_cons, sort_compareLex, ih others, List.foldr_cons]

theorem chain_singleton (c : Comparator α) : chain [c] = c := by
  funext a b
  exact Ordering.then_eq

end Attest.Comparator

namespace Attest

variable {α : Type}

/-- What records are sorted by: a text or a number in them, and the same backwards. -/
inductive Criterion (α : Type) where
  | text (key : α → String)
  | number (key : α → Double)
  | swapped (criterion : Criterion α)

namespace Criterion

def comparator : Criterion α → Comparator α
  | text key => .onText key
  | number key => .onNumber key
  | swapped criterion => criterion.comparator.swapped

instance transCmp_comparator (criterion : Criterion α) : Std.TransCmp criterion.comparator := by
  induction criterion with
  | text key => exact Comparator.transCmp_onText key
  | number key => exact Comparator.transCmp_onNumber key
  | swapped criterion ih => exact Comparator.transCmp_swapped

/-- Sorting by several criteria keeps every item, puts none behind one that is smaller, and leaves the items
that no criterion tells apart in the order they had. It comes to the same to sort by the last criterion, then
by the one before it, and so on up to the first. -/
theorem sorting_is_stable (criteria : List (Criterion α)) (items : List α) :
    let order := Comparator.chain (criteria.map comparator)
    (order.sort items).Perm items ∧
    (order.sort items).Pairwise (fun before behind => order behind before ≠ .lt) ∧
    (∀ a, (order.sort items).filter (fun b => criteria.all fun criterion => criterion.comparator a b == .eq) =
      items.filter fun b => criteria.all fun criterion => criterion.comparator a b == .eq) ∧
    order.sort items = criteria.foldr (fun criterion => criterion.comparator.sort) items ∧
    (∀ key, sortByText key items = (Comparator.chain [.onText key]).sort items) ∧
    ∀ key, sortByNumber key items = (Comparator.chain [.onNumber key]).sort items := by
  intro order
  have each : ∀ c ∈ criteria.map comparator, Std.TransCmp c := by
    intro c there
    obtain ⟨criterion, -, rfl⟩ := List.mem_map.mp there
    exact transCmp_comparator criterion
  have lawful : Std.TransCmp order := Comparator.transCmp_chain each
  refine ⟨Comparator.perm_sort order items, ?_, ?_, ?_, ?_, ?_⟩
  · apply (Comparator.pairwise_sort order items).imp
    intro before behind ordered less
    exact ordered (Std.OrientedCmp.gt_of_lt less)
  · intro a
    have classes : order.alike a = fun b => criteria.all fun criterion => criterion.comparator a b == .eq := by
      funext b
      rw [Comparator.alike_chain, List.all_map]
      rfl
    rw [← classes]
    exact Comparator.sameClasses_sort order items a
  · rw [Comparator.sort_chain each, List.foldr_map]
  · intro key
    rw [Comparator.chain_singleton]
    rfl
  · intro key
    rw [Comparator.chain_singleton]
    rfl

end Criterion
end Attest
