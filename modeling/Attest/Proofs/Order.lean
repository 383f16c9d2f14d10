import Attest.Proofs.Order.Stable
import Mathlib.Data.String.Basic
import Mathlib.Data.List.Sort

namespace Attest

variable {α : Type}

theorem compare_ne_gt_iff (a b : String) : (compare a b != .gt) = true ↔ a ≤ b := by
  rw [bne_iff_ne, ne_eq, compare_gt_iff_gt, not_lt]

theorem pairwise_sort_onText (key : α → String) (items : List α) :
    ((Comparator.onText key).sort items).Pairwise fun a b => key a ≤ key b := by
  have sorted := Comparator.pairwise_sort (.onText key) items
  exact sorted.imp fun before => (compare_ne_gt_iff _ _).mp (bne_iff_ne.mpr before)

theorem sort_onText_eq {key : α → String} {items sorted : List α} (moved : items.Perm sorted)
    (ascending : (sorted.map key).Pairwise (· < ·)) : (Comparator.onText key).sort items = sorted := by
  have nodup : (sorted.map key).Nodup := ascending.imp fun before => ne_of_lt before
  have same : ((Comparator.onText key).sort items).Perm sorted := (Comparator.perm_sort _ items).trans moved
  have weak : sorted.Pairwise fun a b => key a ≤ key b :=
    (List.pairwise_map.mp ascending).imp fun before => le_of_lt before
  apply same.eq_of_pairwise _ (pairwise_sort_onText key items) weak
  intro a b left right before after
  exact List.inj_on_of_nodup_map nodup (same.mem_iff.mp left) right (le_antisymm before after)

theorem sortTexts_eq {found sorted : List String} (distinct : found.Nodup)
    (ascending : sorted.Pairwise (· < ·)) (members : ∀ s, s ∈ found ↔ s ∈ sorted) :
    sortTexts found = sorted ∧ found.length = sorted.length := by
  have nodup : sorted.Nodup := ascending.imp fun before => ne_of_lt before
  have moved : found.Perm sorted := (List.perm_ext_iff_of_nodup distinct nodup).mpr members
  refine ⟨sort_onText_eq moved ?_, moved.length_eq⟩
  rw [List.map_id]
  exact ascending

theorem sortTexts_eq_iff {l m : List String} : sortTexts l = sortTexts m ↔ l.Perm m := by
  have moved (l : List String) : (sortTexts l).Perm l := Comparator.perm_sort _ l
  constructor
  · intro same
    exact (moved l).symm.trans (same ▸ moved m)
  · intro perm
    have both : (sortTexts l).Perm (sortTexts m) := (moved l).trans (perm.trans (moved m).symm)
    apply both.eq_of_pairwise _ (pairwise_sort_onText id l) (pairwise_sort_onText id m)
    intro a b left right before after
    exact le_antisymm before after

end Attest
