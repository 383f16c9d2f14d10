import Attest.Proofs.Entries
import Attest.Proofs.Order
import Mathlib.Data.List.Dedup

namespace Attest.Entries

variable {α β : Type}

/-- Two lists of entries taken apart from the front, a key that only one of them begins with first. -/
theorem merge_induction {motive : List (String × α) → List (String × β) → Prop} (nil : motive [] [])
    (left : ∀ key a as bs, (∀ entry ∈ bs.head?, key < entry.1) → motive as bs → motive ((key, a) :: as) bs)
    (right : ∀ key b as bs, (∀ entry ∈ as.head?, key < entry.1) → motive as bs → motive as ((key, b) :: bs))
    (both : ∀ key a b as bs, motive as bs → motive ((key, a) :: as) ((key, b) :: bs))
    (as : List (String × α)) (bs : List (String × β)) : motive as bs := by
  induction as generalizing bs with
  | nil =>
    induction bs with
    | nil => exact nil
    | cons entry bs ih => exact right _ _ _ _ (by simp) ih
  | cons entry as ih =>
    induction bs with
    | nil => exact left _ _ _ _ (by simp) (ih [])
    | cons other bs ihRight =>
      obtain ⟨key, a⟩ := entry
      obtain ⟨name, b⟩ := other
      rcases lt_trichotomy key name with before | rfl | after
      · exact left _ _ _ _ (by simpa using before) (ih _)
      · exact both _ _ _ _ _ (ih bs)
      · exact right _ _ _ _ (by simpa using after) ihRight

def eitherKeys (as : List (String × α)) (bs : List (String × β)) : List String :=
  (sortTexts (keys as ++ keys bs)).dedup

theorem mem_eitherKeys {as : List (String × α)} {bs : List (String × β)} {key : String} :
    key ∈ eitherKeys as bs ↔ key ∈ keys as ∨ key ∈ keys bs := by
  rw [eitherKeys, List.mem_dedup, sortTexts, Comparator.sort, List.mem_mergeSort, List.mem_append]

theorem pairwise_eitherKeys (as : List (String × α)) (bs : List (String × β)) :
    (eitherKeys as bs).Pairwise (· < ·) := by
  have sorted := pairwise_sort_onText id (keys as ++ keys bs)
  have weak : (eitherKeys as bs).Pairwise (· ≤ ·) := sorted.sublist (List.dedup_sublist _)
  have distinct : (eitherKeys as bs).Pairwise (· ≠ ·) := List.nodup_dedup _
  exact (weak.and distinct).imp fun both => lt_of_le_of_ne both.1 both.2

theorem eitherKeys_eq {as : List (String × α)} {bs : List (String × β)} {names : List String}
    (ordered : names.Pairwise (· < ·)) (same : ∀ key, key ∈ names ↔ key ∈ keys as ∨ key ∈ keys bs) :
    eitherKeys as bs = names := by
  have members : ∀ key, key ∈ eitherKeys as bs ↔ key ∈ names := by
    intro key
    rw [same, mem_eitherKeys]
  have distinct {texts : List String} (ordered : texts.Pairwise (· < ·)) : texts.Nodup :=
    ordered.imp fun before => ne_of_lt before
  have walk := pairwise_eitherKeys as bs
  have perm : (eitherKeys as bs).Perm names :=
    (List.perm_ext_iff_of_nodup (distinct walk) (distinct ordered)).mpr members
  apply perm.eq_of_pairwise _ walk ordered
  intro key other _ _ before after
  exact absurd before (lt_asymm after)

theorem eitherKeys_first {as as' : List (String × α)} {bs bs' : List (String × β)} {key : String}
    (belowLeft : ∀ name ∈ keys as, key < name) (belowRight : ∀ name ∈ keys bs, key < name)
    (names : ∀ name, name = key ∨ name ∈ keys as ∨ name ∈ keys bs ↔ name ∈ keys as' ∨ name ∈ keys bs') :
    eitherKeys as' bs' = key :: eitherKeys as bs := by
  apply eitherKeys_eq
  · apply List.pairwise_cons.mpr
    refine ⟨fun name named => ?_, pairwise_eitherKeys as bs⟩
    exact (mem_eitherKeys.mp named).elim (belowLeft name) (belowRight name)
  · intro name
    rw [← names, List.mem_cons, mem_eitherKeys]

theorem Ascending.below_head? {key : String} {entries : List (String × α)} (ascending : Ascending entries)
    (first : ∀ entry ∈ entries.head?, key < entry.1) : ∀ name ∈ keys entries, key < name := by
  intro name named
  cases entries with
  | nil => cases named
  | cons head rest =>
    have before : key < head.1 := first head rfl
    rcases List.mem_cons.mp named with rfl | later
    · exact before
    · exact String.lt_trans before ((List.pairwise_cons.mp ascending).1 name later)

theorem get?_cons_self (key : String) (value : α) (entries : List (String × α)) :
    get? key ((key, value) :: entries) = some value := by
  rw [get?, if_pos rfl]

theorem get?_cons_of_lt {key name : String} (value : α) (before : key < name) (entries : List (String × α)) :
    get? name ((key, value) :: entries) = get? name entries := by
  have other : name ≠ key := fun same => String.lt_irrefl key (same ▸ before)
  rw [get?, if_neg other]

end Attest.Entries
