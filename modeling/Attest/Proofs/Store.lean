import Attest.Proofs.Entries
import Attest.Proofs.Hash.Collision
import Attest.Proofs.Order
import Attest.Store

namespace Attest.Store

inductive Call where
  | put (data : Bytes)
  | putAll (items : List Bytes)
deriving DecidableEq, Repr

def Call.contents : Call → List Bytes
  | .put data => [data]
  | .putAll items => items

/-- What a call gives back, and the store behind it. A batch that is refused leaves the store as it is. -/
def answer (s : Store) : Call → Except Merkle.Error String × Store
  | .put data => (.ok (address data), s.put data)
  | .putAll items =>
    match s.putAll items with
    | .ok (root, after) => (.ok root.hex, after)
    | .error error => (.error error, s)

def run (s : Store) (calls : List Call) : Store := calls.foldl (fun s call => (s.answer call).2) s

def stored (calls : List Call) : List Bytes := calls.flatMap Call.contents

/-- The first of the contents that has this address. -/
def firstAt (a : String) (contents : List Bytes) : Option Bytes := contents.find? fun d => address d = a

theorem of_firstAt {a : String} {contents : List Bytes} {data : Bytes}
    (found : firstAt a contents = some data) : data ∈ contents ∧ address data = a := by
  have named := List.find?_some found
  exact ⟨List.mem_of_find?_eq_some found, of_decide_eq_true named⟩

theorem exists_firstAt {contents : List Bytes} {data : Bytes} (member : data ∈ contents) :
    ∃ kept, firstAt (address data) contents = some kept :=
  Option.isSome_iff_exists.mp (List.find?_isSome.mpr ⟨data, member, decide_eq_true rfl⟩)

theorem firstAt_append (a : String) (contents others : List Bytes) :
    firstAt a (contents ++ others) = (firstAt a contents).or (firstAt a others) :=
  List.find?_append

theorem firstAt_singleton (a : String) (data : Bytes) :
    firstAt a [data] = if address data = a then some data else none := by
  simp [firstAt]

theorem get?_put (s : Store) (data : Bytes) (a : String) :
    (s.put data).get? a = (s.get? a).or (firstAt a [data]) := by
  rw [firstAt_singleton]
  by_cases there : s.contains (address data) = true
  · rw [put, if_pos there]
    rcases Option.isSome_iff_exists.mp there with ⟨kept, found⟩
    by_cases here : address data = a
    · have known : s.get? a = some kept := here ▸ found
      rw [known, Option.some_or]
    · rw [if_neg here, Option.or_none]
  · rw [put, if_neg there]
    have fresh : s.get? (address data) = none := Option.not_isSome_iff_eq_none.mp there
    by_cases here : address data = a
    · subst here
      rw [fresh, if_pos rfl, Option.none_or]
      exact Entries.get?_insert_self _ _ _
    · rw [if_neg here, Option.or_none]
      exact Entries.get?_insert_of_ne (Ne.symm here) _ _

theorem get?_foldl_put (items : List Bytes) (s : Store) (a : String) :
    (items.foldl put s).get? a = (s.get? a).or (firstAt a items) := by
  induction items generalizing s with
  | nil => exact Option.or_none.symm
  | cons data items ih =>
    rw [List.foldl_cons, ih, get?_put, Option.or_assoc, ← firstAt_append, List.singleton_append]

def Sorted (s : Store) : Prop := Entries.Ascending s.contents.entries

theorem Sorted.put {s : Store} (sorted : s.Sorted) (data : Bytes) : (s.put data).Sorted := by
  unfold Store.put
  split
  · exact sorted
  · exact Entries.Ascending.insert sorted

theorem Sorted.foldl_put {s : Store} (sorted : s.Sorted) (items : List Bytes) :
    (items.foldl Store.put s).Sorted := by
  induction items generalizing s with
  | nil => exact sorted
  | cons data items ih => exact ih (sorted.put data)

theorem Sorted.ext {s t : Store} (sorted : s.Sorted) (otherSorted : t.Sorted)
    (same : ∀ a, s.get? a = t.get? a) : s = t := by
  have contents : s.contents = t.contents := KeyMap.ext_get? sorted otherSorted same
  cases s
  cases t
  exact congrArg mk contents

theorem putAll_nil (s : Store) : s.putAll [] = .error .emptyTree := rfl

theorem putAll_of_ne_nil (s : Store) {items : List Bytes} (some : items ≠ []) :
    ∃ tree, Merkle.Tree.ofContents items = .ok tree ∧
      s.putAll items = .ok (tree.root, items.foldl put s) := by
  have leaves : items.map Digest.hash ≠ [] := fun none => some (List.map_eq_nil_iff.mp none)
  have grown := Merkle.Tree.ofContents_eq_grow leaves
  refine ⟨_, grown, ?_⟩
  rw [putAll, grown]
  rfl

theorem answer_snd (s : Store) (call : Call) : (s.answer call).2 = call.contents.foldl put s := by
  cases call with
  | put data => rfl
  | putAll items =>
    by_cases none : items = []
    · subst none
      rw [answer, putAll_nil]
      rfl
    · rcases s.putAll_of_ne_nil none with ⟨tree, -, done⟩
      rw [answer, done]
      rfl

theorem run_eq_foldl_put (calls : List Call) (s : Store) : s.run calls = (stored calls).foldl put s := by
  induction calls generalizing s with
  | nil => rfl
  | cons call calls ih =>
    have first : s.run (call :: calls) = (s.answer call).2.run calls := rfl
    rw [first, ih, answer_snd, stored, stored, List.flatMap_cons, List.foldl_append]

theorem get?_run (s : Store) (calls : List Call) (a : String) :
    (s.run calls).get? a = (s.get? a).or (firstAt a (stored calls)) := by
  rw [run_eq_foldl_put, get?_foldl_put]

theorem get?_run_empty (calls : List Call) (a : String) :
    (empty.run calls).get? a = firstAt a (stored calls) := by
  rw [get?_run]
  rfl

theorem sorted_run (calls : List Call) : (empty.run calls).Sorted := by
  have sorted : empty.Sorted := List.Pairwise.nil
  rw [run_eq_foldl_put]
  exact sorted.foldl_put _

/-- What the answers to questions about a store have to do with one another. -/
structure Coherent (s : Store) : Prop where
  addressed : ∀ a data, s.get? a = some data → address data = a
  contains_iff : ∀ a, s.contains a = true ↔ ∃ data, s.get? a = some data
  mem_addresses : ∀ a, a ∈ s.addresses ↔ ∃ data, s.get? a = some data
  ascending : s.addresses.Pairwise (· < ·)
  sorted : ∀ found : List String, found.Nodup → (∀ a, a ∈ found ↔ ∃ data, s.get? a = some data) →
    sortTexts found = s.addresses ∧ found.length = s.size
  size_eq : s.size = s.addresses.length
  isEmpty_iff : s.isEmpty = true ↔ s.addresses = []

theorem mem_addresses_iff {s : Store} {a : String} : a ∈ s.addresses ↔ ∃ data, s.get? a = some data :=
  Entries.mem_keys_iff

theorem size_eq_length (s : Store) : s.size = s.addresses.length := (List.length_map _).symm

theorem Sorted.sortTexts_eq {s : Store} (sorted : s.Sorted) {found : List String} (distinct : found.Nodup)
    (kept : ∀ a, a ∈ found ↔ ∃ data, s.get? a = some data) :
    sortTexts found = s.addresses ∧ found.length = s.size := by
  have members (a : String) : a ∈ found ↔ a ∈ s.addresses := (kept a).trans mem_addresses_iff.symm
  rw [size_eq_length]
  exact Attest.sortTexts_eq distinct sorted members

theorem coherent_run (calls : List Call) : (empty.run calls).Coherent where
  addressed a data found := by
    rw [get?_run_empty] at found
    exact (of_firstAt found).2
  contains_iff _ := Option.isSome_iff_exists
  mem_addresses _ := mem_addresses_iff
  ascending := sorted_run calls
  sorted _ distinct kept := (sorted_run calls).sortTexts_eq distinct kept
  size_eq := size_eq_length _
  isEmpty_iff := List.isEmpty_iff.trans List.map_eq_nil_iff.symm

section

variable {contents others : List Bytes}

theorem firstAt_address {data : Bytes} (member : data ∈ contents) :
    firstAt (address data) contents = some data ∨ Collision contents := by
  rcases exists_firstAt member with ⟨kept, found⟩
  rcases of_firstAt found with ⟨there, named⟩
  by_cases same : kept = data
  · rw [found, same]
    exact .inl rfl
  · have hashed : Digest.hash kept = Digest.hash data := Digest.hex_injective named
    exact .inr ⟨kept, there, data, member, same, hashed⟩

theorem firstAt_eq_some_iff (free : ¬ Collision contents) (a : String) (data : Bytes) :
    firstAt a contents = some data ↔ data ∈ contents ∧ address data = a := by
  constructor
  · exact of_firstAt
  · intro there
    rcases there with ⟨member, rfl⟩
    exact (firstAt_address member).resolve_right free

theorem firstAt_congr (free : ¬ Collision contents) (same : ∀ data, data ∈ others ↔ data ∈ contents)
    (a : String) : firstAt a others = firstAt a contents := by
  have otherFree : ¬ Collision others :=
    fun collision => free (collision.mono fun data member => (same data).mp member)
  apply Option.ext
  intro data
  rw [firstAt_eq_some_iff otherFree, firstAt_eq_some_iff free, same]

end

theorem mem_stored_congr {calls others : List Call} (same : ∀ call, call ∈ others ↔ call ∈ calls)
    (data : Bytes) : data ∈ stored others ↔ data ∈ stored calls := by
  simp only [stored, List.mem_flatMap, same]

theorem get?_run_putAll_iff (calls : List Call) {items : List Bytes}
    (free : ¬ Collision (stored calls ++ items)) (a : String) (data : Bytes) :
    ((empty.run calls).run [.putAll items]).get? a = some data ↔
      (empty.run calls).get? a = some data ∨ data ∈ items ∧ address data = a := by
  have fewer : ¬ Collision (stored calls) :=
    fun found => free (found.mono (List.subset_append_left _ _))
  have added : stored [.putAll items] = items := List.append_nil items
  rw [get?_run, get?_run_empty, added, ← firstAt_append, firstAt_eq_some_iff free,
    firstAt_eq_some_iff fewer, List.mem_append, or_and_right]

theorem run_congr {calls others : List Call} (free : ¬ Collision (stored calls))
    (same : ∀ call, call ∈ others ↔ call ∈ calls) : empty.run others = empty.run calls := by
  apply (sorted_run others).ext (sorted_run calls)
  intro a
  rw [get?_run_empty, get?_run_empty]
  exact firstAt_congr free (mem_stored_congr same) a

/-- Whatever calls it answered, a store is coherent and has all that was stored; what it has stays. An
empty batch is refused. Any other gives the root of the tree over its items, and adds these and no more.
And the same calls in another order, or again, leave the same store. Wherever a content is named, the
alternative is that two of the contents collide. -/
theorem history_is_kept (calls : List Call) :
    let s := empty.run calls
    s.Coherent ∧
    (∀ data ∈ stored calls, s.get? (address data) = some data ∨ Collision (stored calls)) ∧
    (∀ a data later, s.get? a = some data → (s.run later).get? a = some data) ∧
    (∀ data, s.answer (.put data) = (.ok (address data), s.run [.put data])) ∧
    s.answer (.putAll []) = (.error .emptyTree, s) ∧
    (∀ items, items ≠ [] → ∃ tree, Merkle.Tree.ofContents items = .ok tree ∧
      s.answer (.putAll items) = (.ok tree.root.hex, s.run [.putAll items]) ∧
      ((∀ a data, (s.run [.putAll items]).get? a = some data ↔
          s.get? a = some data ∨ data ∈ items ∧ address data = a) ∨
        Collision (stored calls ++ items))) ∧
    ∀ others, (∀ call, call ∈ others ↔ call ∈ calls) →
      empty.run others = s ∨ Collision (stored calls) := by
  intro s
  refine ⟨coherent_run calls, ?_, ?_, fun data => rfl, rfl, ?_, ?_⟩
  · intro data member
    rw [get?_run_empty]
    exact firstAt_address member
  · intro a data later found
    rw [get?_run, found, Option.some_or]
  · intro items some
    rcases s.putAll_of_ne_nil some with ⟨tree, grown, done⟩
    have after : s.run [.putAll items] = items.foldl put s := s.answer_snd (.putAll items)
    refine ⟨tree, grown, by rw [after, answer, done], ?_⟩
    by_cases collision : Collision (stored calls ++ items)
    · exact .inr collision
    · exact .inl (get?_run_putAll_iff calls collision)
  · intro others same
    by_cases collision : Collision (stored calls)
    · exact .inr collision
    · exact .inl (run_congr collision same)

theorem history_is_kept_reordered :
    let calls : List Call := [.put [1], .putAll [], .putAll [[2], [1]]]
    let others : List Call := [.putAll [[2], [1]], .put [1], .put [1], .putAll []]
    (empty.run calls).get? (address [2]) = some [2] ∧ empty.run others = empty.run calls := by
  intro calls others
  rcases history_is_kept calls with ⟨-, retrieved, -, -, -, -, reordered⟩
  have free : ¬ Collision (stored calls) := by decide +kernel
  have same : ∀ call, call ∈ others ↔ call ∈ calls := by
    intro call
    simp only [calls, others, List.mem_cons, List.not_mem_nil, or_false]
    grind
  constructor
  · exact (retrieved [2] (by decide)).resolve_right free
  · exact (reordered others same).resolve_right free

end Attest.Store
