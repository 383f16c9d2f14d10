import Attest.KeyMap.Json
import Mathlib.Data.List.Sort

namespace Attest.Entries

variable {α : Type}

theorem mem_of_mem_insert {key : String} {value : α} {entries : List (String × α)}
    {entry : String × α} (member : entry ∈ insert key value entries) :
    entry = (key, value) ∨ entry ∈ entries := by
  induction entries with
  | nil => exact .inl (List.mem_singleton.mp member)
  | cons head rest ih =>
    rw [insert] at member
    split at member
    · exact List.mem_cons.mp member
    · split at member
      · rcases List.mem_cons.mp member with same | member
        · exact .inl same
        · exact .inr (List.mem_cons_of_mem _ member)
      · rcases List.mem_cons.mp member with rfl | member
        · exact .inr List.mem_cons_self
        · exact (ih member).imp_right (List.mem_cons_of_mem _)

theorem Ascending.cons {entry : String × α} {entries : List (String × α)}
    (below : ∀ other ∈ entries, entry.1 < other.1) (ascending : Ascending entries) :
    Ascending (entry :: entries) := by
  refine List.pairwise_cons.mpr ⟨fun key member => ?_, ascending⟩
  obtain ⟨other, there, rfl⟩ := List.mem_map.mp member
  exact below other there

theorem Ascending.head {entry : String × α} {entries : List (String × α)}
    (ascending : Ascending (entry :: entries)) : ∀ other ∈ entries, entry.1 < other.1 :=
  fun _ member => (List.pairwise_cons.mp ascending).1 _ (List.mem_map_of_mem member)

theorem Ascending.tail {entry : String × α} {entries : List (String × α)}
    (ascending : Ascending (entry :: entries)) : Ascending entries :=
  (List.pairwise_cons.mp ascending).2

theorem Ascending.insert {key : String} {value : α} {entries : List (String × α)}
    (ascending : Ascending entries) : Ascending (insert key value entries) := by
  induction entries with
  | nil => exact .cons (fun _ member => nomatch member) .nil
  | cons head rest ih =>
    obtain ⟨k, v⟩ := head
    rw [Entries.insert]
    split
    · rename_i first
      refine .cons (fun other member => ?_) ascending
      rcases List.mem_cons.mp member with rfl | member
      · exact first
      · exact String.lt_trans first (ascending.head other member)
    · rename_i notBefore
      split
      · rename_i same
        subst same
        exact .cons ascending.head ascending.tail
      · rename_i different
        -- The key comes after the head: strings are in linear order.
        have after : k < key := by
          apply Classical.byContradiction
          intro notAfter
          exact different (String.le_antisymm (String.not_lt.mp notAfter) (String.not_lt.mp notBefore))
        refine .cons (fun other member => ?_) (ih ascending.tail)
        rcases mem_of_mem_insert member with rfl | member
        · exact after
        · exact ascending.head other member

theorem ascending_foldl_insert (pairs : List (String × α)) {entries : List (String × α)}
    (ascending : Ascending entries) :
    Ascending (pairs.foldl (fun entries (k, v) => Entries.insert k v entries) entries) := by
  induction pairs generalizing entries with
  | nil => exact ascending
  | cons pair pairs ih => exact ih ascending.insert

theorem ascending_ofList (pairs : List (String × α)) : Ascending (ofList pairs) :=
  ascending_foldl_insert pairs .nil

theorem mem_of_mem_foldl_insert (pairs : List (String × α)) {entries : List (String × α)}
    {entry : String × α}
    (member : entry ∈ pairs.foldl (fun entries (k, v) => Entries.insert k v entries) entries) :
    entry ∈ entries ∨ entry ∈ pairs := by
  induction pairs generalizing entries with
  | nil => exact .inl member
  | cons pair pairs ih =>
    rcases ih member with inserted | later
    · exact (mem_of_mem_insert inserted).elim (fun same => .inr (same ▸ List.mem_cons_self)) .inl
    · exact .inr (List.mem_cons_of_mem _ later)

theorem mem_of_mem_ofList {pairs : List (String × α)} {entry : String × α}
    (member : entry ∈ ofList pairs) : entry ∈ pairs :=
  (mem_of_mem_foldl_insert pairs member).elim (fun none => nomatch none) id

theorem insert_last {key : String} {value : α} {entries : List (String × α)}
    (last : ∀ entry ∈ entries, entry.1 < key) : insert key value entries = entries ++ [(key, value)] := by
  induction entries with
  | nil => rfl
  | cons head rest ih =>
    have before : head.1 < key := last head List.mem_cons_self
    have different : key ≠ head.1 := by
      rintro rfl
      exact String.lt_irrefl _ before
    rw [insert, if_neg (String.lt_asymm before), if_neg different,
      ih fun entry member => last entry (List.mem_cons_of_mem _ member)]
    rfl

theorem foldl_insert_of_ascending (pairs entries : List (String × α))
    (ascending : Ascending (entries ++ pairs)) :
    pairs.foldl (fun entries (k, v) => Entries.insert k v entries) entries = entries ++ pairs := by
  induction pairs generalizing entries with
  | nil => simp
  | cons pair pairs ih =>
    obtain ⟨key, value⟩ := pair
    have last : ∀ entry ∈ entries, entry.1 < key := by
      intro entry member
      rw [Ascending, keys, List.map_append] at ascending
      exact (List.pairwise_append.mp ascending).2.2 _ (List.mem_map_of_mem member) _
        (List.mem_map_of_mem List.mem_cons_self)
    have kept := ih (entries ++ [(key, value)]) (by simpa using ascending)
    rw [List.append_assoc, List.singleton_append, ← insert_last last] at kept
    exact kept

theorem ofList_of_ascending {pairs : List (String × α)} (ascending : Ascending pairs) :
    ofList pairs = pairs :=
  foldl_insert_of_ascending pairs [] ascending

theorem Ascending.erase (key : String) {entries : List (String × α)} (ascending : Ascending entries) :
    Ascending (erase key entries) :=
  List.Pairwise.sublist (List.filter_sublist.map Prod.fst) ascending

theorem mem_of_mem_erase {key : String} {entries : List (String × α)} {entry : String × α}
    (member : entry ∈ erase key entries) : entry ∈ entries :=
  (List.mem_filter.mp member).1

theorem erase_erase_self (key : String) (entries : List (String × α)) :
    erase key (erase key entries) = erase key entries := by
  simp [erase, List.filter_filter]

theorem erase_comm (key other : String) (entries : List (String × α)) :
    erase key (erase other entries) = erase other (erase key entries) := by
  simp only [erase, List.filter_filter, Bool.and_comm]

theorem erase_insert_self (key : String) (value : α) (entries : List (String × α)) :
    erase key (insert key value entries) = erase key entries := by
  induction entries with
  | nil => simp [insert, erase]
  | cons head rest ih =>
    obtain ⟨k, v⟩ := head
    rw [insert]
    split
    · simp [erase]
    · split
      · rename_i same
        simp [erase, same]
      · simp only [erase, List.filter_cons] at ih ⊢
        rw [ih]

theorem get?_insert_self (key : String) (value : α) (entries : List (String × α)) :
    get? key (insert key value entries) = some value := by
  induction entries with
  | nil => simp [insert, get?]
  | cons head rest ih =>
    obtain ⟨k, v⟩ := head
    rw [insert]
    split
    · simp [get?]
    · split
      · simp [get?]
      · rename_i different
        rw [get?, if_neg different, ih]

theorem get?_insert_of_ne {key other : String} (different : other ≠ key) (value : α)
    (entries : List (String × α)) : get? other (insert key value entries) = get? other entries := by
  induction entries with
  | nil => simp [insert, get?, different]
  | cons head rest ih =>
    obtain ⟨k, v⟩ := head
    rw [insert]
    split
    · rw [get?, if_neg different]
    · split
      · rename_i same
        rw [get?, if_neg different, get?, if_neg (same ▸ different)]
      · rw [get?, ih, get?]

theorem get?_filter (p : String → Bool) (key : String) (entries : List (String × α)) :
    get? key (entries.filter fun entry => p entry.1) = if p key then get? key entries else none := by
  induction entries with
  | nil => simp [get?]
  | cons head rest ih =>
    obtain ⟨k, v⟩ := head
    rw [List.filter_cons, get?]
    by_cases same : key = k
    · subst same
      cases chosen : p key with
      | true => simp [get?]
      | false => simp [ih, chosen]
    · cases p k with
      | true => simp [get?, same, ih]
      | false => simp [same, ih]

theorem get?_erase_self (key : String) (entries : List (String × α)) : get? key (erase key entries) = none := by
  have filtered := get?_filter (fun k => k ≠ key) key entries
  rwa [if_neg (by simp)] at filtered

theorem get?_erase_of_ne {key other : String} (different : other ≠ key) (entries : List (String × α)) :
    get? other (erase key entries) = get? other entries := by
  have filtered := get?_filter (fun k => k ≠ key) other entries
  rwa [if_pos (decide_eq_true different)] at filtered

theorem mem_keys_iff {key : String} {entries : List (String × α)} :
    key ∈ keys entries ↔ ∃ value, get? key entries = some value := by
  induction entries with
  | nil => simp [keys, get?]
  | cons head rest ih =>
    obtain ⟨k, v⟩ := head
    rw [get?]
    by_cases same : key = k
    · simp [keys, same]
    · rw [if_neg same, ← ih]
      simp [keys, same]

theorem get?_of_not_mem {key : String} {entries : List (String × α)} (absent : key ∉ keys entries) :
    get? key entries = none :=
  Option.eq_none_iff_forall_ne_some.mpr fun value found => absent (mem_keys_iff.mpr ⟨value, found⟩)

theorem get?_append_of_not_mem {key : String} {front : List (String × α)} (absent : key ∉ keys front)
    (back : List (String × α)) : get? key (front ++ back) = get? key back := by
  induction front with
  | nil => rfl
  | cons head rest ih =>
    obtain ⟨k, v⟩ := head
    obtain ⟨different, others⟩ := not_or.mp (List.mem_cons.not.mp absent)
    rw [List.cons_append, get?, if_neg different, ih others]

theorem mem_of_get? {key : String} {value : α} {entries : List (String × α)}
    (found : get? key entries = some value) : (key, value) ∈ entries := by
  induction entries with
  | nil => cases found
  | cons head rest ih =>
    obtain ⟨k, v⟩ := head
    rw [get?] at found
    split at found
    · rename_i same
      subst same
      exact Option.some.inj found ▸ List.mem_cons_self
    · exact List.mem_cons_of_mem _ (ih found)

theorem get?_eq_some_iff {key : String} {value : α} {entries : List (String × α)}
    (ascending : Ascending entries) : get? key entries = some value ↔ (key, value) ∈ entries := by
  induction entries with
  | nil => simp [get?]
  | cons head rest ih =>
    obtain ⟨k, v⟩ := head
    rw [get?, List.mem_cons, Prod.mk.injEq]
    by_cases same : key = k
    · subst same
      -- The key comes once, so it is not among the entries behind.
      have once : (key, value) ∉ rest := fun later => String.lt_irrefl key (ascending.head (key, value) later)
      simp [once, eq_comm]
    · rw [if_neg same, ih ascending.tail]
      simp [same]

theorem insert_first {key : String} {value : α} {entries : List (String × α)}
    (first : ∀ entry ∈ entries, key < entry.1) : insert key value entries = (key, value) :: entries := by
  cases entries with
  | nil => rfl
  | cons head rest => rw [insert, if_pos (first head List.mem_cons_self)]

theorem filter_insert (p : String → Bool) (key : String) (value : α) {entries : List (String × α)}
    (ascending : Ascending entries) :
    (insert key value entries).filter (fun entry => p entry.1) =
      if p key then insert key value (entries.filter fun entry => p entry.1)
      else entries.filter fun entry => p entry.1 := by
  induction entries with
  | nil => cases chosen : p key <;> simp [insert, chosen]
  | cons head rest ih =>
    obtain ⟨k, v⟩ := head
    rw [insert]
    split
    · rename_i before
      have first : ∀ entry ∈ ((k, v) :: rest).filter fun entry => p entry.1, key < entry.1 := by
        intro entry member
        rcases List.mem_cons.mp (List.mem_of_mem_filter member) with rfl | later
        · exact before
        · exact String.lt_trans before (ascending.head entry later)
      rw [insert_first first, List.filter_cons]
    · rename_i notBefore
      split
      · rename_i same
        subst same
        cases chosen : p key with
        | true => simp [insert, chosen]
        | false => simp [chosen]
      · rename_i different
        rw [List.filter_cons, ih ascending.tail, List.filter_cons]
        cases chosen : p key <;> cases kept : p k <;> simp [insert, notBefore, different]

theorem filter_foldl_insert (p : String → Bool) (pairs : List (String × α))
    {entries : List (String × α)} (ascending : Ascending entries) :
    (pairs.foldl (fun entries (k, v) => Entries.insert k v entries) entries).filter
        (fun entry => p entry.1) =
      (pairs.filter fun entry => p entry.1).foldl (fun entries (k, v) => Entries.insert k v entries)
        (entries.filter fun entry => p entry.1) := by
  induction pairs generalizing entries with
  | nil => rfl
  | cons pair pairs ih =>
    obtain ⟨key, value⟩ := pair
    rw [List.foldl_cons, ih ascending.insert, filter_insert p key value ascending, List.filter_cons]
    cases chosen : p key <;> simp

theorem filter_ofList (p : String → Bool) (pairs : List (String × α)) :
    (ofList pairs).filter (fun entry => p entry.1) = ofList (pairs.filter fun entry => p entry.1) :=
  filter_foldl_insert p pairs .nil

theorem erase_ofList (key : String) (pairs : List (String × α)) :
    erase key (ofList pairs) = ofList (erase key pairs) :=
  filter_ofList (fun k => k ≠ key) pairs

theorem perm_insert {key : String} (value : α) {entries : List (String × α)}
    (absent : key ∉ keys entries) : (insert key value entries).Perm ((key, value) :: entries) := by
  induction entries with
  | nil => exact .refl _
  | cons head rest ih =>
    obtain ⟨k, v⟩ := head
    have different : key ≠ k := fun same => absent (same ▸ List.mem_cons_self)
    rw [insert]
    split
    · exact .refl _
    · exact ((ih fun member => absent (List.mem_cons_of_mem _ member)).cons _).trans (.swap ..)

theorem perm_foldl_insert (pairs entries : List (String × α)) (distinct : (keys (pairs ++ entries)).Nodup) :
    (pairs.foldl (fun entries (k, v) => Entries.insert k v entries) entries).Perm (pairs ++ entries) := by
  induction pairs generalizing entries with
  | nil => exact .refl _
  | cons pair pairs ih =>
    obtain ⟨key, value⟩ := pair
    obtain ⟨absent, others⟩ := List.nodup_cons.mp distinct
    have here : key ∉ keys entries := by
      intro member
      apply absent
      obtain ⟨entry, there, rfl⟩ := List.mem_map.mp member
      exact List.mem_map.mpr ⟨entry, List.mem_append_right pairs there, rfl⟩
    have moved := (perm_insert value here).append_left pairs
    have step := moved.trans List.perm_middle
    refine (ih _ ?_).trans step
    exact (step.map Prod.fst).nodup_iff.mpr distinct

theorem perm_ofList {pairs : List (String × α)} (distinct : (keys pairs).Nodup) :
    (ofList pairs).Perm pairs := by
  have moved := perm_foldl_insert pairs [] (by simpa using distinct)
  rwa [List.append_nil] at moved

theorem Ascending.nodup {entries : List (String × α)} (ascending : Ascending entries) :
    (keys entries).Nodup := by
  apply List.Pairwise.imp _ ascending
  rintro a b before rfl
  exact String.lt_irrefl _ before

theorem Ascending.ext {entries others : List (String × α)} (ascending : Ascending entries)
    (otherAscending : Ascending others) (same : ∀ key, get? key entries = get? key others) :
    entries = others := by
  have moved : entries.Perm others := by
    apply (List.perm_ext_iff_of_nodup (.of_map _ ascending.nodup) (.of_map _ otherAscending.nodup)).mpr
    intro entry
    rw [← get?_eq_some_iff ascending, same, get?_eq_some_iff otherAscending]
  have asymmetric : ∀ a b : String × α, a ∈ entries → b ∈ others → a.1 < b.1 → b.1 < a.1 → a = b :=
    fun a b _ _ before after => absurd after (String.lt_asymm before)
  exact moved.eq_of_pairwise asymmetric (List.pairwise_map.mp ascending)
    (List.pairwise_map.mp otherAscending)

theorem eq_ofList {entries pairs : List (String × α)} (ascending : Ascending entries)
    (distinct : (keys pairs).Nodup) (sub : ∀ pair ∈ pairs, pair ∈ entries)
    (known : ∀ entry ∈ entries, entry.1 ∈ keys pairs) : entries = ofList pairs := by
  have sup : ∀ entry ∈ entries, entry ∈ pairs := by
    intro entry member
    obtain ⟨pair, there, same⟩ := List.mem_map.mp (known entry member)
    have one := List.inj_on_of_nodup_map ascending.nodup (sub pair there) member same
    exact one ▸ there
  have moved : entries.Perm pairs :=
    (List.perm_ext_iff_of_nodup (.of_map _ ascending.nodup) (.of_map _ distinct)).mpr
      fun entry => ⟨sup entry, sub entry⟩
  have sorted : ∀ {es : List (String × α)}, Ascending es → es.Pairwise fun a b => a.1 < b.1 :=
    fun ascending => List.pairwise_map.mp ascending
  have asymmetric : ∀ a b : String × α, a ∈ entries → b ∈ ofList pairs → a.1 < b.1 → b.1 < a.1 → a = b :=
    fun a b _ _ before after => absurd after (String.lt_asymm before)
  exact (moved.trans (perm_ofList distinct).symm).eq_of_pairwise asymmetric (sorted ascending)
    (sorted (ascending_ofList pairs))

theorem ofList_eq_of_perm {pairs others : List (String × α)} (distinct : (keys pairs).Nodup)
    (moved : pairs.Perm others) : ofList pairs = ofList others := by
  have same : (keys pairs).Perm (keys others) := moved.map Prod.fst
  apply eq_ofList (ascending_ofList pairs) (same.nodup_iff.mp distinct)
  · intro pair there
    exact (perm_ofList distinct).mem_iff.mpr (moved.mem_iff.mpr there)
  · intro entry there
    exact same.mem_iff.mp (List.mem_map_of_mem (mem_of_mem_ofList there))

def last? {κ : Type} [DecidableEq κ] (key : κ) (pairs : List (κ × α)) : Option α :=
  (pairs.findRev? fun pair => pair.1 = key).map Prod.snd

theorem last?_cons {κ : Type} [DecidableEq κ] (key : κ) (pair : κ × α) (pairs : List (κ × α)) :
    last? key (pair :: pairs) = (last? key pairs).or (if pair.1 = key then some pair.2 else none) := by
  rw [last?, List.findRev?, last?]
  cases pairs.findRev? fun pair => pair.1 = key with
  | some found => rfl
  | none => by_cases same : pair.1 = key <;> simp [same]

theorem get?_foldl_insert (key : String) (pairs entries : List (String × α)) :
    get? key (pairs.foldl (fun entries (k, v) => Entries.insert k v entries) entries) =
      (last? key pairs).or (get? key entries) := by
  induction pairs generalizing entries with
  | nil => rfl
  | cons pair pairs ih =>
    obtain ⟨k, v⟩ := pair
    rw [List.foldl_cons, ih, last?_cons, Option.or_assoc]
    by_cases same : k = key
    · rw [same, get?_insert_self, if_pos rfl, Option.some_or]
    · rw [get?_insert_of_ne (Ne.symm same), if_neg same, Option.none_or]

theorem get?_ofList (key : String) (pairs : List (String × α)) : get? key (ofList pairs) = last? key pairs := by
  rw [ofList, get?_foldl_insert]
  exact Option.or_none

theorem mem_keys_iff_last? {key : String} {pairs : List (String × α)} :
    key ∈ keys pairs ↔ ∃ value, last? key pairs = some value := by
  induction pairs with
  | nil => simp [keys, last?]
  | cons pair pairs ih =>
    rw [last?_cons, keys, List.map_cons, List.mem_cons, ← keys, ih]
    cases last? key pairs with
    | some value => simp
    | none =>
      by_cases same : pair.1 = key
      · simp [same]
      · simp [same, Ne.symm same]

theorem mem_keys_ofList {key : String} {pairs : List (String × α)} : key ∈ keys (ofList pairs) ↔ key ∈ keys pairs := by
  rw [mem_keys_iff, get?_ofList, mem_keys_iff_last?]

def under (spellings : List String) (pairs : List (String × α)) : List (String × α) :=
  pairs.filter fun pair => spellings.contains pair.1

theorem mem_under {spellings : List String} {pairs : List (String × α)} {pair : String × α} :
    pair ∈ under spellings pairs ↔ pair ∈ pairs ∧ pair.1 ∈ spellings := by
  rw [under, List.mem_filter, List.contains_iff_mem]

@[simp] theorem under_nil (spellings : List String) : under spellings ([] : List (String × α)) = [] := rfl

theorem under_cons (spellings : List String) (pair : String × α) (pairs : List (String × α)) :
    under spellings (pair :: pairs) =
      if spellings.contains pair.1 then pair :: under spellings pairs else under spellings pairs :=
  List.filter_cons

theorem under_append (spellings : List String) (pairs more : List (String × α)) :
    under spellings (pairs ++ more) = under spellings pairs ++ under spellings more :=
  List.filter_append pairs more

theorem under_congr {spellings others : List String} {pairs : List (String × α)}
    (same : ∀ pair ∈ pairs, pair.1 ∈ spellings ↔ pair.1 ∈ others) : under spellings pairs = under others pairs := by
  apply List.filter_congr
  intro pair there
  rw [Bool.eq_iff_iff, List.contains_iff_mem, List.contains_iff_mem]
  exact same pair there

theorem get?_under {spellings : List String} {key : String} (spelled : key ∈ spellings)
    (pairs : List (String × α)) : get? key (under spellings pairs) = get? key pairs := by
  rw [under, get?_filter, if_pos (List.contains_iff_mem.mpr spelled)]

theorem length_under_le_one {key : String} {entries : List (String × α)} (ascending : Ascending entries) :
    (under [key] entries).length ≤ 1 := by
  have nodup : (keys (under [key] entries)).Nodup :=
    ascending.nodup.sublist (List.filter_sublist.map Prod.fst)
  have same : ∀ k ∈ keys (under [key] entries), k = key := by
    intro k there
    obtain ⟨entry, inside, rfl⟩ := List.mem_map.mp there
    exact List.mem_singleton.mp (mem_under.mp inside).2
  rw [List.eq_replicate_of_mem same, List.nodup_replicate, keys, List.length_map] at nodup
  exact nodup

theorem under_ofList (spellings : List String) (pairs : List (String × α)) :
    under spellings (ofList pairs) = ofList (under spellings pairs) :=
  filter_ofList spellings.contains pairs

theorem eq_ofList_of_under {names : List String} {entries pairs : List (String × α)}
    (ascending : Ascending entries) (distinct : (keys pairs).Nodup)
    (known : ∀ entry ∈ entries, entry.1 ∈ names) (named : ∀ pair ∈ pairs, pair.1 ∈ names)
    (same : ∀ name ∈ names, under [name] entries = under [name] pairs) : entries = ofList pairs := by
  refine eq_ofList ascending distinct ?_ ?_
  · intro pair there
    have inside : pair ∈ under [pair.1] pairs := mem_under.mpr ⟨there, List.mem_singleton_self _⟩
    rw [← same _ (named pair there)] at inside
    exact (mem_under.mp inside).1
  · intro entry there
    have inside : entry ∈ under [entry.1] entries := mem_under.mpr ⟨there, List.mem_singleton_self _⟩
    rw [same _ (known entry there)] at inside
    exact List.mem_map_of_mem (mem_under.mp inside).1

theorem under_erase_of_not_mem {spellings : List String} {key : String} (other : key ∉ spellings)
    (pairs : List (String × α)) : under spellings (erase key pairs) = under spellings pairs := by
  rw [under, erase, List.filter_filter]
  apply List.filter_congr
  intro pair _
  rw [Bool.eq_iff_iff, Bool.and_eq_true, List.contains_iff_mem]
  refine ⟨And.left, fun spelled => ⟨spelled, decide_eq_true ?_⟩⟩
  rintro same
  exact other (same ▸ spelled)

section

variable {spellings : List String} {key : String} (value : α) {entries : List (String × α)}
  (ascending : Ascending entries)

include ascending

theorem under_insert_of_mem (spelled : key ∈ spellings) :
    under spellings (insert key value entries) = insert key value (under spellings entries) := by
  have chosen := filter_insert spellings.contains key value ascending
  rwa [if_pos (List.contains_iff_mem.mpr spelled)] at chosen

theorem under_insert_of_not_mem (other : key ∉ spellings) :
    under spellings (insert key value entries) = under spellings entries := by
  have chosen := filter_insert spellings.contains key value ascending
  rwa [if_neg fun spelled => other (List.contains_iff_mem.mp spelled)] at chosen

end

section

variable {β : Type} (f : α → β)

def mapValues (entries : List (String × α)) : List (String × β) :=
  entries.map fun (key, value) => (key, f value)

theorem keys_mapValues (entries : List (String × α)) : keys (mapValues f entries) = keys entries := by
  simp [keys, mapValues]

theorem Ascending.mapValues {entries : List (String × α)} (ascending : Ascending entries) :
    Ascending (mapValues f entries) := by
  rw [Ascending, keys_mapValues]
  exact ascending

theorem erase_mapValues (key : String) (entries : List (String × α)) :
    erase key (mapValues f entries) = mapValues f (erase key entries) := by
  simp only [erase, mapValues, List.filter_map]
  rfl

theorem insert_mapValues (key : String) (value : α) (entries : List (String × α)) :
    insert key (f value) (mapValues f entries) = mapValues f (insert key value entries) := by
  induction entries with
  | nil => rfl
  | cons head rest ih =>
    obtain ⟨k, v⟩ := head
    simp only [mapValues, List.map_cons, insert] at ih ⊢
    split
    · rfl
    · split
      · rfl
      · rw [ih, List.map_cons]

theorem foldl_insert_mapValues (pairs entries : List (String × α)) :
    (mapValues f pairs).foldl (fun entries (k, v) => Entries.insert k v entries) (mapValues f entries) =
      mapValues f (pairs.foldl (fun entries (k, v) => Entries.insert k v entries) entries) := by
  induction pairs generalizing entries with
  | nil => rfl
  | cons pair pairs ih =>
    obtain ⟨key, value⟩ := pair
    have first := insert_mapValues f key value entries
    rw [List.foldl_cons, ← ih, ← first]
    rfl

theorem ofList_mapValues (pairs : List (String × α)) :
    ofList (mapValues f pairs) = mapValues f (ofList pairs) :=
  foldl_insert_mapValues f pairs []

theorem get?_mapValues (key : String) (entries : List (String × α)) :
    get? key (mapValues f entries) = (get? key entries).map f := by
  induction entries with
  | nil => rfl
  | cons head rest ih =>
    obtain ⟨k, v⟩ := head
    simp only [mapValues, List.map_cons, get?] at ih ⊢
    split
    · rfl
    · exact ih

theorem filter_mapValues (p : String → Bool) (entries : List (String × α)) :
    (mapValues f entries).filter (fun entry => p entry.1) =
      mapValues f (entries.filter fun entry => p entry.1) := by
  simp only [mapValues, List.filter_map]
  rfl

end

end Attest.Entries

namespace Attest.KeyMap

theorem ext_get? {α : Type} {m n : KeyMap α} (ascending : Entries.Ascending m.entries)
    (other : Entries.Ascending n.entries) (same : ∀ key, m.get? key = n.get? key) : m = n := by
  have entries : m.entries = n.entries := ascending.ext other same
  cases m
  cases n
  exact congrArg mk entries

end Attest.KeyMap
