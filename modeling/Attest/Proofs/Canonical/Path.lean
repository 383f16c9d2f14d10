import Attest.Proofs.Canonical.Truthful
import Attest.Proofs.Text.Quote

namespace Attest

/-- A key that does not read as more than one step. -/
structure PlainKey (key : String) : Prop where
  undotted : '.' ∉ key.toList
  unindexed : ∀ (front : String) (i : Nat), key ≠ front ++ "[" ++ toString i ++ "]"

def Step.Plain : Step → Prop
  | .key name => PlainKey name
  | .index _ => True

theorem plainKey_of_last {key : String} (undotted : '.' ∉ key.toList)
    (unclosed : key.toList.getLast? ≠ some ']') : PlainKey key := by
  refine ⟨undotted, fun front i spelled => unclosed ?_⟩
  rw [spelled, String.toList_append]
  exact List.getLast?_concat

namespace Location

theorem Written.eq_path {l : Location} {path : String} (written : Written l path) : path = l.path := by
  induction written with
  | root => rfl
  | first _ ih =>
    rw [path_append, ← ih]
    rfl
  | key _ some ih =>
    rw [path_append, ← ih, extend, if_neg fun none => some (String.isEmpty_iff.mp none)]
  | index _ ih =>
    rw [path_append, ← ih]
    rfl

section

variable {path other : String} {step next : Step}

theorem toList_extend_key (written : path ≠ "") (key : String) :
    (extend path (.key key)).toList = path.toList ++ '.' :: key.toList := by
  rw [extend, if_neg fun none => written (String.isEmpty_iff.mp none), String.toList_append,
    String.toList_append, List.append_assoc]
  rfl

theorem dotted_of_extend {key name : String} (written : path ≠ "") (same : key = extend path (.key name)) :
    '.' ∈ key.toList := by
  rw [same, toList_extend_key written]
  exact List.mem_append_right _ List.mem_cons_self

def indexChars (i : Nat) : List Char := Nat.toDigits 10 i ++ [']']

theorem toList_append_index (front : String) (i : Nat) :
    (front ++ "[" ++ toString i ++ "]").toList = front.toList ++ '[' :: indexChars i := by
  have digits : (toString i).toList = Nat.toDigits 10 i := String.toList_ofList
  rw [String.toList_append, String.toList_append, String.toList_append, digits, List.append_assoc,
    List.append_assoc]
  rfl

theorem toList_extend_index (path : String) (i : Nat) :
    (extend path (.index i)).toList = path.toList ++ '[' :: indexChars i :=
  toList_append_index path i

theorem not_mem_indexChars {c : Char} (other : c.isDigit = false) (unlike : c ≠ ']') (i : Nat) :
    c ∉ indexChars i := by
  intro there
  rcases List.mem_append.mp there with digit | close
  · have isDigit := Nat.isDigit_of_mem_toDigits (by decide) (by decide) digit
    rw [other] at isDigit
    cases isDigit
  · exact unlike (List.mem_singleton.mp close)

theorem indexChars_inj {i j : Nat} (same : indexChars i = indexChars j) : i = j :=
  toDigits_inj (by decide) (by decide) (List.append_cancel_right same)

theorem extend_key_ne_extend_index {key : String} (plain : PlainKey key) (i : Nat) :
    extend path (.key key) ≠ extend other (.index i) := by
  intro same
  by_cases written : path = ""
  · subst written
    exact plain.unindexed other i same
  · have chars := congrArg String.toList same
    rw [toList_extend_key written, toList_extend_index] at chars
    rcases List.append_eq_append_iff.mp chars with ⟨middle, -, rest⟩ | ⟨middle, -, rest⟩
    · cases middle with
      | nil => cases rest
      | cons c middle =>
        obtain ⟨-, ends⟩ := List.cons.inj rest
        apply plain.unindexed (String.ofList middle) i
        rw [← String.toList_inj, toList_append_index, String.toList_ofList]
        exact ends
    · have point : '.' ∈ '[' :: indexChars i := by
        rw [rest]
        exact List.mem_append_right _ List.mem_cons_self
      exact not_mem_indexChars rfl (by decide) i (List.mem_of_ne_of_mem (by decide) point)

theorem extend_inj (plain : step.Plain) (plain' : next.Plain) (same : extend path step = extend other next) :
    path = other ∧ step = next := by
  cases step with
  | key key =>
    cases next with
    | index i => exact absurd same (extend_key_ne_extend_index plain i)
    | key name =>
      by_cases written : path = ""
      · by_cases written' : other = ""
        · subst written written'
          exact ⟨rfl, congrArg Step.key same⟩
        · subst written
          exact absurd (dotted_of_extend written' same) plain.undotted
      · by_cases written' : other = ""
        · subst written'
          exact absurd (dotted_of_extend written same.symm) plain'.undotted
        · have chars := congrArg String.toList same
          rw [toList_extend_key written, toList_extend_key written'] at chars
          obtain ⟨fronts, names⟩ := append_cons_inj_last plain.undotted plain'.undotted chars
          exact ⟨String.toList_injective fronts, congrArg Step.key (String.toList_injective names)⟩
  | index i =>
    cases next with
    | key name => exact absurd same.symm (extend_key_ne_extend_index plain' i)
    | index j =>
      have chars := congrArg String.toList same
      have absent := not_mem_indexChars (c := '[') rfl (by decide)
      rw [toList_extend_index, toList_extend_index] at chars
      obtain ⟨fronts, indices⟩ := append_cons_inj_last (absent i) (absent j) chars
      exact ⟨String.toList_injective fronts, congrArg Step.index (indexChars_inj indices)⟩

theorem length_lt_extend (path : String) (step : Step) :
    path.length < (extend path step).length ∨ path = "" ∧ step = .key "" := by
  simp only [← String.length_toList]
  cases step with
  | key key =>
    by_cases written : path = ""
    · subst written
      by_cases empty : key = ""
      · exact .inr ⟨rfl, congrArg _ empty⟩
      · exact .inl (List.length_pos_iff.mpr fun none => empty (String.toList_eq_nil_iff.mp none))
    · rw [toList_extend_key written]
      simp
  | index i =>
    rw [toList_extend_index]
    simp

theorem length_le_foldl (path : String) (l : Location) : path.length ≤ (l.foldl extend path).length := by
  induction l generalizing path with
  | nil => exact Nat.le_refl _
  | cons step l ih =>
    rcases length_lt_extend path step with longer | ⟨rfl, -⟩
    · exact Nat.le_trans (Nat.le_of_lt longer) (ih _)
    · exact Nat.zero_le _

theorem eq_nil_of_foldl_eq {l : Location} (same : l.foldl extend path = path)
    (named : path = "" → l.head? ≠ some (.key "")) : l = [] := by
  cases l with
  | nil => rfl
  | cons step l =>
    rcases length_lt_extend path step with longer | ⟨empty, first⟩
    · have rest := length_le_foldl (extend path step) l
      rw [List.foldl_cons] at same
      rw [same] at rest
      exact absurd longer (Nat.not_lt_of_le rest)
    · exact absurd (congrArg some first) (named empty)

theorem head?_ne_of_concat {l : Location} {step first : Step} (named : (l ++ [step]).head? ≠ some first) :
    l.head? ≠ some first := by
  cases l with
  | nil => simp
  | cons _ _ => exact named

theorem eq_of_foldl_eq {l m : Location} (plain : ∀ step ∈ l ++ m, step.Plain)
    (named : path = "" → l.head? ≠ some (.key "") ∧ m.head? ≠ some (.key ""))
    (same : l.foldl extend path = m.foldl extend path) : l = m := by
  -- On the last steps: they are told from what is written before them.
  induction l using List.reverseRecOn generalizing m with
  | nil => exact (eq_nil_of_foldl_eq same.symm fun empty => (named empty).2).symm
  | append_singleton l step ih =>
    rcases List.eq_nil_or_concat m with rfl | ⟨m, next, rfl⟩
    · exact eq_nil_of_foldl_eq same fun empty => (named empty).1
    · rw [List.concat_eq_append] at plain named same ⊢
      rw [List.foldl_append, List.foldl_append] at same
      have own : step.Plain := plain step (by simp)
      have other : next.Plain := plain next (by simp)
      obtain ⟨above, rfl⟩ := extend_inj own other same
      have rest : l = m := by
        refine ih (fun s there => plain s ?_) (fun empty => ?_) above
        · rcases List.mem_append.mp there with left | right
          · simp [left]
          · simp [right]
        · obtain ⟨left, right⟩ := named empty
          exact ⟨head?_ne_of_concat left, head?_ne_of_concat right⟩
      rw [rest]

end

theorem eq_empty_of_foldl {path : String} {l : Location} (empty : l.foldl extend path = "") :
    path = "" ∧ ∀ step ∈ l, step = .key "" := by
  induction l generalizing path with
  | nil => exact ⟨empty, List.forall_mem_nil _⟩
  | cons step l ih =>
    obtain ⟨none, others⟩ := ih empty
    rcases length_lt_extend path step with longer | ⟨rfl, first⟩
    · rw [none] at longer
      exact absurd longer (Nat.not_lt_zero _)
    · exact ⟨rfl, List.forall_mem_cons.mpr ⟨first, others⟩⟩

/-- Two locations that may be written alike: below the place where they part stands a key that reads as
several steps, or there an empty key comes first, with nothing written before it. -/
inductive Confusable (l m : Location) : Prop
  | key {above rest other : Location} {key : String} (left : l = above ++ rest) (right : m = above ++ other)
    (apart : rest.head? ≠ other.head?) (inside : .key key ∈ rest ++ other) (unplain : ¬ PlainKey key)
  | empty {above rest other : Location} (left : l = above ++ rest) (right : m = above ++ other)
    (apart : rest.head? ≠ other.head?) (unwritten : above.path = "")
    (first : rest.head? = some (.key "") ∨ other.head? = some (.key ""))

theorem exists_parting {l m : Location} (differ : l ≠ m) : ∃ above rest other : Location,
    l = above ++ rest ∧ m = above ++ other ∧ rest.head? ≠ other.head? := by
  induction l generalizing m with
  | nil =>
    cases m with
    | nil => exact absurd rfl differ
    | cons step m => exact ⟨[], [], step :: m, rfl, rfl, by simp⟩
  | cons step l ih =>
    cases m with
    | nil => exact ⟨[], step :: l, [], rfl, rfl, by simp⟩
    | cons next m =>
      by_cases same : step = next
      · subst same
        obtain ⟨above, rest, other, rfl, rfl, apart⟩ := ih fun same => differ (congrArg _ same)
        exact ⟨step :: above, rest, other, rfl, rfl, apart⟩
      · exact ⟨[], step :: l, next :: m, rfl, rfl, by simpa using same⟩

theorem eq_or_confusable {l m : Location} (same : l.path = m.path) : l = m ∨ Confusable l m := by
  by_cases equal : l = m
  · exact .inl equal
  right
  obtain ⟨above, rest, other, rfl, rfl, apart⟩ := exists_parting equal
  by_cases named : above.path = "" ∧ (rest.head? = some (.key "") ∨ other.head? = some (.key ""))
  · exact .empty rfl rfl apart named.1 named.2
  by_cases plain : ∀ step ∈ rest ++ other, step.Plain
  · have ways : rest.foldl extend above.path = other.foldl extend above.path := by
      rwa [path, path, List.foldl_append, List.foldl_append] at same
    have unnamed : above.path = "" → rest.head? ≠ some (.key "") ∧ other.head? ≠ some (.key "") :=
      fun empty => ⟨fun first => named ⟨empty, .inl first⟩, fun first => named ⟨empty, .inr first⟩⟩
    exact absurd (congrArg List.head? (eq_of_foldl_eq plain unnamed ways)) apart
  · obtain ⟨step, inside, unplain⟩ : ∃ step ∈ rest ++ other, ¬ step.Plain := by
      simpa only [not_forall, exists_prop] using plain
    cases step with
    | key key => exact .key rfl rfl apart inside unplain
    | index i => exact absurd trivial unplain

theorem exists_other_way {key : String} (unplain : ¬ PlainKey key) :
    ∃ other : Location, other ≠ [Step.key key] ∧
    ∀ l : Location, l.path ≠ "" → path (l ++ other) = path (l ++ [.key key]) := by
  by_cases dotted : '.' ∈ key.toList
  · obtain ⟨front, back, split⟩ := List.append_of_mem dotted
    refine ⟨[.key (.ofList front), .key (.ofList back)], by simp, fun l written => ?_⟩
    have longer : extend l.path (.key (.ofList front)) ≠ "" := by
      intro none
      have chars := congrArg String.toList none
      rw [toList_extend_key written] at chars
      simp at chars
    rw [List.append_cons, path_append, path_append, path_append, ← String.toList_inj,
      toList_extend_key longer, toList_extend_key written, toList_extend_key written, split,
      String.toList_ofList, String.toList_ofList, List.append_assoc, List.cons_append]
  · obtain ⟨front, i, spelled⟩ : ∃ (front : String) (i : Nat), key = front ++ "[" ++ toString i ++ "]" := by
      by_contra none
      simp only [not_exists] at none
      exact unplain ⟨dotted, none⟩
    refine ⟨[.key front, .index i], by simp, fun l written => ?_⟩
    rw [List.append_cons, path_append, path_append, path_append, ← String.toList_inj,
      toList_extend_index, toList_extend_key written, toList_extend_key written, spelled,
      toList_append_index, List.append_assoc, List.cons_append]

end Location

namespace Canonical

mutual

def innerKeys : Canonical → List String
  | .array items => innerKeysOfItems items
  | .object members => innerKeysOfMembers members
  | _ => []

def innerKeysOfItems : List Canonical → List String
  | [] => []
  | item :: items => innerKeys item ++ innerKeysOfItems items

def innerKeysOfMembers : List (String × Canonical) → List String
  | [] => []
  | (key, value) :: members => key :: innerKeys value ++ innerKeysOfMembers members

end

theorem mem_innerKeysOfItems {key : String} {items : List Canonical} {item : Canonical} (there : item ∈ items)
    (inside : key ∈ item.innerKeys) : key ∈ innerKeysOfItems items := by
  induction items with
  | nil => cases there
  | cons first items ih =>
    rcases List.mem_cons.mp there with rfl | later
    · exact List.mem_append_left _ inside
    · exact List.mem_append_right _ (ih later)

theorem mem_innerKeysOfMembers {key : String} {members : List (String × Canonical)} {entry : String × Canonical}
    (there : entry ∈ members) (inside : key = entry.1 ∨ key ∈ entry.2.innerKeys) :
    key ∈ innerKeysOfMembers members := by
  induction members with
  | nil => cases there
  | cons first members ih =>
    rcases List.mem_cons.mp there with rfl | later
    · exact List.mem_append_left _ (List.mem_cons.mpr inside)
    · exact List.mem_append_right _ (ih later)

theorem mem_innerKeys_of_at? {l : Location} {c part : Canonical} (here : c.at? l = some part) {key : String}
    (there : .key key ∈ l) : key ∈ c.innerKeys := by
  induction l generalizing c with
  | nil => cases there
  | cons step l ih =>
    cases step with
    | key name =>
      cases c with
      | object members =>
        obtain ⟨next, found, below⟩ := Option.bind_eq_some_iff.mp here
        apply mem_innerKeysOfMembers (Entries.mem_of_get? found)
        rcases List.mem_cons.mp there with same | later
        · exact .inl (Step.key.inj same)
        · exact .inr (ih below later)
      | _ => cases here
    | index i =>
      cases c with
      | array items =>
        obtain ⟨next, found, below⟩ := Option.bind_eq_some_iff.mp here
        exact mem_innerKeysOfItems (List.mem_of_getElem? found)
          (ih below (List.mem_of_ne_of_mem (by simp) there))
      | _ => cases here

end Canonical

namespace Difference

open Location

theorem Truthful.path_eq {a b : Canonical} {l : Location} {d : Difference} (truthful : Truthful a b l d) :
    d.path = l.path := by
  cases truthful with
  | values written | types written | onlyInA written | onlyInB written | lengths written =>
    exact written.eq_path

theorem Truthful.exists_at? {a b : Canonical} {l : Location} {d : Difference} (truthful : Truthful a b l d) :
    ∃ part, a.at? l = some part ∨ b.at? l = some part := by
  cases truthful with
  | values _ here | types _ here | lengths _ here => exact ⟨_, .inl here⟩
  | onlyInA _ _ _ _ here => exact ⟨_, .inl here⟩
  | onlyInB _ _ _ _ _ here => exact ⟨_, .inr here⟩

theorem Truthful.mem_innerKeys {a b : Canonical} {l : Location} {d : Difference} (truthful : Truthful a b l d)
    {key : String} (there : .key key ∈ l) : key ∈ a.innerKeys ++ b.innerKeys := by
  obtain ⟨part, here | here⟩ := truthful.exists_at?
  · exact List.mem_append_left _ (Canonical.mem_innerKeys_of_at? here there)
  · exact List.mem_append_right _ (Canonical.mem_innerKeys_of_at? here there)

theorem Truthful.not_confusable {a b : Canonical} {l m : Location} {d e : Difference}
    (first : Truthful a b l d) (second : Truthful a b m e)
    (plain : ∀ key ∈ a.innerKeys ++ b.innerKeys, key ≠ "" ∧ PlainKey key) : ¬ Confusable l m := by
  have keyed {key : String} (there : .key key ∈ l ∨ .key key ∈ m) : key ≠ "" ∧ PlainKey key :=
    plain key (there.elim first.mem_innerKeys second.mem_innerKeys)
  intro confusable
  cases confusable with
  | @key above _ _ _ left right _ inside unplain =>
    subst left right
    have below := List.mem_append.mp inside
    exact unplain (keyed (below.imp (List.mem_append_right above) (List.mem_append_right above))).2
  | @empty above _ _ left right _ _ leading =>
    subst left right
    have below := leading.imp List.mem_of_mem_head? List.mem_of_mem_head?
    exact (keyed (below.imp (List.mem_append_right above) (List.mem_append_right above))).1 rfl

/-- Differences have the same path only if their locations may be written alike, and an empty one only
if there are none but empty keys on the way. So where keys are plain and none is empty, no path comes twice
and the empty one is that of the two whole values. -/
theorem paths_tell_locations (a b : Canonical) (left : a.Ordered) (right : b.Ordered) :
    ∃ entries : List (Location × Difference),
      entries.map Prod.snd = between a b ∧ (entries.map Prod.fst).Nodup ∧
      (∀ entry ∈ entries, Truthful a b entry.1 entry.2 ∧
        (entry.2.path = "" → ∀ step ∈ entry.1, step = .key "") ∧
        ∀ other ∈ entries, entry.2.path = other.2.path → entry = other ∨ Confusable entry.1 other.1) ∧
      ((∀ key ∈ a.innerKeys ++ b.innerKeys, key ≠ "" ∧ PlainKey key) →
        ((between a b).map Difference.path).Nodup ∧ ∀ d ∈ between a b, d.path = "" → Truthful a b [] d) := by
  have walk : ((locate [] a b).map Prod.fst).Pairwise Location.Before :=
    List.pairwise_map.mpr (pairwise_locate a [] b left right)
  have nodup : ((locate [] a b).map Prod.fst).Nodup := walk.imp Location.Before.ne
  have truthful : ∀ entry ∈ locate [] a b, Truthful a b entry.1 entry.2 :=
    truthful_of_mem_locate a [] b rfl rfl left right
  have empty : ∀ entry ∈ locate [] a b, entry.2.path = "" → ∀ step ∈ entry.1, step = .key "" := by
    intro entry there none
    rw [(truthful entry there).path_eq] at none
    exact (eq_empty_of_foldl none).2
  have unique : ∀ entry ∈ locate [] a b, ∀ other ∈ locate [] a b, entry.2.path = other.2.path →
      entry = other ∨ Confusable entry.1 other.1 := by
    intro entry there other also same
    rw [(truthful entry there).path_eq, (truthful other also).path_eq] at same
    exact (eq_or_confusable same).imp_left (List.inj_on_of_nodup_map nodup there also)
  refine ⟨locate [] a b, rfl, nodup, fun entry there => ⟨truthful entry there, empty entry there,
    unique entry there⟩, fun plain => ⟨?_, ?_⟩⟩
  · rw [between, List.map_map]
    refine List.Nodup.map_on (fun entry there other also same => ?_) (.of_map _ nodup)
    exact (unique entry there other also same).resolve_right
      ((truthful entry there).not_confusable (truthful other also) plain)
  · intro d among none
    obtain ⟨entry, there, rfl⟩ := List.mem_map.mp among
    have steps := empty entry there none
    have own := truthful entry there
    cases place : entry.1 with
    | nil => rwa [place] at own
    | cons step rest =>
      rw [place] at steps own
      have first : Step.key "" ∈ step :: rest := steps step List.mem_cons_self ▸ List.mem_cons_self
      exact absurd rfl (plain "" (own.mem_innerKeys first)).1

theorem paths_tell_locations_nested :
    let a : Canonical := .ofJson <| .object [("a", .array [.null, .object [("[0]b", .bool true)]]),
      ("b", .object [("a", .array [.string "x"])])]
    let b : Canonical := .ofJson <| .object [("a", .array [.bool true, .object []]), ("b", .object [("a", .null)])]
    (∀ key ∈ a.innerKeys ++ b.innerKeys, key ≠ "" ∧ PlainKey key) ∧
    (between a b).map Difference.path = ["a[0]", "a[1].[0]b", "b.a"] ∧
    ((between a b).map Difference.path).Nodup := by
  intro a b
  have plain : ∀ key ∈ a.innerKeys ++ b.innerKeys, key ≠ "" ∧ PlainKey key := by
    have keys : a.innerKeys ++ b.innerKeys = ["a", "[0]b", "b", "a", "a", "b", "a"] := by decide
    rw [keys]
    simp only [List.forall_mem_cons, List.not_mem_nil, false_imp_iff, implies_true, and_true]
    and_intros <;> first | decide | exact plainKey_of_last (by decide) (by decide)
  obtain ⟨_, -, -, -, tell⟩ := paths_tell_locations a b (Canonical.normal_ofJson _).ordered
    (Canonical.normal_ofJson _).ordered
  exact ⟨plain, by decide, (tell plain).1⟩

/-- A key with a point in it is written like a key below another one. -/
theorem dotted_key_shares_path :
    let a : Canonical := .ofJson <| .object [("a", .object [("b", .bool false)]), ("a.b", .string "x")]
    let b : Canonical := .ofJson <| .object [("a", .object [("b", .bool true)]), ("a.b", .string "y")]
    between a b = [⟨"a.b", some (.bool false), some (.bool true), .valueMismatch⟩,
      ⟨"a.b", some (.string "x"), some (.string "y"), .valueMismatch⟩] ∧
    ¬ ((between a b).map Difference.path).Nodup := by decide

end Difference
end Attest
