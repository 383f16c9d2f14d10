import Attest.Proofs.Json.Rendering

namespace Attest.Json

open Decoder (numberKey standsForNumber)

namespace Outline

mutual

/-- No object begins with the key of numbers, so each stands for itself. -/
def isPlain : Outline → Bool
  | .array items => allPlain items
  | .object members => !standsForNumber members && allPlainMembers members
  | _ => true

def allPlain : List Outline → Bool
  | [] => true
  | item :: items => item.isPlain && allPlain items

def allPlainMembers : List (Option String × Outline) → Bool
  | [] => true
  | (_, item) :: members => item.isPlain && allPlainMembers members

end

theorem allPlain_iff {items : List Outline} : allPlain items = true ↔ ∀ item ∈ items, item.isPlain = true := by
  induction items with
  | nil => simp [allPlain]
  | cons item items ih => simp [allPlain, ih]

theorem allPlainMembers_iff {members : List (Option String × Outline)} :
    allPlainMembers members = true ↔ ∀ member ∈ members, member.2.isPlain = true := by
  induction members with
  | nil => simp [allPlainMembers]
  | cons member members ih => simp [allPlainMembers, ih]

end Outline

/-- The document that a text holds is plain. -/
def Plain (text : Bytes) : Prop := (Outline.ofBytes text).1.isPlain = true

instance (text : Bytes) : Decidable (Plain text) := inferInstanceAs (Decidable (_ = true))

/-- The number that an object with these members stands for. -/
def spelled? : List (String × Json) → Option Literal
  | [(key, .string s)] => if key = numberKey then Literal.ofText? s else none
  | _ => none

mutual

def allKeys (p : List String → Bool) : Json → Bool
  | .array items => allKeysOfItems p items
  | .object members => p (Entries.keys members) && allKeysOfMembers p members
  | _ => true

def allKeysOfItems (p : List String → Bool) : List Json → Bool
  | [] => true
  | item :: items => item.allKeys p && allKeysOfItems p items

def allKeysOfMembers (p : List String → Bool) : List (String × Json) → Bool
  | [] => true
  | (_, item) :: members => item.allKeys p && allKeysOfMembers p members

end

def lacking (key : String) (keys : List String) : Bool := !keys.contains key

theorem lacking_iff {key : String} {keys : List String} : lacking key keys = true ↔ key ∉ keys := by
  simp [lacking]

/-- No object in the value has the key. -/
def lacks (key : String) (j : Json) : Bool := j.allKeys (lacking key)

def accompanied (keys : List String) : Bool := keys.isEmpty || keys.any (· != numberKey)

/-- Where the key of numbers stands in an object, another one stands there as well. -/
def isAccompanied (j : Json) : Bool := j.allKeys accompanied

theorem allKeysOfItems_iff {p : List String → Bool} {items : List Json} :
    allKeysOfItems p items = true ↔ ∀ item ∈ items, item.allKeys p = true := by
  induction items with
  | nil => simp [allKeysOfItems]
  | cons item items ih => simp [allKeysOfItems, ih]

theorem allKeysOfMembers_iff {p : List String → Bool} {members : List (String × Json)} :
    allKeysOfMembers p members = true ↔ ∀ member ∈ members, member.2.allKeys p = true := by
  induction members with
  | nil => simp [allKeysOfMembers]
  | cons member members ih => simp [allKeysOfMembers, ih]

theorem not_standsForNumber {members : List (String × Json)}
    (other : (Entries.keys members).head? ≠ some numberKey) :
    (!standsForNumber (outlineOfMembers members)) = true := by
  cases members with
  | nil => rfl
  | cons member members => simpa [outlineOfMembers, standsForNumber, Entries.keys] using other

theorem isPlain_object {members : List (String × Json)}
    (other : (Entries.keys members).head? ≠ some numberKey)
    (inside : ∀ member ∈ members, member.2.outline.isPlain = true) : (object members).outline.isPlain = true := by
  refine Bool.and_eq_true_iff.mpr ⟨not_standsForNumber other, Outline.allPlainMembers_iff.mpr ?_⟩
  rw [outlineOfMembers_eq_map]
  exact List.forall_mem_map.mpr inside

theorem isPlain_array {items : List Json} (inside : ∀ item ∈ items, item.outline.isPlain = true) :
    (array items).outline.isPlain = true := by
  apply Outline.allPlain_iff.mpr
  rw [outlineOfItems_eq_map]
  exact List.forall_mem_map.mpr inside

theorem isPlain_ofStrings (texts : List String) : (ofStrings texts).outline.isPlain = true :=
  isPlain_array (List.forall_mem_map.mpr fun _ _ => rfl)

theorem plain_text {j : Json} (plain : j.outline.isPlain = true) : Plain (Utf8.encode j.text) := by
  rwa [Plain, text, Utf8.encode_ofList, Outline.ofBytes_chars]

theorem plain_pretty {j : Json} (plain : j.outline.isPlain = true) : Plain (Utf8.encode j.pretty) := by
  rwa [Plain, Outline.ofBytes_of_tokens (scan_pretty j)]

mutual

theorem isPlain_of_lacks : (j : Json) → j.lacks numberKey = true → j.outline.isPlain = true
  | .null, _ | .bool _, _ | .number _, _ | .string _, _ => rfl
  | .array items, each => allPlain_of_lacks items each
  | .object members, each => by
    obtain ⟨here, inside⟩ := Bool.and_eq_true_iff.mp each
    apply Bool.and_eq_true_iff.mpr
    refine ⟨not_standsForNumber fun first => ?_, allPlainMembers_of_lacks members inside⟩
    exact lacking_iff.mp here (List.mem_of_mem_head? first)

theorem allPlain_of_lacks : (items : List Json) → allKeysOfItems (lacking numberKey) items = true →
    Outline.allPlain (outlineOfItems items) = true
  | [], _ => rfl
  | item :: items, each => by
    obtain ⟨first, others⟩ := Bool.and_eq_true_iff.mp each
    exact Bool.and_eq_true_iff.mpr ⟨isPlain_of_lacks item first, allPlain_of_lacks items others⟩

theorem allPlainMembers_of_lacks : (members : List (String × Json)) →
    allKeysOfMembers (lacking numberKey) members = true →
    Outline.allPlainMembers (outlineOfMembers members) = true
  | [], _ => rfl
  | (_, item) :: members, each => by
    obtain ⟨first, others⟩ := Bool.and_eq_true_iff.mp each
    exact Bool.and_eq_true_iff.mpr ⟨isPlain_of_lacks item first, allPlainMembers_of_lacks members others⟩

end

namespace Decoder

theorem value_of_isPlain {depth : Nat} {o : Outline} (plain : o.isPlain = true) :
    value depth o = content depth o := by
  induction depth generalizing o with
  | zero => rcases o with _ | _ | _ | (_ | _) | _ | _ | _ <;> rfl
  | succ depth ih =>
    cases o with
    | array items =>
      have inside := Outline.allPlain_iff.mp plain
      rw [value, content, mapM_congr fun item there => ih (inside item there)]
    | object members =>
      obtain ⟨ordinary, plain⟩ := Bool.and_eq_true_iff.mp plain
      have inside := Outline.allPlainMembers_iff.mp plain
      rw [Bool.not_eq_true'] at ordinary
      rw [value, content, ordinary, if_neg Bool.false_ne_true, mapM_congr]
      rintro ⟨_ | key, item⟩ there
      · rfl
      · rw [member, member, ih (inside _ there)]
    | string text => cases text <;> rfl
    | _ => rfl

end Decoder

mutual

/-- The value with a number in place of each object that holds no more than the spelling of one. -/
def collapsed : Json → Json
  | .array items => .array (collapsedItems items)
  | .object members => (spelled? members).elim (.object (collapsedMembers members)) .number
  | other => other

def collapsedItems : List Json → List Json
  | [] => []
  | item :: items => item.collapsed :: collapsedItems items

def collapsedMembers : List (String × Json) → List (String × Json)
  | [] => []
  | (key, item) :: members => (key, item.collapsed) :: collapsedMembers members

end

theorem collapsedItems_eq_map (items : List Json) : collapsedItems items = items.map collapsed := by
  induction items with
  | nil => rfl
  | cons item items ih => rw [collapsedItems, ih, List.map_cons]

theorem collapsedMembers_eq_mapValues (members : List (String × Json)) :
    collapsedMembers members = Entries.mapValues collapsed members := by
  induction members with
  | nil => rfl
  | cons member members ih =>
    rw [collapsedMembers, ih]
    rfl

theorem spelled?_of_accompanied {members : List (String × Json)}
    (beside : accompanied (Entries.keys members) = true) : spelled? members = none := by
  unfold spelled?
  split
  · rename_i key s
    have other : key ≠ numberKey := by simpa [accompanied, Entries.keys] using beside
    rw [if_neg other]
  · rfl

theorem collapsed_object {members : List (String × Json)}
    (beside : accompanied (Entries.keys members) = true) :
    (object members).collapsed = .object (Entries.mapValues collapsed members) := by
  rw [collapsed, spelled?_of_accompanied beside, collapsedMembers_eq_mapValues]
  rfl

mutual

theorem collapsed_of_isAccompanied : (j : Json) → j.isAccompanied = true → j.collapsed = j
  | .null, _ | .bool _, _ | .number _, _ | .string _, _ => rfl
  | .array items, each => congrArg Json.array (collapsedItems_of_isAccompanied items each)
  | .object members, each => by
    obtain ⟨here, inside⟩ := Bool.and_eq_true_iff.mp each
    rw [collapsed, spelled?_of_accompanied here, collapsedMembers_of_isAccompanied members inside]
    rfl

theorem collapsedItems_of_isAccompanied : (items : List Json) → allKeysOfItems accompanied items = true →
    collapsedItems items = items
  | [], _ => rfl
  | item :: items, each => by
    obtain ⟨first, others⟩ := Bool.and_eq_true_iff.mp each
    rw [collapsedItems, collapsed_of_isAccompanied item first, collapsedItems_of_isAccompanied items others]

theorem collapsedMembers_of_isAccompanied : (members : List (String × Json)) →
    allKeysOfMembers accompanied members = true → collapsedMembers members = members
  | [], _ => rfl
  | (_, item) :: members, each => by
    obtain ⟨first, others⟩ := Bool.and_eq_true_iff.mp each
    rw [collapsedMembers, collapsed_of_isAccompanied item first,
      collapsedMembers_of_isAccompanied members others]

end

namespace Decoder

theorem accompanied_of_members {decode : Outline → Except Fault Json}
    {members : List (Option String × Outline)} {pairs : List (String × Json)}
    (ordinary : ¬ standsForNumber members = true) (read : members.mapM (member decode) = .ok pairs) :
    accompanied (Entries.keys (Entries.ofList pairs)) = true := by
  cases mapM_eq_ok_iff.mp read with
  | nil => rfl
  | @cons m pair _ others first _ =>
    obtain ⟨keyed, -⟩ := member_eq_ok_iff.mp first
    have there : pair.1 ∈ Entries.keys (Entries.ofList (pair :: others)) :=
      Entries.mem_keys_ofList.mpr List.mem_cons_self
    have other : pair.1 ≠ numberKey := by
      rintro same
      apply ordinary
      simp [standsForNumber, keyed, same]
    exact Bool.or_eq_true_iff.mpr (.inr (List.any_eq_true.mpr ⟨_, there, bne_iff_ne.mpr other⟩))

theorem exists_members_of_members {α : Type} {decode decode' : Outline → Except Fault α} {g : α → α}
    {members : List (Option String × Outline)} {pairs : List (String × α)}
    (each : ∀ m ∈ members, ∀ a, decode m.2 = .ok a → ∃ b, decode' m.2 = .ok b ∧ g b = a)
    (read : members.mapM (member decode) = .ok pairs) :
    ∃ others, members.mapM (member decode') = .ok others ∧ Entries.mapValues g others = pairs := by
  refine exists_mapM_of_mapM (fun m there entry found => ?_) read
  obtain ⟨keyed, found⟩ := member_eq_ok_iff.mp found
  obtain ⟨b, other, same⟩ := each m there entry.2 found
  exact ⟨(entry.1, b), member_eq_ok_iff.mpr ⟨keyed, other⟩, Prod.ext rfl same⟩

/-- A value that is read with numbers in place of objects is the collapsed form of what stands there. -/
theorem exists_content_of_value {depth : Nat} {o : Outline} {j : Json} (read : value depth o = .ok j) :
    ∃ k, content depth o = .ok k ∧ k.collapsed = j := by
  refine value_induction (motive := fun depth o j => ∃ k, content depth o = .ok k ∧ k.collapsed = j) ?null ?bool
    ?number ?string ?array ?spelled ?object read
  case null | bool | number | string => rintro (_ | depth) <;> intros <;> exact ⟨_, rfl, rfl⟩
  case array =>
    intro depth outlines items inside ih
    obtain ⟨others, found, rfl⟩ := exists_mapM_of_mapM (fun o _ => ih o) inside
    refine ⟨.array others, map_eq_ok.mpr ⟨others, found, rfl⟩, ?_⟩
    rw [collapsed, collapsedItems_eq_map]
  case spelled =>
    intro depth s l numeral
    refine ⟨.object [(numberKey, .string s)], ?_, ?_⟩
    · cases depth <;> rfl
    · rw [collapsed, spelled?, if_pos rfl, numeral]
      rfl
  case object =>
    intro depth outlines members ordinary inside ih
    obtain ⟨others, found, rfl⟩ := exists_members_of_members (fun m _ => ih m.2) inside
    refine ⟨.object (Entries.ofList others), map_eq_ok.mpr ⟨others, found, rfl⟩, ?_⟩
    rw [collapsed_object (accompanied_of_members ordinary found), ← Entries.ofList_mapValues]

theorem isAccompanied_of_value {depth : Nat} {o : Outline} {j : Json} (read : value depth o = .ok j) :
    j.isAccompanied = true := by
  refine value_induction (motive := fun _ _ j => j.isAccompanied = true) ?null ?bool ?number ?string ?array ?spelled
    ?object read
  case null | bool | number | string | spelled => intros; rfl
  case array =>
    intro depth outlines items inside ih
    apply allKeysOfItems_iff.mpr
    intro item there
    obtain ⟨_, -, found⟩ := exists_of_mem_mapM inside there
    exact ih _ item found
  case object =>
    intro depth outlines members ordinary inside ih
    apply Bool.and_eq_true_iff.mpr
    refine ⟨accompanied_of_members ordinary inside, allKeysOfMembers_iff.mpr fun entry there => ?_⟩
    obtain ⟨m, -, found⟩ := exists_of_mem_mapM inside (Entries.mem_of_mem_ofList there)
    exact ih _ _ (member_eq_ok_iff.mp found).2

theorem isAccompanied_of_entries {depth : Nat} {o : Outline} {members : List (String × Json)}
    (read : entries value depth o = .ok members) : ∀ entry ∈ members, entry.2.isAccompanied = true := by
  cases depth with
  | zero => cases o <;> cases read
  | succ depth =>
    cases o with
    | object outlines =>
      obtain ⟨pairs, inside, rfl⟩ := map_eq_ok.mp read
      intro entry there
      obtain ⟨m, -, found⟩ := exists_of_mem_mapM inside (Entries.mem_of_mem_ofList there)
      exact isAccompanied_of_value (member_eq_ok_iff.mp found).2
    | _ => cases read

theorem isPlain_of_value_outline {depth : Nat} {j k : Json} (beside : j.isAccompanied = true)
    (read : value depth j.outline = .ok k) : j.outline.isPlain = true := by
  induction depth generalizing j k with
  | zero => cases j <;> cases read <;> rfl
  | succ depth ih =>
    cases j with
    | array items =>
      rw [outline, value] at read
      obtain ⟨_, inside, rfl⟩ := map_eq_ok.mp read
      have each := allKeysOfItems_iff.mp beside
      apply Outline.allPlain_iff.mpr
      rw [outlineOfItems_eq_map] at inside ⊢
      intro o there
      obtain ⟨_, found⟩ := exists_mapM_iff.mp ⟨_, inside⟩ o there
      obtain ⟨item, listed, rfl⟩ := List.mem_map.mp there
      exact ih (each item listed) found
    | object members =>
      obtain ⟨here, within⟩ := Bool.and_eq_true_iff.mp beside
      have each := allKeysOfMembers_iff.mp within
      rw [outline, value] at read
      split at read
      · -- The key would stand alone in the object, for no more than the spelling of a number is read.
        rename_i first
        obtain ⟨_, _, _, single, -, -⟩ := exists_number_of_spelledNumber read
        rcases members with _ | ⟨⟨key, _⟩, _ | _⟩
        · cases single
        · obtain rfl : key = numberKey := by simpa [outlineOfMembers, standsForNumber] using first
          cases here
        · simp [outlineOfMembers] at single
      · rename_i ordinary
        obtain ⟨_, inside, rfl⟩ := map_eq_ok.mp read
        apply Bool.and_eq_true_iff.mpr
        refine ⟨by simpa using ordinary, Outline.allPlainMembers_iff.mpr ?_⟩
        rw [outlineOfMembers_eq_map] at inside ⊢
        intro m there
        obtain ⟨_, found⟩ := exists_mapM_iff.mp ⟨_, inside⟩ m there
        obtain ⟨entry, listed, rfl⟩ := List.mem_map.mp there
        exact ih (each entry listed) (member_eq_ok_iff.mp found).2
    | _ => rfl

end Decoder

theorem read_text (j : Json) (shallow : j.nesting ≤ maxDepth) (ordered : j.Ordered)
    (plain : j.outline.isPlain = true) : read Decoder.value (Utf8.encode j.text) = .ok j := by
  have found := Outline.ofBytes_chars j
  have decoded := Decoder.content_outline j shallow ordered
  rw [← Decoder.value_of_isPlain plain] at decoded
  rw [read, text, Utf8.encode_ofList, found]
  simp only [decoded]
  rfl

end Attest.Json
