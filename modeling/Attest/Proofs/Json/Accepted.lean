import Attest.Proofs.Json.Reading
import Attest.Proofs.Outcome

namespace Attest.Json

theorem nestingOfItems_le_iff {items : List Json} {depth : Nat} :
    nestingOfItems items ≤ depth ↔ ∀ item ∈ items, item.nesting ≤ depth := by
  induction items with
  | nil => simp [nestingOfItems]
  | cons item items ih => simp [nestingOfItems, ih]

theorem nestingOfMembers_le_iff {members : List (String × Json)} {depth : Nat} :
    nestingOfMembers members ≤ depth ↔ ∀ member ∈ members, member.2.nesting ≤ depth := by
  induction members with
  | nil => simp [nestingOfMembers]
  | cons member members ih => simp [nestingOfMembers, ih]

theorem orderedItems_iff {items : List Json} :
    OrderedItems items ↔ ∀ item ∈ items, item.Ordered := by
  induction items with
  | nil => simp [OrderedItems]
  | cons item items ih => simp [OrderedItems, ih]

theorem orderedMembers_iff {members : List (String × Json)} :
    OrderedMembers members ↔ ∀ member ∈ members, member.2.Ordered := by
  induction members with
  | nil => simp [OrderedMembers]
  | cons member members ih => simp [OrderedMembers, ih]

namespace Decoder

section

variable {decode : Outline → Except Fault Json} {depth : Nat}
  (accepted : ∀ o j, decode o = .ok j → j.nesting ≤ depth ∧ j.Ordered)

include accepted

theorem accepted_items {outlines : List Outline} {items : List Json}
    (read : outlines.mapM decode = .ok items) : nestingOfItems items ≤ depth ∧ OrderedItems items := by
  rw [nestingOfItems_le_iff, orderedItems_iff, ← forall₂_and]
  intro item member
  obtain ⟨o, -, found⟩ := exists_of_mem_mapM read member
  exact accepted o item found

theorem accepted_members {outlines : List (Option String × Outline)} {members : List (String × Json)}
    (read : outlines.mapM (member decode) = .ok members) :
    (object (Entries.ofList members)).nesting ≤ depth + 1 ∧ (object (Entries.ofList members)).Ordered := by
  have inside : ∀ entry ∈ Entries.ofList members, entry.2.nesting ≤ depth ∧ entry.2.Ordered := by
    intro entry there
    obtain ⟨⟨key, o⟩, -, found⟩ := exists_of_mem_mapM read (Entries.mem_of_mem_ofList there)
    cases key with
    | none => cases found
    | some key =>
      obtain ⟨j, value, rfl⟩ := map_eq_ok.mp found
      exact accepted o j value
  refine ⟨Nat.succ_le_succ ?_, Entries.ascending_ofList _, ?_⟩
  · exact nestingOfMembers_le_iff.mpr fun entry there => (inside entry there).1
  · exact orderedMembers_iff.mpr fun entry there => (inside entry there).2

end

theorem accepted_content {depth : Nat} {o : Outline} {j : Json} (read : content depth o = .ok j) :
    j.nesting ≤ depth ∧ j.Ordered := by
  induction depth generalizing o j with
  | zero =>
    cases o with
    | string text => cases text <;> cases read; exact ⟨Nat.le_refl _, trivial⟩
    | _ => cases read <;> exact ⟨Nat.le_refl _, trivial⟩
  | succ depth ih =>
    cases o with
    | array outlines =>
      rw [content] at read
      obtain ⟨items, inside, rfl⟩ := map_eq_ok.mp read
      obtain ⟨low, ordered⟩ := accepted_items (fun _ _ => ih) inside
      exact ⟨Nat.succ_le_succ low, ordered⟩
    | object outlines =>
      rw [content] at read
      obtain ⟨members, inside, rfl⟩ := map_eq_ok.mp read
      exact accepted_members (fun _ _ => ih) inside
    | string text => cases text <;> cases read; exact ⟨Nat.zero_le _, trivial⟩
    | _ => cases read <;> exact ⟨Nat.zero_le _, trivial⟩

theorem exists_number_of_spelledNumber {members : List (Option String × Outline)} {j : Json}
    (read : spelledNumber members = .ok j) :
    ∃ key s l, members = [(key, .string (some s))] ∧ Literal.ofText? s = some l ∧ j = .number l := by
  rcases members with _ | ⟨⟨key, _ | _ | _ | (_ | s) | _ | _ | _⟩, _ | ⟨_, _⟩⟩ <;> try cases read
  rw [spelledNumber] at read
  cases found : Literal.ofText? s with
  | none =>
    rw [found] at read
    cases read
  | some l =>
    rw [found] at read
    cases read
    exact ⟨key, s, l, rfl, found, rfl⟩

/-- What is read as a value is a scalar, an array or an object of what is read with less depth left, or a number
that an object spells. -/
theorem value_induction {motive : Nat → Outline → Json → Prop} (null : ∀ depth, motive depth .null .null)
    (bool : ∀ depth b, motive depth (.bool b) (.bool b)) (number : ∀ depth l, motive depth (.number l) (.number l))
    (string : ∀ depth s, motive depth (.string (some s)) (.string s))
    (array : ∀ depth outlines items, outlines.mapM (value depth) = .ok items →
      (∀ o j, value depth o = .ok j → motive depth o j) → motive (depth + 1) (.array outlines) (.array items))
    (spelled : ∀ depth s l, Literal.ofText? s = some l →
      motive (depth + 1) (.object [(some numberKey, .string (some s))]) (.number l))
    (object : ∀ depth outlines members, ¬ standsForNumber outlines = true →
      outlines.mapM (member (value depth)) = .ok members → (∀ o j, value depth o = .ok j → motive depth o j) →
      motive (depth + 1) (.object outlines) (.object (Entries.ofList members)))
    {depth : Nat} {o : Outline} {j : Json} (read : value depth o = .ok j) : motive depth o j := by
  induction depth generalizing o j with
  | zero =>
    cases o with
    | null => cases read; exact null 0
    | bool b => cases read; exact bool 0 b
    | number l => cases read; exact number 0 l
    | string text => cases text <;> cases read; exact string 0 _
    | _ => cases read
  | succ depth ih =>
    cases o with
    | null => cases read; exact null _
    | bool b => cases read; exact bool _ b
    | number l => cases read; exact number _ l
    | string text => cases text <;> cases read; exact string _ _
    | array outlines =>
      rw [value] at read
      obtain ⟨items, inside, rfl⟩ := map_eq_ok.mp read
      exact array depth outlines items inside fun _ _ => ih
    | object outlines =>
      rw [value] at read
      split at read
      · rename_i first
        obtain ⟨key, s, l, rfl, numeral, rfl⟩ := exists_number_of_spelledNumber read
        obtain rfl : key = some numberKey := beq_iff_eq.mp first
        exact spelled depth s l numeral
      · rename_i ordinary
        obtain ⟨members, inside, rfl⟩ := map_eq_ok.mp read
        exact object depth outlines members ordinary inside fun _ _ => ih
    | broken => cases read

theorem accepted_value {depth : Nat} {o : Outline} {j : Json} (read : value depth o = .ok j) :
    j.nesting ≤ depth ∧ j.Ordered := by
  refine value_induction (motive := fun depth _ j => j.nesting ≤ depth ∧ j.Ordered) ?null ?bool ?number ?string
    ?array ?spelled ?object read
  case null | bool | number | string | spelled => intros; exact ⟨Nat.zero_le _, trivial⟩
  case array =>
    intro depth outlines items inside ih
    obtain ⟨low, ordered⟩ := accepted_items ih inside
    exact ⟨Nat.succ_le_succ low, ordered⟩
  case object => exact fun depth outlines members _ inside ih => accepted_members ih inside

theorem accepted_entries {depth : Nat} {o : Outline} {members : List (String × Json)}
    (read : entries value depth o = .ok members) :
    (object members).nesting ≤ depth ∧ (object members).Ordered := by
  cases depth with
  | zero => cases o <;> cases read
  | succ depth =>
    cases o with
    | object outlines =>
      obtain ⟨_, inside, rfl⟩ := map_eq_ok.mp read
      exact accepted_members (fun _ _ => accepted_value) inside
    | _ => cases read

end Decoder

theorem read_eq_ok_iff {α : Type} {decoder : Decoder α} {bytes : Bytes} {a : α} :
    read decoder bytes = .ok a ↔
      ∃ o, Outline.ofBytes bytes = (o, true) ∧ decoder maxDepth o = .ok a := by
  rcases found : Outline.ofBytes bytes with ⟨o, ended⟩
  simp only [read, found, bind_eq_ok]
  cases ended with
  | true =>
    constructor
    · rintro ⟨_, inside, done⟩
      cases done
      exact ⟨o, rfl, inside⟩
    · rintro ⟨_, same, inside⟩
      cases same
      exact ⟨a, inside, rfl⟩
  | false =>
    constructor
    · rintro ⟨_, -, done⟩
      cases done
    · rintro ⟨_, same, -⟩
      cases same

theorem accepted_read {bytes : Bytes} {j : Json} (accepted : read Decoder.value bytes = .ok j) :
    j.nesting ≤ maxDepth ∧ j.Ordered := by
  obtain ⟨_, -, inside⟩ := read_eq_ok_iff.mp accepted
  exact Decoder.accepted_value inside

end Attest.Json
