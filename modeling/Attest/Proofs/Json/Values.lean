import Attest.Proofs.Json.Accepted

namespace Attest.Json.Decoder

variable {α : Type}

theorem member_eq_ok_iff {decode : Outline → Except Fault α} {m : Option String × Outline}
    {entry : String × α} :
    member decode m = .ok entry ↔ m.1 = some entry.1 ∧ decode m.2 = .ok entry.2 := by
  obtain ⟨key, o⟩ := m
  obtain ⟨k, a⟩ := entry
  cases key with
  | none => simp [member]
  | some key => simp [member, map_eq_ok, and_comm]

/-- The member is read as this entry. -/
def Reads (decode : Outline → Except Fault Json) (m : Option String × Outline) (entry : String × Json) : Prop :=
  m.1 = some entry.1 ∧ decode m.2 = .ok entry.2

inductive Reading : (depth : Nat) → Outline → Json → Prop where
  | null (depth : Nat) : Reading depth .null .null
  | bool (depth : Nat) (b : Bool) : Reading depth (.bool b) (.bool b)
  | number (depth : Nat) (l : Literal) : Reading depth (.number l) (.number l)
  | string (depth : Nat) (s : String) : Reading depth (.string (some s)) (.string s)
  | array {depth : Nat} {outlines : List Outline} {items : List Json}
      (inside : List.Forall₂ (fun o j => content depth o = .ok j) outlines items) :
      Reading (depth + 1) (.array outlines) (.array items)
  | object {depth : Nat} {outlines : List (Option String × Outline)} {pairs : List (String × Json)}
      (inside : List.Forall₂ (Reads (content depth)) outlines pairs) :
      Reading (depth + 1) (.object outlines) (.object (Entries.ofList pairs))

theorem forall₂_reads_iff {decode : Outline → Except Fault Json} {outlines : List (Option String × Outline)}
    {pairs : List (String × Json)} :
    outlines.mapM (member decode) = .ok pairs ↔ List.Forall₂ (Reads decode) outlines pairs := by
  rw [mapM_eq_ok_iff]
  constructor <;> exact List.Forall₂.imp fun _ _ => by simp only [member_eq_ok_iff, Reads, imp_self]

theorem keys_of_reads {decode : Outline → Except Fault Json} {members : List (Option String × Outline)}
    {pairs : List (String × Json)} (inside : List.Forall₂ (Reads decode) members pairs) :
    members.map Prod.fst = (Entries.keys pairs).map some := by
  induction inside with
  | nil => rfl
  | cons first _ ih =>
    rw [List.map_cons, ih, first.1]
    rfl

theorem content_eq_ok_iff {depth : Nat} {o : Outline} {j : Json} :
    content depth o = .ok j ↔ Reading depth o j := by
  constructor
  · intro read
    cases o with
    | null =>
      cases depth <;> cases read <;> exact .null _
    | bool b =>
      cases depth <;> cases read <;> exact .bool _ b
    | number l =>
      cases depth <;> cases read <;> exact .number _ l
    | string text =>
      cases text with
      | none => cases depth <;> cases read
      | some s => cases depth <;> cases read <;> exact .string _ s
    | array outlines =>
      cases depth with
      | zero => cases read
      | succ depth =>
        rw [content] at read
        obtain ⟨items, inside, rfl⟩ := map_eq_ok.mp read
        exact .array (mapM_eq_ok_iff.mp inside)
    | object outlines =>
      cases depth with
      | zero => cases read
      | succ depth =>
        rw [content] at read
        obtain ⟨pairs, inside, rfl⟩ := map_eq_ok.mp read
        exact .object (forall₂_reads_iff.mp inside)
    | broken => cases depth <;> cases read
  · intro reading
    cases reading with
    | null | bool | number | string => cases depth <;> rfl
    | array inside =>
      rw [content, mapM_eq_ok_iff.mpr inside]
      rfl
    | object inside =>
      rw [content, forall₂_reads_iff.mpr inside]
      rfl

section

variable {depth : Nat} {o : Outline}

theorem eq_null_of_content (read : content depth o = .ok .null) : o = .null := by
  cases content_eq_ok_iff.mp read
  rfl

theorem eq_bool_of_content {b : Bool} (read : content depth o = .ok (.bool b)) : o = .bool b := by
  cases content_eq_ok_iff.mp read
  rfl

theorem eq_number_of_content {l : Literal} (read : content depth o = .ok (.number l)) : o = .number l := by
  cases content_eq_ok_iff.mp read
  rfl

theorem eq_string_of_content {s : String} (read : content depth o = .ok (.string s)) :
    o = .string (some s) := by
  cases content_eq_ok_iff.mp read
  rfl

theorem eq_array_of_content {items : List Json} (read : content (depth + 1) o = .ok (.array items)) :
    ∃ outlines, o = .array outlines ∧
      List.Forall₂ (fun o j => content depth o = .ok j) outlines items := by
  cases content_eq_ok_iff.mp read with
  | array inside => exact ⟨_, rfl, inside⟩

theorem eq_object_of_content {members : List (String × Json)}
    (read : content (depth + 1) o = .ok (.object members)) :
    ∃ outlines pairs, o = .object outlines ∧ List.Forall₂ (Reads (content depth)) outlines pairs ∧
      members = Entries.ofList pairs := by
  cases content_eq_ok_iff.mp read with
  | object inside => exact ⟨_, _, rfl, inside, rfl⟩

end

theorem entries_eq_ok_iff {depth : Nat} {o : Outline} {members : List (String × Json)} :
    entries content depth o = .ok members ↔ content depth o = .ok (.object members) := by
  cases depth with
  | zero => rcases o with _ | _ | _ | (_ | _) | _ | _ | _ <;> simp [entries, content]
  | succ depth => rcases o with _ | _ | _ | (_ | _) | _ | _ | _ <;> simp [entries, content, map_eq_ok]

theorem of_optional {d : Decoder α} {depth : Nat} {o : Outline} {a : α}
    (read : optional d depth o = .ok (some a)) : d depth o = .ok a := by
  cases o with
  | null => cases read
  | _ =>
    obtain ⟨_, inside, same⟩ := map_eq_ok.mp read
    exact Option.some.inj same ▸ inside

theorem exists_of_mem_list {d : Decoder α} {depth : Nat} {o : Outline} {as : List α}
    (read : list d (depth + 1) o = .ok as) {a : α} (there : a ∈ as) : ∃ o', d depth o' = .ok a := by
  cases o with
  | array items =>
    obtain ⟨o', -, inside⟩ := exists_of_mem_mapM read there
    exact ⟨o', inside⟩
  | _ => cases read

end Attest.Json.Decoder

namespace Attest.Json.Outline

theorem allWhole_iff {items : List Outline} :
    allWhole items = true ↔ ∀ item ∈ items, item.isWhole = true := by
  induction items with
  | nil => simp [allWhole]
  | cons item items ih => simp [allWhole, ih]

theorem allWholeMembers_iff {members : List (Option String × Outline)} :
    allWholeMembers members = true ↔ ∀ member ∈ members, member.2.isWhole = true := by
  induction members with
  | nil => simp [allWholeMembers]
  | cons member members ih => simp [allWholeMembers, ih]

theorem isWhole_of_content {depth : Nat} {o : Outline} {j : Json}
    (read : Decoder.content depth o = .ok j) : o.isWhole = true := by
  induction depth generalizing o j with
  | zero => cases Decoder.content_eq_ok_iff.mp read <;> rfl
  | succ depth ih =>
    cases Decoder.content_eq_ok_iff.mp read with
    | null | bool | number | string => rfl
    | array inside =>
      apply allWhole_iff.mpr
      intro item there
      obtain ⟨_, -, read⟩ := exists_of_mem_forall₂ inside there
      exact ih read
    | object inside =>
      apply allWholeMembers_iff.mpr
      intro member there
      obtain ⟨_, -, -, read⟩ := exists_of_mem_forall₂ inside there
      exact ih read

mutual

def Distinct : Outline → Prop
  | .array items => DistinctItems items
  | .object members => (members.map Prod.fst).Nodup ∧ DistinctMembers members
  | _ => True

def DistinctItems : List Outline → Prop
  | [] => True
  | item :: items => item.Distinct ∧ DistinctItems items

def DistinctMembers : List (Option String × Outline) → Prop
  | [] => True
  | (_, item) :: members => item.Distinct ∧ DistinctMembers members

end

theorem distinctItems_iff {items : List Outline} :
    DistinctItems items ↔ ∀ item ∈ items, item.Distinct := by
  induction items with
  | nil => simp [DistinctItems]
  | cons item items ih => simp [DistinctItems, ih]

theorem distinctMembers_iff {members : List (Option String × Outline)} :
    DistinctMembers members ↔ ∀ member ∈ members, member.2.Distinct := by
  induction members with
  | nil => simp [DistinctMembers]
  | cons member members ih => simp [DistinctMembers, ih]

end Attest.Json.Outline
