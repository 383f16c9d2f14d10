import Attest.Proofs.Json.Rendering

namespace Attest.Json

open Entries (under)

variable {α σ : Type}

theorem under_member? (spellings : List String) (key : String) (value : Option Json) :
    under spellings (member? key value) = if spellings.contains key then member? key value else [] := by
  cases value with
  | none => split <;> rfl
  | some value =>
    rw [member?, Option.map_some, Option.toList_some, under, List.filter_singleton, Bool.cond_eq_ite]

theorem mem_member? {key : String} {value : Option Json} {pair : String × Json} :
    pair ∈ member? key value ↔ ∃ j, value = some j ∧ pair = (key, j) := by
  cases value <;> simp [member?]

theorem keys_member?_sublist (key : String) (value : Option Json) :
    (Entries.keys (member? key value)).Sublist [key] := by
  cases value with
  | none => exact List.nil_sublist _
  | some value => exact List.Sublist.refl _

theorem ofList_member? (key : String) (value : Option Json) :
    Entries.ofList (member? key value) = member? key value := by
  cases value <;> rfl

namespace Decoder

theorem string_outline_eq_ok_iff {depth : Nat} {j : Json} {s : String} :
    string depth j.outline = .ok s ↔ j = .string s := by
  cases j <;> simp [outline, string]

theorem bool_outline_eq_ok_iff {depth : Nat} {j : Json} {b : Bool} :
    bool depth j.outline = .ok b ↔ j = .bool b := by
  cases j <;> simp [outline, bool]

theorem nat_outline_ofInt {limit depth n : Nat} (small : n ≤ limit) :
    nat limit depth (ofInt n).outline = .ok n := by
  rw [ofInt, outline, nat, if_pos]
  · rfl
  · exact ⟨rfl, by simp [Literal.ofInt], small⟩

theorem optional_outline_eq_ok_iff {d : Decoder α} {depth : Nat} {j : Json} {a : Option α} :
    optional d depth j.outline = .ok a ↔
      (j = .null ∧ a = none) ∨ (j ≠ .null ∧ ∃ b, a = some b ∧ d depth j.outline = .ok b) := by
  by_cases null : j = .null
  · subst null
    simp only [outline, optional, Except.ok.injEq, true_and, ne_eq, not_true_eq_false, false_and, or_false]
    exact eq_comm
  · have other : j.outline ≠ .null := fun same => null (outline_injective j .null same)
    rw [optional_of_ne_null other, map_eq_ok]
    simp only [null, false_and, false_or, ne_eq, not_false_eq_true, true_and]
    constructor
    · rintro ⟨b, read, rfl⟩
      exact ⟨b, rfl, read⟩
    · rintro ⟨b, rfl, read⟩
      exact ⟨b, read, rfl⟩

theorem optionalString_outline_eq_ok_iff {depth : Nat} {j : Json} {text : Option String} :
    optional string depth j.outline = .ok text ↔ j = text.elim .null .string := by
  rw [optional_outline_eq_ok_iff]
  constructor
  · rintro (⟨rfl, rfl⟩ | ⟨-, s, rfl, read⟩)
    · rfl
    · exact string_outline_eq_ok_iff.mp read
  · rintro rfl
    cases text with
    | none => exact .inl ⟨rfl, rfl⟩
    | some s => exact .inr ⟨by simp, s, rfl, string_outline_eq_ok_iff.mpr rfl⟩

theorem list_outline_eq_ok_iff {d : Decoder α} {depth : Nat} {j : Json} {as : List α} :
    list d (depth + 1) j.outline = .ok as ↔
      ∃ items, j = .array items ∧ List.Forall₂ (fun item a => d depth item.outline = .ok a) items as := by
  cases j with
  | array items =>
    rw [outline, list, mapM_eq_ok_iff, outlineOfItems_eq_map, List.forall₂_map_left_iff]
    constructor
    · exact fun related => ⟨items, rfl, related⟩
    · rintro ⟨_, same, related⟩
      cases same
      exact related
  | _ =>
    constructor
    · intro read
      cases read
    · rintro ⟨_, same, -⟩
      cases same

theorem list_outline_map {d : Decoder α} {w : α → Json} {depth : Nat} {as : List α}
    (back : ∀ a ∈ as, d depth (w a).outline = .ok a) :
    list d (depth + 1) (array (as.map w)).outline = .ok as :=
  list_outline_eq_ok_iff.mpr ⟨_, rfl, List.forall₂_map_left_iff.mpr (List.forall₂_same.mpr back)⟩

theorem eq_array_of_list {d : Decoder α} {w : α → Json} {depth : Nat} {j : Json} {as : List α}
    (each : ∀ items, j = .array items → ∀ item ∈ items, ∀ depth a, d depth item.outline = .ok a → item = w a)
    (read : list d depth j.outline = .ok as) : j = .array (as.map w) := by
  cases depth with
  | zero => cases j <;> cases read
  | succ depth =>
    obtain ⟨items, rfl, related⟩ := list_outline_eq_ok_iff.mp read
    have same := each items rfl
    clear each read
    apply congrArg Json.array
    induction related with
    | nil => rfl
    | cons first _ ih =>
      obtain ⟨here, others⟩ := List.forall_mem_cons.mp same
      rw [here _ _ first, ih others, List.map_cons]

theorem eq_ofStrings_of_list {depth : Nat} {j : Json} {texts : List String}
    (read : list string depth j.outline = .ok texts) : j = .ofStrings texts :=
  eq_array_of_list (fun _ _ _ _ _ _ => string_outline_eq_ok_iff.mp) read

theorem list_outline_ofStrings {depth : Nat} (texts : List String) :
    list string (depth + 1) (ofStrings texts).outline = .ok texts :=
  list_outline_map fun _ _ => string_outline_eq_ok_iff.mpr rfl

theorem content_mono {depth more : Nat} (le : depth ≤ more) {o : Outline} {j : Json}
    (read : content depth o = .ok j) : content more o = .ok j := by
  induction depth generalizing more o j with
  | zero => cases content_eq_ok_iff.mp read <;> (apply content_eq_ok_iff.mpr; constructor)
  | succ depth ih =>
    obtain ⟨more, rfl⟩ := Nat.exists_eq_add_of_le' (Nat.le_trans (Nat.succ_le_succ (Nat.zero_le _)) le)
    have lower := Nat.le_of_succ_le_succ le
    apply content_eq_ok_iff.mpr
    cases content_eq_ok_iff.mp read with
    | null | bool | number | string => constructor
    | array inside => exact .array (inside.imp fun _ _ read => ih lower read)
    | object inside => exact .object (inside.imp fun _ _ reads => ⟨reads.1, ih lower reads.2⟩)

theorem content_outline_eq_ok_iff {depth : Nat} {j k : Json} (ordered : j.Ordered) :
    content depth j.outline = .ok k ↔ k = j ∧ j.nesting ≤ depth := by
  constructor
  · intro read
    have deeper := content_mono (Nat.le_max_left depth j.nesting) read
    have own := content_outline j (Nat.le_max_right depth j.nesting) ordered
    cases deeper.symm.trans own
    exact ⟨rfl, (accepted_content read).1⟩
  · rintro ⟨rfl, shallow⟩
    exact content_outline k shallow ordered

theorem entries_outline_eq_ok_iff {depth : Nat} {j : Json} (ordered : j.Ordered)
    {members : List (String × Json)} :
    entries content depth j.outline = .ok members ↔ j = .object members ∧ j.nesting ≤ depth := by
  rw [entries_eq_ok_iff, content_outline_eq_ok_iff ordered, eq_comm]

end Decoder

/-- What a field is set to: what the entry under its key is read as, or what it was without one. -/
def Yields (d : Decoder α) (depth : Nat) : (own : List (String × Json)) → (was a : α) → Prop
  | [], was, a => a = was
  | (_, j) :: _, _, a => d depth j.outline = .ok a

section

variable {d : Decoder α} {w : α → Json} {depth : Nat} {name : String} {members : List (String × Json)}

theorem yields_optional {a : Option α} (present : ∀ b, w b ≠ .null)
    (back : ∀ b, a = some b → d depth (w b).outline = .ok b) :
    Yields (Decoder.optional d) depth (member? name (a.map w)) none a := by
  cases a with
  | none => rfl
  | some b => exact Decoder.optional_outline_eq_ok_iff.mpr (.inr ⟨present b, b, rfl, back b rfl⟩)

theorem yields_optionalString (text : Option String) :
    Yields (.optional .string) depth (member? name (text.map .string)) none text :=
  yields_optional (by simp) fun _ _ => Decoder.string_outline_eq_ok_iff.mpr rfl

variable (ascending : Entries.Ascending members)

include ascending

theorem under_cases : (name ∉ Entries.keys members ∧ under [name] members = []) ∨
    ∃ j, (name, j) ∈ members ∧ under [name] members = [(name, j)] := by
  have single : (under [name] members).length ≤ 1 := Entries.length_under_le_one ascending
  cases found : under [name] members with
  | nil =>
    refine .inl ⟨fun there => ?_, rfl⟩
    obtain ⟨member, inside, same⟩ := List.mem_map.mp there
    have own : member ∈ under [name] members := Entries.mem_under.mpr ⟨inside, List.mem_singleton.mpr same⟩
    rw [found] at own
    cases own
  | cons member more =>
    obtain ⟨key, j⟩ := member
    have own : (key, j) ∈ under [name] members := found ▸ List.mem_cons_self
    obtain ⟨inside, spelled⟩ := Entries.mem_under.mp own
    obtain rfl : key = name := List.mem_singleton.mp spelled
    rw [found, List.length_cons] at single
    obtain rfl := List.length_eq_zero_iff.mp (Nat.le_zero.mp (Nat.le_of_succ_le_succ single))
    exact .inr ⟨j, inside, rfl⟩

theorem under_of_yields {was a : α} (there : name ∈ Entries.keys members)
    (yields : Yields d depth (under [name] members) was a)
    (back : ∀ j, (name, j) ∈ members → d depth j.outline = .ok a → j = w a) :
    under [name] members = [(name, w a)] := by
  rcases under_cases ascending with ⟨absent, -⟩ | ⟨j, inside, alone⟩
  · exact absurd there absent
  · rw [alone] at yields ⊢
    rw [back j inside yields]

theorem under_of_yields_optional {a : Option α} (present : ∀ member ∈ members, member.2 ≠ .null)
    (yields : Yields (Decoder.optional d) depth (under [name] members) none a)
    (back : ∀ j b, (name, j) ∈ members → d depth j.outline = .ok b → j = w b) :
    under [name] members = member? name (a.map w) := by
  rcases under_cases ascending with ⟨-, none⟩ | ⟨j, inside, alone⟩
  · rw [none] at yields ⊢
    cases yields
    rfl
  · rw [alone] at yields ⊢
    rcases Decoder.optional_outline_eq_ok_iff.mp yields with ⟨null, -⟩ | ⟨-, b, rfl, read⟩
    · exact absurd null (present _ inside)
    · rw [back j b inside read]
      rfl

theorem under_of_yields_string {was s : String} (there : name ∈ Entries.keys members)
    (yields : Yields Decoder.string depth (under [name] members) was s) :
    under [name] members = [(name, .string s)] :=
  under_of_yields ascending there yields fun _ _ => Decoder.string_outline_eq_ok_iff.mp

theorem under_of_yields_optionalString {text : Option String}
    (present : ∀ member ∈ members, member.2 ≠ .null)
    (yields : Yields (.optional .string) depth (under [name] members) none text) :
    under [name] members = member? name (text.map .string) :=
  under_of_yields_optional ascending present yields fun _ _ _ => Decoder.string_outline_eq_ok_iff.mp

end

theorem ordered_ofMembers {pairs : List (String × Json)} (each : ∀ pair ∈ pairs, pair.2.Ordered) :
    (ofMembers pairs).Ordered := by
  refine ⟨Entries.ascending_ofList pairs, orderedMembers_iff.mpr fun member there => ?_⟩
  exact each member (Entries.mem_of_mem_ofList there)

theorem nesting_ofMembers_le {pairs : List (String × Json)} {depth : Nat}
    (each : ∀ pair ∈ pairs, pair.2.nesting ≤ depth) : (ofMembers pairs).nesting ≤ depth + 1 := by
  apply Nat.succ_le_succ
  apply nestingOfMembers_le_iff.mpr
  exact fun member there => each member (Entries.mem_of_mem_ofList there)

theorem nesting_array_le {items : List Json} {depth : Nat} (each : ∀ item ∈ items, item.nesting ≤ depth) :
    (array items).nesting ≤ depth + 1 :=
  Nat.succ_le_succ (nestingOfItems_le_iff.mpr each)

theorem ordered_ofStrings (texts : List String) : (ofStrings texts).Ordered := by
  refine orderedItems_iff.mpr fun item there => ?_
  obtain ⟨s, -, rfl⟩ := List.mem_map.mp there
  trivial

theorem nesting_ofStrings_le (texts : List String) : (ofStrings texts).nesting ≤ 1 := by
  apply nesting_array_le
  intro item there
  obtain ⟨s, -, rfl⟩ := List.mem_map.mp there
  exact Nat.zero_le 0

namespace Record

variable {fields : List (Field σ)} {depth : Nat} {members : List (String × Json)}

theorem Field.own_eq_under (fld : Field σ) (pairs : List (String × α)) :
    fld.own pairs = under fld.spellings pairs := rfl

theorem own_of_named (orderly : Orderly fields) (named : ∀ member ∈ members, member.1 ∈ fields.map Field.name)
    {fld : Field σ} (known : fld ∈ fields) : fld.own members = under [fld.name] members := by
  rw [fld.own_eq_under]
  apply Entries.under_congr
  intro member there
  rw [List.mem_singleton]
  constructor
  · intro spelled
    obtain ⟨g, inside, same⟩ := List.mem_map.mp (named member there)
    have own : member.1 ∈ g.spellings := same ▸ List.mem_cons_self
    rw [orderly.eq_of_spelling known inside spelled own, same]
  · rintro same
    rw [same]
    exact List.mem_cons_self

theorem gather_field {d : Decoder α} {set : α → σ → σ} (g : σ → α) {name : String}
    {aliases : List String} {required : Bool} {r r' : σ} (restore : ∀ r, set (g r) r = r := by intros; rfl) :
    gather (⟨name, aliases, required, fun depth o => set <$> d depth o⟩ :: fields) depth
        (outlineOfMembers members) r = .ok r' ↔
      ∃ a, Yields d depth (under (name :: aliases) members) (g r) a ∧
        gather fields depth (outlineOfMembers members) (set a r) = .ok r' := by
  let fld : Field σ := ⟨name, aliases, required, fun depth o => set <$> d depth o⟩
  have own := fld.among_outlineOfMembers members
  rw [fld.own_eq_under] at own
  rw [gather_cons, bind_eq_ok]
  cases found : under (name :: aliases) members with
  | nil =>
    rw [show under fld.spellings members = [] from found] at own
    rw [readField_of_nil own]
    -- The record stays as it was, which is what setting the field to its own value leaves.
    constructor
    · rintro ⟨_, done, rest⟩
      cases done
      exact ⟨g r, rfl, (restore r).symm ▸ rest⟩
    · rintro ⟨_, rfl, rest⟩
      exact ⟨r, rfl, restore r ▸ rest⟩
  | cons member more =>
    obtain ⟨key, j⟩ := member
    rw [show under fld.spellings members = (key, j) :: more from found] at own
    rw [readField_of_cons own]
    constructor
    · rintro ⟨_, done, rest⟩
      obtain ⟨_, made, rfl⟩ := map_eq_ok.mp done
      obtain ⟨a, read, rfl⟩ := map_eq_ok.mp made
      exact ⟨a, read, rest⟩
    · rintro ⟨a, read, rest⟩
      exact ⟨set a r, map_eq_ok.mpr ⟨set a, map_eq_ok.mpr ⟨a, read, rfl⟩, rfl⟩, rest⟩

theorem decode_outline_eq_ok_iff (orderly : Orderly fields) {blank r : σ} :
    decode fields blank (depth + 1) (object members).outline = .ok r ↔
      (∀ fld ∈ fields, (fld.own members).length ≤ 1) ∧
        gather fields depth (outlineOfMembers members) blank = .ok r ∧
        ∀ fld ∈ fields, fld.required → fld.own members ≠ [] := by
  have length : ∀ fld : Field σ, (fld.among (outlineOfMembers members)).length = (fld.own members).length := by
    intro fld
    rw [fld.among_outlineOfMembers, outlineOfMembers_eq_map, List.length_map]
  rw [outline, decode_object_eq_ok_iff orderly]
  constructor
  · rintro ⟨legible, gathered, needed⟩
    refine ⟨fun fld known => length fld ▸ legible.once fld known, gathered, fun fld known required none => ?_⟩
    apply needed fld known required
    rw [fld.among_outlineOfMembers, none]
    rfl
  · rintro ⟨once, gathered, needed⟩
    refine ⟨legible_outlineOfMembers once, gathered, fun fld known required none => ?_⟩
    apply needed fld known required
    rw [← List.length_eq_zero_iff, ← length, none]
    rfl

theorem gathered_of_decode (orderly : Orderly fields) {blank r : σ}
    (read : decode fields blank depth (object members).outline = .ok r) :
    ∃ inner, (∀ fld ∈ fields, (fld.own members).length ≤ 1) ∧
      gather fields inner (outlineOfMembers members) blank = .ok r := by
  cases depth with
  | zero => cases read
  | succ inner =>
    obtain ⟨once, gathered, -⟩ := (decode_outline_eq_ok_iff orderly).mp read
    exact ⟨inner, once, gathered⟩

theorem decode_ofMembers (orderly : Orderly fields) {pairs : List (String × Json)}
    (named : ∀ pair ∈ pairs, pair.1 ∈ fields.map Field.name) (ordered : (ofMembers pairs).Ordered)
    {blank r : σ} (read : gather fields depth (outlineOfMembers (Entries.ofList pairs)) blank = .ok r)
    (needed : ∀ fld ∈ fields, fld.required → under [fld.name] (Entries.ofList pairs) ≠ []) :
    decode fields blank (depth + 1) (ofMembers pairs).outline = .ok r := by
  obtain ⟨ascending, -⟩ := ordered
  have named' : ∀ member ∈ Entries.ofList pairs, member.1 ∈ fields.map Field.name :=
    fun member there => named member (Entries.mem_of_mem_ofList there)
  apply (decode_outline_eq_ok_iff orderly).mpr
  refine ⟨fun fld known => ?_, read, fun fld known required => ?_⟩
  · rw [own_of_named orderly named' known]
    exact Entries.length_under_le_one ascending
  · rw [own_of_named orderly named' known]
    exact needed fld known required

end Record
end Attest.Json
