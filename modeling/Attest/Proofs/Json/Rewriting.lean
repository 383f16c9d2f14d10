import Attest.Proofs.Json.Record
import Attest.Proofs.Json.Values

namespace Attest.Json

structure Rewriting (f : Json → Json) : Prop where
  null : f .null = .null
  bool : ∀ b, f (.bool b) = .bool b
  string : ∀ s, f (.string s) = .string s
  array : ∀ items, f (.array items) = .array (items.map f)
  object : ∀ members, Entries.Ascending members →
    f (.object members) = .object (Entries.mapValues f members)

theorem rewriting_id : Rewriting id := by
  refine ⟨rfl, fun _ => rfl, fun _ => rfl, fun items => ?_, fun members _ => ?_⟩
  · simp
  · simp [Entries.mapValues]

variable {α β σ : Type} {f : Json → Json}

namespace Record.Field

def own (fld : Field σ) (pairs : List (String × α)) : List (String × α) :=
  pairs.filter fun pair => fld.answersTo pair.1

variable (fld : Field σ)

theorem own_ofList (pairs : List (String × α)) :
    fld.own (Entries.ofList pairs) = Entries.ofList (fld.own pairs) :=
  Entries.filter_ofList fld.answersTo pairs

theorem own_mapValues (g : α → β) (pairs : List (String × α)) :
    fld.own (Entries.mapValues g pairs) = Entries.mapValues g (fld.own pairs) :=
  Entries.filter_mapValues g fld.answersTo pairs

theorem nodup_own {pairs : List (String × α)} (nodup : (Entries.keys pairs).Nodup) :
    (Entries.keys (fld.own pairs)).Nodup :=
  nodup.sublist (List.filter_sublist.map Prod.fst)

end Record.Field

namespace Decoder

/-- The second outline is written for the rewritten value of the first. -/
structure Rewritten (f : Json → Json) (depth : Nat) (o o' : Outline) : Prop where
  read : ∃ j, content depth o = .ok j ∧ content depth o' = .ok (f j)
  distinct : o'.Distinct

def Respects (f : Json → Json) (g : α → α) (d : Decoder α) : Prop :=
  ∀ ⦃depth o o' a⦄, Rewritten f depth o o' → d depth o = .ok a → d depth o' = .ok (g a)

theorem respects_string (rewriting : Rewriting f) : Respects f id string := by
  rintro depth o o' s ⟨⟨j, before, after⟩, -⟩ read
  cases o with
  | string text =>
    cases text with
    | none => cases read
    | some s =>
      cases read
      cases content_eq_ok_iff.mp before
      rw [rewriting.string] at after
      rw [eq_string_of_content after]
      rfl
  | _ => cases read

theorem respects_bool (rewriting : Rewriting f) : Respects f id bool := by
  rintro depth o o' b ⟨⟨j, before, after⟩, -⟩ read
  cases o with
  | bool b =>
    cases read
    cases content_eq_ok_iff.mp before
    rw [rewriting.bool] at after
    rw [eq_bool_of_content after]
    rfl
  | _ => cases read

theorem respects_nat (limit : Nat) : Respects id id (nat limit) := by
  rintro depth o o' n ⟨⟨j, before, after⟩, -⟩ read
  cases o with
  | number l =>
    cases content_eq_ok_iff.mp before
    rw [eq_number_of_content after]
    exact read
  | _ => cases read

theorem optional_of_ne_null {d : Decoder α} {depth : Nat} {o : Outline} (other : o ≠ .null) :
    optional d depth o = some <$> d depth o := by
  cases o <;> first | exact absurd rfl other | rfl

theorem respects_optional (rewriting : Rewriting f) {g : α → α} {d : Decoder α} (respects : Respects f g d)
    (refuses : ∀ depth a, d depth .null ≠ .ok a) : Respects f (Option.map g) (optional d) := by
  intro depth o o' a rewritten read
  obtain ⟨j, before, after⟩ := rewritten.read
  by_cases null : o = .null
  · subst null
    cases read
    cases content_eq_ok_iff.mp before
    rw [rewriting.null] at after
    rw [eq_null_of_content after]
    rfl
  · rw [optional_of_ne_null null] at read
    obtain ⟨b, inside, rfl⟩ := map_eq_ok.mp read
    have again := respects rewritten inside
    have other : o' ≠ .null := by
      rintro rfl
      exact refuses depth (g b) again
    rw [optional_of_ne_null other, again]
    rfl

/-- Where nothing is rewritten, null stays null, also for a reader that would make something of it. -/
theorem respects_optional_id {d : Decoder α} (respects : Respects id id d) : Respects id id (optional d) := by
  intro depth o o' a rewritten read
  obtain ⟨j, before, after⟩ := rewritten.read
  by_cases null : o = .null
  · subst null
    cases content_eq_ok_iff.mp before
    rw [eq_null_of_content after]
    exact read
  · rw [optional_of_ne_null null] at read
    obtain ⟨b, inside, rfl⟩ := map_eq_ok.mp read
    have other : o' ≠ .null := by
      rintro rfl
      cases content_eq_ok_iff.mp after
      exact null (eq_null_of_content before)
    rw [optional_of_ne_null other, respects rewritten inside]
    rfl

theorem Rewritten.items (rewriting : Rewriting f) {depth : Nat} {outlines : List Outline} {o' : Outline}
    (rewritten : Rewritten f (depth + 1) (.array outlines) o') :
    ∃ outlines', o' = .array outlines' ∧ List.Forall₂ (Rewritten f depth) outlines outlines' := by
  obtain ⟨⟨j, before, after⟩, distinct⟩ := rewritten
  cases content_eq_ok_iff.mp before with
  | array inside =>
    rw [rewriting.array] at after
    obtain ⟨outlines', rfl, inside'⟩ := eq_array_of_content after
    refine ⟨outlines', rfl, ?_⟩
    rw [List.forall₂_map_right_iff] at inside'
    have apart := Outline.distinctItems_iff.mp distinct
    clear before after distinct
    induction inside generalizing outlines' with
    | nil =>
      cases inside'
      exact .nil
    | cons first _ ih =>
      cases inside' with
      | cons again others =>
        have here := apart _ List.mem_cons_self
        exact .cons ⟨⟨_, first, again⟩, here⟩
          (ih _ others fun item there => apart item (List.mem_cons_of_mem _ there))

theorem Rewritten.members (rewriting : Rewriting f) {depth : Nat}
    {members : List (Option String × Outline)} {o' : Outline}
    (rewritten : Rewritten f (depth + 1) (.object members) o') : ∃ members', o' = .object members' := by
  obtain ⟨j, before, after⟩ := rewritten.read
  cases content_eq_ok_iff.mp before with
  | @object _ _ pairs _ =>
    rw [rewriting.object _ (Entries.ascending_ofList pairs)] at after
    obtain ⟨members', _, written, -⟩ := eq_object_of_content after
    exact ⟨members', written⟩

theorem respects_name (rewriting : Rewriting f) (names : List (String × α)) :
    Respects f id (name names) := by
  rintro depth o o' a rewritten read
  obtain ⟨⟨j, before, after⟩, distinct⟩ := rewritten
  cases o with
  | string text =>
    cases text with
    | none => cases read
    | some s =>
      cases content_eq_ok_iff.mp before
      rw [rewriting.string] at after
      rw [eq_string_of_content after]
      exact read
  | object members =>
    -- Only one member, which is null, is read; it stands alone in the other outline too.
    match depth, members, read with
    | depth + 1, [(some s, .null)], read =>
      have null : content depth .null = .ok .null := by cases depth <;> rfl
      have single : List.Forall₂ (Reads (content depth)) [(some s, .null)] [(s, .null)] := .cons ⟨rfl, null⟩ .nil
      cases (content_eq_ok_iff.mpr (.object single)).symm.trans before
      rw [rewriting.object _ (Entries.ascending_ofList _)] at after
      obtain ⟨members', pairs, rfl, inside, same⟩ := eq_object_of_content after
      obtain ⟨keyed, -⟩ := distinct
      rw [keys_of_reads inside] at keyed
      have moved := Entries.perm_ofList (.of_map _ keyed)
      rw [← same] at moved
      have alone : [(s, f .null)] = pairs := List.singleton_perm.mp moved
      rw [← alone, rewriting.null] at inside
      cases inside with
      | @cons m _ _ _ reads none =>
        cases none
        have only : m = (some s, .null) := Prod.ext reads.1 (eq_null_of_content reads.2)
        rw [only]
        exact read
  | _ => cases read

theorem reads_among {depth : Nat} {members : List (Option String × Outline)}
    {pairs : List (String × Json)} (inside : List.Forall₂ (Reads (content depth)) members pairs)
    (fld : Record.Field σ) : List.Forall₂ (Reads (content depth)) (fld.among members) (fld.own pairs) := by
  refine List.rel_filter (fun m pair reads => ?_) inside
  simp only [Record.Field.holds, reads.1, Option.any_some]

/-- Where at most one member stands under a field's key, its rewritten value stands there as well, and
no other. -/
theorem Rewritten.among (rewriting : Rewriting f) {depth : Nat}
    {members members' : List (Option String × Outline)}
    (rewritten : Rewritten f (depth + 1) (.object members) (.object members'))
    {fld : Record.Field σ} (once : (fld.among members).length ≤ 1) :
    (fld.among members = [] ∧ fld.among members' = []) ∨
      ∃ m m', fld.among members = [m] ∧ fld.among members' = [m'] ∧ Rewritten f depth m.2 m'.2 := by
  obtain ⟨⟨j, before, after⟩, keyed, distinct⟩ := rewritten
  cases content_eq_ok_iff.mp before with
  | @object _ _ pairs inside =>
    rw [rewriting.object _ (Entries.ascending_ofList pairs)] at after
    obtain ⟨_, pairs', ⟨⟩, inside', same⟩ := eq_object_of_content after
    have own := reads_among inside fld
    have own' := reads_among inside' fld
    rw [keys_of_reads inside'] at keyed
    -- The reader sorts the members; under one key there is nothing to sort.
    have moved : (Entries.mapValues f (Entries.ofList (fld.own pairs))).Perm (fld.own pairs') := by
      rw [← fld.own_ofList, ← fld.own_mapValues, same, fld.own_ofList]
      exact Entries.perm_ofList (fld.nodup_own (.of_map _ keyed))
    cases found : fld.among members with
    | nil =>
      rw [found, List.forall₂_nil_left_iff] at own
      rw [own] at moved
      rw [List.nil_perm.mp moved, List.forall₂_nil_right_iff] at own'
      exact .inl ⟨rfl, own'⟩
    | cons m more =>
      rw [found, List.length_cons] at once
      obtain rfl := List.length_eq_zero_iff.mp (Nat.le_zero.mp (Nat.le_of_succ_le_succ once))
      rw [found] at own
      obtain ⟨pair, _, reads, none, single⟩ := List.forall₂_cons_left_iff.mp own
      rw [List.forall₂_nil_left_iff.mp none] at single
      rw [single] at moved
      have alone : [(pair.1, f pair.2)] = fld.own pairs' := List.singleton_perm.mp moved
      rw [← alone] at own'
      obtain ⟨m', _, reads', none', single'⟩ := List.forall₂_cons_right_iff.mp own'
      rw [List.forall₂_nil_right_iff.mp none'] at single'
      have there : m' ∈ members' := List.mem_of_mem_filter (single' ▸ List.mem_cons_self)
      exact .inr ⟨m, m', rfl, single', ⟨_, reads.2, reads'.2⟩,
        Outline.distinctMembers_iff.mp distinct m' there⟩

theorem respects_list (rewriting : Rewriting f) {g : α → α} {d : Decoder α} (respects : Respects f g d) :
    Respects f (List.map g) (list d) := by
  rintro depth o o' a rewritten read
  cases depth with
  | zero => cases o <;> cases read
  | succ depth =>
    cases o with
    | array outlines =>
      obtain ⟨outlines', rfl, inside⟩ := rewritten.items rewriting
      rw [list, mapM_eq_ok_iff] at read ⊢
      clear rewritten
      induction inside generalizing a with
      | nil =>
        cases read
        exact .nil
      | cons first _ ih =>
        cases read with
        | cons here others => exact .cons (respects first here) (ih others)
    | _ => cases read

theorem respects_entries (rewriting : Rewriting f) :
    Respects f (Entries.mapValues f) (entries content) := by
  rintro depth o o' a ⟨⟨j, before, after⟩, -⟩ read
  cases depth with
  | zero => cases o <;> cases read
  | succ depth =>
    cases o with
    | object members =>
      rw [entries] at read
      obtain ⟨pairs, inside, rfl⟩ := map_eq_ok.mp read
      cases (content_eq_ok_iff.mpr (.object (forall₂_reads_iff.mp inside))).symm.trans before
      rw [rewriting.object _ (Entries.ascending_ofList pairs)] at after
      obtain ⟨_, pairs', rfl, inside', same⟩ := eq_object_of_content after
      rw [entries, forall₂_reads_iff.mpr inside', same]
      rfl
    | _ => cases read

end Decoder

namespace Record

variable {g : σ → σ}

def Field.Respects (f : Json → Json) (g : σ → σ) (fld : Field σ) : Prop :=
  ∀ ⦃depth o o' change⦄, Decoder.Rewritten f depth o o' → fld.decode depth o = .ok change →
    ∃ change', fld.decode depth o' = .ok change' ∧ ∀ r, change' (g r) = g (change r)

theorem Field.respects {h : α → α} {d : Decoder α} (reads : d.Respects f h) {set : α → σ → σ}
    (sets : ∀ a r, set (h a) (g r) = g (set a r)) {name : String} {aliases : List String}
    {required : Bool} :
    Field.Respects f g ⟨name, aliases, required, fun depth o => set <$> d depth o⟩ := by
  intro depth o o' change rewritten read
  obtain ⟨a, inside, rfl⟩ := map_eq_ok.mp read
  exact ⟨set (h a), map_eq_ok.mpr ⟨h a, reads rewritten inside, rfl⟩, sets a⟩

theorem decodeItems_respects {depth : Nat} {fields : List (Field σ)}
    (each : ∀ fld ∈ fields, fld.Respects f g) {items items' : List Outline}
    (rewritten : List.Forall₂ (Decoder.Rewritten f depth) items items') {r r' : σ}
    (read : decodeItems depth fields items r = .ok r') :
    decodeItems depth fields items' (g r) = .ok (g r') := by
  induction fields generalizing items items' r with
  | nil =>
    cases rewritten with
    | nil =>
      cases read
      rfl
    | cons _ _ => cases read
  | cons fld fields ih =>
    obtain ⟨here, others⟩ := List.forall_mem_cons.mp each
    cases rewritten with
    | nil =>
      rw [decodeItems] at read ⊢
      split at read
      · cases read
      · rename_i optional
        rw [if_neg optional]
        exact ih others .nil read
    | cons first rest =>
      rw [decodeItems] at read ⊢
      obtain ⟨change, made, read⟩ := bind_eq_ok.mp read
      obtain ⟨change', made', same⟩ := here first made
      rw [made']
      have moved := ih others rest read
      rw [← same] at moved
      exact moved

section

variable {depth : Nat} {fields : List (Field σ)} {members members' : List (Option String × Outline)}

theorem gather_respects (rewriting : Rewriting f) (each : ∀ fld ∈ fields, fld.Respects f g)
    (rewritten : Decoder.Rewritten f (depth + 1) (.object members) (.object members'))
    (once : ∀ fld ∈ fields, (fld.among members).length ≤ 1) {r r' : σ}
    (read : gather fields depth members r = .ok r') :
    gather fields depth members' (g r) = .ok (g r') := by
  induction fields generalizing r with
  | nil =>
    cases read
    rfl
  | cons fld fields ih =>
    obtain ⟨here, others⟩ := List.forall_mem_cons.mp each
    obtain ⟨single, singles⟩ := List.forall_mem_cons.mp once
    rw [gather_cons] at read ⊢
    obtain ⟨next, first, rest⟩ := bind_eq_ok.mp read
    rcases rewritten.among rewriting single with
      ⟨none, none'⟩ | ⟨m, m', found, found', inside⟩
    · rw [readField_of_nil none] at first
      cases first
      rw [readField_of_nil none']
      exact ih others singles rest
    · rw [readField_of_cons found] at first
      obtain ⟨change, made, rfl⟩ := map_eq_ok.mp first
      obtain ⟨change', made', same⟩ := here inside made
      rw [readField_of_cons found', made']
      have moved := ih others singles rest
      rw [← same] at moved
      exact moved

theorem legible_of_rewritten (rewriting : Rewriting f)
    (rewritten : Decoder.Rewritten f (depth + 1) (.object members) (.object members'))
    (once : ∀ fld ∈ fields, (fld.among members).length ≤ 1) : Legible fields [] members' := by
  obtain ⟨k, after⟩ : ∃ k, Decoder.content (depth + 1) (.object members') = .ok k := by
    obtain ⟨j, -, after⟩ := rewritten.read
    exact ⟨f j, after⟩
  cases Decoder.content_eq_ok_iff.mp after with
  | object inside =>
    refine ⟨?_, ?_, ?_, nofun⟩
    · intro member there
      obtain ⟨_, -, named, -⟩ := exists_of_mem_forall₂ inside there
      exact Option.isSome_iff_exists.mpr ⟨_, named⟩
    · intro member there _
      obtain ⟨_, -, -, read⟩ := exists_of_mem_forall₂ inside there
      exact Outline.isWhole_of_content read
    · intro fld known
      rcases rewritten.among rewriting (once fld known) with ⟨-, none⟩ | ⟨_, _, -, found, -⟩
      · rw [none]
        exact Nat.zero_le 1
      · rw [found]
        exact Nat.le_refl 1

theorem respects_decode (rewriting : Rewriting f) (orderly : Orderly fields)
    (each : ∀ fld ∈ fields, fld.Respects f g) {blank : σ} (kept : g blank = blank) :
    Decoder.Respects f g (decode fields blank) := by
  intro depth o o' r rewritten read
  cases depth with
  | zero => cases o <;> cases read
  | succ depth =>
    cases o with
    | array items =>
      obtain ⟨items', rfl, inside⟩ := rewritten.items rewriting
      have moved := decodeItems_respects each inside read
      rw [kept] at moved
      exact moved
    | object members =>
      obtain ⟨members', rfl⟩ := rewritten.members rewriting
      obtain ⟨legible, gathered, required⟩ := (decode_object_eq_ok_iff orderly).mp read
      have moved := gather_respects rewriting each rewritten legible.once gathered
      rw [kept] at moved
      refine (decode_object_eq_ok_iff orderly).mpr
        ⟨legible_of_rewritten rewriting rewritten legible.once, moved, ?_⟩
      intro fld known needed
      rcases rewritten.among rewriting (legible.once fld known) with ⟨none, -⟩ | ⟨_, _, -, found, -⟩
      · exact absurd none (required fld known needed)
      · rw [found]
        exact List.cons_ne_nil _ _
    | _ => cases read

end

end Record
end Attest.Json
