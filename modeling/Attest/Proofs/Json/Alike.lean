import Mathlib.Logic.Relation
import Attest.Proofs.Json.Values

namespace Attest.Json

/-- What is expected of a value: anything, a list, or a record with these keys, each in its spellings. -/
inductive Form where
  | free
  | list (item : Form)
  | record (fields : List (List String × Form))

namespace Form

def item : Form → Nat → Form
  | .free, _ => .free
  | .list form, _ => form
  | .record fields, i => (fields[i]?.map Prod.snd).getD .free

def member : Form → Option String → Form
  | .record fields, some key => ((fields.find? fun field => field.1.contains key).map Prod.snd).getD .free
  | _, _ => .free

end Form

namespace Outline

/-- A change at one place that does not count where a value of this form is expected. -/
inductive Change : Form → Outline → Outline → Prop where
  | item {form : Form} {before after : List Outline} {o o' : Outline}
      (inside : Change (form.item before.length) o o') :
      Change form (.array (before ++ o :: after)) (.array (before ++ o' :: after))
  | member {form : Form} {before after : List (Option String × Outline)} {key : Option String}
      {o o' : Outline} (inside : Change (form.member key) o o') :
      Change form (.object (before ++ (key, o) :: after)) (.object (before ++ (key, o') :: after))
  | reorder {form : Form} {members members' : List (Option String × Outline)}
      (distinct : (members.map Prod.fst).Nodup) (moved : members.Perm members') :
      Change form (.object members) (.object members')
  | extra {fields : List (List String × Form)} {before after : List (Option String × Outline)}
      {key : String} {o : Outline} (unknown : ∀ field ∈ fields, key ∉ field.1) (whole : o.isWhole = true) :
      Change (.record fields) (.object (before ++ after)) (.object (before ++ (some key, o) :: after))
  | respell {fields : List (List String × Form)} {field : List String × Form}
      {before after : List (Option String × Outline)} {key key' : String} {o : Outline}
      (known : field ∈ fields) (one : key ∈ field.1) (other : key' ∈ field.1) :
      Change (.record fields) (.object (before ++ (some key, o) :: after))
        (.object (before ++ (some key', o) :: after))

/-- Documents that differ by such changes, made or unmade. -/
def Alike (form : Form) : Outline → Outline → Prop := Relation.EqvGen (Change form)

theorem Alike.iff {form : Form} {p : Outline → Prop} (step : ∀ o o', Change form o o' → (p o ↔ p o'))
    {o o' : Outline} (alike : Alike form o o') : p o ↔ p o' := by
  induction alike with
  | rel o o' change => exact step o o' change
  | refl => exact Iff.rfl
  | symm _ _ _ ih => exact ih.symm
  | trans _ _ _ _ _ first second => exact first.trans second

theorem Alike.item {form : Form} {before after : List Outline} {o o' : Outline}
    (inside : Alike (form.item before.length) o o') :
    Alike form (.array (before ++ o :: after)) (.array (before ++ o' :: after)) := by
  induction inside with
  | rel _ _ change => exact .rel _ _ (.item change)
  | refl => exact .refl _
  | symm _ _ _ ih => exact .symm _ _ ih
  | trans _ _ _ _ _ first second => exact .trans _ _ _ first second

theorem Alike.member {form : Form} {before after : List (Option String × Outline)} {key : Option String}
    {o o' : Outline} (inside : Alike (form.member key) o o') :
    Alike form (.object (before ++ (key, o) :: after)) (.object (before ++ (key, o') :: after)) := by
  induction inside with
  | rel _ _ change => exact .rel _ _ (.member change)
  | refl => exact .refl _
  | symm _ _ _ ih => exact .symm _ _ ih
  | trans _ _ _ _ _ first second => exact .trans _ _ _ first second

theorem Change.isWhole {form : Form} {o o' : Outline} (change : Change form o o') :
    o.isWhole = true ↔ o'.isWhole = true := by
  induction change with
  | item _ ih =>
    simp only [Outline.isWhole, allWhole_iff, List.forall_mem_append, List.forall_mem_cons, ih]
  | member _ ih =>
    simp only [Outline.isWhole, allWholeMembers_iff, List.forall_mem_append, List.forall_mem_cons, ih]
  | reorder _ moved =>
    simp only [Outline.isWhole, allWholeMembers_iff, moved.mem_iff]
  | extra _ whole =>
    simp only [Outline.isWhole, allWholeMembers_iff, List.forall_mem_append, List.forall_mem_cons, whole,
      true_and]
  | respell =>
    simp only [Outline.isWhole, allWholeMembers_iff, List.forall_mem_append, List.forall_mem_cons]

end Outline

open Outline (Change)

namespace Decoder

variable {α : Type}

/-- A decoder for which the changes do not count. -/
def Steady (form : Form) (d : Decoder α) : Prop :=
  ∀ ⦃o o'⦄, Change form o o' → ∀ depth, Agree (d depth o) (d depth o')

theorem Steady.eq_ok_iff {form : Form} {d : Decoder α} (steady : Steady form d) {o o' : Outline}
    (alike : Outline.Alike form o o') {depth : Nat} {a : α} : d depth o = .ok a ↔ d depth o' = .ok a :=
  alike.iff fun _ _ change => steady change depth a

theorem ok_of_reorder {depth : Nat} {members members' : List (Option String × Outline)}
    (distinct : (members.map Prod.fst).Nodup) (moved : members.Perm members') {j : Json}
    (read : content depth (.object members) = .ok j) : content depth (.object members') = .ok j := by
  cases depth with
  | zero => cases read
  | succ depth =>
    rw [content] at read ⊢
    obtain ⟨pairs, inside, rfl⟩ := map_eq_ok.mp read
    obtain ⟨others, found, perm⟩ := exists_perm_of_mapM moved inside
    rw [keys_of_reads (forall₂_reads_iff.mp inside)] at distinct
    rw [found, Entries.ofList_eq_of_perm (.of_map _ distinct) perm]
    rfl

theorem steady_content : Steady .free content := by
  intro o o' change
  generalize form_eq : Form.free = form at change
  induction change with
  | @item _ before after o o' _ ih =>
    subst form_eq
    intro depth
    cases depth with
    | zero => exact .refl _
    | succ depth =>
      rw [content, content]
      apply Agree.map
      apply Agree.mapM
      exact forall₂_changed (fun _ => .refl _) before after (ih rfl depth)
  | @member _ before after key o o' _ ih =>
    subst form_eq
    intro depth
    cases depth with
    | zero => exact .refl _
    | succ depth =>
      rw [content, content]
      apply Agree.map
      apply Agree.mapM
      apply forall₂_changed (fun _ => .refl _) before after
      cases key with
      | none => exact .refl _
      | some key => exact (ih rfl depth).map _
  | reorder distinct moved =>
    intro depth j
    have distinct' := (moved.map Prod.fst).nodup_iff.mp distinct
    exact ⟨ok_of_reorder distinct moved, ok_of_reorder distinct' moved.symm⟩
  | extra => cases form_eq
  | respell => cases form_eq

end Decoder
end Attest.Json
