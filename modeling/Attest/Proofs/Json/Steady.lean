import Attest.Proofs.Json.Alike
import Attest.Proofs.Json.Record

namespace Attest.Json

open Outline (Change)

namespace Decoder

variable {α : Type} {form : Form}

theorem steady_string : Steady form string := by
  intro o o' change depth
  cases change <;> exact .refl _

theorem steady_bool : Steady form bool := by
  intro o o' change depth
  cases change <;> exact .refl _

theorem Steady.optional {d : Decoder α} (steady : Steady form d) : Steady form (optional d) := by
  intro o o' change depth
  have inside := (steady change depth).map some
  cases change <;> exact inside

theorem Steady.list {d : Decoder α} (steady : Steady form d) : Steady (.list form) (list d) := by
  intro o o' change depth
  cases change with
  | @item _ before after _ _ inside =>
    cases depth with
    | zero => exact .refl _
    | succ depth => exact .mapM (forall₂_changed (fun _ => .refl _) before after (steady inside depth))
  | _ => cases depth <;> exact .refl _

theorem steady_entries : Steady .free (entries content) := by
  intro o o' change depth members
  rw [entries_eq_ok_iff, entries_eq_ok_iff]
  exact steady_content change depth _

end Decoder

namespace Record

variable {σ : Type} {fields : List (Field σ)}

theorem Field.steady {α : Type} {form : Form} {d : Decoder α} (steady : d.Steady form) {name : String}
    {aliases : List String} {required : Bool} {set : α → σ → σ} :
    Decoder.Steady form (Field.decode ⟨name, aliases, required, fun depth o => set <$> d depth o⟩) :=
  fun _ _ change depth => (steady change depth).map set

/-- The forms that are expected of the members of a record, and the decoders for which changes within
these do not count. -/
def Described (fields : List (Field σ)) (forms : List (List String × Form)) : Prop :=
  List.Forall₂ (fun fld form => fld.spellings = form.1 ∧ Decoder.Steady form.2 fld.decode) fields forms

structure ReadAlike (fields : List (Field σ)) (depth : Nat) (members members' : List (Option String × Outline)) :
    Prop where
  keyed : (∀ m ∈ members, m.1.isSome = true) ↔ ∀ m ∈ members', m.1.isSome = true
  whole : (∀ m ∈ members, (∀ fld ∈ fields, ¬ fld.holds m = true) → m.2.isWhole = true) ↔
    ∀ m ∈ members', (∀ fld ∈ fields, ¬ fld.holds m = true) → m.2.isWhole = true
  length : ∀ fld ∈ fields, (fld.among members).length = (fld.among members').length
  single : ∀ fld ∈ fields, ∀ m m', fld.among members = [m] → fld.among members' = [m'] →
    Agree (fld.decode depth m.2) (fld.decode depth m'.2)

namespace ReadAlike

variable {depth : Nat} {members members' : List (Option String × Outline)}

theorem symm (alike : ReadAlike fields depth members members') : ReadAlike fields depth members' members where
  keyed := alike.keyed.symm
  whole := alike.whole.symm
  length fld known := (alike.length fld known).symm
  single fld known m m' found found' := (alike.single fld known m' m found' found).symm

theorem among_eq_nil_iff (alike : ReadAlike fields depth members members') {fld : Field σ}
    (known : fld ∈ fields) : fld.among members = [] ↔ fld.among members' = [] := by
  rw [← List.length_eq_zero_iff, alike.length fld known, List.length_eq_zero_iff]

theorem agree_readField (alike : ReadAlike fields depth members members') {fld : Field σ}
    (known : fld ∈ fields) (once : (fld.among members).length ≤ 1) (r : σ) :
    Agree (readField depth members r fld) (readField depth members' r fld) := by
  have lengths := alike.length fld known
  cases found : fld.among members with
  | nil =>
    rw [readField_of_nil found, readField_of_nil ((alike.among_eq_nil_iff known).mp found)]
    exact .refl _
  | cons m more =>
    rw [found, List.length_cons] at once lengths
    obtain rfl := List.length_eq_zero_iff.mp (Nat.le_zero.mp (Nat.le_of_succ_le_succ once))
    obtain ⟨m', found'⟩ := List.length_eq_one_iff.mp lengths.symm
    rw [readField_of_cons found, readField_of_cons found']
    exact (alike.single fld known m m' found found').map _

theorem agree_gather (alike : ReadAlike fields depth members members') {part : List (Field σ)}
    (known : ∀ fld ∈ part, fld ∈ fields) (once : ∀ fld ∈ part, (fld.among members).length ≤ 1) (r : σ) :
    Agree (gather part depth members r) (gather part depth members' r) := by
  induction part generalizing r with
  | nil => exact .refl _
  | cons fld part ih =>
    obtain ⟨here, others⟩ := List.forall_mem_cons.mp known
    obtain ⟨single, singles⟩ := List.forall_mem_cons.mp once
    rw [gather_cons, gather_cons]
    exact (alike.agree_readField here single r).bind fun next => ih others singles next

theorem ok (orderly : Orderly fields) (alike : ReadAlike fields depth members members') {blank r : σ}
    (read : decode fields blank (depth + 1) (.object members) = .ok r) :
    decode fields blank (depth + 1) (.object members') = .ok r := by
  obtain ⟨⟨keyed, whole, once, -⟩, gathered, required⟩ := (decode_object_eq_ok_iff orderly).mp read
  refine (decode_object_eq_ok_iff orderly).mpr
    ⟨⟨alike.keyed.mp keyed, alike.whole.mp whole, fun fld known => ?_, nofun⟩, ?_, fun fld known needed => ?_⟩
  · rw [← alike.length fld known]
    exact once fld known
  · exact (alike.agree_gather (fun _ known => known) once blank r).mp gathered
  · exact fun none => required fld known needed ((alike.among_eq_nil_iff known).mpr none)

theorem agree (orderly : Orderly fields) (alike : ReadAlike fields depth members members') (blank : σ) :
    Agree (decode fields blank (depth + 1) (.object members))
      (decode fields blank (depth + 1) (.object members')) :=
  fun _ => ⟨alike.ok orderly, alike.symm.ok orderly⟩

theorem of_perm (moved : members.Perm members') : ReadAlike fields depth members members' where
  keyed := by simp only [moved.mem_iff]
  whole := by simp only [moved.mem_iff]
  length fld _ := (moved.filter fld.holds).length_eq
  single fld _ m m' found found' := by
    have same : (fld.among members).Perm (fld.among members') := moved.filter fld.holds
    rw [found, found'] at same
    obtain rfl := List.singleton_injective (List.singleton_perm.mp same)
    exact .refl _

/-- One member put in the place of another, at the front: both are unknown, or both are read alike by the
field that either belongs to. -/
theorem of_head {m m' : Option String × Outline} {rest : List (Option String × Outline)}
    (keyed : m.1.isSome = m'.1.isSome) (whole : m.2.isWhole = true ↔ m'.2.isWhole = true)
    (held : ∀ fld ∈ fields, fld.holds m = fld.holds m')
    (read : ∀ fld ∈ fields, fld.holds m = true → Agree (fld.decode depth m.2) (fld.decode depth m'.2)) :
    ReadAlike fields depth (m :: rest) (m' :: rest) where
  keyed := by simp only [List.forall_mem_cons, keyed]
  whole := by
    have same : (∀ fld ∈ fields, ¬ fld.holds m = true) ↔ ∀ fld ∈ fields, ¬ fld.holds m' = true :=
      forall₂_congr fun fld known => by rw [held fld known]
    simp only [List.forall_mem_cons, same, whole]
  length fld known := by
    rw [Field.among, Field.among, List.filter_cons, List.filter_cons, held fld known]
    split <;> rfl
  single fld known x x' found found' := by
    rw [Field.among, List.filter_cons] at found found'
    rw [← held fld known] at found'
    split at found
    · rename_i holds
      rw [if_pos holds] at found'
      obtain ⟨rfl, -⟩ := List.cons.inj found
      obtain ⟨rfl, -⟩ := List.cons.inj found'
      exact read fld known holds
    · rename_i other
      rw [if_neg other, found] at found'
      obtain ⟨rfl, -⟩ := List.cons.inj found'
      exact .refl _

theorem of_unknown {key : String} {o : Outline} {rest : List (Option String × Outline)}
    (unknown : ∀ fld ∈ fields, ¬ fld.holds (some key, o) = true) (whole : o.isWhole = true) :
    ReadAlike fields depth rest ((some key, o) :: rest) := by
  have same : ∀ fld ∈ fields, fld.among ((some key, o) :: rest) = fld.among rest :=
    fun fld known => Field.among_cons_of_not_holds (unknown fld known) rest
  refine ⟨?_, ?_, fun fld known => ?_, fun fld known m m' found found' => ?_⟩
  · simp
  · simp only [List.forall_mem_cons, whole, implies_true, true_and]
  · rw [same fld known]
  · rw [same fld known, found] at found'
    obtain ⟨rfl, -⟩ := List.cons.inj found'
    exact .refl _

end ReadAlike

section

variable {forms : List (List String × Form)} (described : Described fields forms) {depth : Nat}

include described

theorem steady_member (orderly : Orderly fields) {fld : Field σ} (known : fld ∈ fields) {key : String}
    (spelled : key ∈ fld.spellings) : Decoder.Steady ((Form.record forms).member (some key)) fld.decode := by
  rw [Form.member]
  cases found : forms.find? fun form => form.1.contains key with
  | none =>
    obtain ⟨form, there, same, -⟩ := exists_of_mem_forall₂ described known
    rw [same] at spelled
    exact absurd (List.contains_iff_mem.mpr spelled) (List.find?_eq_none.mp found form there)
  | some form =>
    obtain ⟨other, there, same, steady⟩ :=
      exists_of_mem_forall₂ described.flip (List.mem_of_find?_eq_some found)
    have contains := List.find?_some found
    have spelled' : key ∈ other.spellings := same ▸ List.contains_iff_mem.mp contains
    rw [orderly.eq_of_spelling known there spelled spelled']
    exact steady

theorem agree_decodeItems {before after : List Outline} {o o' : Outline}
    (change : Change ((Form.record forms).item before.length) o o') (r : σ) :
    Agree (decodeItems depth fields (before ++ o :: after) r)
      (decodeItems depth fields (before ++ o' :: after) r) := by
  induction described generalizing before r with
  | nil => cases before <;> exact .refl _
  | @cons fld form fields forms here others ih =>
    cases before with
    | nil =>
      rw [List.nil_append, List.nil_append, decodeItems, decodeItems]
      exact (here.2 change depth).bind fun _ => .refl _
    | cons x before =>
      have later : Change ((Form.record forms).item before.length) o o' := by
        simpa [Form.item] using change
      rw [List.cons_append, List.cons_append, decodeItems, decodeItems]
      exact (Agree.refl _).bind fun made => ih later (made r)

theorem steady_decode (orderly : Orderly fields) (blank : σ) :
    Decoder.Steady (.record forms) (decode fields blank) := by
  intro o o' change depth
  cases depth with
  | zero => cases change <;> exact .refl _
  | succ depth =>
    -- Where one member changes, it may as well stand in front of the others.
    have front {m m' : Option String × Outline} {before after : List (Option String × Outline)}
        (alike : ReadAlike fields depth (m :: (before ++ after)) (m' :: (before ++ after))) :
        Agree (decode fields blank (depth + 1) (.object (before ++ m :: after)))
          (decode fields blank (depth + 1) (.object (before ++ m' :: after))) :=
      ((ReadAlike.of_perm List.perm_middle).agree orderly blank).trans <| (alike.agree orderly blank).trans <|
        (ReadAlike.of_perm List.perm_middle.symm).agree orderly blank
    cases change with
    | item inside => exact agree_decodeItems described inside blank
    | @member _ _ _ key _ _ inside =>
      apply front
      refine .of_head rfl inside.isWhole (fun _ _ => rfl) fun fld known held => ?_
      obtain ⟨key, rfl, spelled⟩ := Field.holds_iff.mp held
      exact steady_member described orderly known spelled inside depth
    | reorder _ moved => exact (ReadAlike.of_perm moved).agree orderly blank
    | @extra _ before after key o unknown whole =>
      have unheld : ∀ fld ∈ fields, ¬ fld.holds (some key, o) = true := by
        intro fld known held
        obtain ⟨form, there, same, -⟩ := exists_of_mem_forall₂ described known
        obtain ⟨_, ⟨⟩, spelled⟩ := Field.holds_iff.mp held
        exact unknown form there (same ▸ spelled)
      exact ((ReadAlike.of_unknown unheld whole).agree orderly blank).trans
        ((ReadAlike.of_perm List.perm_middle.symm).agree orderly blank)
    | @respell _ form _ _ key key' o there one other =>
      obtain ⟨own, known, same, -⟩ := exists_of_mem_forall₂ described.flip there
      rw [← same] at one other
      apply front
      refine .of_head rfl Iff.rfl (fun fld there => ?_) fun _ _ _ => .refl _
      rw [Bool.eq_iff_iff, Field.holds_iff, Field.holds_iff]
      constructor
      · rintro ⟨_, ⟨⟩, spelled⟩
        exact ⟨key', rfl, orderly.eq_of_spelling known there one spelled ▸ other⟩
      · rintro ⟨_, ⟨⟩, spelled⟩
        exact ⟨key, rfl, orderly.eq_of_spelling known there other spelled ▸ one⟩

end

end Record
end Attest.Json
