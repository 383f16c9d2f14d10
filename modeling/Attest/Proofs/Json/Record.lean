import Attest.Json.Record
import Attest.Proofs.Outcome
import Mathlib.Data.List.Nodup

namespace Attest.Json.Record

variable {σ : Type}

namespace Field

def spellings (f : Field σ) : List String := f.name :: f.aliases

theorem answersTo_iff {f : Field σ} {key : String} : f.answersTo key = true ↔ key ∈ f.spellings := by
  simp [answersTo, spellings]

def holds (f : Field σ) (member : Option String × Outline) : Bool := member.1.any f.answersTo

theorem holds_iff {f : Field σ} {member : Option String × Outline} :
    f.holds member = true ↔ ∃ key, member.1 = some key ∧ key ∈ f.spellings := by
  obtain ⟨key, o⟩ := member
  cases key <;> simp [holds, answersTo_iff]

theorem shared_of_holds {f g : Field σ} {member : Option String × Outline}
    (one : f.holds member = true) (other : g.holds member = true) :
    ∃ key, key ∈ f.spellings ∧ key ∈ g.spellings := by
  obtain ⟨key, named, spelled⟩ := holds_iff.mp one
  obtain ⟨key', named', spelled'⟩ := holds_iff.mp other
  obtain rfl := Option.some.inj (named.symm.trans named')
  exact ⟨key, spelled, spelled'⟩

def among (f : Field σ) (members : List (Option String × Outline)) : List (Option String × Outline) :=
  members.filter f.holds

theorem among_cons_of_holds {f : Field σ} {member : Option String × Outline}
    (held : f.holds member = true) (members : List (Option String × Outline)) :
    f.among (member :: members) = member :: f.among members :=
  List.filter_cons_of_pos held

theorem among_cons_of_not_holds {f : Field σ} {member : Option String × Outline}
    (other : ¬ f.holds member = true) (members : List (Option String × Outline)) :
    f.among (member :: members) = f.among members :=
  List.filter_cons_of_neg other

def Commutes (f g : Field σ) : Prop :=
  ∀ ⦃depth o change depth' o' change'⦄, f.decode depth o = .ok change →
    g.decode depth' o' = .ok change' → ∀ r, change (change' r) = change' (change r)

theorem commutes {α β : Type} {set : α → σ → σ} {set' : β → σ → σ} {d : Decoder α} {d' : Decoder β}
    {name name' : String} {aliases aliases' : List String} {required required' : Bool}
    (sets : ∀ a b r, set a (set' b r) = set' b (set a r)) :
    Commutes ⟨name, aliases, required, fun depth o => set <$> d depth o⟩
      ⟨name', aliases', required', fun depth o => set' <$> d' depth o⟩ := by
  intro depth o change depth' o' change' read read' r
  obtain ⟨a, -, rfl⟩ := map_eq_ok.mp read
  obtain ⟨b, -, rfl⟩ := map_eq_ok.mp read'
  exact sets a b r

end Field

/-- No two fields answer to one key, and either of two fields may be set first. -/
structure Orderly (fields : List (Field σ)) : Prop where
  apart : (fields.flatMap Field.spellings).Nodup
  commute : fields.Pairwise Field.Commutes

namespace Orderly

variable {f g : Field σ} {fields : List (Field σ)}

theorem tail (orderly : Orderly (f :: fields)) : Orderly fields := by
  obtain ⟨apart, commute⟩ := orderly
  rw [List.flatMap_cons] at apart
  exact ⟨apart.of_append_right, (List.pairwise_cons.mp commute).2⟩

theorem head (orderly : Orderly (f :: fields)) (later : g ∈ fields) {key : String}
    (one : key ∈ f.spellings) : key ∉ g.spellings := by
  obtain ⟨apart, -⟩ := orderly
  rw [List.flatMap_cons, List.nodup_append'] at apart
  exact fun other => apart.2.2 one (List.mem_flatMap_of_mem later other)

theorem eq_of_spelling (orderly : Orderly fields) (hf : f ∈ fields) (hg : g ∈ fields) {key : String}
    (one : key ∈ f.spellings) (other : key ∈ g.spellings) : f = g := by
  induction fields with
  | nil => cases hf
  | cons h fields ih =>
    rcases List.mem_cons.mp hf with rfl | laterF <;> rcases List.mem_cons.mp hg with rfl | laterG
    · rfl
    · exact absurd other (orderly.head laterG one)
    · exact absurd one (orderly.head laterF other)
    · exact ih orderly.tail laterF laterG

theorem eq_of_holds (orderly : Orderly fields) (hf : f ∈ fields) (hg : g ∈ fields)
    {member : Option String × Outline} (one : f.holds member = true) (other : g.holds member = true) :
    f = g := by
  obtain ⟨key, spelled, spelled'⟩ := Field.shared_of_holds one other
  exact orderly.eq_of_spelling hf hg spelled spelled'

theorem eq_of_name (orderly : Orderly fields) (hf : f ∈ fields) (hg : g ∈ fields)
    (same : f.name = g.name) : f = g := by
  have own : f.name ∈ f.spellings := List.mem_cons_self
  have other : f.name ∈ g.spellings := same ▸ List.mem_cons_self
  exact orderly.eq_of_spelling hf hg own other

end Orderly

section

variable {fields : List (Field σ)} {depth : Nat}

def readField (depth : Nat) (members : List (Option String × Outline)) (r : σ) (f : Field σ) :
    Except Fault σ :=
  match f.among members with
  | [] => .ok r
  | member :: _ => (· r) <$> f.decode depth member.2

def gather (fields : List (Field σ)) (depth : Nat) (members : List (Option String × Outline)) (r : σ) :
    Except Fault σ :=
  fields.foldlM (readField depth members) r

theorem readField_of_nil {members : List (Option String × Outline)} {f : Field σ}
    (none : f.among members = []) (r : σ) : readField depth members r f = .ok r := by
  rw [readField, none]

theorem readField_of_cons {members more : List (Option String × Outline)} {f : Field σ}
    {member : Option String × Outline} (found : f.among members = member :: more) (r : σ) :
    readField depth members r f = (· r) <$> f.decode depth member.2 := by
  rw [readField, found]

theorem gather_cons (f : Field σ) (members : List (Option String × Outline)) (r : σ) :
    gather (f :: fields) depth members r =
      readField depth members r f >>= gather fields depth members :=
  List.foldlM_cons ..

theorem gather_congr {members others : List (Option String × Outline)}
    (same : ∀ f ∈ fields, f.among members = f.among others) (r : σ) :
    gather fields depth members r = gather fields depth others r := by
  induction fields generalizing r with
  | nil => rfl
  | cons f fields ih =>
    have first : readField depth members r f = readField depth others r f := by
      rw [readField, same f List.mem_cons_self, readField]
    rw [gather_cons, gather_cons, first]
    exact congrArg _ (funext (ih fun g member => same g (List.mem_cons_of_mem _ member)))

theorem gather_member (orderly : Orderly fields) {f : Field σ} (known : f ∈ fields)
    {member : Option String × Outline} (held : f.holds member = true)
    {members : List (Option String × Outline)} (fresh : f.among members = []) {change : σ → σ}
    (read : f.decode depth member.2 = .ok change) (r : σ) :
    gather fields depth (member :: members) r = gather fields depth members (change r) := by
  induction fields generalizing r with
  | nil => cases known
  | cons g fields ih =>
    rw [gather_cons, gather_cons]
    rcases List.mem_cons.mp known with rfl | later
    · have others : ∀ h ∈ fields, h.among (member :: members) = h.among members := by
        intro h there
        apply Field.among_cons_of_not_holds
        intro also
        obtain ⟨key, spelled, spelled'⟩ := Field.shared_of_holds held also
        exact orderly.head there spelled spelled'
      rw [readField_of_cons (Field.among_cons_of_holds held members), read, readField_of_nil fresh]
      exact gather_congr others (change r)
    · have other : ¬ g.holds member = true := by
        intro also
        obtain ⟨key, spelled, spelled'⟩ := Field.shared_of_holds also held
        exact orderly.head later spelled spelled'
      have same := Field.among_cons_of_not_holds other members
      cases found : g.among members with
      | nil =>
        rw [readField_of_nil (same.trans found), readField_of_nil found]
        exact ih orderly.tail later r
      | cons first more =>
        rw [readField_of_cons (same.trans found), readField_of_cons found]
        cases inside : g.decode depth first.2 with
        | error fault => rfl
        | ok c =>
          have moved := (List.pairwise_cons.mp orderly.commute).1 f later inside read r
          have rest := ih orderly.tail later (c r)
          rw [← moved] at rest
          exact rest

/-- What has to hold of the members, apart from their fields being read. -/
structure Legible (fields : List (Field σ)) (seen : List String)
    (members : List (Option String × Outline)) : Prop where
  keyed : ∀ member ∈ members, member.1.isSome
  whole : ∀ member ∈ members, (∀ f ∈ fields, ¬ f.holds member = true) → member.2.isWhole
  once : ∀ f ∈ fields, (f.among members).length ≤ 1
  fresh : ∀ f ∈ fields, f.name ∈ seen → f.among members = []

theorem decode_of_gather {members : List (Option String × Outline)} {r r' : σ}
    (gathered : gather fields depth members r = .ok r') {f : Field σ} (known : f ∈ fields)
    {member : Option String × Outline} {more : List (Option String × Outline)}
    (found : f.among members = member :: more) : ∃ change, f.decode depth member.2 = .ok change := by
  induction fields generalizing r with
  | nil => cases known
  | cons g fields ih =>
    rw [gather_cons] at gathered
    obtain ⟨next, first, rest⟩ := bind_eq_ok.mp gathered
    rcases List.mem_cons.mp known with rfl | later
    · rw [readField_of_cons found] at first
      cases inside : f.decode depth member.2 with
      | error fault =>
        rw [inside] at first
        cases first
      | ok change => exact ⟨change, rfl⟩
    · exact ih rest later

section

variable {key : String} {o : Outline} {members : List (Option String × Outline)} {seen : List String}

theorem legible_cons_unknown (unknown : ∀ f ∈ fields, ¬ f.holds (some key, o) = true) :
    Legible fields seen ((some key, o) :: members) ↔ o.isWhole ∧ Legible fields seen members := by
  have same : ∀ f ∈ fields, f.among ((some key, o) :: members) = f.among members :=
    fun f there => Field.among_cons_of_not_holds (unknown f there) members
  constructor
  · rintro ⟨keyed, whole, once, fresh⟩
    refine ⟨whole _ List.mem_cons_self unknown, ?_, ?_, ?_, ?_⟩
    · exact fun member there => keyed member (List.mem_cons_of_mem _ there)
    · exact fun member there => whole member (List.mem_cons_of_mem _ there)
    · exact fun f there => same f there ▸ once f there
    · exact fun f there => same f there ▸ fresh f there
  · rintro ⟨here, keyed, whole, once, fresh⟩
    refine ⟨?_, ?_, ?_, ?_⟩
    · exact List.forall_mem_cons.mpr ⟨rfl, keyed⟩
    · exact List.forall_mem_cons.mpr ⟨fun _ => here, whole⟩
    · exact fun f there => (same f there).symm ▸ once f there
    · exact fun f there => (same f there).symm ▸ fresh f there

theorem legible_cons_known (orderly : Orderly fields) {f : Field σ} (known : f ∈ fields)
    (held : f.holds (some key, o) = true) :
    Legible fields seen ((some key, o) :: members) ↔
      f.name ∉ seen ∧ Legible fields (f.name :: seen) members := by
  have here : f.among ((some key, o) :: members) = (some key, o) :: f.among members :=
    Field.among_cons_of_holds held members
  have others : ∀ g ∈ fields, g ≠ f → g.among ((some key, o) :: members) = g.among members := by
    intro g there different
    apply Field.among_cons_of_not_holds
    exact fun also => different (orderly.eq_of_holds there known also held)
  constructor
  · rintro ⟨keyed, whole, once, fresh⟩
    refine ⟨?_, ?_, ?_, ?_, ?_⟩
    · intro again
      have none := fresh f known again
      rw [here] at none
      cases none
    · exact fun member there => keyed member (List.mem_cons_of_mem _ there)
    · exact fun member there => whole member (List.mem_cons_of_mem _ there)
    · intro g there
      by_cases same : g = f
      · have bound := once f known
        rw [here, List.length_cons] at bound
        rw [same]
        omega
      · exact others g there same ▸ once g there
    · intro g there named
      by_cases same : g = f
      · have bound := once f known
        rw [here, List.length_cons] at bound
        rw [same]
        exact List.length_eq_zero_iff.mp (by omega)
      · rcases List.mem_cons.mp named with again | earlier
        · exact absurd (orderly.eq_of_name there known again) same
        · exact others g there same ▸ fresh g there earlier
  · rintro ⟨first, keyed, whole, once, fresh⟩
    refine ⟨?_, ?_, ?_, ?_⟩
    · exact List.forall_mem_cons.mpr ⟨rfl, keyed⟩
    · exact List.forall_mem_cons.mpr ⟨fun unknown => absurd held (unknown f known), whole⟩
    · intro g there
      by_cases same : g = f
      · rw [same, here, fresh f known List.mem_cons_self]
        exact Nat.le_refl 1
      · exact (others g there same).symm ▸ once g there
    · intro g there earlier
      by_cases same : g = f
      · exact absurd (same ▸ earlier) first
      · exact (others g there same).symm ▸ fresh g there (List.mem_cons_of_mem _ earlier)

theorem decodeMembers_unknown (unknown : ∀ f ∈ fields, ¬ f.holds (some key, o) = true) (r : σ) :
    decodeMembers fields depth ((some key, o) :: members) seen r =
      if o.isWhole then decodeMembers fields depth members seen r else .error .malformed := by
  have none : fields.find? (·.answersTo key) = none := List.find?_eq_none.mpr unknown
  rw [decodeMembers, none]

theorem decodeMembers_known (orderly : Orderly fields) {f : Field σ} (known : f ∈ fields)
    (held : f.holds (some key, o) = true) (r : σ) :
    decodeMembers fields depth ((some key, o) :: members) seen r =
      if f.name ∈ seen then .error (.duplicateField f.name)
      else f.decode depth o >>= fun change =>
        decodeMembers fields depth members (f.name :: seen) (change r) := by
  have found : fields.find? (·.answersTo key) = some f := by
    cases first : fields.find? (·.answersTo key) with
    | none => exact absurd held (List.find?_eq_none.mp first f known)
    | some g =>
      have answers := List.find?_some first
      have also : g.holds (some key, o) = true := answers
      exact congrArg some (orderly.eq_of_holds (List.mem_of_find?_eq_some first) known also held)
  rw [decodeMembers, found]
  simp only [List.contains_iff_mem]

end

theorem gather_nil (r : σ) : gather fields depth [] r = .ok r := by
  induction fields with
  | nil => rfl
  | cons f fields ih => exact ih

/-- Members are read exactly if they are legible and each field can make something of its own. -/
theorem decodeMembers_eq_ok_iff (orderly : Orderly fields) {members : List (Option String × Outline)}
    {seen : List String} {r r' : σ} :
    (∃ seen', decodeMembers fields depth members seen r = .ok (seen', r')) ↔
      Legible fields seen members ∧ gather fields depth members r = .ok r' := by
  induction members generalizing seen r with
  | nil =>
    rw [gather_nil]
    constructor
    · rintro ⟨_, done⟩
      cases done
      exact ⟨⟨nofun, nofun, fun _ _ => Nat.zero_le 1, fun _ _ _ => rfl⟩, rfl⟩
    · rintro ⟨-, done⟩
      cases done
      exact ⟨seen, rfl⟩
  | cons member members ih =>
    obtain ⟨key, o⟩ := member
    cases key with
    | none =>
      constructor
      · rintro ⟨_, done⟩
        cases done
      · rintro ⟨legible, -⟩
        cases legible.keyed _ List.mem_cons_self
    | some key =>
      by_cases unknown : ∀ f ∈ fields, ¬ f.holds (some key, o) = true
      · have same : gather fields depth ((some key, o) :: members) r = gather fields depth members r :=
          gather_congr (fun f there => Field.among_cons_of_not_holds (unknown f there) members) r
        rw [decodeMembers_unknown unknown, legible_cons_unknown unknown, same, and_assoc, ← ih]
        cases whole : o.isWhole <;> simp
      · obtain ⟨f, known, held⟩ : ∃ f ∈ fields, f.holds (some key, o) = true := by
          simpa using unknown
        rw [decodeMembers_known orderly known held, legible_cons_known orderly known held, and_assoc]
        by_cases again : f.name ∈ seen
        · simp [again]
        · rw [if_neg again]
          cases read : f.decode depth o with
          | error fault =>
            constructor
            · rintro ⟨_, done⟩
              cases done
            · rintro ⟨-, -, gathered⟩
              have found := Field.among_cons_of_holds held members
              obtain ⟨change, made⟩ := decode_of_gather gathered known found
              cases read.symm.trans made
          | ok change =>
            refine Iff.trans (ih (r := change r)) ⟨?_, ?_⟩
            · rintro ⟨legible, gathered⟩
              have fresh := legible.fresh f known List.mem_cons_self
              exact ⟨again, legible, (gather_member orderly known held fresh read r).trans gathered⟩
            · rintro ⟨-, legible, gathered⟩
              have fresh := legible.fresh f known List.mem_cons_self
              exact ⟨legible, (gather_member orderly known held fresh read r).symm.trans gathered⟩

theorem names_of_decodeMembers (orderly : Orderly fields) {members : List (Option String × Outline)}
    {seen seen' : List String} {r r' : σ}
    (done : decodeMembers fields depth members seen r = .ok (seen', r')) {f : Field σ}
    (known : f ∈ fields) : f.name ∈ seen' ↔ f.name ∈ seen ∨ f.among members ≠ [] := by
  induction members generalizing seen r with
  | nil =>
    cases done
    simp [Field.among]
  | cons member members ih =>
    obtain ⟨key, o⟩ := member
    cases key with
    | none => cases done
    | some key =>
      by_cases unknown : ∀ g ∈ fields, ¬ g.holds (some key, o) = true
      · rw [decodeMembers_unknown unknown] at done
        split at done
        · rw [ih done, Field.among_cons_of_not_holds (unknown f known)]
        · cases done
      · obtain ⟨g, there, held⟩ : ∃ g ∈ fields, g.holds (some key, o) = true := by
          simpa using unknown
        rw [decodeMembers_known orderly there held] at done
        split at done
        · cases done
        · obtain ⟨change, -, done⟩ := bind_eq_ok.mp done
          rw [ih done]
          by_cases same : f = g
          · simp [same, Field.among_cons_of_holds held]
          · have other : ¬ f.holds (some key, o) = true :=
              fun also => same (orderly.eq_of_holds known there also held)
            have named : f.name ≠ g.name := fun equal => same (orderly.eq_of_name known there equal)
            simp [Field.among_cons_of_not_holds other, named]

theorem find?_missing_eq_none_iff (orderly : Orderly fields)
    {members : List (Option String × Outline)} {seen : List String} {blank r : σ}
    (done : decodeMembers fields depth members [] blank = .ok (seen, r)) :
    (fields.find? fun f => f.required && !seen.contains f.name) = none ↔
      ∀ f ∈ fields, f.required → f.among members ≠ [] := by
  rw [List.find?_eq_none]
  refine forall₂_congr fun f known => ?_
  have named := names_of_decodeMembers orderly done known
  simp only [List.not_mem_nil, false_or] at named
  rw [← named]
  simp

theorem decode_object_eq_ok_iff (orderly : Orderly fields) {members : List (Option String × Outline)}
    {blank r : σ} :
    decode fields blank (depth + 1) (.object members) = .ok r ↔
      Legible fields [] members ∧ gather fields depth members blank = .ok r ∧
        ∀ f ∈ fields, f.required → f.among members ≠ [] := by
  rw [← and_assoc, ← decodeMembers_eq_ok_iff orderly, decode]
  constructor
  · intro done
    obtain ⟨⟨seen, found⟩, read, done⟩ := bind_eq_ok.mp done
    have present := find?_missing_eq_none_iff orderly read
    dsimp only at done
    split at done
    · cases done
    · rename_i none
      cases done
      exact ⟨⟨seen, read⟩, present.mp none⟩
  · rintro ⟨⟨seen, read⟩, required⟩
    have present := (find?_missing_eq_none_iff orderly read).mpr required
    rw [read]
    simp only [bind, Except.bind, present]
    rfl

section

variable {P : σ → Prop} {r r' : σ}

theorem Field.keeps {α : Type} {d : Decoder α} {set : α → σ → σ} {name : String} {aliases : List String}
    {required : Bool} (kept : ∀ o a, d depth o = .ok a → ∀ r, P r → P (set a r)) (o : Outline)
    (change : σ → σ)
    (made : Field.decode ⟨name, aliases, required, fun depth o => set <$> d depth o⟩ depth o = .ok change)
    (r : σ) (before : P r) : P (change r) := by
  obtain ⟨a, read, rfl⟩ := map_eq_ok.mp made
  exact kept o a read r before

theorem decodeMembers_keeps
    (each : ∀ f ∈ fields, ∀ o change, f.decode depth o = .ok change → ∀ r, P r → P (change r))
    {members : List (Option String × Outline)} {seen seen' : List String} (before : P r)
    (done : decodeMembers fields depth members seen r = .ok (seen', r')) : P r' := by
  induction members generalizing seen r with
  | nil =>
    cases done
    exact before
  | cons member members ih =>
    obtain ⟨key, o⟩ := member
    cases key with
    | none => cases done
    | some key =>
      rw [decodeMembers] at done
      split at done
      · split at done
        · exact ih before done
        · cases done
      · rename_i f found
        split at done
        · cases done
        · obtain ⟨change, made, done⟩ := bind_eq_ok.mp done
          exact ih (each f (List.mem_of_find?_eq_some found) o change made r before) done

theorem decodeItems_keeps
    (each : ∀ f ∈ fields, ∀ o change, f.decode depth o = .ok change → ∀ r, P r → P (change r))
    {items : List Outline} (before : P r) (done : decodeItems depth fields items r = .ok r') : P r' := by
  induction fields generalizing items r with
  | nil =>
    cases items with
    | nil =>
      cases done
      exact before
    | cons _ _ => cases done
  | cons f fields ih =>
    obtain ⟨here, others⟩ := List.forall_mem_cons.mp each
    cases items with
    | nil =>
      rw [decodeItems] at done
      split at done
      · cases done
      · exact ih others before done
    | cons o items =>
      rw [decodeItems] at done
      obtain ⟨change, made, done⟩ := bind_eq_ok.mp done
      exact ih others (here o change made r before) done

/-- What holds of the blank record, and is kept by every field, holds of a record that was read. -/
theorem decode_keeps {blank : σ} (first : P blank)
    (each : ∀ f ∈ fields, ∀ o change, f.decode depth o = .ok change → ∀ r, P r → P (change r))
    {o : Outline} (read : decode fields blank (depth + 1) o = .ok r) : P r := by
  cases o with
  | object members =>
    rw [decode] at read
    obtain ⟨⟨seen, r⟩, done, read⟩ := bind_eq_ok.mp read
    dsimp only at read
    split at read
    · cases read
    · cases read
      exact decodeMembers_keeps each first done
  | array items => exact decodeItems_keeps each first read
  | _ => cases read

end

end

end Attest.Json.Record
