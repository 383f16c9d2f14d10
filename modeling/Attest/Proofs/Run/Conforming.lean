import Attest.Proofs.Entries
import Attest.Proofs.Run.Version

namespace Attest

def Json.Has (name : String) (j : Json) : Prop :=
  ∃ members, j = .object members ∧ name ∈ Entries.keys members

theorem Json.has_object {name : String} {members : List (String × Json)} :
    (object members).Has name ↔ name ∈ Entries.keys members := by
  constructor
  · rintro ⟨_, same, there⟩
    cases same
    exact there
  · exact fun there => ⟨members, rfl, there⟩

theorem Json.isNone_get?_object {name : String} {members : List (String × Json)} :
    ((object members).get? name).isNone = true ↔ ¬ (object members).Has name := by
  rw [has_object, Entries.mem_keys_iff, Option.isNone_iff_eq_none, Option.eq_none_iff_forall_ne_some]
  exact not_exists.symm

theorem Json.isObject_iff {j : Json} : j.isObject = true ↔ ∃ members, j = .object members := by
  cases j <;> simp [isObject]

namespace Run

section

variable (rules : RunRules) (e : Event)

def VersionFits : Prop := ∀ v, e.declaredVersion = some v → v ∈ rules.supported

/-- An event of the raw kind may carry any value, unless the rules list fields for that kind too. -/
def ShapeFits : Prop :=
  (∃ members, e.payload = .object members) ∨ (e.kind = rawKind ∧ e.kind ∉ rules.required.keys)

def FieldsFit : Prop :=
  ∀ names, rules.required.get? e.kind = some names → ∀ name ∈ names, e.payload.Has name

structure Conforms : Prop where
  version : VersionFits rules e
  shape : ShapeFits rules e
  fields : FieldsFit rules e

/-- Why the event at an index is refused: for the first demand that it does not meet, and for the first
of the missing fields. -/
inductive Refused (index : Nat) : Error → Prop where
  | version {found : String} (declared : e.declaredVersion = some found)
      (unsupported : found ∉ rules.supported) :
      Refused index (.unsupportedVersion index found rules.supported)
  | payload (version : VersionFits rules e) (shape : ¬ ShapeFits rules e) :
      Refused index (.payloadNotObject index e.kind)
  | field {front back : List String} {name : String} (version : VersionFits rules e)
      (shape : ShapeFits rules e) (listed : rules.required.get? e.kind = some (front ++ name :: back))
      (there : ∀ other ∈ front, e.payload.Has other) (missing : ¬ e.payload.Has name) :
      Refused index (.missingField index e.kind name)

def normalForm : Event := { e with version := some (e.declaredVersion.getD rules.defaultVersion) }

end

theorem exists_first_without {α : Type} {P : α → Prop} {items : List α} (some : ¬ ∀ a ∈ items, P a) :
    ∃ front a back, items = front ++ a :: back ∧ (∀ b ∈ front, P b) ∧ ¬ P a := by
  induction items with
  | nil => exact absurd (by simp) some
  | cons a items ih =>
    by_cases holds : P a
    · obtain ⟨front, b, back, rfl, before, first⟩ :=
        ih fun others => some (List.forall_mem_cons.mpr ⟨holds, others⟩)
      exact ⟨a :: front, b, back, rfl, List.forall_mem_cons.mpr ⟨holds, before⟩, first⟩
    · exact ⟨[], a, items, rfl, by simp, holds⟩

variable {rules : RunRules} {e : Event} {index : Nat}

theorem Refused.not_conforms {err : Error} (refused : Refused rules e index err) : ¬ Conforms rules e := by
  intro conforms
  cases refused with
  | version declared unsupported => exact unsupported (conforms.version _ declared)
  | payload _ shape => exact shape conforms.shape
  | field _ _ listed _ missing =>
    exact missing (conforms.fields _ listed _ (List.mem_append_right _ List.mem_cons_self))

theorem exists_refused (index : Nat) (unfit : ¬ Conforms rules e) : ∃ err, Refused rules e index err := by
  by_cases version : VersionFits rules e
  case neg =>
    obtain ⟨found, declared, unsupported⟩ : ∃ v, e.declaredVersion = some v ∧ v ∉ rules.supported := by
      simpa only [VersionFits, not_forall, exists_prop] using version
    exact ⟨_, .version declared unsupported⟩
  by_cases shape : ShapeFits rules e
  case neg => exact ⟨_, .payload version shape⟩
  have fields : ¬ FieldsFit rules e := fun fields => unfit ⟨version, shape, fields⟩
  obtain ⟨names, listed, some⟩ : ∃ names, rules.required.get? e.kind = some names ∧
      ¬ ∀ name ∈ names, e.payload.Has name := by
    simpa only [FieldsFit, not_forall, exists_prop] using fields
  obtain ⟨front, name, back, rfl, there, missing⟩ := exists_first_without some
  exact ⟨_, .field version shape listed there missing⟩

theorem version_of_fits (fits : VersionFits rules e) :
    version rules index e = .ok (e.declaredVersion.getD rules.defaultVersion) := by
  unfold version
  cases declared : e.declaredVersion with
  | none => rfl
  | some v => exact if_pos (List.contains_iff_mem.mpr (fits v declared))

theorem checkShape_of_fits (fits : ShapeFits rules e) : checkShape index e = .ok () := by
  rw [checkShape, if_neg]
  rintro ⟨kind, other⟩
  rcases fits with object | ⟨raw, -⟩
  · exact other (Json.isObject_iff.mpr object)
  · exact kind raw

theorem checkFields_of_listed (index : Nat) {names : List String} (fits : ShapeFits rules e)
    (listed : rules.required.get? e.kind = some names) :
    ∃ members, e.payload = .object members ∧
      checkFields rules index e = match names.find? fun name => (e.payload.get? name).isNone with
        | some name => .error (.missingField index e.kind name)
        | none => .ok () := by
  rcases fits with object | ⟨-, unlisted⟩
  · obtain ⟨members, payload⟩ := object
    refine ⟨members, payload, ?_⟩
    rw [checkFields, listed]
    exact if_pos (Json.isObject_iff.mpr ⟨members, payload⟩)
  · exact absurd (Entries.mem_keys_iff.mpr ⟨names, listed⟩) unlisted

theorem checkFields_of_fit (shape : ShapeFits rules e) (fields : FieldsFit rules e) :
    checkFields rules index e = .ok () := by
  cases listed : rules.required.get? e.kind with
  | none => rw [checkFields, listed]
  | some names =>
    obtain ⟨members, payload, checked⟩ := checkFields_of_listed index shape listed
    have present := fields names listed
    rw [payload] at checked present
    rw [checked, List.find?_eq_none.mpr]
    exact fun name there missing => Json.isNone_get?_object.mp missing (present name there)

theorem checkFields_of_missing {front back : List String} {name : String} (shape : ShapeFits rules e)
    (listed : rules.required.get? e.kind = some (front ++ name :: back))
    (there : ∀ other ∈ front, e.payload.Has other) (missing : ¬ e.payload.Has name) :
    checkFields rules index e = .error (.missingField index e.kind name) := by
  obtain ⟨members, payload, checked⟩ := checkFields_of_listed index shape listed
  rw [payload] at checked there missing
  have found : (front ++ name :: back).find? (fun name => ((Json.object members).get? name).isNone) = some name := by
    refine List.find?_eq_some_iff_append.mpr ⟨Json.isNone_get?_object.mpr missing, front, back, rfl, ?_⟩
    intro other earlier
    have present := Json.isNone_get?_object.not.mpr (not_not_intro (there other earlier))
    rw [Bool.eq_false_of_not_eq_true present, Bool.not_false]
  rw [checked, found]

theorem checks_of_unfit (index : Nat) (unfit : ¬ ShapeFits rules e) :
    checkShape index e = .error (.payloadNotObject index e.kind) ∨
      checkShape index e = .ok () ∧ checkFields rules index e = .error (.payloadNotObject index e.kind) := by
  obtain ⟨other, listed⟩ := not_or.mp unfit
  have other : ¬ e.payload.isObject = true := Json.isObject_iff.not.mpr other
  -- The raw kind passes the first check and comes to nothing in the second, if fields are listed for it.
  by_cases raw : e.kind = rawKind
  · obtain ⟨names, required⟩ : ∃ names, rules.required.get? e.kind = some names :=
      Entries.mem_keys_iff.mp (not_not.mp fun unlisted => listed ⟨raw, unlisted⟩)
    right
    constructor
    · exact if_neg fun refused => refused.1 raw
    · rw [checkFields, required]
      exact if_neg other
  · exact .inl (if_pos ⟨raw, other⟩)

theorem normalize_of_conforms (conforms : Conforms rules e) :
    normalize rules index e = .ok (normalForm rules e) := by
  obtain ⟨version, shape, fields⟩ := conforms
  rw [normalize, version_of_fits version, checkShape_of_fits shape, checkFields_of_fit shape fields]
  rfl

theorem normalize_of_refused {err : Error} (refused : Refused rules e index err) :
    normalize rules index e = .error err := by
  cases refused with
  | version declared unsupported =>
    refine normalize_of_unsupported declared ?_
    exact Bool.eq_false_iff.mpr fun supported => unsupported (List.contains_iff_mem.mp supported)
  | payload version shape =>
    rw [normalize, version_of_fits version]
    rcases checks_of_unfit index shape with refused | ⟨passed, refused⟩
    · rw [refused]
      rfl
    · rw [passed, refused]
      rfl
  | field version shape listed there missing =>
    rw [normalize, version_of_fits version, checkShape_of_fits shape,
      checkFields_of_missing shape listed there missing]
    rfl

theorem normalize_eq_ok_iff {normal : Event} :
    normalize rules index e = .ok normal ↔ Conforms rules e ∧ normal = normalForm rules e := by
  by_cases conforms : Conforms rules e
  · rw [normalize_of_conforms conforms, Except.ok.injEq, eq_comm]
    exact (and_iff_right conforms).symm
  · obtain ⟨err, refused⟩ := exists_refused index conforms
    rw [normalize_of_refused refused]
    exact ⟨nofun, fun accepted => absurd accepted.1 conforms⟩

theorem normalize_eq_error_iff {err : Error} :
    normalize rules index e = .error err ↔ Refused rules e index err := by
  refine ⟨fun rejected => ?_, normalize_of_refused⟩
  by_cases conforms : Conforms rules e
  · cases rejected.symm.trans (normalize_of_conforms conforms)
  · obtain ⟨other, refused⟩ := exists_refused index conforms
    cases rejected.symm.trans (normalize_of_refused refused)
    exact refused

variable {log events : List Event}

theorem normalizeFrom_of_conforms (index : Nat) (conform : ∀ e ∈ log, Conforms rules e)
    (rest : List Event) : normalizeFrom rules index (log ++ rest) =
      (log.map (normalForm rules) ++ ·) <$> normalizeFrom rules (index + log.length) rest := by
  induction log generalizing index with
  | nil =>
    simp
  | cons e log ih =>
    obtain ⟨first, others⟩ := List.forall_mem_cons.mp conform
    rw [List.cons_append, normalizeFrom, normalize_of_conforms first]
    simp only [bind, Except.bind]
    rw [ih _ others, List.length_cons, Nat.add_right_comm, Nat.add_assoc]
    cases normalizeFrom rules (index + (log.length + 1)) rest <;> rfl

theorem normalizeLog_of_conforms (conform : ∀ e ∈ log, Conforms rules e) :
    normalizeLog rules log = .ok (log.map (normalForm rules)) := by
  have whole := normalizeFrom_of_conforms 0 conform []
  rw [List.append_nil] at whole
  rw [normalizeLog, whole, normalizeFrom]
  exact congrArg Except.ok (List.append_nil _)

theorem normalizeLog_of_refused {before after : List Event} {err : Error}
    (conform : ∀ a ∈ before, Conforms rules a) (refused : Refused rules e before.length err) :
    normalizeLog rules (before ++ e :: after) = .error err := by
  rw [normalizeLog, normalizeFrom_of_conforms 0 conform, Nat.zero_add, normalizeFrom,
    normalize_of_refused refused]
  rfl

theorem normalizeLog_cases (rules : RunRules) (log : List Event) : (∀ e ∈ log, Conforms rules e) ∨
    ∃ before e after err, log = before ++ e :: after ∧ (∀ a ∈ before, Conforms rules a) ∧
      ¬ Conforms rules e ∧ Refused rules e before.length err ∧ normalizeLog rules log = .error err := by
  by_cases conform : ∀ e ∈ log, Conforms rules e
  · exact .inl conform
  · obtain ⟨before, e, after, rfl, conform, unfit⟩ := exists_first_without conform
    obtain ⟨err, refused⟩ := exists_refused before.length unfit
    exact .inr ⟨before, e, after, err, rfl, conform, unfit, refused, normalizeLog_of_refused conform refused⟩

theorem normalizeLog_eq_ok_iff :
    normalizeLog rules log = .ok events ↔
      (∀ e ∈ log, Conforms rules e) ∧ events = log.map (normalForm rules) := by
  constructor
  · intro accepted
    rcases normalizeLog_cases rules log with conform | ⟨_, _, _, _, _, _, _, _, rejected⟩
    · cases accepted.symm.trans (normalizeLog_of_conforms conform)
      exact ⟨conform, rfl⟩
    · cases accepted.symm.trans rejected
  · rintro ⟨conform, rfl⟩
    exact normalizeLog_of_conforms conform

/-- A log is accepted exactly if all its events conform to the rules, and then its kinds and payloads
stay as they are. Otherwise the first event that does not conform is named by its index, and for the first
demand that it does not meet. -/
theorem conforming_logs_are_accepted (rules : RunRules) (log : List Event) :
    ((∃ events, normalizeLog rules log = .ok events) ↔ ∀ e ∈ log, Conforms rules e) ∧
    (∀ events, normalizeLog rules log = .ok events → events.length = log.length ∧
      events.map Event.kind = log.map Event.kind ∧ events.map Event.payload = log.map Event.payload) ∧
    ∀ err, normalizeLog rules log = .error err ↔
      ∃ before e after, log = before ++ e :: after ∧ (∀ a ∈ before, Conforms rules a) ∧
        ¬ Conforms rules e ∧ Refused rules e before.length err := by
  refine ⟨⟨?_, ?_⟩, ?_, fun err => ⟨?_, ?_⟩⟩
  · rintro ⟨events, accepted⟩
    exact (normalizeLog_eq_ok_iff.mp accepted).1
  · exact fun conform => ⟨_, normalizeLog_of_conforms conform⟩
  · intro events accepted
    obtain ⟨-, rfl⟩ := normalizeLog_eq_ok_iff.mp accepted
    rw [List.length_map, List.map_map, List.map_map]
    exact ⟨rfl, rfl, rfl⟩
  · intro rejected
    rcases normalizeLog_cases rules log with conform | ⟨before, e, after, _, same, conform, unfit, refused, found⟩
    · cases rejected.symm.trans (normalizeLog_of_conforms conform)
    · cases rejected.symm.trans found
      exact ⟨before, e, after, same, conform, unfit, refused⟩
  · rintro ⟨before, e, after, rfl, conform, -, refused⟩
    exact normalizeLog_of_refused conform refused

/-- Fields are listed for the raw kind too, so its payload has to be an object there; and of two fields
that are missing the one listed first is named. -/
theorem conforming_logs_are_accepted_raw :
    let rules : RunRules := ⟨["1"], "1", ⟨[("a", ["x", "y", "z"]), (rawKind, [])]⟩⟩
    let whole : Event := ⟨rawKind, .object [], some ""⟩
    let bare : Event := ⟨rawKind, .ofInt 7, none⟩
    let partly : Event := ⟨"a", .object [("x", .null)], some "1"⟩
    let named : Event := { whole with version := some "1" }
    (normalizeLog rules [whole] = .ok [named] ∧ Conforms rules whole ∧
      [named].map Event.payload = [whole].map Event.payload) ∧
    (normalizeLog rules [whole, bare, partly] = .error (.payloadNotObject 1 rawKind) ∧
      Refused rules bare 1 (.payloadNotObject 1 rawKind)) ∧
    normalizeLog rules [whole, partly, bare] = .error (.missingField 1 "a" "y") ∧
      ∃ before e after, [whole, partly, bare] = before ++ e :: after ∧ (∀ a ∈ before, Conforms rules a) ∧
        ¬ Conforms rules e ∧ Refused rules e before.length (.missingField 1 "a" "y") := by
  intro rules whole bare partly named
  have accepted : normalizeLog rules [whole] = .ok [named] := by decide
  have conforms : Conforms rules whole :=
    (conforming_logs_are_accepted rules [whole]).1.mp ⟨_, accepted⟩ whole List.mem_cons_self
  have shapeless : Refused rules bare 1 (.payloadNotObject 1 rawKind) :=
    .payload (by simp [VersionFits, bare, Event.declaredVersion, Json.ofInt, Json.get?])
      (by simp [ShapeFits, bare, Json.ofInt, rules, KeyMap.keys, Entries.keys])
  have rejected : normalizeLog rules [whole, partly, bare] = .error (.missingField 1 "a" "y") := by decide
  refine ⟨⟨accepted, conforms, ?_⟩, ⟨?_, shapeless⟩, rejected, ?_⟩
  · exact ((conforming_logs_are_accepted rules [whole]).2.1 _ accepted).2.2
  · refine ((conforming_logs_are_accepted rules _).2.2 _).mpr
      ⟨[whole], bare, [partly], rfl, ?_, shapeless.not_conforms, shapeless⟩
    exact List.forall_mem_singleton.mpr conforms
  · exact ((conforming_logs_are_accepted rules _).2.2 _).mp rejected

end Run
end Attest
