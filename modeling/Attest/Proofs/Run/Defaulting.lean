import Attest.Proofs.Run.Comparison
import Attest.Proofs.Run.Conforming

namespace Attest

theorem Event.declaredVersion_of_version {e : Event} {v : String} (named : e.version = some v) :
    e.declaredVersion = if v = "" then none else some v := by
  rw [declaredVersion, named, Option.some_or, Option.filter_some]
  by_cases empty : v = "" <;> simp [empty]

namespace Run

variable {rules : RunRules} {e : Event} {index : Nat}

/-- The same event, or the one with the default version written down where it declares none. -/
inductive Defaulted (rules : RunRules) (e : Event) : Event → Prop where
  | kept : Defaulted rules e e
  | written (undeclared : e.declaredVersion = none) :
      Defaulted rules e { e with version := some rules.defaultVersion }

theorem normalize_congr {other : Event} (kind : other.kind = e.kind) (payload : other.payload = e.payload)
    (resolved : version rules index other = version rules index e) :
    normalize rules index other = normalize rules index e := by
  obtain ⟨_, _, version⟩ := e
  obtain ⟨_, _, version'⟩ := other
  obtain rfl : _ = _ := kind
  obtain rfl : _ = _ := payload
  rw [normalize, normalize, resolved]
  rfl

theorem version_of_undeclared (undeclared : e.declaredVersion = none) :
    version rules index e = .ok rules.defaultVersion := by
  rw [version, undeclared]

theorem version_of_default (supported : rules.supports rules.defaultVersion = true)
    (named : e.version = some rules.defaultVersion) : version rules index e = .ok rules.defaultVersion := by
  have declared := Event.declaredVersion_of_version named
  -- An empty default is no version when it is written down, but then it is what the event follows.
  by_cases empty : rules.defaultVersion = ""
  · rw [if_pos empty] at declared
    exact version_of_undeclared declared
  · rw [if_neg empty] at declared
    rw [version, declared]
    exact if_pos supported

theorem Defaulted.normalize_eq (supported : rules.supports rules.defaultVersion = true) {other : Event}
    (defaulted : Defaulted rules e other) : normalize rules index other = normalize rules index e := by
  cases defaulted with
  | kept => rfl
  | written undeclared =>
    apply normalize_congr
    · rfl
    · rfl
    · rw [version_of_default supported rfl, version_of_undeclared undeclared]

theorem normalizeFrom_defaulted (supported : rules.supports rules.defaultVersion = true)
    {log others : List Event} (defaulted : List.Forall₂ (Defaulted rules) log others) :
    normalizeFrom rules index others = normalizeFrom rules index log := by
  induction defaulted generalizing index with
  | nil => rfl
  | cons first _ ih => rw [normalizeFrom, normalizeFrom, first.normalize_eq supported, ih]

theorem declaredVersion_normalForm (rules : RunRules) (e : Event) :
    (normalForm rules e).declaredVersion = e.declaredVersion ∨
      e.declaredVersion = none ∧ (normalForm rules e).declaredVersion = some rules.defaultVersion := by
  have named : (normalForm rules e).version = some (e.declaredVersion.getD rules.defaultVersion) := rfl
  rw [Event.declaredVersion_of_version named]
  cases declared : e.declaredVersion with
  | none =>
    rw [Option.getD_none]
    split
    · exact .inl rfl
    · exact .inr ⟨rfl, rfl⟩
  | some v =>
    -- A version that is declared is not empty.
    have given : v ≠ "" := by simpa using (Option.filter_eq_some_iff.mp declared).2
    rw [Option.getD_some, if_neg given]
    exact .inl rfl

theorem normalForm_normalForm (rules : RunRules) (e : Event) :
    normalForm rules (normalForm rules e) = normalForm rules e := by
  have same : (normalForm rules e).declaredVersion.getD rules.defaultVersion =
      e.declaredVersion.getD rules.defaultVersion := by
    rcases declaredVersion_normalForm rules e with same | ⟨none, named⟩
    · rw [same]
    · rw [none, named]
      rfl
  rw [normalForm, same]
  rfl

theorem Conforms.normalForm (supported : rules.supports rules.defaultVersion = true)
    (conforms : Conforms rules e) : Conforms rules (normalForm rules e) := by
  refine ⟨fun v declared => ?_, conforms.shape, conforms.fields⟩
  rcases declaredVersion_normalForm rules e with same | ⟨-, named⟩
  · exact conforms.version v (same ▸ declared)
  · cases named.symm.trans declared
    exact List.contains_iff_mem.mp supported

/-- Normal forms are normal already. They have the fingerprints of the log that they come from, and so
has the log with the default version written down at any of its events that declare none. -/
theorem default_version_is_invisible {rules : RunRules}
    (supported : rules.supports rules.defaultVersion = true) {log events : List Event}
    (accepted : normalizeLog rules log = .ok events) :
    normalizeLog rules events = .ok events ∧
    ∀ id, ∃ d, fingerprint rules id log = .ok d ∧ fingerprint rules id events = .ok d ∧
      ∀ written, List.Forall₂ (Defaulted rules) log written → fingerprint rules id written = .ok d := by
  obtain ⟨conform, same⟩ := normalizeLog_eq_ok_iff.mp accepted
  have again : normalizeLog rules events = .ok events := by
    apply normalizeLog_eq_ok_iff.mpr
    constructor
    · rw [same]
      exact List.forall_mem_map.mpr fun e there => (conform e there).normalForm supported
    · rw [same, List.map_map]
      exact List.map_congr_left fun e _ => (normalForm_normalForm rules e).symm
  refine ⟨again, fun id => ⟨_, fingerprint_of_accepted accepted, fingerprint_of_accepted again, ?_⟩⟩
  intro written defaulted
  have accepted' : normalizeLog rules written = .ok events :=
    (normalizeFrom_defaulted supported defaulted).trans accepted
  exact fingerprint_of_accepted accepted'

/-- Versions of every sort: the event's own, the payload's, an empty one before it, and none. -/
theorem default_version_is_invisible_mixed :
    let log : List Event := [⟨"a", .object [], some "1.0.0"⟩,
      ⟨"b", .object [("schemaVersion", .string "1.0.0")], none⟩,
      ⟨"c", .object [("schemaVersion", .string "9.9.9")], some ""⟩, ⟨rawKind, .null, none⟩]
    let events := log.map fun e => { e with version := some "1.0.0" }
    let written : List Event := [⟨"a", .object [], some "1.0.0"⟩,
      ⟨"b", .object [("schemaVersion", .string "1.0.0")], none⟩,
      ⟨"c", .object [("schemaVersion", .string "9.9.9")], some "1.0.0"⟩, ⟨rawKind, .null, none⟩]
    RunRules.default.supports RunRules.default.defaultVersion = true ∧
      normalizeLog .default log = .ok events ∧ List.Forall₂ (Defaulted .default) log written ∧
      normalizeLog .default events = .ok events ∧
      ∃ d, fingerprint .default "r" log = .ok d ∧ fingerprint .default "r" events = .ok d ∧
        fingerprint .default "r" written = .ok d := by
  intro log events written
  have supported : RunRules.default.supports RunRules.default.defaultVersion = true := by decide
  have accepted : normalizeLog .default log = .ok events := by decide
  have defaulted : List.Forall₂ (Defaulted .default) log written :=
    .cons .kept (.cons .kept (.cons (.written (by decide)) (.cons .kept .nil)))
  obtain ⟨again, fingerprints⟩ := default_version_is_invisible supported accepted
  obtain ⟨d, own, normal, others⟩ := fingerprints "r"
  exact ⟨supported, accepted, defaulted, again, d, own, normal, others written defaulted⟩

end Run
end Attest
