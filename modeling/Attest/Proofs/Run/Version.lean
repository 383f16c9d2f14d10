import Attest.Proofs.Run.Binding

namespace Attest

namespace Event

def payloadVersion (e : Event) : Option String :=
  (e.payload.get? "schemaVersion").bind Json.asString?

def effectiveVersion (e : Event) : Option String :=
  ([e.version, e.payloadVersion].filterMap id).find? (· ≠ "")

/-- The event names a version, but an empty one stands before it. -/
def Masked (e : Event) : Prop := e.version = some "" ∧ e.effectiveVersion.isSome = true

instance (e : Event) : Decidable e.Masked :=
  inferInstanceAs (Decidable (e.version = some "" ∧ e.effectiveVersion.isSome = true))

theorem declaredVersion_of_empty {e : Event} (empty : e.version = some "") :
    e.declaredVersion = none := by
  simp [declaredVersion, empty]

theorem declaredVersion_of_ne_empty {e : Event} (own : e.version ≠ some "") :
    e.declaredVersion = e.effectiveVersion := by
  rw [declaredVersion, effectiveVersion]
  change (e.version.or e.payloadVersion).filter _ = _
  cases version : e.version with
  | none =>
    cases e.payloadVersion with
    | none => rfl
    | some w => by_cases empty : w = "" <;> simp [empty]
  | some v =>
    have named : v ≠ "" := fun empty => own (version.trans (congrArg some empty))
    simp [named]

theorem declaredVersion_of_masked {e : Event} (masked : e.Masked) : e.declaredVersion = none :=
  declaredVersion_of_empty masked.1

theorem declaredVersion_of_not_masked {e : Event} (visible : ¬ e.Masked) :
    e.declaredVersion = e.effectiveVersion := by
  by_cases empty : e.version = some ""
  · have nothing : e.effectiveVersion = none := by
      simpa [Masked, empty] using visible
    rw [declaredVersion_of_empty empty, nothing]
  · exact declaredVersion_of_ne_empty empty

end Event

namespace Run

variable {rules : RunRules} {index : Nat} {e : Event}

theorem version_ok {v : String} (resolved : version rules index e = .ok v) :
    v = e.declaredVersion.getD rules.defaultVersion := by
  unfold version at resolved
  cases declared : e.declaredVersion with
  | none =>
    rw [declared] at resolved
    exact (Except.ok.inj resolved).symm
  | some w =>
    rw [declared] at resolved
    simp only at resolved
    split at resolved
    · exact (Except.ok.inj resolved).symm
    · cases resolved

theorem version_of_normalize {normal : Event} (accepted : normalize rules index e = .ok normal) :
    normal.version = some (e.declaredVersion.getD rules.defaultVersion) := by
  obtain ⟨v, resolved, rfl⟩ := normalize_ok accepted
  rw [version_ok resolved]

theorem normalize_of_unsupported {v : String} (declared : e.declaredVersion = some v)
    (unsupported : rules.supports v = false) :
    normalize rules index e = .error (.unsupportedVersion index v rules.supported) := by
  have refused : version rules index e = .error (.unsupportedVersion index v rules.supported) := by
    simp [version, declared, unsupported]
  rw [normalize, refused]
  rfl

theorem checkShape_ne_unsupported {i : Nat} {v : String} {supported : List String} :
    checkShape index e ≠ .error (.unsupportedVersion i v supported) := by
  unfold checkShape
  split <;> nofun

theorem checkFields_ne_unsupported {i : Nat} {v : String} {supported : List String} :
    checkFields rules index e ≠ .error (.unsupportedVersion i v supported) := by
  unfold checkFields
  split
  · nofun
  · split
    · split <;> nofun
    · nofun

theorem normalize_ne_unsupported (undeclared : e.declaredVersion = none) {i : Nat} {v : String}
    {supported : List String} :
    normalize rules index e ≠ .error (.unsupportedVersion i v supported) := by
  have resolved : version rules index e = .ok rules.defaultVersion := by simp [version, undeclared]
  intro refused
  rw [normalize, resolved] at refused
  rcases bind_eq_error.mp refused with default | ⟨_, -, refused⟩
  · cases default
  rcases bind_eq_error.mp refused with shape | ⟨_, -, refused⟩
  · exact checkShape_ne_unsupported shape
  rcases bind_eq_error.mp refused with fields | ⟨_, -, accepted⟩
  · exact checkFields_ne_unsupported fields
  · cases accepted

/-- The effective version is never replaced by another: an event that names an unsupported one is
refused, and an accepted event keeps its own. A masked version alone is passed over. -/
theorem version_gate (rules : RunRules) (index : Nat) (e : Event) :
    (¬ e.Masked →
      (∀ v, e.effectiveVersion = some v → rules.supports v = false →
        normalize rules index e = .error (.unsupportedVersion index v rules.supported)) ∧
      ∀ normal, normalize rules index e = .ok normal →
        normal.version = some (e.effectiveVersion.getD rules.defaultVersion)) ∧
    (e.Masked →
      (∀ normal, normalize rules index e = .ok normal → normal.version = some rules.defaultVersion) ∧
      ∀ i v supported, normalize rules index e ≠ .error (.unsupportedVersion i v supported)) := by
  constructor
  · intro visible
    rw [← Event.declaredVersion_of_not_masked visible]
    exact ⟨fun v => normalize_of_unsupported, fun normal => version_of_normalize⟩
  · intro masked
    have undeclared := Event.declaredVersion_of_masked masked
    refine ⟨fun normal accepted => ?_, fun i v supported => normalize_ne_unsupported undeclared⟩
    rw [version_of_normalize accepted, undeclared, Option.getD_none]

/-- One event with its version in the payload, and the same one behind an empty version. -/
theorem version_gate_payload :
    let payload : Json := .object [("schemaVersion", .string "9.9.9")]
    let plain : Event := ⟨"tool.result", payload, none⟩
    let masked : Event := ⟨"tool.result", payload, some ""⟩
    ¬ plain.Masked ∧ plain.effectiveVersion = some "9.9.9" ∧ RunRules.default.supports "9.9.9" = false ∧
      normalize .default 4 plain = .error (.unsupportedVersion 4 "9.9.9" ["1.0.0"]) ∧
      masked.Masked ∧ normalize .default 4 masked = .ok { masked with version := some "1.0.0" } ∧
      ∀ i v supported, normalize .default 4 masked ≠ .error (.unsupportedVersion i v supported) := by
  intro payload plain masked
  have notMasked : ¬ plain.Masked := by decide
  have hidden : masked.Masked := by decide
  have effective : plain.effectiveVersion = some "9.9.9" := by decide
  have unsupported : RunRules.default.supports "9.9.9" = false := by decide
  exact ⟨notMasked, effective, unsupported,
    ((version_gate .default 4 plain).1 notMasked).1 _ effective unsupported, hidden, by decide,
    ((version_gate .default 4 masked).2 hidden).2⟩

/-- An unsupported version is named, and the default one is taken. -/
theorem masked_version_accepted :
    let e : Event := ⟨"tool.result", .object [("schemaVersion", .string "9.9.9")], some ""⟩
    e.effectiveVersion = some "9.9.9" ∧ RunRules.default.supports "9.9.9" = false ∧
      normalize .default 0 e = .ok { e with version := some "1.0.0" } := by
  decide

end Run
end Attest
