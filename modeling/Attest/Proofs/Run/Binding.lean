import Attest.Run.Fingerprint
import Attest.Proofs.Canonical.Encoding
import Attest.Proofs.Hash.Collision
import Attest.Proofs.Outcome

namespace Attest

structure Event.Agree (a b : Event) : Prop where
  kind : a.kind = b.kind
  version : a.version = b.version
  payload : Canonical.ofJson a.payload = Canonical.ofJson b.payload

namespace Event

theorem canonical_eq {e : Event} {v : String} (versioned : e.version = some v) :
    e.canonical = .object [("payload", .ofJson e.payload), ("schemaVersion", .string v),
      ("type", .string e.kind)] := by
  obtain ⟨kind, payload, version⟩ := e
  obtain rfl := versioned
  -- The keys are fixed, so they are sorted by computation.
  rfl

theorem agree_of_canonical_eq {a b : Event} (left : a.version.isSome) (right : b.version.isSome)
    (same : a.canonical = b.canonical) : Agree a b := by
  obtain ⟨v, hv⟩ := Option.isSome_iff_exists.mp left
  obtain ⟨w, hw⟩ := Option.isSome_iff_exists.mp right
  rw [canonical_eq hv, canonical_eq hw] at same
  simp only [Canonical.object.injEq, List.cons.injEq, Prod.mk.injEq, Canonical.string.injEq,
    true_and, and_true] at same
  obtain ⟨payload, version, kind⟩ := same
  exact ⟨kind, by rw [hv, hw, version], payload⟩

theorem forall₂_agree {as bs : List Event} (left : ∀ e ∈ as, e.version.isSome)
    (right : ∀ e ∈ bs, e.version.isSome) (same : as.map canonical = bs.map canonical) :
    List.Forall₂ Agree as bs := by
  induction as generalizing bs with
  | nil =>
    obtain rfl := List.map_eq_nil_iff.mp same.symm
    exact .nil
  | cons a as ih =>
    obtain ⟨b, bs, rfl, head, tail⟩ := List.map_eq_cons_iff.mp same.symm
    apply List.Forall₂.cons
    · exact agree_of_canonical_eq (left a List.mem_cons_self) (right b List.mem_cons_self) head.symm
    · apply ih _ _ tail.symm
      · exact fun e member => left e (List.mem_cons_of_mem _ member)
      · exact fun e member => right e (List.mem_cons_of_mem _ member)

end Event

namespace Run

variable {rules : RunRules}

theorem normalize_ok {index : Nat} {e normal : Event} (accepted : normalize rules index e = .ok normal) :
    ∃ v, version rules index e = .ok v ∧ normal = { e with version := some v } := by
  unfold normalize at accepted
  obtain ⟨v, resolved, accepted⟩ := bind_eq_ok.mp accepted
  obtain ⟨-, -, accepted⟩ := bind_eq_ok.mp accepted
  obtain ⟨-, -, accepted⟩ := bind_eq_ok.mp accepted
  exact ⟨v, resolved, (Except.ok.inj accepted).symm⟩

theorem normalizeFrom_ok {index : Nat} {log events : List Event}
    (accepted : normalizeFrom rules index log = .ok events) :
    events.length = log.length ∧ ∀ e ∈ events, e.version.isSome := by
  induction log generalizing index events with
  | nil =>
    cases accepted
    simp
  | cons e log ih =>
    unfold normalizeFrom at accepted
    obtain ⟨normal, first, accepted⟩ := bind_eq_ok.mp accepted
    obtain ⟨more, rest, accepted⟩ := bind_eq_ok.mp accepted
    obtain rfl := Except.ok.inj accepted
    obtain ⟨length, versioned⟩ := ih rest
    obtain ⟨v, -, rfl⟩ := normalize_ok first
    refine ⟨by simp [length], ?_⟩
    rintro e (_ | ⟨_, member⟩)
    · rfl
    · exact versioned e member

theorem canonical_of_accepted {id : String} {log events : List Event}
    (accepted : normalizeLog rules log = .ok events) :
    canonical rules id log = .ok (.array (.string id :: events.map Event.canonical)) := by
  rw [canonical, canonicalEvents, accepted]
  rfl

/-- Runs with one fingerprint have one id and logs whose events agree one by one, unless the two
canonical texts collide. -/
theorem fingerprint_binds_run (rules : RunRules) (id other : String)
    {log otherLog events otherEvents : List Event}
    (accepted : normalizeLog rules log = .ok events)
    (otherAccepted : normalizeLog rules otherLog = .ok otherEvents)
    (same : fingerprint rules id log = fingerprint rules other otherLog) :
    (id = other ∧ log.length = otherLog.length ∧ List.Forall₂ Event.Agree events otherEvents) ∨
      ∃ run otherRun, canonical rules id log = .ok run ∧
        canonical rules other otherLog = .ok otherRun ∧ Collision [run.bytes, otherRun.bytes] := by
  have run : canonical rules id log = _ := canonical_of_accepted accepted
  have otherRun : canonical rules other otherLog = _ := canonical_of_accepted otherAccepted
  rw [fingerprint, run, fingerprint, otherRun] at same
  rcases eq_or_collision (Except.ok.inj same) with bytes | collision
  · have trees := Canonical.text_injective (Utf8.encode_injective bytes)
    simp only [Canonical.array.injEq, List.cons.injEq, Canonical.string.injEq] at trees
    obtain ⟨ids, logs⟩ := trees
    obtain ⟨length, versioned⟩ := normalizeFrom_ok accepted
    obtain ⟨otherLength, otherVersioned⟩ := normalizeFrom_ok otherAccepted
    have agree := Event.forall₂_agree versioned otherVersioned logs
    exact .inl ⟨ids, by rw [← length, ← otherLength, agree.length_eq], agree⟩
  · exact .inr ⟨_, _, run, otherRun, collision⟩

theorem fingerprint_binds_run_defaulted :
    let log : List Event := [⟨"a", .object [], none⟩, ⟨rawKind, .array [.ofInt 7], none⟩]
    let otherLog : List Event := [⟨"a", .object [], some "1.0.0"⟩, ⟨rawKind, .array [.ofInt 7], none⟩]
    let events : List Event :=
      [⟨"a", .object [], some "1.0.0"⟩, ⟨rawKind, .array [.ofInt 7], some "1.0.0"⟩]
    normalizeLog .default log = .ok events ∧ normalizeLog .default otherLog = .ok events ∧
      fingerprint .default "r" log = fingerprint .default "r" otherLog ∧
      (("r" = "r" ∧ log.length = otherLog.length ∧ List.Forall₂ Event.Agree events events) ∨
        ∃ run otherRun, canonical .default "r" log = .ok run ∧
          canonical .default "r" otherLog = .ok otherRun ∧ Collision [run.bytes, otherRun.bytes]) := by
  intro log otherLog events
  have accepted : normalizeLog .default log = .ok events := by decide
  have otherAccepted : normalizeLog .default otherLog = .ok events := by decide
  have same : fingerprint .default "r" log = fingerprint .default "r" otherLog := by
    rw [fingerprint, canonical_of_accepted accepted, fingerprint, canonical_of_accepted otherAccepted]
  exact ⟨accepted, otherAccepted, same, fingerprint_binds_run .default "r" "r" accepted otherAccepted same⟩

end Run
end Attest
