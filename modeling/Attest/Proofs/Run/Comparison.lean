import Attest.Run.Comparison
import Attest.Proofs.Canonical.Difference
import Attest.Proofs.Run.Binding

namespace Attest.Run

section

variable {α : Type}

/-- Two lists have the same items before a position, but not at it: there they have different ones, or
one of them has ended. -/
structure PartAt (as bs : List α) (i : Nat) : Prop where
  before : ∀ k < i, ∃ x, as[k]? = some x ∧ bs[k]? = some x
  here : as[i]? ≠ bs[i]?

theorem PartAt.cons {as bs : List α} {i : Nat} (x : α) (part : PartAt as bs i) :
    PartAt (x :: as) (x :: bs) (i + 1) := by
  refine ⟨fun k before => ?_, part.here⟩
  cases k with
  | zero => exact ⟨x, rfl, rfl⟩
  | succ k => exact part.before k (Nat.lt_of_succ_lt_succ before)

theorem partAt_zero {as bs : List α} (differ : as[0]? ≠ bs[0]?) : PartAt as bs 0 :=
  ⟨fun _ before => absurd before (Nat.not_lt_zero _), differ⟩

variable [DecidableEq α]

theorem partAt_of_firstDivergence {as bs : List α} {i : Nat} (found : firstDivergence as bs = some i) :
    PartAt as bs i := by
  induction as generalizing bs i with
  | nil =>
    cases bs with
    | nil => cases found
    | cons b bs =>
      obtain rfl := Option.some.inj found
      exact partAt_zero nofun
  | cons a as ih =>
    cases bs with
    | nil =>
      obtain rfl := Option.some.inj found
      exact partAt_zero nofun
    | cons b bs =>
      rw [firstDivergence] at found
      split at found
      · rename_i same
        obtain ⟨j, later, rfl⟩ := Option.map_eq_some_iff.mp found
        rw [same]
        exact (ih later).cons b
      · rename_i different
        obtain rfl := Option.some.inj found
        exact partAt_zero fun same => different (Option.some.inj same)

theorem eq_of_firstDivergence_eq_none {as bs : List α} (found : firstDivergence as bs = none) :
    as = bs := by
  induction as generalizing bs with
  | nil =>
    cases bs with
    | nil => rfl
    | cons b bs => cases found
  | cons a as ih =>
    cases bs with
    | nil => cases found
    | cons b bs =>
      rw [firstDivergence] at found
      split at found
      · rename_i same
        rw [same, ih (Option.map_eq_none_iff.mp found)]
      · cases found

end

theorem differencesAt_of_both {as bs : List Canonical} {i : Nat} {a b : Canonical}
    (left : as[i]? = some a) (right : bs[i]? = some b) :
    differencesAt as bs i = Difference.between a b := by
  rw [differencesAt, left, right]

theorem differencesAt_of_past {as bs : List Canonical} {i : Nat} (past : as.length ≤ i ∨ bs.length ≤ i) :
    differencesAt as bs i = [] := by
  rcases past with past | past
  · rw [differencesAt, List.getElem?_eq_none past]
  · rw [differencesAt, List.getElem?_eq_none past]
    cases as[i]? <;> rfl

theorem PartAt.differencesAt_ne_nil_iff {as bs : List Canonical} {i : Nat} (part : PartAt as bs i) :
    differencesAt as bs i ≠ [] ↔ i < as.length ∧ i < bs.length := by
  constructor
  · intro shown
    constructor
    · exact Nat.lt_of_not_le fun past => shown (differencesAt_of_past (.inl past))
    · exact Nat.lt_of_not_le fun past => shown (differencesAt_of_past (.inr past))
  · rintro ⟨left, right⟩ hidden
    have here := List.getElem?_eq_getElem left
    have there := List.getElem?_eq_getElem right
    rw [differencesAt_of_both here there, Difference.between_eq_nil_iff] at hidden
    exact part.here (by rw [here, there, hidden])

def runOf (id : String) (events : List Canonical) : Canonical := .array (.string id :: events)

theorem runOf_digest_inj {id : String} {as bs : List Canonical}
    (same : (runOf id as).digest = (runOf id bs).digest) :
    as = bs ∨ Collision [(runOf id as).bytes, (runOf id bs).bytes] := by
  rcases Canonical.eq_or_collision same with trees | collision
  · rw [runOf, runOf, Canonical.array.injEq] at trees
    exact .inl (List.tail_eq_of_cons_eq trees)
  · exact .inr collision

def compared (id : String) (as bs : List Canonical) : Comparison :=
  if (runOf id as).digest = (runOf id bs).digest then ⟨.verified, none, []⟩
  else ⟨.mismatch (runOf id as).digest.hex (runOf id bs).digest.hex, firstDivergence as bs,
    (firstDivergence as bs).elim [] (differencesAt as bs)⟩

variable {rules : RunRules} {id : String} {stored replayed events others : List Event}

theorem canonicalEvents_of_accepted (accepted : normalizeLog rules stored = .ok events) :
    canonicalEvents rules stored = .ok (events.map Event.canonical) := by
  rw [canonicalEvents, accepted]
  rfl

theorem fingerprint_of_accepted (accepted : normalizeLog rules stored = .ok events) :
    fingerprint rules id stored = .ok (runOf id (events.map Event.canonical)).digest := by
  rw [fingerprint, canonical_of_accepted accepted]
  rfl

theorem canonicalEvents_of_rejected {e : Error} (rejected : normalizeLog rules stored = .error e) :
    canonicalEvents rules stored = .error e := by
  rw [canonicalEvents, rejected]
  rfl

theorem compareLogs_of_accepted (accepted : normalizeLog rules stored = .ok events)
    (otherAccepted : normalizeLog rules replayed = .ok others) :
    compareLogs rules id stored replayed =
      .ok (compared id (events.map Event.canonical) (others.map Event.canonical)) := by
  rw [compareLogs, canonicalEvents_of_accepted accepted, canonicalEvents_of_accepted otherAccepted,
    fingerprint_of_accepted accepted, fingerprint_of_accepted otherAccepted, compared]
  generalize (runOf id (events.map Event.canonical)).digest = expected
  generalize (runOf id (others.map Event.canonical)).digest = actual
  by_cases same : expected = actual
  · have verdict : Verdict.judge expected actual = .verified := if_pos same
    rw [if_pos same]
    simp only [bind, Except.bind, verdict]
    rfl
  · have verdict : Verdict.judge expected actual = .mismatch expected.hex actual.hex := if_neg same
    rw [if_neg same]
    simp only [bind, Except.bind, verdict]
    rfl

structure Comparison.Exact (c : Comparison) (id : String) (as bs : List Canonical) : Prop where
  equal : as = bs → c = ⟨.verified, none, []⟩
  verified : c.verdict = .verified → c.divergence = none ∧ c.differences = [] ∧
    (as = bs ∨ Collision [(runOf id as).bytes, (runOf id bs).bytes])
  mismatch : ∀ expected actual, c.verdict = .mismatch expected actual →
    ∃ i, c.divergence = some i ∧ PartAt as bs i ∧
      (c.differences ≠ [] ↔ i < as.length ∧ i < bs.length) ∧
      ∀ a b, as[i]? = some a → bs[i]? = some b → c.differences = Difference.between a b

theorem exact_compared (id : String) (as bs : List Canonical) : (compared id as bs).Exact id as bs := by
  unfold compared
  split
  · rename_i same
    exact ⟨fun _ => rfl, fun _ => ⟨rfl, rfl, runOf_digest_inj same⟩, nofun⟩
  · rename_i different
    refine ⟨fun same => absurd (same ▸ rfl) different, nofun, fun _ _ _ => ?_⟩
    cases found : firstDivergence as bs with
    | none => exact absurd (eq_of_firstDivergence_eq_none found ▸ rfl) different
    | some i =>
      have part := partAt_of_firstDivergence found
      exact ⟨i, rfl, part, part.differencesAt_ne_nil_iff, fun _ _ => differencesAt_of_both⟩

/-- Logs that are accepted are compared exactly; otherwise the comparison is the error of the stored log
or, if that one is accepted, of the replayed one. -/
theorem comparison_is_exact (rules : RunRules) (id : String) (stored replayed : List Event) :
    (∀ events others, normalizeLog rules stored = .ok events → normalizeLog rules replayed = .ok others →
      ∃ c, compareLogs rules id stored replayed = .ok c ∧
        c.Exact id (events.map Event.canonical) (others.map Event.canonical)) ∧
    (∀ e, normalizeLog rules stored = .error e → compareLogs rules id stored replayed = .error e) ∧
    ∀ events e, normalizeLog rules stored = .ok events → normalizeLog rules replayed = .error e →
      compareLogs rules id stored replayed = .error e := by
  refine ⟨fun events others accepted otherAccepted => ?_, fun e rejected => ?_,
    fun events e accepted rejected => ?_⟩
  · exact ⟨_, compareLogs_of_accepted accepted otherAccepted, exact_compared id _ _⟩
  · rw [compareLogs, canonicalEvents_of_rejected rejected]
    rfl
  · rw [compareLogs, canonicalEvents_of_accepted accepted, canonicalEvents_of_rejected rejected]
    rfl

theorem comparison_is_exact_truncated :
    let stored : List Event := [⟨"a", .object [], none⟩, ⟨"b", .object [("x", .ofInt 1)], none⟩]
    let replayed : List Event := [⟨"a", .object [], some "1.0.0"⟩]
    let refused : List Event := [⟨"a", .null, none⟩]
    let events : List Event :=
      [⟨"a", .object [], some "1.0.0"⟩, ⟨"b", .object [("x", .ofInt 1)], some "1.0.0"⟩]
    normalizeLog .default stored = .ok events ∧ normalizeLog .default replayed = .ok replayed ∧
      normalizeLog .default refused = .error (.payloadNotObject 0 "a") ∧
      (∃ c, compareLogs .default "r" stored replayed = .ok c ∧
        c.Exact "r" (events.map Event.canonical) (replayed.map Event.canonical)) ∧
      compareLogs .default "r" refused replayed = .error (.payloadNotObject 0 "a") ∧
      compareLogs .default "r" stored refused = .error (.payloadNotObject 0 "a") := by
  intro stored replayed refused events
  have accepted : normalizeLog .default stored = .ok events := by decide
  have otherAccepted : normalizeLog .default replayed = .ok replayed := by decide
  have rejected : normalizeLog .default refused = .error (.payloadNotObject 0 "a") := by decide
  exact ⟨accepted, otherAccepted, rejected,
    (comparison_is_exact .default "r" stored replayed).1 _ _ accepted otherAccepted,
    (comparison_is_exact .default "r" refused replayed).2.1 _ rejected,
    (comparison_is_exact .default "r" stored refused).2.2 _ _ accepted rejected⟩

end Attest.Run
