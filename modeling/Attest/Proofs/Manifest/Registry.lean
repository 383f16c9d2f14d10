import Attest.Manifest.Registry
import Attest.Proofs.Hash.Collision
import Attest.Proofs.Manifest.Report

namespace Attest.Registry

open Lint (Report)

/-- A valid report with this hash: registering it puts it under the hash. -/
def Accepts (id : Digest) (r : Report) : Prop := r.valid = true ∧ r.hash = some id

theorem key?_eq_some_iff {r : Report} {id : Digest} : key? r = some id ↔ Accepts id r := by
  rw [key?, Accepts]
  cases r.valid <;> simp

def run (registry : Registry) (reports : List Report) : Registry :=
  reports.foldl (fun registry r => (registry.register r).2) registry

def latest (id : Digest) (reports : List Report) : Option Report :=
  (reports.filter fun r => key? r = some id).getLast?

section

variable {id : Digest} {r : Report}

theorem register_of_accepts (accepts : Accepts id r) (registry : Registry) :
    registry.register r = (some id, ⟨registry.reports.insert id.hex r⟩) := by
  have key := key?_eq_some_iff.mpr accepts
  simp only [register, key]

theorem accepts_of_register {registry : Registry} (registered : (registry.register r).1 = some id) :
    Accepts id r := by
  unfold register at registered
  split at registered
  · rename_i hash key
    obtain rfl : hash = id := Option.some.inj registered
    exact key?_eq_some_iff.mp key
  · cases registered

theorem get?_register_of_accepts (accepts : Accepts id r) (registry : Registry) :
    (registry.register r).2.get? id.hex = some r := by
  rw [register_of_accepts accepts]
  exact Entries.get?_insert_self _ _ _

theorem get?_register_of_not_accepts (other : ¬ Accepts id r) (registry : Registry) :
    (registry.register r).2.get? id.hex = registry.get? id.hex := by
  unfold register
  split
  · rename_i hash key
    have different : id.hex ≠ hash.hex := by
      intro same
      obtain rfl := Digest.hex_injective same
      exact other (key?_eq_some_iff.mp key)
    exact Entries.get?_insert_of_ne different _ _
  · rfl

theorem latest_cons_of_accepts (accepts : Accepts id r) (reports : List Report) :
    latest id (r :: reports) = some ((latest id reports).getD r) := by
  have key := key?_eq_some_iff.mpr accepts
  rw [latest, List.filter_cons_of_pos (by simp [key]), List.getLast?_cons, latest]

theorem latest_cons_of_not_accepts (other : ¬ Accepts id r) (reports : List Report) :
    latest id (r :: reports) = latest id reports := by
  have key : key? r ≠ some id := fun same => other (key?_eq_some_iff.mp same)
  rw [latest, List.filter_cons_of_neg (by simp [key]), latest]

theorem latest_eq_none_iff {reports : List Report} : latest id reports = none ↔ ∀ r ∈ reports, ¬ Accepts id r := by
  simp only [latest, List.getLast?_eq_none_iff, List.filter_eq_nil_iff, decide_eq_true_eq, key?_eq_some_iff]

theorem latest_eq_none {reports : List Report} (others : ∀ r ∈ reports, ¬ Accepts id r) :
    latest id reports = none :=
  latest_eq_none_iff.mpr others

theorem latest_append_cons (before : List Report) (accepts : Accepts id r) {after : List Report}
    (others : ∀ x ∈ after, ¬ Accepts id x) : latest id (before ++ r :: after) = some r := by
  have own : latest id (r :: after) = some r := by
    rw [latest_cons_of_accepts accepts, latest_eq_none others, Option.getD_none]
  rw [latest] at own
  rw [latest, List.filter_append, List.getLast?_append, own, Option.some_or]

theorem get?_run (registry : Registry) (reports : List Report) :
    (registry.run reports).get? id.hex = (latest id reports).or (registry.get? id.hex) := by
  induction reports generalizing registry with
  | nil => exact (Option.none_or).symm
  | cons r reports ih =>
    have step : (registry.run (r :: reports)).get? id.hex =
        (latest id reports).or ((registry.register r).2.get? id.hex) := ih _
    rw [step]
    by_cases accepts : Accepts id r
    · rw [get?_register_of_accepts accepts, latest_cons_of_accepts accepts]
      cases latest id reports <;> rfl
    · rw [get?_register_of_not_accepts accepts, latest_cons_of_not_accepts accepts]

end

/-- A report that was registered is found under its hash, whatever is registered later, unless a later
one is a valid report with the same hash; then the last of these is found. -/
theorem registered_until_same_hash (registry : Registry) (r : Report) {id : Digest}
    (registered : (registry.register r).1 = some id) (later : List Report) :
    ((∀ x ∈ later, ¬ (x.valid = true ∧ x.hash = some id)) →
      ((registry.register r).2.run later).get? id.hex = some r) ∧
    ∀ before x after, later = before ++ x :: after → x.valid = true → x.hash = some id →
      (∀ y ∈ after, ¬ (y.valid = true ∧ y.hash = some id)) →
      ((registry.register r).2.run later).get? id.hex = some x := by
  have accepts := accepts_of_register registered
  constructor
  · intro others
    rw [get?_run, latest_eq_none others, Option.none_or, get?_register_of_accepts accepts]
  · rintro before x after rfl valid hash others
    rw [get?_run, latest_append_cons before ⟨valid, hash⟩ others, Option.some_or]

section

def bare (id : String) : Manifest :=
  { Manifest.empty with specVersion := some "1.0", metadata := { Metadata.empty with id } }

theorem accepts_bare (id : String) :
    Accepts (.hash Graph.empty.canonicalBytes) (Lint.manifest .default (bare id)) := by
  rw [Lint.manifest_eq]
  exact ⟨by rfl, rfl⟩

/-- The first report is still found behind a refused one, and the second behind both. -/
theorem registered_until_same_hash_bare :
    let first := Lint.manifest .default (bare "a")
    let refused := Lint.manifest .default Manifest.empty
    let second := Lint.manifest .default (bare "b")
    let id := Digest.hash Graph.empty.canonicalBytes
    (empty.register first).1 = some id ∧
      ((empty.register first).2.run [refused]).get? id.hex = some first ∧
      ((empty.register first).2.run [refused, second]).get? id.hex = some second := by
  intro first refused second id
  have accepts := accepts_bare "b"
  have invalid : refused.valid = false := by
    rw [show refused = _ from Lint.manifest_eq _ _]
    rfl
  have registered : (empty.register first).1 = some id := by
    rw [register_of_accepts (accepts_bare "a")]
  refine ⟨registered, ?_, ?_⟩
  · apply (registered_until_same_hash empty first registered [refused]).1
    simp [invalid]
  · exact (registered_until_same_hash empty first registered [refused, second]).2 [refused] second []
      rfl accepts.1 accepts.2 nofun

/-- Two packs with one graph have one hash, even if their roots differ: the second takes the place of the
first. -/
theorem report_displaced_by_other_root :
    let first := Lint.manifest .default (bare "a")
    let second := Lint.manifest .default (bare "b")
    ∃ id, (empty.register first).1 = some id ∧ second.root ≠ first.root ∧
      ((empty.register first).2.run [second]).get? id.hex ≠ some first := by
  intro first second
  have roots : second.root ≠ first.root := by decide +kernel
  have found := get?_register_of_accepts (accepts_bare "b") (empty.register first).2
  refine ⟨.hash Graph.empty.canonicalBytes, ?_, roots, ?_⟩
  · rw [register_of_accepts (accepts_bare "a")]
  · intro kept
    have same : second = first := Option.some.inj (found.symm.trans kept)
    exact roots (congrArg Report.root same)

end

end Attest.Registry
