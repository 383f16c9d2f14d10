import Attest.Proofs.Manifest.Report

namespace Attest

namespace Manifest

def findIntegrity (m : Manifest) : Except Integrity.Fault Integrity := do
  let graph ← m.graph.toJson.convertedBytes.mapError .unwritten
  Integrity.build m graph

def findAddress (m : Manifest) : Except Integrity.Fault Digest := do
  return (← m.findIntegrity).root

theorem findIntegrity_eq (m : Manifest) : m.findIntegrity = .ok m.integrity := by
  apply bind_eq_ok.mpr
  exact ⟨_, mapError_eq_ok.mpr m.graph.toJson.convertedBytes_eq, Integrity.build_eq m _⟩

theorem findAddress_eq (m : Manifest) : m.findAddress = .ok m.address := by
  rw [findAddress, findIntegrity_eq]
  rfl

theorem verify_iff (m : Manifest) (i : Nat) (data : Bytes) :
    m.integrity.verify i data = true ↔ ∃ leaf, m.contents[i]? = some leaf ∧ Digest.hash data = .hash leaf := by
  by_cases inside : i < Integrity.leafCount
  · rcases m.proof_of_inside inside with ⟨own, found, -, place, verified⟩
    rw [leaves_tree, List.getElem?_map, Option.map_eq_some_iff] at place
    rcases place with ⟨leaf, there, hashed⟩
    have root : own.verify m.integrity.root = true := verified
    simp only [Integrity.verify, found, root, Bool.and_true, decide_eq_true_eq, there, ← hashed]
    simp [eq_comm]
  · have outside := Nat.le_of_not_lt inside
    have none : m.contents[i]? = none := List.getElem?_eq_none outside
    simp [Integrity.verify, m.proof_of_outside outside, none]

/-- The leaves of a manifest can be written and there are five of them. Its integrity accepts, in the place of
each, what has the digest of the leaf. In every other place it accepts nothing, as there is no proof. -/
theorem verify_accepts_leaf_only (m : Manifest) :
    ∃ graph leaves pack, m.graph.toJson.convertedBytes = .ok graph ∧
      Integrity.writtenLeaves m graph = .ok leaves ∧ leaves.length = 5 ∧ m.findIntegrity = .ok pack ∧
      ∀ i data, (pack.verify i data = true ↔ i < 5 ∧ leaves[i]?.map Digest.hash = some (.hash data)) ∧
        (5 ≤ i → pack.proof i = .error (.indexOutOfRange i 5) ∧ pack.verify i data = false) := by
  refine ⟨m.graph.canonicalBytes, m.contents, m.integrity, m.graph.toJson.convertedBytes_eq,
    Integrity.writtenLeaves_eq m _, m.length_contents, m.findIntegrity_eq, ?_⟩
  intro i data
  have accepted : m.integrity.verify i data = true ↔
      i < 5 ∧ m.contents[i]?.map Digest.hash = some (.hash data) := by
    rw [verify_iff, Option.map_eq_some_iff]
    constructor
    · intro found
      rcases found with ⟨leaf, there, same⟩
      have bound : i < m.contents.length := (List.getElem?_eq_some_iff.mp there).1
      exact ⟨bound, leaf, there, same.symm⟩
    · intro found
      rcases found with ⟨-, leaf, there, same⟩
      exact ⟨leaf, there, same.symm⟩
  refine ⟨accepted, fun outside => ⟨m.proof_of_outside outside, ?_⟩⟩
  rw [← Bool.not_eq_true, accepted]
  omega

/-- The tools and the permissions of this pack are alike, and so are their leaves. -/
theorem verify_accepts_leaf_only_alike :
    let m : Manifest := { empty with tools := ["t"], permissions := ["t"], deterministic := true }
    let data := Utf8.encode "[\"t\"]"
    ∃ pack, m.findIntegrity = .ok pack ∧ pack.verify 1 data = true ∧ pack.verify 2 data = true ∧
      pack.verify 4 (Utf8.encode "true") = true ∧ pack.verify 5 (Utf8.encode "true") = false := by
  intro m data
  rcases verify_accepts_leaf_only m with ⟨graph, leaves, pack, -, written, -, found, each⟩
  have own : leaves = Integrity.leaves m graph := by
    rw [Integrity.writtenLeaves_eq] at written
    exact (Except.ok.inj written).symm
  subst own
  exact ⟨pack, found, (each 1 data).1.mpr ⟨by decide, rfl⟩, (each 2 data).1.mpr ⟨by decide, rfl⟩,
    (each 4 _).1.mpr ⟨by decide, rfl⟩, ((each 5 _).2 (by decide)).2⟩

end Manifest

namespace Lint

theorem recheckLeaf_eq (m : Manifest) {leaf : Nat} (inside : leaf < Integrity.leafCount) (r : Report) :
    recheckLeaf m.integrity r leaf = r := by
  rcases m.proof_of_inside inside with ⟨own, found, -, -, verified⟩
  have root : own.verify m.integrity.root = true := verified
  simp only [recheckLeaf, found, root, if_true]

theorem recheck_eq {r : Report} {m : Manifest} (known : r.integrity = some m.integrity) : recheck r = r := by
  have all : (List.range Integrity.leafCount).foldl (recheckLeaf m.integrity) r = r := by
    apply List.foldlRecOn (motive := fun after => after = r)
    · rfl
    · intro after same leaf inside
      rw [recheckLeaf_eq m (List.mem_range.mp inside), same]
  simp only [recheck, known, all]

theorem bytesWithProofs_eq (rules : LintRules) (data : Bytes) : bytesWithProofs rules data = bytes rules data := by
  unfold bytesWithProofs bytes
  cases Json.read (Manifest.decoder .value) data with
  | error fault => rfl
  | ok m =>
    have known : (manifest rules m).integrity = some m.integrity := by rw [manifest_eq]
    exact recheck_eq known

section

variable {rules : LintRules} {data : Bytes}

theorem unverifiedLeaf_not_mem (leaf : Nat) : .unverifiedLeaf leaf ∉ (bytes rules data).errors := by
  unfold bytes
  cases Json.read (Manifest.decoder .value) data with
  | error fault => simp [unreadable]
  | ok m =>
    show .unverifiedLeaf leaf ∉ errors rules m
    simp [errors, versionErrors, toolErrors, graphErrors, danglingEnds]

theorem unprovenLeaf_not_mem (leaf : Nat) (error : Merkle.Error) :
    .unprovenLeaf leaf error ∉ (bytes rules data).warnings := by
  unfold bytes
  cases Json.read (Manifest.decoder .value) data with
  | error fault => simp [unreadable]
  | ok m =>
    simp only [manifest_eq]
    intro warned
    rcases warning_cases warned with ⟨_, other⟩ | ⟨_, _, other⟩ | other <;> cases other

end

theorem eq_unverifiedLeaf {e : Error} {leaf : Nat} (same : e.message = (Error.unverifiedLeaf leaf).message) :
    ∃ other, e = .unverifiedLeaf other := by
  have start := congrArg (fun text => text.toList.take 2) same
  unfold Error.message at start
  cases e with
  | unverifiedLeaf other => exact ⟨other, rfl⟩
  | _ => simp [toString] at start

theorem eq_unprovenLeaf {w : Warning} {leaf : Nat} {error : Merkle.Error}
    (same : w.message = (Warning.unprovenLeaf leaf error).message) :
    ∃ other reason, w = .unprovenLeaf other reason := by
  have start := congrArg (fun text => text.toList.head?) same
  unfold Warning.message at start
  cases w with
  | unprovenLeaf other reason => exact ⟨other, reason, rfl⟩
  | _ => simp [toString] at start

/-- Whatever the bytes and the rules, nothing is found when every leaf is proved and verified again: no text
on a leaf is among the errors or the warnings. -/
theorem recheck_finds_nothing (rules : LintRules) (data : Bytes) :
    bytesWithProofs rules data = bytes rules data ∧
    (∀ leaf, (Error.unverifiedLeaf leaf).message ∉ (bytesWithProofs rules data).errors.map Error.message) ∧
    ∀ leaf error, (Warning.unprovenLeaf leaf error).message ∉
      (bytesWithProofs rules data).warnings.map Warning.message := by
  rw [bytesWithProofs_eq]
  refine ⟨rfl, ?_, ?_⟩
  · intro leaf told
    rcases List.mem_map.mp told with ⟨e, there, same⟩
    rcases eq_unverifiedLeaf same with ⟨other, rfl⟩
    exact unverifiedLeaf_not_mem other there
  · intro leaf error told
    rcases List.mem_map.mp told with ⟨w, there, same⟩
    rcases eq_unprovenLeaf same with ⟨other, reason, rfl⟩
    exact unprovenLeaf_not_mem other reason there

end Lint
end Attest
