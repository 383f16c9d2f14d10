import Attest.Manifest.Lint
import Attest.Proofs.Canonical.Native
import Attest.Proofs.Manifest.Inclusion

namespace Attest

namespace Integrity

theorem writtenLeaves_eq (m : Manifest) (graph : Bytes) :
    writtenLeaves m graph = .ok (leaves m graph) := by
  rw [writtenLeaves, Json.convertedBytes_eq, Json.convertedBytes_eq]
  rfl

theorem build_eq (m : Manifest) (graph : Bytes) : build m graph = .ok (withGraph m graph) := by
  have grown : Merkle.Tree.ofContents (leaves m graph) = .ok (treeOf m graph) :=
    Merkle.Tree.ofContents_eq_grow (by simp [leaves])
  apply bind_eq_ok.mpr
  refine ⟨leaves m graph, mapError_eq_ok.mpr (writtenLeaves_eq m graph), ?_⟩
  apply bind_eq_ok.mpr
  exact ⟨treeOf m graph, mapError_eq_ok.mpr grown, rfl⟩

end Integrity

namespace Lint

theorem identify_eq (m : Manifest) :
    identify m = ⟨some (.hash m.graph.canonicalBytes), some m.integrity, []⟩ := by
  have written := Json.convertedBytes_eq m.graph.toJson
  have built := Integrity.build_eq m m.graph.toJson.canonicalBytes
  simp only [identify, written, built]
  rfl

theorem manifest_eq (rules : LintRules) (m : Manifest) :
    manifest rules m =
      { valid := (errors rules m).isEmpty
        errors := errors rules m
        warnings := warnings rules m
        metadata := m.metadata
        hash := some (.hash m.graph.canonicalBytes)
        root := some m.address
        integrity := some m.integrity
        proof := (m.integrity.proof rules.proofLeaf).toOption } := by
  rw [manifest, identify_eq, List.append_nil]
  rfl

theorem bytes_of_ofBytes {bytes : Bytes} {m : Manifest} (parsed : Manifest.ofBytes bytes = .ok m)
    (rules : LintRules) : Lint.bytes rules bytes = manifest rules m := by
  rw [Lint.bytes, mapError_eq_ok.mp parsed]

theorem bytes_ne_of_refused {bytes other : Bytes} {m : Manifest} {fault : Json.Fault}
    (parsed : Manifest.ofBytes bytes = .ok m) (refused : Json.read (Manifest.decoder .value) other = .error fault)
    (rules : LintRules) : Lint.bytes rules other ≠ Lint.bytes rules bytes := by
  intro same
  have hash := congrArg Report.hash same
  rw [bytes_of_ofBytes parsed, manifest_eq, Lint.bytes, refused] at hash
  cases hash

theorem warning_cases {rules : LintRules} {m : Manifest} {w : Warning} (warned : w ∈ warnings rules m) :
    (∃ version, w = .unsupportedVersion version rules.specMajor) ∨
      (∃ permission ∈ m.permissions, w = .systemPermission permission) ∨
        w = .largeGraph rules.nodeLimit := by
  rw [warnings, List.mem_append, List.mem_append] at warned
  rcases warned with (version | permission) | size
  · simp only [versionWarnings] at version
    split at version
    · cases version
    · exact .inl ⟨_, List.mem_singleton.mp version⟩
  · rcases List.mem_map.mp permission with ⟨p, requested, rfl⟩
    exact .inr (.inl ⟨p, (List.mem_filter.mp requested).1, rfl⟩)
  · unfold sizeWarnings at size
    split at size
    · exact .inr (.inr (List.mem_singleton.mp size))
    · cases size

/-- The report on something that is no manifest: one error, and nothing else is known. -/
structure Refused (fault : Json.Fault) (r : Report) : Prop where
  invalid : r.valid = false
  errors : r.errors = [.unreadable fault]
  warnings : r.warnings = []
  hash : r.hash = none
  root : r.root = none
  integrity : r.integrity = none
  proof : r.proof = none

/-- The report on a pack that is known by the digest of its graph and by its integrity. -/
structure Identified (rules : LintRules) (graph : Digest) (pack : Integrity) (r : Report) : Prop where
  valid_iff : r.valid = true ↔ r.errors = []
  hash : r.hash = some graph
  root : r.root = some pack.root
  integrity : r.integrity = some pack
  apex : pack.root = pack.tree.root
  leafCount : pack.tree.leafCount = 5
  graphLeaf : pack.tree.leaves[3]? = some graph
  proof_iff : r.proof.isSome = true ↔ rules.proofLeaf < 5
  proven : ∀ p, r.proof = some p → p.index = rules.proofLeaf ∧ p.verify pack.root = true
  written : ∀ fault, Warning.unwrittenGraph fault ∉ r.warnings
  built : ∀ fault, Warning.noIntegrity fault ∉ r.warnings

theorem refused_unreadable (fault : Json.Fault) : Refused fault (unreadable fault) :=
  ⟨rfl, rfl, rfl, rfl, rfl, rfl, rfl⟩

/-- There is a proof exactly of the leaves inside, and it is one of the leaf that was asked for. -/
theorem proof_cases (m : Manifest) (leaf : Nat) :
    (leaf < Integrity.leafCount ∧ ∃ p, (m.integrity.proof leaf).toOption = some p ∧ p.index = leaf ∧
      p.verify m.address = true) ∨
    (Integrity.leafCount ≤ leaf ∧ (m.integrity.proof leaf).toOption = none) := by
  by_cases inside : leaf < Integrity.leafCount
  · rcases m.proof_of_inside inside with ⟨p, found, index, -, verified⟩
    exact .inl ⟨inside, p, by rw [found]; rfl, index, verified⟩
  · have outside := Nat.le_of_not_lt inside
    exact .inr ⟨outside, by rw [m.proof_of_outside outside]; rfl⟩

theorem identified_manifest (rules : LintRules) (m : Manifest) :
    Identified rules (.hash m.graph.canonicalBytes) m.integrity (manifest rules m) := by
  rw [manifest_eq]
  constructor
  case valid_iff => exact List.isEmpty_iff
  case hash | root | integrity | apex | leafCount | graphLeaf => rfl
  case proof_iff =>
    rcases proof_cases m rules.proofLeaf with ⟨inside, p, found, -⟩ | ⟨outside, none⟩
    · exact ⟨fun _ => inside, fun _ => Option.isSome_iff_exists.mpr ⟨p, found⟩⟩
    · have past : ¬ rules.proofLeaf < 5 := Nat.not_lt_of_le outside
      simp [none, past]
  case proven =>
    intro p found
    rcases proof_cases m rules.proofLeaf with ⟨-, q, own, index, verified⟩ | ⟨-, none⟩
    · rw [Option.some.inj (found.symm.trans own)]
      exact ⟨index, verified⟩
    · cases found.symm.trans none
  case written =>
    intro fault warned
    rcases warning_cases warned with ⟨_, other⟩ | ⟨_, _, other⟩ | other <;> cases other
  case built =>
    intro fault warned
    rcases warning_cases warned with ⟨_, other⟩ | ⟨_, _, other⟩ | other <;> cases other

/-- Whatever the bytes and the rules: either the bytes are no manifest, and the report says so and no
more, or the pack is known, and what the report tells of it fits together. -/
theorem report_is_consistent (rules : LintRules) (data : Bytes) :
    (∃ fault, Manifest.ofBytes data = .error (.unreadable fault) ∧ Refused fault (bytes rules data)) ∨
    (∃ m, Manifest.ofBytes data = .ok m ∧
      Identified rules (.hash m.graph.canonicalBytes) m.integrity (bytes rules data)) := by
  cases read : Json.read (Manifest.decoder .value) data with
  | error fault =>
    refine .inl ⟨fault, by rw [Manifest.ofBytes, read]; rfl, ?_⟩
    rw [bytes, read]
    exact refused_unreadable fault
  | ok m =>
    have parsed : Manifest.ofBytes data = .ok m := mapError_eq_ok.mpr read
    refine .inr ⟨m, parsed, ?_⟩
    rw [bytes_of_ofBytes parsed]
    exact identified_manifest rules m

end Lint
end Attest
