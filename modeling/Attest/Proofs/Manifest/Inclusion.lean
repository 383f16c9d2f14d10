import Attest.Proofs.Manifest.Identity
import Attest.Proofs.Outcome

namespace Attest.Manifest

theorem proof_of_inside (m : Manifest) {leaf : Nat} (inside : leaf < Integrity.leafCount) :
    ∃ own, m.integrity.proof leaf = .ok own ∧ own.index = leaf ∧
      m.integrity.tree.leaves[leaf]? = some own.leaf ∧ own.verify m.address = true := by
  have bound : leaf < m.integrity.tree.leaves.length := by
    rw [leaves_tree, List.length_map, length_contents]
    exact inside
  have here := List.getElem?_eq_getElem bound
  rcases m.integrity.tree.proof_of_leaf here with ⟨path, found, -, root, -⟩
  exact ⟨_, found, rfl, here, decide_eq_true root.symm⟩

theorem proof_of_outside (m : Manifest) {leaf : Nat} (outside : Integrity.leafCount ≤ leaf) :
    m.integrity.proof leaf = .error (.indexOutOfRange leaf Integrity.leafCount) := by
  have past : m.integrity.tree.leaves[leaf]? = none := by
    apply List.getElem?_eq_none
    rw [leaves_tree, List.length_map, length_contents]
    exact outside
  rw [Integrity.proof, Merkle.Tree.proof, past, leafCount_tree]

theorem checkProof_of_inside (m : Manifest) {leaf : Nat} (inside : leaf < Integrity.leafCount)
    {own : Merkle.Proof} (found : m.integrity.proof leaf = .ok own) (p : Merkle.Proof) :
    m.checkProof leaf p = .ok (p.index = leaf && p.leaf = own.leaf && p.verify m.address) := by
  rw [checkProof, if_pos inside, found]
  rfl

theorem checkProof_of_outside (m : Manifest) {leaf : Nat} (outside : Integrity.leafCount ≤ leaf)
    (p : Merkle.Proof) : m.checkProof leaf p = .error (.leafOutOfRange leaf Integrity.leafCount) := by
  rw [checkProof, if_neg (Nat.not_lt_of_le outside)]

theorem integrity_proof_eq {m n : Manifest} (same : m.contents = n.contents) (leaf : Nat) :
    m.integrity.proof leaf = n.integrity.proof leaf := by
  have trees : Integrity.treeOf m m.graph.canonicalBytes = Integrity.treeOf n n.graph.canonicalBytes := by
    have contents : Integrity.leaves m m.graph.canonicalBytes = Integrity.leaves n n.graph.canonicalBytes :=
      same
    simp only [Integrity.treeOf, contents]
  show (Integrity.treeOf m _).proof leaf = (Integrity.treeOf n _).proof leaf
  rw [trees]

/-- The proof of a leaf of one pack is accepted for a leaf of another exactly if it is the same leaf and
the packs have the same contents, unless two inputs at one place of the two trees collide. -/
theorem proof_names_one_content (m n : Manifest) :
    (∀ leaf proved, leaf < Integrity.leafCount → proved < Integrity.leafCount →
      ∃ p accepted, m.integrity.proof proved = .ok p ∧ n.checkProof leaf p = .ok accepted ∧
        (leaf = proved ∧ m.contents = n.contents → accepted = true) ∧
        (accepted = true → leaf = proved ∧ (m.contents = n.contents ∨ CollisionAt m.hashed n.hashed))) ∧
    ∀ leaf p, Integrity.leafCount ≤ leaf →
      n.checkProof leaf p = .error (.leafOutOfRange leaf Integrity.leafCount) := by
  constructor
  · intro leaf proved inside provedInside
    rcases m.proof_of_inside provedInside with ⟨p, found, index, -, root⟩
    rcases n.proof_of_inside inside with ⟨own, ownFound, ownIndex, -, ownRoot⟩
    refine ⟨p, _, found, n.checkProof_of_inside inside ownFound p, ?_, ?_⟩
    · intro same
      rcases same with ⟨rfl, contents⟩
      have equal : p = own := by
        rw [integrity_proof_eq contents, ownFound] at found
        exact (Except.ok.inj found).symm
      simp [equal, ownIndex, ownRoot]
    · intro accepted
      simp only [Bool.and_eq_true, decide_eq_true_eq] at accepted
      rcases accepted with ⟨⟨named, -⟩, verified⟩
      have same : m.address = n.address :=
        (of_decide_eq_true root).symm.trans (of_decide_eq_true verified)
      exact ⟨named.symm.trans index, contents_bound same⟩
  · intro leaf p outside
    exact n.checkProof_of_outside outside p

theorem proof_names_one_content_described :
    let m : Manifest := { empty with metadata := ⟨"a", "1", "b", "first"⟩, deterministic := true }
    let n : Manifest := { empty with metadata := ⟨"a", "1", "b", "second"⟩, deterministic := true }
    ∃ p, m.integrity.proof 4 = .ok p ∧ n.checkProof 4 p = .ok true ∧ n.checkProof 3 p = .ok false ∧
      n.checkProof 5 p = .error (.leafOutOfRange 5 5) := by
  intro m n
  rcases proof_names_one_content m n with ⟨inside, outside⟩
  rcases inside 4 4 (by decide) (by decide) with ⟨p, accepted, found, checked, complete, -⟩
  rcases inside 3 4 (by decide) (by decide) with ⟨other, refused, otherFound, otherChecked, -, sound⟩
  have same : m.contents = n.contents := rfl
  obtain rfl : p = other := Except.ok.inj (found.symm.trans otherFound)
  obtain rfl : accepted = true := complete ⟨rfl, same⟩
  have wrong : refused = false := by
    by_contra taken
    have equal := (sound (Bool.eq_true_of_not_eq_false taken)).1
    omega
  exact ⟨p, found, checked, wrong ▸ otherChecked, outside 5 p (by decide)⟩

end Attest.Manifest
