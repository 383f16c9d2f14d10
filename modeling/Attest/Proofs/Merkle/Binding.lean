import Attest.Proofs.Merkle.Path

namespace Attest.Merkle

def levelInputs (leaves : List Digest) : List Bytes := (levels leaves).dropLast.flatMap inputs

theorem levelInputs_of_large {leaves : List Digest} (large : ¬ leaves.length ≤ 1) :
    levelInputs leaves = inputs leaves ++ levelInputs (parents leaves) := by
  rw [levelInputs, levels_of_large large, List.dropLast_cons_of_ne_nil (levels_ne_nil _),
    List.flatMap_cons, levelInputs]

def pathInputs (node : Digest) : List Step → List Bytes
  | [] => []
  | s :: rest => s.input node :: pathInputs (s.climb node) rest

def Tree.inputs (t : Tree) : List Bytes := levelInputs t.leaves

def Proof.inputs (p : Proof) : List Bytes := pathInputs p.leaf p.path

theorem Step.input_inj {x y : Digest} {s r : Step} (sides : s.side = r.side)
    (same : s.input x = r.input y) : x = y ∧ s = r := by
  obtain ⟨a, side⟩ := s
  obtain ⟨b, other⟩ := r
  cases sides
  cases side with
  | left =>
    obtain ⟨siblings, nodes⟩ := Digest.append_inj same
    exact ⟨nodes, congrArg (Step.mk · .left) siblings⟩
  | right =>
    obtain ⟨nodes, siblings⟩ := Digest.append_inj same
    exact ⟨nodes, congrArg (Step.mk · .right) siblings⟩

/-- A path that reaches the root on the sides of the leaf's own path is that path, or collides with
it. -/
theorem path_unique (leaves : List Digest) {index : Nat} {leaf node : Digest}
    {path other : List Step} (here : leaves[index]? = some leaf)
    (walk : Tree.path? (levels leaves) index = some path)
    (marks : other.map Step.side = path.map Step.side)
    (meets : apex? (levels leaves) = some (other.foldl Step.climb node)) :
    (node = leaf ∧ other = path) ∨ Collision (levelInputs leaves ++ pathInputs node other) := by
  induction leaves using levels.induct generalizing index leaf node path other with
  | case1 leaves small =>
    have bound : index < leaves.length := (List.getElem?_eq_some_iff.mp here).1
    obtain rfl : index = 0 := by omega
    rw [Tree.path?_levels_of_small small] at walk
    obtain rfl := Option.some.inj walk
    obtain rfl := List.map_eq_nil_iff.mp marks
    have top : leaves[0]? = some node := by
      simpa [levels_of_small small, apex?, List.head?_eq_getElem?] using meets
    exact .inl ⟨Option.some.inj (top.symm.trans here), rfl⟩
  | case2 leaves large ih =>
    obtain ⟨step, beside, -, input⟩ := Tree.beside?_of_getElem? here
    have above := Tree.getElem?_parents_climb input
    obtain ⟨rest, walkAbove, -, -⟩ := Tree.path?_of_leaf _ above
    have expanded : path = step :: rest := by
      rw [Tree.path?_levels_of_large large, beside, Option.bind_eq_bind, Option.bind_some,
        walkAbove] at walk
      exact (Option.some.inj walk).symm
    subst expanded
    obtain ⟨s, others, rfl, side, marksAbove⟩ := List.map_eq_cons_iff.mp marks
    rw [apex?_levels_of_large large] at meets
    rcases ih above walkAbove marksAbove meets with ⟨nodes, paths⟩ | collision
    · by_cases same : s.input node = step.input leaf
      · obtain ⟨rfl, rfl⟩ := Step.input_inj side same
        exact .inl ⟨rfl, by rw [paths]⟩
      · -- The two paths part here: one digest, formed from different inputs.
        refine .inr ⟨s.input node, ?_, step.input leaf, ?_, same, ?_⟩
        · simp [pathInputs]
        · rw [levelInputs_of_large large]
          simp [List.mem_of_getElem? input]
        · rw [← Step.climb_eq_hash, ← Step.climb_eq_hash, nodes]
    · refine .inr (collision.mono fun x member => ?_)
      rw [levelInputs_of_large large, pathInputs]
      rcases List.mem_append.mp member with tree | proof
      · simp [tree]
      · simp [proof]

namespace Tree

/-- A proof that verifies at the position of a leaf is the leaf's own proof, unless two inputs
collide. So the proof of a leaf that has since been replaced fails, and the root is another. -/
theorem proof_binds_leaf (t : Tree) {index : Nat} (bound : index < t.leafCount) :
    ∃ own, t.proof index = .ok own ∧
      (∀ p : Proof, p.path.map Step.side = own.path.map Step.side → p.verify t.root = true →
        (some p.leaf = t.leaves[index]? ∧ p.path.map Step.sibling = own.path.map Step.sibling) ∨
          Collision (t.inputs ++ p.inputs)) ∧
      ∀ changed : Tree, changed.leafCount = t.leafCount →
        changed.leaves[index]? ≠ t.leaves[index]? →
        (own.verify changed.root = false ∧ changed.root ≠ t.root) ∨
          Collision (changed.inputs ++ own.inputs) := by
  have here : t.leaves[index]? = some t.leaves[index] := List.getElem?_eq_getElem bound
  obtain ⟨path, found, walk, root, marks⟩ := proof_of_leaf t here
  refine ⟨_, found, ?_, ?_⟩
  · intro p same verified
    have meets : apex? (Merkle.levels t.leaves) = some (p.path.foldl Step.climb p.leaf) := by
      rw [apex?_levels, ← of_decide_eq_true verified, Proof.root]
    rcases path_unique t.leaves here walk same meets with ⟨leaf, equal⟩ | collision
    · exact .inl ⟨by rw [here, leaf], by rw [equal]⟩
    · exact .inr collision
  · intro changed count differs
    obtain ⟨leafThere, there⟩ : ∃ leaf, changed.leaves[index]? = some leaf :=
      ⟨_, List.getElem?_eq_getElem (lt_of_lt_of_eq bound count.symm)⟩
    obtain ⟨pathThere, -, walkThere, -, marksThere⟩ := proof_of_leaf changed there
    by_cases verified : path.foldl Step.climb t.leaves[index] = changed.root
    · have meets : apex? (Merkle.levels changed.leaves) =
          some (path.foldl Step.climb t.leaves[index]) := by rw [apex?_levels, verified]
      have same : path.map Step.side = pathThere.map Step.side := by rw [marks, marksThere, count]
      rcases path_unique changed.leaves there walkThere same meets with ⟨leaf, -⟩ | collision
      · exact absurd (by rw [here, there, leaf]) differs
      · exact .inr collision
    · refine .inl ⟨decide_eq_false verified, fun equal => verified ?_⟩
      rw [equal, root]

theorem proof_binds_leaf_three :
    ∃ (t changed : Tree) (own : Proof),
      t.leaves = [.filled 0, .filled 1, .filled 2] ∧
      changed.leaves = [.filled 0, .filled 1, .filled 3] ∧ 2 < t.leafCount ∧
      changed.leafCount = t.leafCount ∧ changed.leaves[2]? ≠ t.leaves[2]? ∧
      t.proof 2 = .ok own ∧ own.verify t.root = true ∧
      (some own.leaf = t.leaves[2]? ∨ Collision (t.inputs ++ own.inputs)) ∧
      ((own.verify changed.root = false ∧ changed.root ≠ t.root) ∨
        Collision (changed.inputs ++ own.inputs)) := by
  let t := grow [.filled 0, .filled 1, .filled 2] (by simp)
  let changed := grow [.filled 0, .filled 1, .filled 3] (by simp)
  have differs : changed.leaves[2]? ≠ t.leaves[2]? := by decide
  obtain ⟨own, found, bound, replaced⟩ := proof_binds_leaf t (by decide : 2 < t.leafCount)
  obtain ⟨path, same, -, root, -⟩ := proof_of_leaf t (rfl : t.leaves[2]? = some (.filled 2))
  obtain rfl := Except.ok.inj (found.symm.trans same)
  have verified : Proof.verify ⟨2, .filled 2, path⟩ t.root = true := decide_eq_true root.symm
  exact ⟨t, changed, _, rfl, rfl, by decide, rfl, differs, found, verified,
    (bound _ rfl verified).imp_left And.left, replaced changed rfl differs⟩

end Tree
end Attest.Merkle
