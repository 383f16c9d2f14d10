import Mathlib.Data.Nat.Log
import Attest.Merkle.Tree
import Attest.Proofs.Hash.Collision

namespace Attest.Merkle

def inputs : (nodes : List Digest) → List Bytes
  | [] => []
  | [a] => [a.bytes ++ a.bytes]
  | a :: b :: rest => (a.bytes ++ b.bytes) :: inputs rest

theorem map_hash_inputs (nodes : List Digest) : (inputs nodes).map Digest.hash = parents nodes := by
  induction nodes using inputs.induct with
  | case1 => rfl
  | case2 a => rfl
  | case3 a b rest ih => simp only [inputs, parents, List.map_cons, ih, Digest.pair]

theorem getElem?_inputs (nodes : List Digest) (k : Nat) :
    (inputs nodes)[k]? =
      nodes[2 * k]?.map fun a => a.bytes ++ (nodes[2 * k + 1]?.getD a).bytes := by
  induction nodes using inputs.induct generalizing k with
  | case1 => simp [inputs]
  | case2 a =>
    cases k with
    | zero => simp [inputs]
    | succ k => simp [inputs, Nat.mul_succ]
  | case3 a b rest ih =>
    cases k with
    | zero => simp [inputs]
    | succ k => simp [inputs, Nat.mul_succ, ih]

def sideAt (index : Nat) : Side := if index % 2 = 0 then .right else .left

def sides : (height index : Nat) → List Side
  | 0, _ => []
  | height + 1, index => sideAt index :: sides height (index / 2)

theorem length_sides (height index : Nat) : (sides height index).length = height := by
  induction height generalizing index with
  | zero => rfl
  | succ height ih => simp only [sides, List.length_cons, ih]

theorem getElem?_sides (height index k : Nat) (below : k < height) :
    (sides height index)[k]? = some (if index.testBit k then .left else .right) := by
  induction height generalizing index k with
  | zero => omega
  | succ height ih =>
    cases k with
    | zero =>
      have parity := Nat.mod_two_eq_zero_or_one index
      rcases parity with even | odd
      · simp [sides, sideAt, even, Nat.testBit_zero]
      · simp [sides, sideAt, odd, Nat.testBit_zero]
    | succ k =>
      have rest := ih (index / 2) k (by omega)
      simpa only [sides, List.getElem?_cons_succ, Nat.testBit_succ] using rest

def Step.input (node : Digest) (s : Step) : Bytes :=
  match s.side with
  | .left => s.sibling.bytes ++ node.bytes
  | .right => node.bytes ++ s.sibling.bytes

theorem Step.climb_eq_hash (node : Digest) (s : Step) : s.climb node = Digest.hash (s.input node) := by
  obtain ⟨sibling, side⟩ := s
  cases side <;> rfl

namespace Tree

/-- The node beside the path is the other half of the input from which the next level has its node. -/
theorem beside?_of_getElem? {level : List Digest} {index : Nat} {node : Digest}
    (here : level[index]? = some node) :
    ∃ step, beside? level index = some step ∧ step.side = sideAt index ∧
      (inputs level)[index / 2]? = some (step.input node) := by
  rcases Nat.mod_two_eq_zero_or_one index with even | odd
  · have left : 2 * (index / 2) = index := by omega
    refine ⟨⟨level[index + 1]?.getD node, .right⟩, ?_, by simp [sideAt, even], ?_⟩
    · cases next : level[index + 1]? <;> simp [beside?, even, here, next]
    · simp [getElem?_inputs, left, here, Step.input]
  · have left : 2 * (index / 2) = index - 1 := by omega
    have right : index - 1 + 1 = index := by omega
    have bound : index < level.length := (List.getElem?_eq_some_iff.mp here).1
    obtain ⟨sibling, before⟩ : ∃ sibling, level[index - 1]? = some sibling :=
      ⟨_, List.getElem?_eq_getElem (by omega)⟩
    refine ⟨⟨sibling, .left⟩, by simp [beside?, odd, before], by simp [sideAt, odd], ?_⟩
    simp [getElem?_inputs, left, right, here, before, Step.input]

theorem getElem?_parents_climb {level : List Digest} {index : Nat} {node : Digest} {step : Step}
    (above : (inputs level)[index / 2]? = some (step.input node)) :
    (parents level)[index / 2]? = some (step.climb node) := by
  rw [← map_hash_inputs, List.getElem?_map, above, Step.climb_eq_hash]
  rfl

end Tree

theorem levels_of_small {leaves : List Digest} (small : leaves.length ≤ 1) :
    levels leaves = [leaves] := by
  rw [levels, if_pos small]

theorem levels_of_large {leaves : List Digest} (large : ¬ leaves.length ≤ 1) :
    levels leaves = leaves :: levels (parents leaves) := by
  rw [levels, if_neg large]

theorem apex?_levels_of_large {leaves : List Digest} (large : ¬ leaves.length ≤ 1) :
    apex? (levels leaves) = apex? (levels (parents leaves)) := by
  rw [levels_of_large large, apex?_cons _ (levels_ne_nil _)]

theorem clog_halved {n : Nat} (large : ¬ n ≤ 1) : Nat.clog 2 n = Nat.clog 2 ((n + 1) / 2) + 1 :=
  Nat.clog_of_two_le (by decide) (by omega)

theorem length_levels (leaves : List Digest) :
    (levels leaves).length = Nat.clog 2 leaves.length + 1 := by
  induction leaves using levels.induct with
  | case1 leaves small =>
    rw [levels_of_small small, Nat.clog_of_right_le_one small]
    rfl
  | case2 leaves large ih =>
    rw [levels_of_large large, List.length_cons, ih, length_parents, clog_halved large]

namespace Tree

theorem path?_levels_of_small {leaves : List Digest} (small : leaves.length ≤ 1) (index : Nat) :
    path? (Merkle.levels leaves) index = some [] := by
  rw [levels_of_small small, path?]

theorem path?_levels_of_large {leaves : List Digest} (large : ¬ leaves.length ≤ 1) (index : Nat) :
    path? (Merkle.levels leaves) index = do
      let step ← beside? leaves index
      let path ← path? (Merkle.levels (parents leaves)) (index / 2)
      return step :: path := by
  rw [levels_of_large large]
  obtain ⟨next, rest, above⟩ := List.exists_cons_of_ne_nil (levels_ne_nil (parents leaves))
  rw [above, path?]
  simp

/-- From every leaf a path leads to the root: one step a level, on the sides that the index gives. -/
theorem path?_of_leaf (leaves : List Digest) {index : Nat} {leaf : Digest}
    (here : leaves[index]? = some leaf) :
    ∃ path, path? (Merkle.levels leaves) index = some path ∧
      apex? (Merkle.levels leaves) = some (path.foldl Step.climb leaf) ∧
      path.map Step.side = sides (Nat.clog 2 leaves.length) index := by
  induction leaves using levels.induct generalizing index leaf with
  | case1 leaves small =>
    have bound : index < leaves.length := (List.getElem?_eq_some_iff.mp here).1
    obtain rfl : index = 0 := by omega
    refine ⟨[], path?_levels_of_small small 0, ?_, ?_⟩
    · simpa [levels_of_small small, apex?, List.head?_eq_getElem?] using here
    · rw [Nat.clog_of_right_le_one small]
      rfl
  | case2 leaves large ih =>
    obtain ⟨step, beside, side, input⟩ := beside?_of_getElem? here
    obtain ⟨path, walk, root, rest⟩ := ih (getElem?_parents_climb input)
    refine ⟨step :: path, ?_, ?_, ?_⟩
    · simp [path?_levels_of_large large, beside, walk]
    · rw [apex?_levels_of_large large, root, List.foldl_cons]
    · rw [List.map_cons, side, rest, length_parents, clog_halved large]
      rfl

theorem apex?_levels (t : Tree) : apex? (Merkle.levels t.leaves) = some t.root := by
  rw [← t.levels_eq]
  exact (Option.some_get _).symm

theorem proof_of_leaf (t : Tree) {index : Nat} {leaf : Digest} (here : t.leaves[index]? = some leaf) :
    ∃ path, t.proof index = .ok ⟨index, leaf, path⟩ ∧
      path? (Merkle.levels t.leaves) index = some path ∧
      t.root = path.foldl Step.climb leaf ∧
      path.map Step.side = sides (Nat.clog 2 t.leafCount) index := by
  obtain ⟨path, walk, root, rest⟩ := path?_of_leaf t.leaves here
  refine ⟨path, ?_, walk, ?_, rest⟩
  · simp only [proof, here, t.levels_eq, walk]
  · rw [apex?_levels] at root
    exact Option.some.inj root

/-- Every list of leaves has a tree, and each of its leaves a proof that leads to the root: one step
for each level but the last, with the neighbour on the left exactly where the index has a one bit.
Past the leaves there are no proofs. -/
theorem every_leaf_proved (leaves : List Digest) (nonempty : leaves ≠ []) :
    ∃ t, ofLeaves leaves = .ok t ∧ t.leaves = leaves ∧
      (∀ index (bound : index < leaves.length), ∃ p, t.proof index = .ok p ∧
        p.index = index ∧ p.leaf = leaves[index] ∧ p.verify t.root = true ∧
        p.path.length = t.height - 1 ∧
        ∀ (k : Nat) (below : k < p.path.length), p.path[k].side = .left ↔ index.testBit k = true) ∧
      ∀ index, leaves.length ≤ index →
        t.proof index = .error (.indexOutOfRange index leaves.length) := by
  refine ⟨grow leaves nonempty, by rw [ofLeaves, dif_neg nonempty], rfl, ?_, ?_⟩
  · intro index bound
    obtain ⟨path, found, -, root, marks⟩ :=
      proof_of_leaf (grow leaves nonempty) (List.getElem?_eq_getElem bound)
    have height : path.length = Nat.clog 2 leaves.length := by
      have := congrArg List.length marks
      rwa [List.length_map, length_sides] at this
    refine ⟨_, found, rfl, rfl, ?_, ?_, ?_⟩
    · simp [Proof.verify, Proof.root, root]
    · simp [Tree.height, grow, length_levels, height]
    · intro k below
      have mark : (path.map Step.side)[k]? = some (if index.testBit k then .left else .right) :=
        marks ▸ getElem?_sides _ _ _ (height ▸ below)
      rw [List.getElem?_map, List.getElem?_eq_getElem below, Option.map_some, Option.some.injEq] at mark
      cases bit : index.testBit k <;> simp [mark, bit]
  · intro index past
    simp [proof, grow, leafCount, past]

theorem every_leaf_proved_three :
    ∃ t, ofLeaves [.filled 0, .filled 1, .filled 2] = .ok t ∧
      (∃ p, t.proof 2 = .ok p ∧ p.leaf = .filled 2 ∧ p.verify t.root = true ∧
        p.path.length = t.height - 1) ∧
      t.proof 3 = .error (.indexOutOfRange 3 3) := by
  obtain ⟨t, made, -, inside, outside⟩ :=
    every_leaf_proved [.filled 0, .filled 1, .filled 2] (by simp)
  obtain ⟨p, found, -, leaf, verified, height, -⟩ := inside 2 (by decide)
  exact ⟨t, made, ⟨p, found, leaf, verified, height⟩, outside 3 (by decide)⟩

end Tree
end Attest.Merkle
