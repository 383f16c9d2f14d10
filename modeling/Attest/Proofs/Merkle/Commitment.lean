import Mathlib.Data.List.Basic
import Attest.Proofs.Merkle.Row

namespace Attest.Merkle

variable {leaves others : List Digest}

theorem fill_eq_or_collision (depth : Nat) (height : (levels leaves).length = depth + 1)
    (otherHeight : (levels others).length = depth + 1)
    (same : apex? (levels leaves) = apex? (levels others)) :
    fill depth leaves = fill depth others ∨ Collision (levelInputs leaves ++ levelInputs others) := by
  induction depth generalizing leaves others with
  | zero =>
    have small := small_of_length_levels height
    have otherSmall := small_of_length_levels otherHeight
    rw [apex?_of_small small, apex?_of_small otherSmall] at same
    refine .inl (List.ext_getElem? fun i => ?_)
    cases i with
    | zero => exact same
    | succ i =>
      rw [fill, fill, List.getElem?_eq_none (by omega), List.getElem?_eq_none (by omega)]
  | succ depth ih =>
    obtain ⟨large, above⟩ := large_of_length_levels height
    obtain ⟨otherLarge, otherAbove⟩ := large_of_length_levels otherHeight
    rw [apex?_levels_of_large large, apex?_levels_of_large otherLarge] at same
    rw [levelInputs_of_large large, levelInputs_of_large otherLarge]
    rcases ih above otherAbove same with parents | collision
    · rw [fill_parents, fill_parents] at parents
      rcases eq_or_collisionAt parents with inputs | collision
      · rw [fill_inputs, fill_inputs] at inputs
        have halves := List.map_injective_iff.mpr joined_injective inputs
        exact .inl (by rw [fill, fill, halves])
      · refine .inr (collision.collision.mono fun x member => ?_)
        rcases List.mem_append.mp member with left | right
        · simp [mem_of_mem_fill left]
        · simp [mem_of_mem_fill right]
    · refine .inr (collision.mono fun x member => ?_)
      rcases List.mem_append.mp member with left | right
      · simp [left]
      · simp [right]

theorem apex?_eq_of_fill_eq (depth : Nat) (height : (levels leaves).length = depth + 1)
    (otherHeight : (levels others).length = depth + 1) (same : fill depth leaves = fill depth others) :
    apex? (levels leaves) = apex? (levels others) := by
  induction depth generalizing leaves others with
  | zero => rw [show leaves = others from same]
  | succ depth ih =>
    obtain ⟨large, above⟩ := large_of_length_levels height
    obtain ⟨otherLarge, otherAbove⟩ := large_of_length_levels otherHeight
    rw [apex?_levels_of_large large, apex?_levels_of_large otherLarge]
    apply ih above otherAbove
    have halves := unpair_injective same
    rw [fill_parents, fill_parents, fill_inputs, fill_inputs, halves]

namespace Tree

variable {t u : Tree}

theorem row_eq_or_collision {depth : Nat} (inside : depth < t.height) (otherInside : depth < u.height)
    (same : t.root = u.root) : t.row depth = u.row depth ∨ Collision (t.inputs ++ u.inputs) := by
  obtain ⟨crown, leaves, height, root, inputs⟩ := t.exists_crown inside
  obtain ⟨other, otherLeaves, otherHeight, otherRoot, otherInputs⟩ := u.exists_crown otherInside
  have tops : apex? (Merkle.levels crown.leaves) = apex? (Merkle.levels other.leaves) := by
    rw [crown.apex?_levels, other.apex?_levels, root, otherRoot, same]
  rw [← length_levels] at height otherHeight
  rcases fill_eq_or_collision depth height otherHeight tops with rows | collision
  · rw [row, row, ← leaves, ← otherLeaves]
    exact .inl rows
  · exact .inr (collision.mono (List.append_subset.mpr
      ⟨List.subset_append_of_subset_left _ inputs, List.subset_append_of_subset_right _ otherInputs⟩))

theorem root_eq_of_row_eq {depth : Nat} (inside : depth < t.height) (otherInside : depth < u.height)
    (same : t.row depth = u.row depth) : t.root = u.root := by
  obtain ⟨crown, leaves, height, root, -⟩ := t.exists_crown inside
  obtain ⟨other, otherLeaves, otherHeight, otherRoot, -⟩ := u.exists_crown otherInside
  rw [← length_levels] at height otherHeight
  rw [row, row, ← leaves, ← otherLeaves] at same
  have tops := apex?_eq_of_fill_eq depth height otherHeight same
  rw [other.apex?_levels] at tops
  rw [← root, ← otherRoot, root_of_apex? tops]

structure Alike (t u : Tree) : Prop where
  rows : ∀ depth, depth < t.height → depth < u.height → t.row depth = u.row depth
  leaves : t.leafCount = u.leafCount → t.leaves = u.leaves
  /-- More leaves under a root of the same height are copies of those that are there. -/
  copies : t.height = u.height → t.leafCount ≤ u.leafCount → t.leaves <+: u.leaves ∧ u.leaves ⊆ t.leaves

theorem alike_of_rows (rows : ∀ depth, depth < t.height → depth < u.height → t.row depth = u.row depth) :
    t.Alike u := by
  have copies (heights : t.height = u.height) (fewer : t.leafCount ≤ u.leafCount) :
      t.leaves <+: u.leaves ∧ u.leaves ⊆ t.leaves := by
    have bottom : t.height - 1 < t.height := Nat.sub_one_lt_of_lt t.height_pos
    have same := rows _ bottom (heights ▸ bottom)
    rw [row, row, level_bottom, heights, level_bottom] at same
    have filled := prefix_fill (u.height - 1) t.leaves
    have otherFilled := prefix_fill (u.height - 1) u.leaves
    rw [← same] at otherFilled
    exact ⟨List.prefix_of_prefix_length_le filled otherFilled fewer,
      fun leaf member => mem_of_mem_fill (otherFilled.subset member)⟩
  refine ⟨rows, fun counts => ?_, copies⟩
  have heights : t.height = u.height := by rw [height_eq, height_eq, counts]
  exact (copies heights counts.le).1.eq_of_length counts

/-- A row is a level with copies of its own nodes behind it. Trees with one root have the same rows,
unless two inputs collide; and one row that is the same makes the roots the same. -/
theorem root_binds_rows (t u : Tree) :
    (∀ depth, depth < t.height → (t.row depth).length = 2 ^ depth ∧ t.level depth <+: t.row depth ∧
      t.row depth ⊆ t.level depth) ∧
    (t.root = u.root → t.Alike u ∨ Collision (t.inputs ++ u.inputs)) ∧
    ∀ depth, depth < t.height → depth < u.height → t.row depth = u.row depth → t.root = u.root := by
  refine ⟨fun depth inside => ?_, fun same => ?_, fun depth inside otherInside same => ?_⟩
  · exact ⟨t.length_row inside, t.prefix_row depth, t.row_subset depth⟩
  · by_cases collision : Collision (t.inputs ++ u.inputs)
    · exact .inr collision
    · refine .inl (alike_of_rows fun depth inside otherInside => ?_)
      exact (row_eq_or_collision inside otherInside same).resolve_right collision
  · exact root_eq_of_row_eq inside otherInside same

theorem root_binds_rows_copied :
    let t : Tree := grow [.filled 0, .filled 1, .filled 2] (by simp)
    let u : Tree := grow [.filled 0, .filled 1, .filled 2, .filled 2] (by simp)
    2 < t.height ∧ 2 < u.height ∧
      ((t.row 2).length = 2 ^ 2 ∧ t.level 2 <+: t.row 2 ∧ t.row 2 ⊆ t.level 2) ∧
      t.row 2 = u.row 2 ∧ t.root = u.root ∧ (t.Alike u ∨ Collision (t.inputs ++ u.inputs)) := by
  intro t u
  have leaves : Merkle.levels t.leaves = [[.filled 0, .filled 1, .filled 2],
      [.pair (.filled 0) (.filled 1), .pair (.filled 2) (.filled 2)],
      [.pair (.pair (.filled 0) (.filled 1)) (.pair (.filled 2) (.filled 2))]] := by
    simp [t, grow, Merkle.levels, parents]
  have others : Merkle.levels u.leaves = [[.filled 0, .filled 1, .filled 2, .filled 2],
      [.pair (.filled 0) (.filled 1), .pair (.filled 2) (.filled 2)],
      [.pair (.pair (.filled 0) (.filled 1)) (.pair (.filled 2) (.filled 2))]] := by
    simp [u, grow, Merkle.levels, parents]
  have height : 2 < t.height := by rw [← length_levels, leaves]; decide
  have otherHeight : 2 < u.height := by rw [← length_levels, others]; decide
  have row : t.row 2 = u.row 2 := by
    rw [Tree.row, Tree.row, level, level, t.levels_eq, u.levels_eq, leaves, others]
    rfl
  have same := (root_binds_rows t u).2.2 2 height otherHeight row
  exact ⟨height, otherHeight, (root_binds_rows t u).1 2 height, row, same,
    (root_binds_rows t u).2.1 same⟩

/-- A copy of an odd last leaf, and two leaves under their parent, leave the root as it is. -/
theorem root_leaves_count_open :
    let three : Tree := grow (List.replicate 3 (.filled 0)) (by simp)
    let four : Tree := grow (List.replicate 4 (.filled 0)) (by simp)
    let two : Tree := grow [.filled 0, .filled 1] (by simp)
    let single : Tree := grow [.pair (.filled 0) (.filled 1)] (by simp)
    (three.root = four.root ∧ three.leaves ≠ four.leaves ∧
      ¬ Collision (three.inputs ++ four.inputs)) ∧
    (two.root = single.root ∧ two.leaves ≠ single.leaves ∧
      ¬ Collision (two.inputs ++ single.inputs)) := by
  intro three four two single
  have copied : apex? (Merkle.levels three.leaves) = some four.root := by
    rw [← four.apex?_levels]
    simp [three, four, grow, Merkle.levels, parents, apex?]
  have raised : apex? (Merkle.levels two.leaves) = some single.root := by
    rw [← single.apex?_levels]
    simp [two, single, grow, Merkle.levels, parents, apex?]
  have input : two.inputs ++ single.inputs = [Digest.bytes (.filled 0) ++ Digest.bytes (.filled 1)] := by
    simp [inputs, levelInputs, two, single, grow, Merkle.levels, parents, Merkle.inputs]
  refine ⟨⟨root_of_apex? copied, by decide, ?_⟩, root_of_apex? raised, ?_, ?_⟩
  · -- The two inputs, the pair of leaves and the pair of their parents, are hashed here.
    decide +kernel
  · exact fun same => absurd (congrArg List.length same) (by decide)
  · rw [input]
    exact not_collision_singleton _

end Tree
end Attest.Merkle
