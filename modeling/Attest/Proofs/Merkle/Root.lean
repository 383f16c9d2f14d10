import Attest.Proofs.Merkle.Binding

namespace Attest.Merkle

theorem length_inputs (nodes : List Digest) : (inputs nodes).length = (nodes.length + 1) / 2 := by
  rw [← length_parents, ← map_hash_inputs, List.length_map]

theorem inputs_inj {nodes others : List Digest} (lengths : nodes.length = others.length)
    (same : inputs nodes = inputs others) : nodes = others := by
  induction nodes using inputs.induct generalizing others with
  | case1 => exact (List.length_eq_zero_iff.mp lengths.symm).symm
  | case2 a =>
    obtain ⟨c, rfl⟩ := List.length_eq_one_iff.mp lengths.symm
    have halves := Digest.append_inj (List.head_eq_of_cons_eq same)
    rw [halves.1]
  | case3 a b rest ih =>
    rcases others with _ | ⟨c, _ | ⟨d, others⟩⟩
    · cases lengths
    · cases lengths
    · have halves := Digest.append_inj (List.head_eq_of_cons_eq same)
      have tails := ih (by simpa using lengths) (List.tail_eq_of_cons_eq same)
      rw [halves.1, halves.2, tails]

theorem eq_of_apex? {leaves others : List Digest} (small : leaves.length ≤ 1)
    (lengths : leaves.length = others.length)
    (same : apex? (levels leaves) = apex? (levels others)) : leaves = others := by
  rw [levels_of_small small, levels_of_small (lengths ▸ small)] at same
  match leaves, others with
  | [], [] => rfl
  | [a], [b] =>
    obtain rfl : a = b := by simpa [apex?] using same
    rfl

theorem apex?_binds_leaves (leaves : List Digest) {others : List Digest}
    (lengths : leaves.length = others.length)
    (same : apex? (levels leaves) = apex? (levels others)) :
    leaves = others ∨ CollisionAt (levelInputs leaves) (levelInputs others) := by
  induction leaves using levels.induct generalizing others with
  | case1 leaves small => exact .inl (eq_of_apex? small lengths same)
  | case2 leaves large ih =>
    have otherLarge : ¬ others.length ≤ 1 := lengths ▸ large
    rw [apex?_levels_of_large large, apex?_levels_of_large otherLarge] at same
    rw [levelInputs_of_large large, levelInputs_of_large otherLarge]
    have halved : (parents leaves).length = (parents others).length := by
      rw [length_parents, length_parents, lengths]
    rcases ih halved same with above | collision
    -- The level above is the same, so this one has the same digests of its inputs.
    · rw [← map_hash_inputs, ← map_hash_inputs] at above
      rcases eq_or_collisionAt above with level | collision
      · exact .inl (inputs_inj lengths level)
      · exact .inr (collision.append _ _)
    · have width : (inputs leaves).length = (inputs others).length := by
        rw [length_inputs, length_inputs, lengths]
      exact .inr (collision.prepend width)

/-- Trees with as many leaves and one root have the same leaves, unless they collide at a place. -/
theorem Tree.root_binds {t u : Tree} (count : t.leafCount = u.leafCount) (same : t.root = u.root) :
    t.leaves = u.leaves ∨ CollisionAt t.inputs u.inputs := by
  apply apex?_binds_leaves t.leaves count
  rw [t.apex?_levels, u.apex?_levels, same]

/-- Trees over as many contents and with one root are over the same contents, unless two inputs at one
place collide: two contents, or what is hashed for two nodes. -/
theorem Tree.contents_bound {t u : Tree} {contents others : List Bytes}
    (leaves : t.leaves = contents.map Digest.hash) (otherLeaves : u.leaves = others.map Digest.hash)
    (count : contents.length = others.length) (same : t.root = u.root) :
    contents = others ∨ CollisionAt (contents ++ t.inputs) (others ++ u.inputs) := by
  have leafCount : t.leafCount = u.leafCount := by
    rw [Tree.leafCount, Tree.leafCount, leaves, otherLeaves, List.length_map, List.length_map, count]
  rcases Tree.root_binds leafCount same with equal | collision
  · rw [leaves, otherLeaves] at equal
    rcases eq_or_collisionAt equal with equal | collision
    · exact .inl equal
    · exact .inr (collision.append _ _)
  · exact .inr (collision.prepend count)

end Attest.Merkle
