import Attest.Proofs.Merkle.Row

namespace Attest.Merkle

/-- Where a path leads down to from the root: into the second half of each pair in which the neighbour
stands on the left. -/
def position : (sides : List Side) → Nat
  | [] => 0
  | .left :: rest => 2 * position rest + 1
  | .right :: rest => 2 * position rest

theorem position_sides {height index : Nat} (inside : index < 2 ^ height) :
    position (sides height index) = index := by
  induction height generalizing index with
  | zero =>
    rw [Nat.pow_zero] at inside
    exact (Nat.lt_one_iff.mp inside).symm
  | succ height ih =>
    have half : position (sides height (index / 2)) = index / 2 := by
      rw [Nat.pow_succ] at inside
      exact ih (by omega)
    rcases Nat.mod_two_eq_zero_or_one index with even | odd
    · simp only [sides, sideAt, even, if_true, position, half]
      omega
    · simp only [sides, sideAt, odd, Nat.one_ne_zero, if_false, position, half]
      omega

theorem getElem?_unpair_of_input {halves : List (Digest × Digest)} {index : List Side}
    {half : Digest × Digest} {node : Digest} {s : Step} (there : halves[position index]? = some half)
    (same : joined half = s.input node) :
    (unpair halves)[position (s.side :: index)]? = some node := by
  obtain ⟨sibling, side⟩ := s
  cases side with
  | left =>
    obtain ⟨-, right⟩ := Digest.append_inj same
    rw [position, getElem?_unpair_right, there, Option.map_some, right]
  | right =>
    obtain ⟨left, -⟩ := Digest.append_inj same
    rw [position, getElem?_unpair_left, there, Option.map_some, left]

/-- A path from a node to the root, as long as the way up from the leaves, starts in their row. -/
theorem path_starts_in_row (depth : Nat) {leaves : List Digest} {node : Digest} {path : List Step}
    (height : (levels leaves).length = depth + 1) (length : path.length = depth)
    (meets : apex? (levels leaves) = some (path.foldl Step.climb node)) :
    (fill depth leaves)[position (path.map Step.side)]? = some node ∨
      Collision (levelInputs leaves ++ pathInputs node path) := by
  induction depth generalizing leaves node path with
  | zero =>
    obtain rfl := List.length_eq_zero_iff.mp length
    rw [apex?_of_small (small_of_length_levels height)] at meets
    exact .inl meets
  | succ depth ih =>
    obtain ⟨s, rest, rfl⟩ := List.exists_cons_of_length_eq_add_one length
    obtain ⟨large, above⟩ := large_of_length_levels height
    rw [apex?_levels_of_large large] at meets
    rw [levelInputs_of_large large, pathInputs]
    rcases ih above (Nat.succ.inj length) meets with parent | collision
    · rw [fill_parents, List.getElem?_map, Option.map_eq_some_iff] at parent
      obtain ⟨x, there, hashed⟩ := parent
      rw [Step.climb_eq_hash] at hashed
      by_cases same : x = s.input node
      · rw [fill_inputs, List.getElem?_map, Option.map_eq_some_iff] at there
        obtain ⟨half, there, rfl⟩ := there
        exact .inl (getElem?_unpair_of_input there same)
      · -- The tree has this digest of another input.
        have input : x ∈ inputs leaves := mem_of_mem_fill (List.mem_of_getElem? there)
        exact .inr ⟨x, by simp [input], s.input node, by simp, same, hashed⟩
    · refine .inr (collision.mono fun x member => ?_)
      rcases List.mem_append.mp member with tree | proof
      · simp [tree]
      · simp [proof]

theorem pathInputs_append (node : Digest) (lower upper : List Step) :
    pathInputs node (lower ++ upper) =
      pathInputs node lower ++ pathInputs (lower.foldl Step.climb node) upper := by
  induction lower generalizing node with
  | nil => rfl
  | cons s lower ih => simp only [List.cons_append, pathInputs, List.foldl_cons, ih]

def Proof.position (p : Proof) : Nat := Merkle.position (p.path.map Step.side)

namespace Tree

variable {t : Tree}

theorem path_starts_in_tree {depth : Nat} (inside : depth < t.height) {node : Digest}
    {path : List Step} (length : path.length = depth) (meets : path.foldl Step.climb node = t.root) :
    (t.row depth)[Merkle.position (path.map Step.side)]? = some node ∨
      Collision (t.inputs ++ pathInputs node path) := by
  obtain ⟨crown, leaves, height, root, inputs⟩ := t.exists_crown inside
  have top : apex? (Merkle.levels crown.leaves) = some (path.foldl Step.climb node) := by
    rw [crown.apex?_levels, root, meets]
  rw [← crown.length_levels] at height
  rcases path_starts_in_row depth height length top with there | collision
  · rw [row, ← leaves]
    exact .inl there
  · refine .inr (collision.mono fun x member => ?_)
    rcases List.mem_append.mp member with tree | proof
    · exact List.mem_append_left _ (inputs tree)
    · exact List.mem_append_right _ proof

/-- The row of the leaves has no nodes but leaves, and the leaves themselves stand first in it. -/
theorem leaf_of_row {index : Nat} {node : Digest} (there : (t.row (t.height - 1))[index]? = some node) :
    node ∈ t.leaves ∧ (index < t.leafCount → t.leaves[index]? = some node) := by
  rw [row, level_bottom] at there
  refine ⟨mem_of_mem_fill (List.mem_of_getElem? there), fun inside => ?_⟩
  obtain ⟨copies, filled⟩ := prefix_fill (t.height - 1) t.leaves
  rw [← filled, List.getElem?_append_left inside] at there
  exact there

theorem position_of_own {index : Nat} {own : Proof} (found : t.proof index = .ok own) :
    index < t.leafCount ∧ own.position = index ∧ own.path.length + 1 = t.height := by
  have inside : index < t.leafCount := by
    by_contra past
    have none : t.leaves[index]? = none := List.getElem?_eq_none (Nat.le_of_not_lt past)
    simp [proof, none] at found
  obtain ⟨path, same, -, -, marks⟩ := proof_of_leaf t (List.getElem?_eq_getElem inside)
  obtain rfl := Except.ok.inj (found.symm.trans same)
  have long : path.length = Nat.clog 2 t.leafCount := by
    rw [← length_sides (Nat.clog 2 t.leafCount) index, ← marks, List.length_map]
  refine ⟨inside, ?_, by rw [long, height_eq]⟩
  rw [Proof.position, marks]
  exact position_sides (lt_of_lt_of_le inside (Nat.le_pow_clog Nat.one_lt_two _))

/-- The node of a tree that a proof names. -/
structure Names (t : Tree) (p : Proof) : Prop where
  /-- There is one step for each level above the node. -/
  node : p.path.length < t.height → (t.row p.path.length)[p.position]? = some p.leaf
  leaf : p.path.length + 1 = t.height →
    p.leaf ∈ t.leaves ∧ (p.position < t.leafCount → t.leaves[p.position]? = some p.leaf)
  /-- With the sides of the path that belongs to its index, a proof names the leaf at its index. -/
  indexed : ∀ own, t.proof p.index = .ok own → p.path.map Step.side = own.path.map Step.side →
    t.leaves[p.index]? = some p.leaf
  /-- A longer path starts below a leaf, which is then itself the digest of two digests. -/
  below : t.height ≤ p.path.length → ∃ lower upper, p.path = lower ++ upper ∧ lower ≠ [] ∧
    upper.length + 1 = t.height ∧ lower.foldl Step.climb p.leaf ∈ t.leaves

theorem length_of_own_sides {p own : Proof} (found : t.proof p.index = .ok own)
    (marks : p.path.map Step.side = own.path.map Step.side) : p.path.length + 1 = t.height := by
  have length := congrArg List.length marks
  rw [List.length_map, List.length_map] at length
  rw [length, (position_of_own found).2.2]

theorem names_of_inside {p : Proof} (inside : p.path.length < t.height)
    (there : (t.row p.path.length)[p.position]? = some p.leaf) : t.Names p := by
  have leaf (bottom : p.path.length + 1 = t.height) :
      p.leaf ∈ t.leaves ∧ (p.position < t.leafCount → t.leaves[p.position]? = some p.leaf) := by
    rw [Nat.eq_sub_of_add_eq bottom] at there
    exact leaf_of_row there
  refine ⟨fun _ => there, leaf, ?_, fun long => absurd inside (Nat.not_lt_of_le long)⟩
  intro own found marks
  obtain ⟨count, position, -⟩ := position_of_own found
  have same : p.position = p.index := by rw [Proof.position, marks, ← position, Proof.position]
  rw [← same] at count ⊢
  exact (leaf (length_of_own_sides found marks)).2 count

theorem names_of_below {p : Proof} {lower upper : List Step} (parts : p.path = lower ++ upper)
    (start : lower ≠ []) (length : upper.length + 1 = t.height)
    (there : lower.foldl Step.climb p.leaf ∈ t.leaves) : t.Names p := by
  have some : 0 < lower.length := List.length_pos_iff.mpr start
  have long : t.height ≤ p.path.length := by
    rw [parts, List.length_append]
    omega
  refine ⟨fun short => ?_, fun bottom => ?_, fun own found marks => ?_,
    fun _ => ⟨lower, upper, parts, start, length, there⟩⟩
  · omega
  · omega
  · have := length_of_own_sides found marks
    omega

/-- A proof that verifies names a node of the tree, unless two inputs collide. -/
theorem verified_proof_names_node (t : Tree) (p : Proof) (verified : p.verify t.root = true) :
    t.Names p ∨ Collision (t.inputs ++ p.inputs) := by
  have meets : p.path.foldl Step.climb p.leaf = t.root := of_decide_eq_true verified
  by_cases inside : p.path.length < t.height
  · rcases path_starts_in_tree inside rfl meets with there | collision
    · exact .inl (names_of_inside inside there)
    · exact .inr collision
  · have bottom : t.height - 1 < t.height := Nat.sub_one_lt_of_lt t.height_pos
    let start := p.path.length - (t.height - 1)
    have parts : p.path = p.path.take start ++ p.path.drop start := (List.take_append_drop _ _).symm
    have length : (p.path.drop start).length = t.height - 1 := by
      rw [List.length_drop]
      omega
    have nonempty : p.path.take start ≠ [] := by
      rw [← List.length_pos_iff, List.length_take]
      omega
    rw [parts, List.foldl_append] at meets
    rcases path_starts_in_tree bottom length meets with there | collision
    · exact .inl (names_of_below parts nonempty (by omega) (leaf_of_row there).1)
    · refine .inr (collision.mono fun x member => ?_)
      rw [Proof.inputs, parts, pathInputs_append]
      rcases List.mem_append.mp member with tree | upper
      · exact List.mem_append_left _ tree
      · exact List.mem_append_right _ (List.mem_append_right _ upper)

/-- A proof with one step too few: it names the parent of the first two of three leaves. -/
theorem verified_proof_names_node_inner :
    let t : Tree := grow [.filled 0, .filled 1, .filled 2] (by simp)
    let p : Proof := ⟨0, .pair (.filled 0) (.filled 1), [⟨.pair (.filled 2) (.filled 2), .right⟩]⟩
    p.verify t.root = true ∧ (t.Names p ∨ Collision (t.inputs ++ p.inputs)) := by
  intro t p
  have top : t.root = .pair (.pair (.filled 0) (.filled 1)) (.pair (.filled 2) (.filled 2)) :=
    root_of_apex? (by simp [t, grow, Merkle.levels, parents, apex?])
  have verified : p.verify t.root = true := decide_eq_true top.symm
  exact ⟨verified, verified_proof_names_node t p verified⟩

/-- The index is not looked at, and a node above the leaves may pass for a leaf. -/
theorem verified_proof_misnames_leaf :
    let single : Tree := grow [.filled 0] (by simp)
    let relabelled : Proof := ⟨1, .filled 0, []⟩
    let t : Tree := grow [.filled 0, .filled 1] (by simp)
    let inner : Proof := ⟨0, .pair (.filled 0) (.filled 1), []⟩
    (relabelled.verify single.root = true ∧ ¬ relabelled.index < single.leafCount ∧
      ¬ Collision (single.inputs ++ relabelled.inputs)) ∧
    (inner.verify t.root = true ∧ t.leaves[inner.index]? ≠ some inner.leaf ∧
      ¬ Collision (t.inputs ++ inner.inputs)) := by
  intro single relabelled t inner
  have root : single.root = .filled 0 := root_of_apex? (by simp [single, grow, Merkle.levels, apex?])
  have top : t.root = .pair (.filled 0) (.filled 1) :=
    root_of_apex? (by simp [t, grow, Merkle.levels, parents, apex?])
  have input : t.inputs = [Digest.bytes (.filled 0) ++ Digest.bytes (.filled 1)] := by
    simp [inputs, levelInputs, t, grow, Merkle.levels, parents, Merkle.inputs]
  -- The parent's digest is computed here.
  have parent : Digest.filled 0 ≠ .pair (.filled 0) (.filled 1) := by decide +kernel
  refine ⟨⟨decide_eq_true root.symm, by decide, ?_⟩, decide_eq_true top.symm, ?_, ?_⟩
  · rintro ⟨x, member, -⟩
    simp [inputs, levelInputs, single, grow, Merkle.levels, relabelled, Proof.inputs, pathInputs] at member
  · exact fun same => parent (Option.some.inj same)
  · rw [input]
    exact not_collision_singleton _

end Tree
end Attest.Merkle
