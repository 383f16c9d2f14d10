import Attest.Proofs.Merkle.Building
import Attest.Proofs.Merkle.Row

namespace Attest.Merkle

/-- The node of a tree of some depth, from above: the pair of the one over the first half of its places and
the one over the rest, or, if the first half has place for all leaves, of the one over them with itself. -/
def nodeOver? : (depth : Nat) → (leaves : List Digest) → Option Digest
  | 0, leaves => leaves.head?
  | depth + 1, leaves =>
    if leaves.length ≤ 2 ^ depth then do
      let only ← nodeOver? depth leaves
      return .pair only only
    else do
      let left ← nodeOver? depth (leaves.take (2 ^ depth))
      let right ← nodeOver? depth (leaves.drop (2 ^ depth))
      return .pair left right

theorem nodeOver?_take (depth : Nat) (leaves : List Digest) :
    nodeOver? depth (leaves.take (2 ^ depth)) = nodeOver? depth leaves := by
  induction depth generalizing leaves with
  | zero =>
    cases leaves with
    | nil => rfl
    | cons a rest => rfl
  | succ depth ih =>
    have positive : 0 < 2 ^ depth := Nat.two_pow_pos depth
    have double : 2 ^ (depth + 1) = 2 ^ depth + 2 ^ depth := by rw [pow_succ, Nat.mul_two]
    by_cases few : leaves.length ≤ 2 ^ depth
    · rw [List.take_of_length_le (by omega)]
    · have first : (leaves.take (2 ^ (depth + 1))).take (2 ^ depth) = leaves.take (2 ^ depth) := by
        rw [List.take_take, Nat.min_eq_left (by omega)]
      have rest : (leaves.take (2 ^ (depth + 1))).drop (2 ^ depth) = (leaves.drop (2 ^ depth)).take (2 ^ depth) := by
        rw [List.drop_take, double, Nat.add_sub_cancel]
      have many : ¬ (leaves.take (2 ^ (depth + 1))).length ≤ 2 ^ depth := by
        rw [List.length_take]
        omega
      rw [nodeOver?, nodeOver?, if_neg few, if_neg many, first, rest, ih (leaves.drop _)]

theorem nodeOver?_alone {depth : Nat} {leaves : List Digest} {only : Digest} (few : leaves.length ≤ 2 ^ depth)
    (first : nodeOver? depth leaves = some only) : nodeOver? (depth + 1) leaves = some (.pair only only) := by
  rw [nodeOver?, if_pos few, first]
  rfl

theorem nodeOver?_both {depth : Nat} {leaves : List Digest} {left right : Digest} (many : ¬ leaves.length ≤ 2 ^ depth)
    (first : nodeOver? depth leaves = some left) (second : nodeOver? depth (leaves.drop (2 ^ depth)) = some right) :
    nodeOver? (depth + 1) leaves = some (.pair left right) := by
  rw [nodeOver?, if_neg many, nodeOver?_take, first, second]
  rfl

namespace Layered

variable {leaves : List Digest} {built : List (List Digest)}

theorem node_over (layered : Layered leaves built) {k : Nat} {level : List Digest}
    (there : built[k]? = some level) {j : Nat} (inside : j < level.length) :
    level[j]? = nodeOver? k (leaves.drop (j * 2 ^ k)) := by
  induction k generalizing level j with
  | zero =>
    obtain rfl : leaves = level := Option.some.inj (layered.bottom.symm.trans there)
    rw [nodeOver?, pow_zero, Nat.mul_one, List.head?_drop]
  | succ k ih =>
    have bound : k + 1 < built.length := (List.getElem?_eq_some_iff.mp there).1
    obtain ⟨below, under⟩ : ∃ below, built[k]? = some below := ⟨_, List.getElem?_eq_getElem (by omega)⟩
    obtain ⟨left, right, first, second, node⟩ := layered.node k below level under there j inside
    have place : j * 2 ^ (k + 1) = 2 * j * 2 ^ k := by
      rw [pow_succ', ← Nat.mul_assoc, Nat.mul_comm j]
    have leftOver := ih under (List.getElem?_eq_some_iff.mp first).1
    have rightOver := ih under (List.getElem?_eq_some_iff.mp second).1
    -- The leaves behind the left node end exactly where the level below does.
    have alone : (leaves.drop (2 * j * 2 ^ k)).length ≤ 2 ^ k ↔ below.length ≤ 2 * j + 1 := by
      have positive : 0 < 2 ^ k := Nat.two_pow_pos k
      rw [layered.size k below under, Nat.div_le_iff_le_mul_add_pred positive, List.length_drop, Nat.mul_add,
        Nat.mul_one, Nat.mul_comm (2 ^ k)]
      omega
    rw [node, place]
    by_cases ends : below.length ≤ 2 * j + 1
    · have bound := (List.getElem?_eq_some_iff.mp first).1
      rw [show min (2 * j + 1) (below.length - 1) = 2 * j by omega, first] at second
      obtain rfl := Option.some.inj second
      exact (nodeOver?_alone (alone.mpr ends) (leftOver.symm.trans first)).symm
    · rw [show min (2 * j + 1) (below.length - 1) = 2 * j + 1 by omega] at second rightOver
      rw [Nat.add_mul, Nat.one_mul, ← List.drop_drop] at rightOver
      exact (nodeOver?_both (fun few => ends (alone.mp few)) (leftOver.symm.trans first)
        (rightOver.symm.trans second)).symm

theorem apex (layered : Layered leaves built) (nonempty : leaves ≠ []) (ended : round built = .ended) :
    ∃ apex, built.getLast? = some [apex] ∧ nodeOver? (built.length - 1) leaves = some apex := by
  have leaf := List.length_pos_iff.mpr nonempty
  have bound : 0 < built.length := (List.getElem?_eq_some_iff.mp layered.bottom).1
  obtain ⟨last, there⟩ : ∃ last, built[built.length - 1]? = some last := ⟨_, List.getElem?_eq_getElem (by omega)⟩
  have final : built.getLast? = some last := by rw [List.getLast?_eq_getElem?, there]
  have most : last.length ≤ 1 := by
    by_contra large
    cases ended.symm.trans (round_of_large final large)
  have least : 0 < last.length := by
    rw [layered.size _ last there]
    exact Nat.div_pos (by omega) (Nat.two_pow_pos _)
  obtain ⟨apex, rfl⟩ := List.length_eq_one_iff.mp (le_antisymm most least)
  have whole := layered.node_over there least
  rw [Nat.zero_mul, List.drop_zero] at whole
  exact ⟨apex, final, whole.symm⟩

end Layered

/-- Where a proof looks in a level of `size` nodes for the neighbour of the one at `index`. -/
def neighbour (size index : Nat) : Nat × Side :=
  if index % 2 = 0 then (if index + 1 < size then index + 1 else index, .right) else (index - 1, .left)

/-- A step of a proof in the making: the place on the path and the path up to there, one level up, or nothing
if it looks outside of the level. -/
def climb? (walk : Nat × List Step) (level : List Digest) : Option (Nat × List Step) := do
  let sibling ← level[(neighbour level.length walk.1).1]?
  return (walk.1 / 2, walk.2 ++ [⟨sibling, (neighbour level.length walk.1).2⟩])

theorem beside?_eq_neighbour {level : List Digest} {index : Nat} (inside : index < level.length) :
    Tree.beside? level index =
      level[(neighbour level.length index).1]?.map (⟨·, (neighbour level.length index).2⟩) := by
  rw [Tree.beside?, neighbour]
  by_cases even : index % 2 = 0
  · rw [if_pos even, if_pos even]
    by_cases next : index + 1 < level.length
    · rw [if_pos next, List.getElem?_eq_getElem next]
      rfl
    · rw [if_neg next, List.getElem?_eq_none (by omega)]
      rfl
  · rw [if_neg even, if_neg even]

theorem climb?_of_beside? {level : List Digest} {index : Nat} {step : Step} (inside : index < level.length)
    (beside : Tree.beside? level index = some step) (path : List Step) :
    climb? (index, path) level = some (index / 2, path ++ [step]) := by
  rw [beside?_eq_neighbour inside] at beside
  obtain ⟨sibling, there, rfl⟩ := Option.map_eq_some_iff.mp beside
  rw [climb?, there]
  rfl

theorem climb?_levels (leaves : List Digest) {index : Nat} (inside : index < leaves.length) {path : List Step}
    (walk : Tree.path? (levels leaves) index = some path) (before : List Step) :
    (levels leaves).dropLast.foldlM climb? (index, before) = some (0, before ++ path) := by
  induction leaves using levels.induct generalizing index path before with
  | case1 leaves small =>
    obtain rfl : index = 0 := by omega
    rw [Tree.path?_levels_of_small small] at walk
    obtain rfl := Option.some.inj walk
    rw [levels_of_small small, List.append_nil]
    rfl
  | case2 leaves large ih =>
    obtain ⟨step, beside, -, -⟩ := Tree.beside?_of_getElem? (List.getElem?_eq_getElem inside)
    have above : index / 2 < (parents leaves).length := by
      rw [length_parents]
      omega
    obtain ⟨rest, walkAbove, -, -⟩ := Tree.path?_of_leaf _ (List.getElem?_eq_getElem above)
    rw [Tree.path?_levels_of_large large, beside, Option.bind_eq_bind, Option.bind_some, walkAbove] at walk
    obtain rfl : step :: rest = path := Option.some.inj walk
    rw [levels_of_large large, List.dropLast_cons_of_ne_nil (levels_ne_nil _), List.foldlM_cons,
      climb?_of_beside? inside beside, Option.bind_eq_bind, Option.bind_some, ih above walkAbove,
      List.append_assoc, List.singleton_append]

namespace Tree

/-- A proof step by step, and nothing if it looks for something that is not there. -/
def prove? (t : Tree) (index : Nat) : Option (Except Error Proof) := do
  let bottom ← t.levels[0]?
  if bottom.length ≤ index then return .error (.indexOutOfRange index bottom.length)
  else
    let walk ← t.levels.dropLast.foldlM climb? (index, [])
    let leaf ← bottom[index]?
    return .ok ⟨index, leaf, walk.2⟩

theorem prove?_eq (t : Tree) (index : Nat) : t.prove? index = some (t.proof index) := by
  have bottom : t.levels[0]? = some t.leaves := by
    rw [t.levels_eq, ← List.head?_eq_getElem?, head?_levels]
  rw [prove?, bottom, Option.bind_eq_bind, Option.bind_some]
  by_cases past : t.leaves.length ≤ index
  · rw [if_pos past, proof, List.getElem?_eq_none past]
    rfl
  · have inside : index < t.leaves.length := by omega
    have here : t.leaves[index]? = some t.leaves[index] := List.getElem?_eq_getElem inside
    obtain ⟨path, found, walk, -, -⟩ := proof_of_leaf t here
    have steps := climb?_levels t.leaves inside walk []
    rw [if_neg past, t.levels_eq, steps, found, here]
    rfl

/-- From any leaves the loop ends after as many rounds as their number can be halved, with the levels of
their tree. Each level is half as long as the one below it, rounded up, and of its nodes each is the parent
of two there; the last level is the root alone, which is the node over all leaves when they are divided from
above. No proof looks outside of a level. -/
theorem levels_halve_to_root (leaves : List Digest) (nonempty : leaves ≠ []) :
    ∃ t, ofLeaves leaves = .ok t ∧ t.leaves = leaves ∧
      (∀ rounds built, Ends [leaves] rounds built ↔ rounds = Nat.clog 2 leaves.length ∧ built = t.levels) ∧
      t.height = Nat.clog 2 leaves.length + 1 ∧
      Layered leaves t.levels ∧
      t.levels.getLast? = some [t.root] ∧
      nodeOver? (Nat.clog 2 leaves.length) leaves = some t.root ∧
      ∀ index, t.prove? index = some (t.proof index) := by
  let t := grow leaves nonempty
  have built : Ends [leaves] (Nat.clog 2 leaves.length) t.levels := ends_levels leaves []
  obtain ⟨layered, count, ended⟩ := (Layered.single leaves).ends built
  have height : t.height = Nat.clog 2 leaves.length + 1 := by
    rw [Tree.height, count, List.length_singleton, Nat.add_comm]
  obtain ⟨apex, last, whole⟩ := layered.apex nonempty ended
  have root : t.root = apex := by
    apply root_of_apex?
    rw [← t.levels_eq, apex?, last]
    rfl
  refine ⟨t, by rw [ofLeaves, dif_neg nonempty], rfl, fun rounds levels => ⟨fun ends => ?_, ?_⟩, height, layered,
    by rw [last, root], ?_, t.prove?_eq⟩
  · obtain ⟨rfl, rfl⟩ := built.unique ends
    exact ⟨rfl, rfl⟩
  · rintro ⟨rfl, rfl⟩
    exact built
  · rw [root, ← whole, ← Tree.height, height, Nat.add_sub_cancel]

/-- Five leaves, of which the last is paired with itself, and so is its parent. -/
theorem levels_halve_to_root_five :
    let leaves : List Digest := [.filled 0, .filled 1, .filled 2, .filled 3, .filled 4]
    leaves ≠ [] ∧ ∃ t, ofLeaves leaves = .ok t ∧ Ends [leaves] 3 t.levels ∧ t.height = 4 ∧
      (∃ middle, t.levels[1]? = some middle ∧ middle.length = 3 ∧
        ∃ last, middle[2]? = some last ∧ last = .pair (.filled 4) (.filled 4)) ∧
      nodeOver? 3 leaves = some t.root ∧ t.prove? 4 = some (t.proof 4) := by
  intro leaves
  have nonempty : leaves ≠ [] := List.cons_ne_nil _ _
  have clog : Nat.clog 2 leaves.length = 3 := by decide
  obtain ⟨t, made, -, ends, height, layered, -, whole, proofs⟩ := levels_halve_to_root leaves nonempty
  rw [clog] at ends height whole
  obtain ⟨middle, there⟩ : ∃ middle, t.levels[1]? = some middle :=
    ⟨_, List.getElem?_eq_getElem (height ▸ by decide : 1 < t.height)⟩
  have length : middle.length = 3 := (layered.size 1 middle there).trans (by decide)
  obtain ⟨left, right, first, second, node⟩ := layered.node 0 leaves middle layered.bottom there 2 (by omega)
  cases first
  cases second
  exact ⟨nonempty, t, made, (ends 3 t.levels).mpr ⟨rfl, rfl⟩, height, ⟨middle, there, length, _, node, rfl⟩,
    whole, proofs 4⟩

end Tree
end Attest.Merkle
