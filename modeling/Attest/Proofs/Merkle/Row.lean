import Mathlib.Algebra.Group.Nat.Defs
import Mathlib.Data.List.TakeDrop
import Attest.Proofs.Merkle.Binding

namespace Attest

namespace Merkle

variable {α β : Type}

/-- The nodes of a level in pairs, an odd one at its end with itself. -/
def pairs : (nodes : List α) → List (α × α)
  | [] => []
  | [a] => [(a, a)]
  | a :: b :: rest => (a, b) :: pairs rest

def unpair : (halves : List (α × α)) → List α
  | [] => []
  | (a, b) :: rest => a :: b :: unpair rest

/-- A level with the copies that come of pairing it, then its pairs, and so on `depth` times. -/
def fill : (depth : Nat) → {α : Type} → (nodes : List α) → List α
  | 0, _, nodes => nodes
  | depth + 1, _, nodes => unpair (fill depth (pairs nodes))

theorem pairs_map (f : α → β) (nodes : List α) :
    pairs (nodes.map f) = (pairs nodes).map (Prod.map f f) := by
  induction nodes using pairs.induct with
  | case1 => rfl
  | case2 a => rfl
  | case3 a b rest ih => simp only [List.map_cons, pairs, ih, Prod.map_apply]

theorem unpair_map (f : α → β) (halves : List (α × α)) :
    unpair (halves.map (Prod.map f f)) = (unpair halves).map f := by
  induction halves with
  | nil => rfl
  | cons half halves ih => simp only [List.map_cons, unpair, Prod.map_fst, Prod.map_snd, ih]

theorem fill_map (depth : Nat) (f : α → β) (nodes : List α) :
    fill depth (nodes.map f) = (fill depth nodes).map f := by
  induction depth generalizing α β with
  | zero => rfl
  | succ depth ih => rw [fill, pairs_map, ih, unpair_map, fill]

theorem unpair_injective : Function.Injective (unpair (α := α)) := by
  intro halves others same
  induction halves generalizing others with
  | nil =>
    cases others with
    | nil => rfl
    | cons other others => cases same
  | cons half halves ih =>
    cases others with
    | nil => cases same
    | cons other others =>
      simp only [unpair, List.cons.injEq] at same
      obtain ⟨left, right, rest⟩ := same
      rw [Prod.ext left right, ih rest]

theorem getElem?_unpair_left (halves : List (α × α)) (i : Nat) :
    (unpair halves)[2 * i]? = halves[i]?.map Prod.fst := by
  induction halves generalizing i with
  | nil => rfl
  | cons half halves ih =>
    cases i with
    | zero => rfl
    | succ i => simpa only [unpair, Nat.mul_succ, List.getElem?_cons_succ] using ih i

theorem getElem?_unpair_right (halves : List (α × α)) (i : Nat) :
    (unpair halves)[2 * i + 1]? = halves[i]?.map Prod.snd := by
  induction halves generalizing i with
  | nil => rfl
  | cons half halves ih =>
    cases i with
    | zero => rfl
    | succ i => simpa only [unpair, Nat.mul_succ, List.getElem?_cons_succ] using ih i

theorem mem_unpair {a : α} {halves : List (α × α)} (member : a ∈ unpair halves) :
    ∃ half ∈ halves, a = half.1 ∨ a = half.2 := by
  induction halves with
  | nil => cases member
  | cons half halves ih =>
    rcases List.mem_cons.mp member with left | member
    · exact ⟨half, List.mem_cons_self, .inl left⟩
    · rcases List.mem_cons.mp member with right | member
      · exact ⟨half, List.mem_cons_self, .inr right⟩
      · obtain ⟨other, there, which⟩ := ih member
        exact ⟨other, List.mem_cons_of_mem _ there, which⟩

theorem mem_of_mem_pairs {half : α × α} {nodes : List α} (member : half ∈ pairs nodes) :
    half.1 ∈ nodes ∧ half.2 ∈ nodes := by
  induction nodes using pairs.induct with
  | case1 => cases member
  | case2 a =>
    obtain rfl := List.mem_singleton.mp member
    exact ⟨List.mem_cons_self, List.mem_cons_self⟩
  | case3 a b rest ih =>
    rcases List.mem_cons.mp member with rfl | member
    · exact ⟨by simp, by simp⟩
    · have both := ih member
      exact ⟨by simp [both.1], by simp [both.2]⟩

theorem mem_of_mem_fill {depth : Nat} {nodes : List α} {a : α} (member : a ∈ fill depth nodes) :
    a ∈ nodes := by
  induction depth generalizing α with
  | zero => exact member
  | succ depth ih =>
    obtain ⟨half, there, left | right⟩ := mem_unpair member
    · exact left ▸ (mem_of_mem_pairs (ih there)).1
    · exact right ▸ (mem_of_mem_pairs (ih there)).2

theorem prefix_unpair_pairs (nodes : List α) : nodes <+: unpair (pairs nodes) := by
  induction nodes using pairs.induct with
  | case1 => exact List.prefix_rfl
  | case2 a => exact ⟨[a], rfl⟩
  | case3 a b rest ih =>
    obtain ⟨copies, filled⟩ := ih
    exact ⟨copies, by simp only [pairs, unpair, ← filled, List.cons_append]⟩

theorem unpair_append (halves others : List (α × α)) :
    unpair (halves ++ others) = unpair halves ++ unpair others := by
  induction halves with
  | nil => rfl
  | cons half halves ih => simp only [List.cons_append, unpair, ih]

theorem prefix_fill (depth : Nat) (nodes : List α) : nodes <+: fill depth nodes := by
  induction depth generalizing α with
  | zero => exact List.prefix_rfl
  | succ depth ih =>
    obtain ⟨copies, filled⟩ := ih (pairs nodes)
    rw [fill, ← filled, unpair_append]
    exact (prefix_unpair_pairs nodes).trans (List.prefix_append _ _)

theorem length_pairs (nodes : List α) : (pairs nodes).length = (nodes.length + 1) / 2 := by
  induction nodes using pairs.induct with
  | case1 => simp [pairs]
  | case2 a => simp [pairs]
  | case3 a b rest ih =>
    simp only [pairs, List.length_cons, ih]
    omega

theorem length_unpair (halves : List (α × α)) : (unpair halves).length = 2 * halves.length := by
  induction halves with
  | nil => rfl
  | cons half halves ih =>
    simp only [unpair, List.length_cons, ih]
    omega

theorem length_fill {nodes : List α} (nonempty : nodes ≠ []) {depth : Nat}
    (height : Nat.clog 2 nodes.length = depth) : (fill depth nodes).length = 2 ^ depth := by
  induction depth generalizing α with
  | zero =>
    have some := List.length_pos_iff.mpr nonempty
    have few : ¬ 2 ≤ nodes.length := by
      intro many
      have := Nat.clog_pos Nat.one_lt_two many
      omega
    rw [fill, Nat.pow_zero]
    omega
  | succ depth ih =>
    have large : ¬ nodes.length ≤ 1 := by
      intro small
      rw [Nat.clog_of_right_le_one small] at height
      omega
    have halved : Nat.clog 2 (pairs nodes).length = depth := by
      rw [length_pairs]
      have := clog_halved large
      omega
    have halves : pairs nodes ≠ [] := by
      rw [← List.length_pos_iff, length_pairs]
      omega
    rw [fill, length_unpair, ih halves halved, Nat.pow_succ']

def joined (half : Digest × Digest) : Bytes := half.1.bytes ++ half.2.bytes

theorem joined_injective : Function.Injective joined := by
  intro half other same
  obtain ⟨left, right⟩ := Digest.append_inj same
  exact Prod.ext left right

theorem inputs_eq_map_joined (nodes : List Digest) : inputs nodes = (pairs nodes).map joined := by
  induction nodes using inputs.induct with
  | case1 => rfl
  | case2 a => rfl
  | case3 a b rest ih => simp only [inputs, pairs, List.map_cons, ih, joined]

theorem fill_parents (depth : Nat) (nodes : List Digest) :
    fill depth (parents nodes) = (fill depth (inputs nodes)).map Digest.hash := by
  rw [← map_hash_inputs, fill_map]

theorem fill_inputs (depth : Nat) (nodes : List Digest) :
    fill depth (inputs nodes) = (fill depth (pairs nodes)).map joined := by
  rw [inputs_eq_map_joined, fill_map]

theorem levels_of_getElem? {leaves level : List Digest} {i : Nat}
    (there : (levels leaves)[i]? = some level) : levels level = (levels leaves).drop i := by
  induction leaves using levels.induct generalizing i with
  | case1 leaves small =>
    rw [levels_of_small small] at there ⊢
    obtain ⟨bound, rfl⟩ := List.getElem?_eq_some_iff.mp there
    obtain rfl : i = 0 := by simpa using bound
    exact levels_of_small small
  | case2 leaves large ih =>
    rw [levels_of_large large] at there ⊢
    cases i with
    | zero =>
      obtain rfl := Option.some.inj there
      rw [levels_of_large large, List.drop_zero]
    | succ i => exact ih there

theorem head?_levels (leaves : List Digest) : (levels leaves).head? = some leaves := by
  unfold levels
  split <;> rfl

theorem small_of_length_levels {leaves : List Digest} (one : (levels leaves).length = 1) :
    leaves.length ≤ 1 := by
  by_contra large
  have above := List.length_pos_iff.mpr (levels_ne_nil (parents leaves))
  rw [levels_of_large large, List.length_cons] at one
  omega

theorem large_of_length_levels {leaves : List Digest} {depth : Nat}
    (height : (levels leaves).length = depth + 2) :
    ¬ leaves.length ≤ 1 ∧ (levels (parents leaves)).length = depth + 1 := by
  have large : ¬ leaves.length ≤ 1 := by
    intro small
    rw [levels_of_small small, List.length_singleton] at height
    omega
  rw [levels_of_large large, List.length_cons] at height
  exact ⟨large, by omega⟩

theorem apex?_of_small {leaves : List Digest} (small : leaves.length ≤ 1) :
    apex? (levels leaves) = leaves[0]? := by
  rw [levels_of_small small, apex?, List.getLast?_singleton, Option.bind_some, List.head?_eq_getElem?]

namespace Tree

theorem root_of_apex? {t : Tree} {root : Digest} (top : apex? (Merkle.levels t.leaves) = some root) :
    t.root = root := by
  rw [apex?_levels] at top
  exact Option.some.inj top

def level (t : Tree) (depth : Nat) : List Digest := (t.levels.reverse[depth]?).getD []

def row (t : Tree) (depth : Nat) : List Digest := fill depth (t.level depth)

theorem length_levels (t : Tree) : (Merkle.levels t.leaves).length = t.height := by
  rw [height, t.levels_eq]

theorem height_pos (t : Tree) : 0 < t.height := by
  rw [← t.length_levels]
  exact List.length_pos_iff.mpr (levels_ne_nil _)

theorem height_eq (t : Tree) : t.height = Nat.clog 2 t.leafCount + 1 := by
  rw [← t.length_levels, Merkle.length_levels, leafCount]

theorem level_of_lt (t : Tree) {depth : Nat} (inside : depth < t.height) :
    t.levels[t.height - 1 - depth]? = some (t.level depth) := by
  have there : t.levels.reverse[depth]? = t.levels[t.height - 1 - depth]? := by
    rw [List.getElem?_reverse inside, height]
  rw [level, there]
  cases found : t.levels[t.height - 1 - depth]? with
  | some level => rfl
  | none =>
    have past : t.height ≤ t.height - 1 - depth := List.getElem?_eq_none_iff.mp found
    omega

theorem exists_crown (t : Tree) {depth : Nat} (inside : depth < t.height) :
    ∃ crown : Tree, crown.leaves = t.level depth ∧ crown.height = depth + 1 ∧ crown.root = t.root ∧
      crown.inputs ⊆ t.inputs := by
  have there := t.level_of_lt inside
  rw [t.levels_eq] at there
  have above := levels_of_getElem? there
  have height : (Merkle.levels (t.level depth)).length = depth + 1 := by
    rw [above, List.length_drop, t.length_levels]
    omega
  have same : apex? (Merkle.levels (t.level depth)) = some t.root := by
    rw [← t.apex?_levels, above, apex?, apex?, List.getLast?_drop, if_neg]
    rw [t.length_levels]
    omega
  have nonempty : t.level depth ≠ [] := by
    intro none
    rw [none, levels_of_small (by simp)] at same
    cases same
  refine ⟨grow (t.level depth) nonempty, rfl, height, root_of_apex? same, ?_⟩
  intro x member
  obtain ⟨level, below, input⟩ := List.mem_flatMap.mp member
  rw [grow, above, List.dropLast_drop_eq_drop_dropLast] at below
  exact List.mem_flatMap.mpr ⟨level, List.mem_of_mem_drop below, input⟩

theorem level_bottom (t : Tree) : t.level (t.height - 1) = t.leaves := by
  have inside : t.height - 1 < t.height := Nat.sub_one_lt_of_lt t.height_pos
  have there := t.level_of_lt inside
  rw [Nat.sub_self, t.levels_eq, ← List.head?_eq_getElem?, head?_levels] at there
  exact (Option.some.inj there).symm

theorem prefix_row (t : Tree) (depth : Nat) : t.level depth <+: t.row depth := prefix_fill depth _

theorem row_subset (t : Tree) (depth : Nat) : t.row depth ⊆ t.level depth :=
  fun _ member => mem_of_mem_fill member

theorem length_row (t : Tree) {depth : Nat} (inside : depth < t.height) :
    (t.row depth).length = 2 ^ depth := by
  obtain ⟨crown, leaves, height, -, -⟩ := t.exists_crown inside
  rw [row, ← leaves]
  apply length_fill crown.leaves_ne_nil
  have := crown.height_eq
  rw [leafCount] at this
  omega

end Tree
end Merkle
end Attest
