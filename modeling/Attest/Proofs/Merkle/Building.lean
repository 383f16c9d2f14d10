import Mathlib.Algebra.Group.Nat.Defs
import Attest.Proofs.Merkle.Path

namespace Attest.Merkle

/-- A list in pieces of two, the last one shorter if the length is odd. -/
def pieces {α : Type} : List α → List (List α)
  | [] => []
  | [a] => [[a]]
  | a :: b :: rest => [a, b] :: pieces rest

/-- The parent of the nodes in a piece, of which one has to be there. -/
def parent? (piece : List Digest) : Option Digest := do
  let left ← piece[0]?
  return .pair left (piece[1]?.getD left)

theorem mapM_parent? (nodes : List Digest) : (pieces nodes).mapM parent? = some (parents nodes) := by
  induction nodes using pieces.induct with
  | case1 => rfl
  | case2 a => rfl
  | case3 a b rest ih =>
    rw [pieces, List.mapM_cons, ih]
    rfl

/-- What becomes of a round: nothing is left to do, or there is a level more, or a piece has no first node. -/
inductive Round where
  | ended
  | grown (built : List (List Digest))
  | failed

def round (built : List (List Digest)) : Round :=
  match built.getLast? with
  | none => .ended
  | some last =>
    if last.length ≤ 1 then .ended
    else match (pieces last).mapM parent? with
      | none => .failed
      | some parents => .grown (built ++ [parents])

/-- From what is built the loop goes on for some rounds, and ends with these levels. -/
inductive Ends : (built : List (List Digest)) → (rounds : Nat) → (levels : List (List Digest)) → Prop where
  | here {built : List (List Digest)} (ended : round built = .ended) : Ends built 0 built
  | later {built more levels : List (List Digest)} {rounds : Nat} (grown : round built = .grown more)
      (ends : Ends more rounds levels) : Ends built (rounds + 1) levels

theorem round_of_small {built : List (List Digest)} {last : List Digest} (final : built.getLast? = some last)
    (small : last.length ≤ 1) : round built = .ended := by
  rw [round, final]
  exact if_pos small

theorem round_of_large {built : List (List Digest)} {last : List Digest} (final : built.getLast? = some last)
    (large : ¬ last.length ≤ 1) : round built = .grown (built ++ [parents last]) := by
  rw [round, final]
  dsimp only
  rw [if_neg large, mapM_parent?]

/-- The loop builds the levels over its last one, and takes as many rounds as this can be halved. -/
theorem ends_levels (last : List Digest) (below : List (List Digest)) :
    Ends (below ++ [last]) (Nat.clog 2 last.length) (below ++ levels last) := by
  -- A round reads the last level only, so the levels below it are arbitrary.
  induction last using levels.induct generalizing below with
  | case1 last small =>
    rw [Nat.clog_of_right_le_one small, levels_of_small small]
    exact .here (round_of_small List.getLast?_concat small)
  | case2 last large ih =>
    have rest := ih (below ++ [last])
    rw [length_parents] at rest
    rw [clog_halved large, levels_of_large large, List.append_cons below last (levels _)]
    exact .later (round_of_large List.getLast?_concat large) rest

theorem Ends.unique {built levels others : List (List Digest)} {rounds count : Nat}
    (ends : Ends built rounds levels) (other : Ends built count others) : rounds = count ∧ levels = others := by
  induction ends generalizing count with
  | here ended =>
    cases other with
    | here _ => exact ⟨rfl, rfl⟩
    | later grown _ => cases ended.symm.trans grown
  | later grown _ ih =>
    cases other with
    | here ended => cases ended.symm.trans grown
    | later again rest =>
      cases grown.symm.trans again
      obtain ⟨rfl, same⟩ := ih rest
      exact ⟨rfl, same⟩

/-- The levels as far as they are built: half as many nodes on each as on the one before, rounded up,
each the parent of the two nodes below it, of which the second is the first again where the level ends. -/
structure Layered (leaves : List Digest) (built : List (List Digest)) : Prop where
  bottom : built[0]? = some leaves
  size : ∀ k level, built[k]? = some level → level.length = (leaves.length + 2 ^ k - 1) / 2 ^ k
  node : ∀ k level above, built[k]? = some level → built[k + 1]? = some above → ∀ j < above.length,
    ∃ left right, level[2 * j]? = some left ∧ level[min (2 * j + 1) (level.length - 1)]? = some right ∧
      above[j]? = some (.pair left right)

theorem size_halved (n k : Nat) : ((n + 2 ^ k - 1) / 2 ^ k + 1) / 2 = (n + 2 ^ (k + 1) - 1) / 2 ^ (k + 1) := by
  have positive : 0 < 2 ^ k := Nat.two_pow_pos k
  have numerator : n + 2 ^ k - 1 + 2 ^ k = n + 2 ^ k * 2 - 1 := by omega
  rw [pow_succ, ← Nat.add_div_right _ positive, Nat.div_div_eq_div_mul, numerator]

theorem getElem?_parents (nodes : List Digest) (j : Nat) :
    (parents nodes)[j]? = nodes[2 * j]?.map fun left => .pair left (nodes[2 * j + 1]?.getD left) := by
  rw [← map_hash_inputs, List.getElem?_map, getElem?_inputs, Option.map_map]
  rfl

theorem parents_node (nodes : List Digest) {j : Nat} (inside : j < (parents nodes).length) :
    ∃ left right, nodes[2 * j]? = some left ∧ nodes[min (2 * j + 1) (nodes.length - 1)]? = some right ∧
      (parents nodes)[j]? = some (.pair left right) := by
  rw [length_parents] at inside
  have left : nodes[2 * j]? = some nodes[2 * j] := List.getElem?_eq_getElem (by omega)
  by_cases pair : 2 * j + 1 < nodes.length
  · have right : nodes[2 * j + 1]? = some nodes[2 * j + 1] := List.getElem?_eq_getElem pair
    refine ⟨nodes[2 * j], nodes[2 * j + 1], left, ?_, ?_⟩
    · rw [Nat.min_eq_left (by omega), right]
    · rw [getElem?_parents, left, right]
      rfl
  · have right : nodes[2 * j + 1]? = none := List.getElem?_eq_none (by omega)
    refine ⟨nodes[2 * j], nodes[2 * j], left, ?_, ?_⟩
    · rw [show min (2 * j + 1) (nodes.length - 1) = 2 * j by omega, left]
    · rw [getElem?_parents, left, right]
      rfl

theorem getElem?_append_single {α : Type} {items : List α} {item found : α} {k : Nat}
    (there : (items ++ [item])[k]? = some found) : items[k]? = some found ∨ (k = items.length ∧ found = item) := by
  rcases Nat.lt_or_ge k items.length with before | behind
  · rw [List.getElem?_append_left before] at there
    exact .inl there
  · rw [List.getElem?_append_right behind, List.getElem?_singleton] at there
    split at there
    · exact .inr ⟨by omega, (Option.some.inj there).symm⟩
    · cases there

namespace Layered

variable {leaves : List Digest} {built : List (List Digest)}

theorem single (leaves : List Digest) : Layered leaves [leaves] where
  bottom := rfl
  size k level there := by
    obtain ⟨bound, rfl⟩ := List.getElem?_eq_some_iff.mp there
    obtain rfl : k = 0 := by simpa using bound
    rw [pow_zero, Nat.add_sub_cancel, Nat.div_one]
    rfl
  node k level above _ there := by
    obtain ⟨bound, -⟩ := List.getElem?_eq_some_iff.mp there
    simp at bound

theorem append_parents {last : List Digest} {below : List (List Digest)}
    (layered : Layered leaves (below ++ [last])) : Layered leaves (below ++ [last] ++ [parents last]) where
  bottom := by
    rw [List.getElem?_append_left (by simp)]
    exact layered.bottom
  size k level there := by
    rcases getElem?_append_single there with there | ⟨rfl, rfl⟩
    · exact layered.size k level there
    · have size := layered.size below.length last List.getElem?_concat_length
      rw [length_parents, size, size_halved, List.length_append]
      rfl
  node k level above there next := by
    have bound : k + 1 < (below ++ [last] ++ [parents last]).length := (List.getElem?_eq_some_iff.mp next).1
    rw [List.length_append, List.length_singleton] at bound
    rcases getElem?_append_single there with there | ⟨top, -⟩
    · rcases getElem?_append_single next with next | ⟨new, rfl⟩
      · exact layered.node k level above there next
      · obtain rfl : k = below.length := by simpa using new
        obtain rfl : last = level := Option.some.inj (List.getElem?_concat_length.symm.trans there)
        exact fun j inside => parents_node last inside
    · omega

theorem grow {more : List (List Digest)} (layered : Layered leaves built) (grown : round built = .grown more) :
    Layered leaves more ∧ more.length = built.length + 1 := by
  obtain ⟨below, last, rfl⟩ : ∃ below last, built = below ++ [last] := by
    have nonempty : built ≠ [] := fun none => nomatch none ▸ layered.bottom
    exact ⟨_, _, (List.dropLast_concat_getLast nonempty).symm⟩
  by_cases small : last.length ≤ 1
  · cases (round_of_small List.getLast?_concat small).symm.trans grown
  · cases (round_of_large List.getLast?_concat small).symm.trans grown
    exact ⟨layered.append_parents, by rw [List.length_append]; rfl⟩

/-- So the whole loop does, with a level more for each round, and it ends at a level of at most one node. -/
theorem ends {rounds : Nat} {levels : List (List Digest)} (layered : Layered leaves built)
    (ends : Ends built rounds levels) :
    Layered leaves levels ∧ levels.length = built.length + rounds ∧ round levels = .ended := by
  induction ends with
  | here ended => exact ⟨layered, rfl, ended⟩
  | later grown _ ih =>
    obtain ⟨more, length⟩ := layered.grow grown
    obtain ⟨whole, height, ended⟩ := ih more
    exact ⟨whole, by omega, ended⟩

end Layered
end Attest.Merkle
