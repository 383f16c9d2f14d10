import Attest.Merkle.Proof

namespace Attest.Merkle

/-- The level above `nodes`. -/
def parents : (nodes : List Digest) → List Digest
  | [] => []
  | [a] => [.pair a a]
  | a :: b :: rest => .pair a b :: parents rest

theorem length_parents : (nodes : List Digest) → (parents nodes).length = (nodes.length + 1) / 2
  | [] => rfl
  | [_] => by simp [parents]
  | a :: b :: rest => by
    have := length_parents rest
    simp only [parents, List.length_cons]
    omega

/-- The levels over `leaves`, from the leaves up to the root. -/
def levels (leaves : List Digest) : List (List Digest) :=
  if leaves.length ≤ 1 then [leaves] else leaves :: levels (parents leaves)
termination_by leaves.length
decreasing_by rw [length_parents]; omega

def apex? (levels : List (List Digest)) : Option Digest := levels.getLast?.bind List.head?

theorem levels_ne_nil (leaves : List Digest) : levels leaves ≠ [] := by
  unfold levels; split <;> simp

theorem apex?_cons (level : List Digest) {above : List (List Digest)} (h : above ≠ []) :
    apex? (level :: above) = apex? above := by
  obtain ⟨next, rest, rfl⟩ := List.exists_cons_of_ne_nil h
  simp [apex?, List.getLast?_cons_cons]

theorem isSome_apex?_levels (leaves : List Digest) (h : leaves ≠ []) :
    (apex? (levels leaves)).isSome := by
  unfold levels
  split
  case isTrue => simpa [apex?, List.isSome_head?] using h
  case isFalse large =>
    rw [apex?_cons _ (levels_ne_nil _)]
    refine isSome_apex?_levels (parents leaves) fun none => ?_
    have := length_parents leaves
    simp only [none, List.length_nil] at this
    omega
termination_by leaves.length
decreasing_by rw [length_parents]; omega

structure Tree where
  leaves : List Digest
  leaves_ne_nil : leaves ≠ []
  levels : List (List Digest)
  levels_eq : levels = Merkle.levels leaves
deriving DecidableEq

namespace Tree

def grow (leaves : List Digest) (h : leaves ≠ []) : Tree := ⟨leaves, h, _, rfl⟩

def ofLeaves (leaves : List Digest) : Except Error Tree :=
  if h : leaves = [] then .error .emptyTree else .ok (grow leaves h)

def ofContents (contents : List Bytes) : Except Error Tree := ofLeaves (contents.map Digest.hash)

theorem ofContents_eq_grow {contents : List Bytes} (h : contents.map Digest.hash ≠ []) :
    ofContents contents = .ok (grow (contents.map Digest.hash) h) := by
  rw [ofContents, ofLeaves, dif_neg h]

def root (t : Tree) : Digest :=
  (apex? t.levels).get (t.levels_eq ▸ isSome_apex?_levels t.leaves t.leaves_ne_nil)

def leafCount (t : Tree) : Nat := t.leaves.length

/-- The number of levels, that of the leaves and that of the root among them. -/
def height (t : Tree) : Nat := t.levels.length

/-- What stands beside the node at `index`: its neighbour, or the node itself if it has none. -/
def beside? (level : List Digest) (index : Nat) : Option Step :=
  if index % 2 = 0 then (level[index + 1]?.or level[index]?).map (⟨·, .right⟩)
  else level[index - 1]?.map (⟨·, .left⟩)

/-- The path from the node at `index` of the first level to the last level. -/
def path? : (levels : List (List Digest)) → (index : Nat) → Option (List Step)
  | [], _ | [_], _ => some []
  | level :: above, index => do
    let step ← beside? level index
    let path ← path? above (index / 2)
    return step :: path

def proof (t : Tree) (index : Nat) : Except Error Proof :=
  match t.leaves[index]?, path? t.levels index with
  | some leaf, some path => .ok ⟨index, leaf, path⟩
  | _, _ => .error (.indexOutOfRange index t.leafCount)

def describe (t : Tree) : String :=
  "MerkleTree \x7b root: " ++ t.root.short ++
    s!", leaf_count: {t.leafCount}, height: {t.height} " ++ "\x7d"

structure Summary where
  rootHash : String
  leafCount : Nat
  leafHashes : Option (List String)
deriving DecidableEq, Repr

def summary (t : Tree) (withLeaves : Bool) : Summary where
  rootHash := t.root.hex
  leafCount := t.leafCount
  leafHashes := if withLeaves then some (t.leaves.map Digest.hex) else none

namespace Summary

def toJson (s : Summary) : Json := .ofMembers <|
  [("root_hash", .string s.rootHash), ("leaf_count", .ofInt s.leafCount)] ++
    Json.member? "leaf_hashes" (s.leafHashes.map .ofStrings)

open Json in
def fields : List (Record.Field Summary) := [
  .mandatory "root_hash" .string fun rootHash s => { s with rootHash },
  .mandatory "leaf_count" .size fun leafCount s => { s with leafCount },
  .optional "leaf_hashes" [] (.optional (.list .string)) fun leafHashes s => { s with leafHashes }]

def decoder : Json.Decoder Summary := Json.Record.decode fields ⟨"", 0, none⟩

end Summary
end Tree
end Attest.Merkle
