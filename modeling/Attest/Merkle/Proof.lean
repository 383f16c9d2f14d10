import Attest.Hash.Digest
import Attest.Json.Record

namespace Attest.Merkle

inductive Side where
  | left
  | right
deriving DecidableEq, Repr

namespace Side

def marker : Side → Nat
  | left => 0
  | right => 1

def ofMarker? : Nat → Option Side
  | 0 => some left
  | 1 => some right
  | _ => none

def flip : Side → Side
  | left => right
  | right => left

def name : Side → String
  | left => "left"
  | right => "right"

def toJson (s : Side) : Json := .string s.name

def decoder : Json.Decoder Side := .name ([left, right].map fun s => (s.name, s))

end Side

inductive Error where
  | emptyTree
  | indexOutOfRange (index leafCount : Nat)
  | unevenPath (hashes markers : Nat)
  | badMarker (marker : Nat)
  | digest (fault : Digest.Fault)
deriving DecidableEq, Repr

def Error.message : Error → String
  | .emptyTree => "cannot build a Merkle tree from zero leaves"
  | .indexOutOfRange index count => s!"leaf index {index} out of range [0, {count})"
  | .unevenPath hashes markers =>
    s!"proof is malformed: {hashes} path entries but {markers} side markers"
  | .badMarker marker => s!"proof is malformed: invalid side marker {marker}"
  | .digest fault => fault.message

structure Step where
  sibling : Digest
  side : Side
deriving DecidableEq, Repr

def Step.climb (node : Digest) (s : Step) : Digest :=
  match s.side with
  | .left => .pair s.sibling node
  | .right => .pair node s.sibling

structure Proof where
  index : Nat
  leaf : Digest
  path : List Step
deriving DecidableEq, Repr

namespace Proof

def root (p : Proof) : Digest := p.path.foldl Step.climb p.leaf

def verify (p : Proof) (root : Digest) : Bool := p.root = root

def verifyHex (p : Proof) (root : String) : Bool :=
  match Digest.ofHex root with
  | .ok root => p.verify root
  | .error _ => false

structure Stored where
  index : Nat
  leafHash : String
  hashes : List String
  markers : List Nat
deriving DecidableEq, Repr

def toStored (p : Proof) : Stored where
  index := p.index
  leafHash := p.leaf.hex
  hashes := p.path.map fun s => s.sibling.hex
  markers := p.path.map fun s => s.side.marker

def digestOf (text : String) : Except Error Digest := (Digest.ofHex text).mapError .digest

def sideOf (marker : Nat) : Except Error Side :=
  match Side.ofMarker? marker with
  | some side => .ok side
  | none => .error (.badMarker marker)

def stepOf (hash : String) (marker : Nat) : Except Error Step := do
  let side ← sideOf marker
  let sibling ← digestOf hash
  return ⟨sibling, side⟩

def ofStored (s : Stored) : Except Error Proof :=
  if s.hashes.length ≠ s.markers.length then
    .error (.unevenPath s.hashes.length s.markers.length)
  else do
    let path ← (s.hashes.zip s.markers).mapM fun (hash, marker) => stepOf hash marker
    let leaf ← digestOf s.leafHash
    return ⟨s.index, leaf, path⟩

namespace Stored

def toJson (s : Stored) : Json := .ofMembers [
  ("index", .ofInt s.index), ("leaf_hash", .string s.leafHash),
  ("proof_path", .ofStrings s.hashes), ("proof_index", .array (s.markers.map fun n : Nat => .ofInt n))]

open Json in
def fields : List (Record.Field Stored) := [
  .mandatory "index" .size fun index s => { s with index },
  .mandatory "leaf_hash" .string fun leafHash s => { s with leafHash },
  .mandatory "proof_path" (.list .string) fun hashes s => { s with hashes },
  .mandatory "proof_index" (.list (.nat 255)) fun markers s => { s with markers }]

def decoder : Json.Decoder Stored := Json.Record.decode fields ⟨0, "", [], []⟩

end Stored

def toJson (p : Proof) : Json := p.toStored.toJson

def decoder : Json.Decoder Proof := fun depth o => do
  let s ← Stored.decoder depth o
  (ofStored s).mapError fun e => .refused e.message

end Proof
end Attest.Merkle
