import Attest.Canonical.Native
import Attest.Manifest.Basic
import Attest.Merkle.Tree

namespace Attest

structure Integrity where
  packId : String
  root : Digest
  tree : Merkle.Tree
deriving DecidableEq

namespace Integrity

/-- Which pack it is, its tools, its permissions, its graph, and whether it is deterministic. -/
def leaves (m : Manifest) (graph : Bytes) : List Bytes := [
  Utf8.encode s!"{m.metadata.id}:{m.metadata.version}:{m.metadata.name}",
  (Json.ofStrings m.tools).canonicalBytes,
  (Json.ofStrings m.permissions).canonicalBytes,
  graph,
  Utf8.encode (if m.deterministic then "true" else "false")]

def leafCount : Nat := 5

def graphLeaf : Nat := 3

def treeOf (m : Manifest) (graph : Bytes) : Merkle.Tree :=
  .grow ((leaves m graph).map Digest.hash) (by simp [leaves])

/-- The integrity of a manifest whose graph is taken to be these bytes. -/
def withGraph (m : Manifest) (graph : Bytes) : Integrity :=
  let tree := treeOf m graph
  ⟨m.metadata.id, tree.root, tree⟩

inductive Fault where
  | unwritten (fault : Json.ConversionFault)
  | tree (error : Merkle.Error)
deriving DecidableEq, Repr

def Fault.message : Fault → String
  | .unwritten fault => fault.message
  | .tree error => error.message

def writtenLeaves (m : Manifest) (graph : Bytes) : Except Json.ConversionFault (List Bytes) := do
  let tools ← (Json.ofStrings m.tools).convertedBytes
  let permissions ← (Json.ofStrings m.permissions).convertedBytes
  return [
    Utf8.encode s!"{m.metadata.id}:{m.metadata.version}:{m.metadata.name}",
    tools,
    permissions,
    graph,
    Utf8.encode (if m.deterministic then "true" else "false")]

/-- The integrity of a manifest, step by step: the leaves are written, then the tree is built. -/
def build (m : Manifest) (graph : Bytes) : Except Fault Integrity := do
  let leaves ← (writtenLeaves m graph).mapError .unwritten
  let tree ← (Merkle.Tree.ofContents leaves).mapError .tree
  return ⟨m.metadata.id, tree.root, tree⟩

def proof (i : Integrity) (leaf : Nat) : Except Merkle.Error Merkle.Proof := i.tree.proof leaf

def verify (i : Integrity) (leaf : Nat) (data : Bytes) : Bool :=
  match i.proof leaf with
  | .ok p => p.leaf = Digest.hash data && p.verify i.root
  | .error _ => false

structure Summary where
  packId : String
  rootHash : String
  tree : Merkle.Tree.Summary
deriving DecidableEq, Repr

def summary (i : Integrity) : Summary := ⟨i.packId, i.root.hex, i.tree.summary true⟩

namespace Summary

def toJson (s : Summary) : Json := .ofMembers
  [("packId", .string s.packId), ("merkleRoot", .string s.rootHash), ("tree", s.tree.toJson)]

open Json in
def fields : List (Record.Field Summary) := [
  .mandatory "packId" .string fun packId s => { s with packId },
  .mandatory "merkleRoot" .string fun rootHash s => { s with rootHash },
  .mandatory "tree" Merkle.Tree.Summary.decoder fun tree s => { s with tree }]

def decoder : Json.Decoder Summary := Json.Record.decode fields ⟨"", "", "", 0, none⟩

end Summary
end Integrity

namespace Manifest

def integrity (m : Manifest) : Integrity := .withGraph m m.graph.canonicalBytes

def address (m : Manifest) : Digest := m.integrity.root

def checkProof (m : Manifest) (leaf : Nat) (p : Merkle.Proof) : Except Error Bool :=
  if leaf < Integrity.leafCount then do
    let own ← (m.integrity.proof leaf).mapError .merkle
    return p.index = leaf && p.leaf = own.leaf && p.verify m.integrity.root
  else .error (.leafOutOfRange leaf Integrity.leafCount)

end Manifest
end Attest
