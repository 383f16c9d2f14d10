import Attest.Manifest.Basic
import Attest.Text.UpperCase

namespace Attest

/-- Each pair stands for an edge between the nodes with these numbers, which may be too large. -/
structure ManifestTemplate where
  id : String
  version : String
  tools : List String
  permissions : List String
  nodeKinds : List String
  pairs : List (Nat × Nat)
  deterministic : Bool
deriving DecidableEq, Repr

namespace ManifestTemplate

def nodeId (n : Nat) : String := s!"n{n}"

/-- The edge between two of `count` nodes, none if they are the same. -/
def edge? (count : Nat) (pair : Nat × Nat) : Option Edge :=
  let a := pair.1 % count
  let b := pair.2 % count
  if a = b then none else some ⟨nodeId (min a b), nodeId (max a b)⟩

def graph (t : ManifestTemplate) : Graph where
  nodes := t.nodeKinds.mapIdx fun i kind => .plain (nodeId i) kind
  edges := if t.nodeKinds.length < 2 then [] else t.pairs.filterMap (edge? t.nodeKinds.length)

def manifest (t : ManifestTemplate) : Manifest where
  metadata := ⟨t.id, t.version, UpperCase.text t.id, ""⟩
  specVersion := some "1.0"
  tools := t.tools
  permissions := t.permissions
  graph := t.graph
  deterministic := t.deterministic
  signature := none

end ManifestTemplate
end Attest
