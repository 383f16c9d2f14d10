import Attest.Json.Record
import Attest.KeyMap.Json

namespace Attest

structure Node where
  id : String
  kind : String
  tool : Option String
  action : Option String
  inputs : Option (KeyMap Json)
deriving DecidableEq, Repr

structure Edge where
  source : String
  target : String
deriving DecidableEq, Repr

/-- Listed, not checked: ids may come twice and edges may end nowhere. -/
structure Graph where
  nodes : List Node
  edges : List Edge
deriving DecidableEq, Repr

open Json

namespace Node

def plain (id kind : String) : Node := ⟨id, kind, none, none, none⟩

def toJson (n : Node) : Json := .ofMembers <|
  [("id", .string n.id), ("type", .string n.kind)] ++ member? "tool" (n.tool.map .string) ++
    member? "action" (n.action.map .string) ++
    member? "inputs" (n.inputs.map fun inputs => .object inputs.entries)

def fields (any : Decoder Json) : List (Record.Field Node) := [
  .mandatory "id" .string fun id n => { n with id },
  .optional "type" [] .string fun kind n => { n with kind },
  .optional "tool" [] (.optional .string) fun tool n => { n with tool },
  .optional "action" [] (.optional .string) fun action n => { n with action },
  .optional "inputs" [] (.optional (.entries any)) fun inputs n =>
    { n with inputs := inputs.map KeyMap.mk }]

def decoder (any : Decoder Json) : Decoder Node := Record.decode (fields any) (plain "" "")

end Node

namespace Edge

def toJson (e : Edge) : Json := .ofMembers [("from", .string e.source), ("to", .string e.target)]

def fields : List (Record.Field Edge) := [
  .mandatory "from" .string fun source e => { e with source },
  .mandatory "to" .string fun target e => { e with target }]

def decoder : Decoder Edge := Record.decode fields ⟨"", ""⟩

end Edge

namespace Graph

def empty : Graph := ⟨[], []⟩

def ids (g : Graph) : List String := g.nodes.map Node.id

def toJson (g : Graph) : Json := .ofMembers
  [("nodes", .array (g.nodes.map Node.toJson)), ("edges", .array (g.edges.map Edge.toJson))]

def fields (any : Decoder Json) : List (Record.Field Graph) := [
  .optional "nodes" [] (.list (Node.decoder any)) fun nodes g => { g with nodes },
  .optional "edges" [] (.list Edge.decoder) fun edges g => { g with edges }]

def decoder (any : Decoder Json) : Decoder Graph := Record.decode (fields any) empty

/-- The ends of the edges that begin at `id`, in the order of the edges. -/
def successors (g : Graph) (id : String) : List String :=
  (g.edges.filter fun e => e.source = id).map Edge.target

/-- Follows one edge to `child`, with `path` the ids not left yet and `visited` all ids entered. -/
def follow (enter : (child : String) → (visited : List String) → Option (List String))
    (path visited : List String) (child : String) : Option (List String) :=
  if child ∈ path then none
  else if child ∈ visited then some visited
  else enter child (child :: visited)

/-- Visits what lies below `id`, at most `depth` edges deep. Gives the ids visited by then, unless it
gives up. -/
def visit (g : Graph) : (depth : Nat) → (above : List String) → (id : String) →
    (visited : List String) → Option (List String)
  | 0, above, id, visited =>
    (g.successors id).foldlM (follow (fun _ _ => none) (id :: above)) visited
  | depth + 1, above, id, visited =>
    (g.successors id).foldlM (follow (visit g depth (id :: above)) (id :: above)) visited

def visitAll (g : Graph) (depth : Nat) : Option (List String) :=
  g.ids.foldlM (follow (visit g depth []) []) []

/-- The search gave up: there is a cycle, or a path with more than `depth` edges. -/
def hasCycle (g : Graph) (depth : Nat) : Bool := (g.visitAll depth).isNone

end Graph
end Attest
