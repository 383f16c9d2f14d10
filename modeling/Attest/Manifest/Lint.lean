import Attest.Manifest.Graph
import Attest.Manifest.Integrity

namespace Attest

structure LintRules where
  specMajor : String
  toolNameLimit : Nat
  nodeLimit : Nat
  depthLimit : Nat
  systemPermission : String
  proofLeaf : Nat
deriving DecidableEq, Repr

namespace LintRules

def default : LintRules := ⟨"1.", 128, 500, 1000, "sys:", Integrity.graphLeaf⟩

open Json

def toJson (r : LintRules) : Json := .ofMembers [
  ("accepted_spec_major", .string r.specMajor), ("max_tool_name_len", .ofInt r.toolNameLimit),
  ("max_graph_nodes", .ofInt r.nodeLimit), ("max_traversal_depth", .ofInt r.depthLimit),
  ("system_permission_prefix", .string r.systemPermission),
  ("proof_leaf_index", .ofInt r.proofLeaf)]

def fields : List (Record.Field LintRules) := [
  .optional "accepted_spec_major" [] .string fun specMajor r => { r with specMajor },
  .optional "max_tool_name_len" [] .size fun toolNameLimit r => { r with toolNameLimit },
  .optional "max_graph_nodes" [] .size fun nodeLimit r => { r with nodeLimit },
  .optional "max_traversal_depth" [] .size fun depthLimit r => { r with depthLimit },
  .optional "system_permission_prefix" [] .string fun systemPermission r =>
    { r with systemPermission },
  .optional "proof_leaf_index" [] .size fun proofLeaf r => { r with proofLeaf }]

def decoder : Decoder LintRules := Record.decode fields default

end LintRules

namespace Lint

inductive Error where
  | unreadable (fault : Json.Fault)
  | missingVersion
  | longToolName (tool : String)
  | duplicateNode (id : String)
  | unknownNode (edge : Edge) (id : String)
  | cyclic
  | unverifiedLeaf (leaf : Nat)
deriving DecidableEq, Repr

def Error.message : Error → String
  | .unreadable fault => "JSON parse error: " ++ fault.message
  | .missingVersion => "missing 'specVersion' field"
  | .longToolName tool => "tool name too long: " ++ tool
  | .duplicateNode id => "duplicate node id: " ++ id
  | .unknownNode edge id => s!"edge {edge.source} -> {edge.target} references unknown node: {id}"
  | .cyclic => "execution graph contains cycles; must be a DAG"
  | .unverifiedLeaf leaf => s!"merkle proof verification failed for leaf {leaf}"

inductive Warning where
  | unsupportedVersion (version major : String)
  | systemPermission (permission : String)
  | largeGraph (limit : Nat)
  | unwrittenGraph (fault : Json.ConversionFault)
  | noIntegrity (fault : Integrity.Fault)
  | unprovenLeaf (leaf : Nat) (error : Merkle.Error)
deriving DecidableEq, Repr

def Warning.message : Warning → String
  | .unsupportedVersion version major => s!"unsupported specVersion: {version}, expected {major}x"
  | .systemPermission permission => "pack requests system permission: " ++ permission
  | .largeGraph limit => s!"large execution graph (>{limit} nodes); may impact performance"
  | .unwrittenGraph fault => "execution graph could not be canonicalized: " ++ fault.message
  | .noIntegrity fault => "merkle tree computation failed: " ++ fault.message
  | .unprovenLeaf leaf error => s!"failed to generate proof for leaf {leaf}: {error.message}"

structure Report where
  valid : Bool
  errors : List Error
  warnings : List Warning
  metadata : Metadata
  hash : Option Digest
  root : Option Digest
  integrity : Option Integrity
  proof : Option Merkle.Proof
deriving DecidableEq

def beginsWith (start text : String) : Bool := start.toList.isPrefixOf text.toList

/-- The ids that occurred before, each time they do. -/
def repeated : (seen ids : List String) → List String
  | _, [] => []
  | seen, id :: ids => if id ∈ seen then id :: repeated seen ids else repeated (id :: seen) ids

def danglingEnds (ids : List String) (e : Edge) : List Error :=
  ([e.source, e.target].filter fun id => id ∉ ids).map (.unknownNode e)

def versionErrors (m : Manifest) : List Error :=
  if m.specVersion.getD "" = "" then [.missingVersion] else []

def toolErrors (rules : LintRules) (m : Manifest) : List Error :=
  (m.tools.filter fun tool => rules.toolNameLimit < tool.length).map .longToolName

def graphErrors (rules : LintRules) (g : Graph) : List Error :=
  (repeated [] g.ids).map .duplicateNode ++ g.edges.flatMap (danglingEnds g.ids) ++
    if g.hasCycle rules.depthLimit then [.cyclic] else []

def errors (rules : LintRules) (m : Manifest) : List Error :=
  versionErrors m ++ toolErrors rules m ++ graphErrors rules m.graph

def versionWarnings (rules : LintRules) (m : Manifest) : List Warning :=
  let version := m.specVersion.getD ""
  if version = "" ∨ beginsWith rules.specMajor version then []
  else [.unsupportedVersion version rules.specMajor]

def permissionWarnings (rules : LintRules) (m : Manifest) : List Warning :=
  (m.permissions.filter (beginsWith rules.systemPermission)).map .systemPermission

def sizeWarnings (rules : LintRules) (g : Graph) : List Warning :=
  if rules.nodeLimit < g.nodes.length then [.largeGraph rules.nodeLimit] else []

def warnings (rules : LintRules) (m : Manifest) : List Warning :=
  versionWarnings rules m ++ permissionWarnings rules m ++ sizeWarnings rules m.graph

/-- What a pack is known by, as far as it can be found out, and a warning if it cannot. -/
structure Identity where
  hash : Option Digest
  integrity : Option Integrity
  warnings : List Warning

def identify (m : Manifest) : Identity :=
  match m.graph.toJson.convertedBytes with
  | .error fault => ⟨none, none, [.unwrittenGraph fault]⟩
  | .ok graph =>
    match Integrity.build m graph with
    | .error fault => ⟨some (.hash graph), none, [.noIntegrity fault]⟩
    | .ok integrity => ⟨some (.hash graph), some integrity, []⟩

def manifest (rules : LintRules) (m : Manifest) : Report :=
  let errors := errors rules m
  let identity := identify m
  { valid := errors.isEmpty
    errors
    warnings := warnings rules m ++ identity.warnings
    metadata := m.metadata
    hash := identity.hash
    root := identity.integrity.map Integrity.root
    integrity := identity.integrity
    proof := identity.integrity.bind fun i => (i.proof rules.proofLeaf).toOption }

def unreadable (fault : Json.Fault) : Report :=
  ⟨false, [.unreadable fault], [], .empty, none, none, none, none⟩

def bytes (rules : LintRules) (data : Bytes) : Report :=
  match Json.read (Manifest.decoder .value) data with
  | .ok m => manifest rules m
  | .error fault => unreadable fault

def recheckLeaf (i : Integrity) (r : Report) (leaf : Nat) : Report :=
  match i.proof leaf with
  | .ok p =>
    if p.verify i.root then r
    else { r with valid := false, errors := r.errors ++ [.unverifiedLeaf leaf] }
  | .error e => { r with warnings := r.warnings ++ [.unprovenLeaf leaf e] }

def recheck (r : Report) : Report :=
  match r.integrity with
  | some i => (List.range Integrity.leafCount).foldl (recheckLeaf i) r
  | none => r

def bytesWithProofs (rules : LintRules) (data : Bytes) : Report := recheck (bytes rules data)

def Report.toJson (r : Report) : Json := .ofMembers <|
  [("valid", .bool r.valid), ("errors", .ofStrings (r.errors.map Error.message)),
    ("warnings", .ofStrings (r.warnings.map Warning.message)),
    ("metadata", r.metadata.toJson)] ++
    Json.member? "hash" (r.hash.map Digest.toJson) ++
    Json.member? "merkleRoot" (r.root.map Digest.toJson) ++
    Json.member? "integrity" (r.integrity.map fun i => i.summary.toJson) ++
    Json.member? "proof" (r.proof.map Merkle.Proof.toJson)

end Lint
end Attest
