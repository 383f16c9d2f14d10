import Attest.Hash.Digest
import Attest.Manifest.Graph
import Attest.Merkle.Proof

namespace Attest

structure Metadata where
  id : String
  version : String
  name : String
  description : String
deriving DecidableEq, Repr

structure Manifest where
  metadata : Metadata
  specVersion : Option String
  tools : List String
  permissions : List String
  graph : Graph
  deterministic : Bool
  signature : Option String
deriving DecidableEq, Repr

open Json

namespace Metadata

def empty : Metadata := ⟨"", "", "", ""⟩

def toJson (m : Metadata) : Json := .ofMembers [
  ("id", .string m.id), ("version", .string m.version), ("name", .string m.name),
  ("description", .string m.description)]

def fields : List (Record.Field Metadata) := [
  .optional "id" [] .string fun id m => { m with id },
  .optional "version" [] .string fun version m => { m with version },
  .optional "name" [] .string fun name m => { m with name },
  .optional "description" [] .string fun description m => { m with description }]

def decoder : Decoder Metadata := Record.decode fields empty

end Metadata

namespace Manifest

inductive Error where
  | unreadable (fault : Fault)
  | notAnObject
  | unsigned
  | signatureMismatch (claimed actual : String)
  | leafOutOfRange (index leafCount : Nat)
  | merkle (error : Merkle.Error)
deriving DecidableEq, Repr

def Error.message : Error → String
  | .unreadable fault => "JSON parse error: " ++ fault.message
  | .notAnObject => "JSON parse error: manifest must be a JSON object"
  | .unsigned => "manifest has no signatureHash"
  | .signatureMismatch claimed actual =>
    s!"signature hash mismatch: expected {claimed}, got {actual}"
  | .leafOutOfRange index count => s!"integrity leaf index {index} out of range [0, {count})"
  | .merkle error => error.message

def empty : Manifest := ⟨.empty, none, [], [], .empty, false, none⟩

def toJson (m : Manifest) : Json := .ofMembers <|
  [("metadata", m.metadata.toJson)] ++ member? "specVersion" (m.specVersion.map .string) ++
    [("declaredTools", .ofStrings m.tools), ("declaredPermissions", .ofStrings m.permissions),
      ("executionGraph", m.graph.toJson), ("deterministic", .bool m.deterministic)] ++
    member? "signatureHash" (m.signature.map .string)

def fields (any : Decoder Json) : List (Record.Field Manifest) := [
  .optional "metadata" [] Metadata.decoder fun metadata m => { m with metadata },
  .optional "specVersion" ["spec_version"] (.optional .string) fun specVersion m =>
    { m with specVersion },
  .optional "declaredTools" ["declared_tools"] (.list .string) fun tools m => { m with tools },
  .optional "declaredPermissions" ["declared_permissions"] (.list .string) fun permissions m =>
    { m with permissions },
  .optional "executionGraph" ["execution_graph"] (Graph.decoder any) fun graph m => { m with graph },
  .optional "deterministic" [] .bool fun deterministic m => { m with deterministic },
  .optional "signatureHash" ["signature_hash"] (.optional .string) fun signature m =>
    { m with signature }]

def decoder (any : Decoder Json) : Decoder Manifest := Record.decode (fields any) empty

def ofBytes (bytes : Bytes) : Except Error Manifest :=
  (Json.read (decoder .value) bytes).mapError .unreadable

def canonicalBytes (m : Manifest) : Bytes := m.toJson.canonicalBytes

end Manifest

def Graph.canonicalBytes (g : Graph) : Bytes := g.toJson.canonicalBytes

end Attest
