import Attest.KeyMap.Json
import Attest.Run.Event
import Attest.Text.Quote
import Attest.Text.Utf8

namespace Attest

structure RunRules where
  supported : List String
  defaultVersion : String
  required : KeyMap (List String)
deriving DecidableEq, Repr

namespace RunRules

def baseVersion : String := "1.0.0"

def default : RunRules where
  supported := [baseVersion]
  defaultVersion := baseVersion
  required := .ofList [
    ("spawn.event", ["spawnId", "sessionId", "goal", "depth", "status"]),
    ("guardrail.stop", ["reason", "triggeredBy", "runId"]),
    ("session.started", ["sessionId", "tenantId", "status", "startedAt", "members"]),
    ("capsule.sync", ["capsuleId", "session", "spawn", "syncState", "updatedAt"]),
    ("policy.gate.requested", ["gate_id", "reason"]),
    ("policy.gate.resolved", ["gate_id", "decision"]),
    ("policy.gate.stored", ["id", "tool", "reason"])]

def supports (r : RunRules) (version : String) : Bool := r.supported.contains version

open Json

def toJson (r : RunRules) : Json := .ofMembers [
  ("supported_schema_versions", .ofStrings r.supported),
  ("default_schema_version", .string r.defaultVersion),
  ("required_payload_fields",
    .object (r.required.entries.map fun (kind, names) => (kind, .ofStrings names)))]

def fields : List (Record.Field RunRules) := [
  .optional "supported_schema_versions" [] (.list .string) fun supported r => { r with supported },
  .optional "default_schema_version" [] .string fun defaultVersion r => { r with defaultVersion },
  .optional "required_payload_fields" [] (.entries (.list .string)) fun required r =>
    { r with required := ⟨required⟩ }]

def decoder : Decoder RunRules := Record.decode fields default

end RunRules

namespace Run

inductive Error where
  | unsupportedVersion (index : Nat) (found : String) (supported : List String)
  | missingField (index : Nat) (kind name : String)
  | payloadNotObject (index : Nat) (kind : String)
  | notText (fault : Utf8.Fault)
  | unreadableLine (line : Nat) (fault : Json.Fault)
deriving DecidableEq, Repr

def Error.message : Error → String
  | .unsupportedVersion index found supported =>
    s!"event {index}: schemaVersion {found} is not supported (supported: {Quote.list supported})"
  | .missingField index kind name => s!"event {index}: {kind} requires payload field {name}"
  | .payloadNotObject index kind => s!"event {index}: {kind} payload must be a JSON object"
  | .notText fault => "event log line 0: invalid UTF-8: " ++ fault.message
  | .unreadableLine line fault => s!"event log line {line}: {fault.message}"

def rawKind : String := "replay.event"

def version (rules : RunRules) (index : Nat) (e : Event) : Except Error String :=
  match e.declaredVersion with
  | none => .ok rules.defaultVersion
  | some v =>
    if rules.supports v then .ok v else .error (.unsupportedVersion index v rules.supported)

def checkShape (index : Nat) (e : Event) : Except Error Unit :=
  if e.kind ≠ rawKind ∧ ¬e.payload.isObject then .error (.payloadNotObject index e.kind) else .ok ()

def checkFields (rules : RunRules) (index : Nat) (e : Event) : Except Error Unit :=
  match rules.required.get? e.kind with
  | none => .ok ()
  | some names =>
    if e.payload.isObject then
      match names.find? fun name => (e.payload.get? name).isNone with
      | some name => .error (.missingField index e.kind name)
      | none => .ok ()
    else .error (.payloadNotObject index e.kind)

def normalize (rules : RunRules) (index : Nat) (e : Event) : Except Error Event := do
  let version ← version rules index e
  checkShape index e
  checkFields rules index e
  return { e with version := some version }

def normalizeFrom (rules : RunRules) (index : Nat) : List Event → Except Error (List Event)
  | [] => .ok []
  | e :: log => do
    let e ← normalize rules index e
    let log ← normalizeFrom rules (index + 1) log
    return e :: log

def normalizeLog (rules : RunRules) (log : List Event) : Except Error (List Event) :=
  normalizeFrom rules 0 log

end Run
end Attest
