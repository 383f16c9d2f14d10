import Attest.Manifest.Registry
import Attest.Notary

namespace Attest.Reference

open Json (ofStrings)

def sampleManifest : Manifest where
  metadata := ⟨"sample-pack", "0.3.1", "Sample", "fixture"⟩
  specVersion := some "1.0"
  tools := ["http.get", "fs.read", "llm.complete"]
  permissions := ["net:egress", "sys:exec"]
  graph := {
    nodes := [
      { Node.plain "fetch" "Action" with tool := some "http.get" },
      .plain "check" "Condition",
      { Node.plain "summarize" "Action" with
        tool := some "llm.complete", inputs := some (.ofList [("maxTokens", .ofInt 256)]) }]
    edges := [⟨"fetch", "check"⟩, ⟨"check", "summarize"⟩] }
  deterministic := true
  signature := none

def sampleText : String := sampleManifest.toJson.text

def cyclicText : String := Json.text <| .ofMembers [
  ("metadata", .ofMembers [("id", .string "loop")]), ("specVersion", .string "1.0"),
  ("executionGraph", Graph.toJson
    ⟨[.plain "a" "Action", .plain "b" "Action"], [⟨"a", "b"⟩, ⟨"b", "a"⟩]⟩)]

/-- An event with the members of its payload in the order in which they are written. -/
structure Entry where
  kind : String
  payload : List (String × Json)
  version : Option String

namespace Entry

def event (e : Entry) : Event := ⟨e.kind, .ofMembers e.payload, e.version⟩

def line (e : Entry) : String := Json.text <| .object <|
  [("type", .string e.kind), ("payload", .object e.payload)] ++
    Json.member? "schemaVersion" (e.version.map .string)

end Entry

def sessionStarted : Entry := ⟨"session.started", [
  ("sessionId", .string "s1"), ("tenantId", .string "t1"), ("status", .string "active"),
  ("startedAt", .string "2024-01-01T00:00:00Z"), ("members", ofStrings ["alice"])], none⟩

def toolCall : Entry := ⟨"tool.call", [
  ("tool", .string "http.get"),
  ("args", .ofMembers [("url", .string "https://example.test")])], none⟩

def toolResult : Entry := ⟨"tool.result", [("status", .ofInt 200)], some "1.0.0"⟩

def sampleLog : List Event := [sessionStarted, toolCall, toolResult].map Entry.event

def sampleLogText : String :=
  "\n".intercalate [sessionStarted.line, toolCall.line, "", toolResult.line, ""]

def sampleRun : String := "run-sample"

structure Bench where
  notary : Notary
  registry : Registry

namespace Bench

def new (policy : Policy) : Bench := ⟨⟨policy, .empty⟩, .empty⟩

def enroll (b : Bench) (manifest : Bytes) : Lint.Report × Option Digest × Bench :=
  let report := b.notary.lint manifest
  let (id, registry) := b.registry.register report
  (report, id, { b with registry })

def sampleFingerprint (b : Bench) : Except Notary.Error Digest :=
  b.notary.fingerprintText sampleRun (Utf8.encode sampleLogText)

end Bench
end Attest.Reference
