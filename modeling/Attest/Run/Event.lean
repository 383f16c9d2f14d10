import Attest.Hash.Digest
import Attest.Json.Record

namespace Attest

structure Event where
  kind : String
  payload : Json
  version : Option String
deriving DecidableEq, Repr

namespace Event

open Json

def toJson (e : Event) : Json := .ofMembers <|
  [("type", .string e.kind), ("payload", e.payload)] ++
    member? "schemaVersion" (e.version.map .string)

def fields : List (Record.Field Event) := [
  .mandatory "type" .string fun kind e => { e with kind },
  .optional "payload" [] .value fun payload e => { e with payload },
  .optional "schemaVersion" ["schema_version"] (.optional .string) fun version e =>
    { e with version }]

def decoder : Decoder Event := Record.decode fields ⟨"", .null, none⟩

def canonical (e : Event) : Canonical := .ofJson e.toJson

/-- The version in the payload counts where the event itself has none. An empty one is none, and yet
hides the one in the payload. -/
def declaredVersion (e : Event) : Option String :=
  (e.version.or ((e.payload.get? "schemaVersion").bind asString?)).filter (· ≠ "")

end Event
end Attest
