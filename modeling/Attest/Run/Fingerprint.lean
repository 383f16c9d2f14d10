import Attest.Json.Tagged
import Attest.Run.Rules

namespace Attest.Run

def canonicalEvents (rules : RunRules) (log : List Event) : Except Error (List Canonical) :=
  (normalizeLog rules log).map fun log => log.map Event.canonical

def canonical (rules : RunRules) (id : String) (log : List Event) : Except Error Canonical :=
  (canonicalEvents rules log).map fun events => .array (.string id :: events)

def fingerprint (rules : RunRules) (id : String) (log : List Event) : Except Error Digest :=
  (canonical rules id log).map Canonical.digest

inductive Verdict where
  | verified
  | mismatch (expected actual : String)
deriving DecidableEq, Repr

namespace Verdict

def judge (stored recomputed : Digest) : Verdict :=
  if stored = recomputed then .verified else .mismatch stored.hex recomputed.hex

def isVerified : Verdict → Bool
  | verified => true
  | mismatch .. => false

def name : Verdict → String
  | verified => "REPLAY_VERIFIED"
  | mismatch .. => "REPLAY_MISMATCH"

def toJson (v : Verdict) : Json := .ofMembers <| ("verdict", .string v.name) ::
  match v with
  | verified => []
  | mismatch expected actual => [("expected", .string expected), ("actual", .string actual)]

open Json

def mismatchFields : List (Record.Field (String × String)) := [
  .mandatory "expected" .string fun expected r => (expected, r.2),
  .mandatory "actual" .string fun actual r => (r.1, actual)]

def verifiedDecoder : Decoder Verdict := Record.decode [] verified

def mismatchDecoder : Decoder Verdict := fun depth o =>
  (fun (expected, actual) => mismatch expected actual) <$>
    Record.decode mismatchFields ("", "") depth o

def decoder : Decoder Verdict := Tagged.decode "verdict"
  [(verified.name, verifiedDecoder), ((mismatch "" "").name, mismatchDecoder)]

end Verdict
end Attest.Run
