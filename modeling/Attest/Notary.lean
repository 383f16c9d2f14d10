import Attest.Hash.Source
import Attest.Manifest.Lint
import Attest.Manifest.Signature
import Attest.Run.Comparison
import Attest.Run.Log
import Attest.Store

namespace Attest

structure Policy where
  lint : LintRules
  run : RunRules
  stream : StreamRules
deriving DecidableEq, Repr

namespace Policy

def default : Policy := ⟨.default, .default, .default⟩

open Json

def toJson (p : Policy) : Json := .ofMembers
  [("lint", p.lint.toJson), ("replay", p.run.toJson), ("stream", p.stream.toJson)]

def fields : List (Record.Field Policy) := [
  .optional "lint" [] LintRules.decoder fun lint p => { p with lint },
  .optional "replay" [] RunRules.decoder fun run p => { p with run },
  .optional "stream" [] StreamRules.decoder fun stream p => { p with stream }]

def decoder : Decoder Policy := Record.decode fields default

end Policy

structure Notary where
  policy : Policy
  store : Store

namespace Notary

inductive Error where
  | stream (error : Stream.Error)
  | merkle (error : Merkle.Error)
  | manifest (error : Manifest.Error)
  | run (error : Run.Error)
  | notFound (address : String)
deriving DecidableEq, Repr

def Error.message : Error → String
  | .stream error => "core error: " ++ error.message
  | .merkle error => "merkle error: " ++ error.message
  | .manifest error => "pack error: " ++ error.message
  | .run error => "replay error: " ++ error.message
  | .notFound address => "content not found: " ++ address

def lint (n : Notary) (manifest : Bytes) : Lint.Report := Lint.bytes n.policy.lint manifest

def lintWithProofs (n : Notary) (manifest : Bytes) : Lint.Report :=
  Lint.bytesWithProofs n.policy.lint manifest

def storePack (n : Notary) (m : Manifest) : Except Error (Digest × Notary) := do
  let (root, store) ←
    (n.store.putAll (Integrity.leaves m m.graph.canonicalBytes)).mapError .merkle
  return (root, { n with store })

def sealed (manifest : Bytes) : Except Error Bytes :=
  (Signature.sealedBytes manifest).mapError .manifest

def verifySignature (manifest : Bytes) : Except Error Unit :=
  (Signature.verifyBytes manifest).mapError .manifest

def put (n : Notary) (data : Bytes) : Notary := { n with store := n.store.put data }

def get (n : Notary) (address : String) : Except Error Bytes :=
  match n.store.get? address with
  | some data => .ok data
  | none => .error (.notFound address)

def hashStream (n : Notary) (source : Source) : Except Error Digest :=
  (Stream.hash n.policy.stream source Stream.never).result.mapError .stream

def fingerprint (n : Notary) (id : String) (log : List Event) : Except Error Digest :=
  (Run.fingerprint n.policy.run id log).mapError .run

def fingerprintText (n : Notary) (id : String) (log : Bytes) : Except Error Digest := do
  n.fingerprint id (← (Run.readLog log).mapError .run)

def verifyRun (n : Notary) (id : String) (log : List Event) (stored : Digest) :
    Except Error Run.Verdict :=
  (n.fingerprint id log).map (Run.Verdict.judge stored)

def compareRuns (n : Notary) (id : String) (stored replayed : List Event) :
    Except Error Run.Comparison :=
  (Run.compareLogs n.policy.run id stored replayed).mapError .run

end Notary
end Attest
