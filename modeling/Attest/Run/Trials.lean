import Attest.Hash.Digest

namespace Attest.Trials

inductive Error where
  | tooFew (trials : Nat)
  | failed (trial : Nat) (reason : String)
  | drifted (trial : Nat) (expected actual : Digest)
deriving DecidableEq, Repr

def Error.message : Error → String
  | .tooFew trials => s!"determinism check requires at least 2 trials, got {trials}"
  | .failed trial reason => s!"trial {trial} failed: {reason}"
  | .drifted trial expected actual =>
    s!"nondeterminism detected at trial {trial}: expected {expected.hex}, got {actual.hex}"

abbrev Trial (σ : Type) := (number : Nat) → StateM σ (Except String Digest)

/-- Runs `count` trials from `number` on, which all have to give `expected`. -/
def follow (trial : Trial σ) (expected : Digest) : (count number : Nat) →
    StateM σ (Except Error Digest)
  | 0, _ => pure (.ok expected)
  | count + 1, number => do
    match ← trial number with
    | .error reason => pure (.error (.failed number reason))
    | .ok actual =>
      if actual = expected then follow trial expected count (number + 1)
      else pure (.error (.drifted number expected actual))

/-- The digest that all trials give. The first trial that fails or gives another one is the last. -/
def run (trial : Trial σ) (count : Nat) : StateM σ (Except Error Digest) :=
  if count < 2 then pure (.error (.tooFew count))
  else do
    match ← trial 0 with
    | .error reason => pure (.error (.failed 0 reason))
    | .ok first => follow trial first (count - 1) 1

end Attest.Trials
