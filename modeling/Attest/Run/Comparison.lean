import Attest.Canonical.Difference
import Attest.Run.Fingerprint

namespace Attest.Run

structure Comparison where
  verdict : Verdict
  divergence : Option Nat
  differences : List Difference
deriving DecidableEq, Repr

/-- The first position at which two lists do not have the same item. -/
def firstDivergence [DecidableEq α] : (as bs : List α) → Option Nat
  | [], [] => none
  | a :: as, b :: bs => if a = b then (firstDivergence as bs).map (· + 1) else some 0
  | _, _ => some 0

def differencesAt (as bs : List Canonical) (i : Nat) : List Difference :=
  match as[i]?, bs[i]? with
  | some a, some b => Difference.between a b
  | _, _ => []

def compareLogs (rules : RunRules) (id : String) (stored replayed : List Event) :
    Except Error Comparison := do
  let a ← canonicalEvents rules stored
  let b ← canonicalEvents rules replayed
  let expected ← fingerprint rules id stored
  let actual ← fingerprint rules id replayed
  let verdict := Verdict.judge expected actual
  if verdict.isVerified then return ⟨verdict, none, []⟩
  let divergence := firstDivergence a b
  return ⟨verdict, divergence, divergence.elim [] (differencesAt a b)⟩

def Comparison.toJson (c : Comparison) : Json := .ofMembers <|
  [("verdict", c.verdict.toJson)] ++
    Json.member? "first_divergent_index" (c.divergence.map fun i => .ofInt i) ++
    if c.differences.isEmpty then []
    else [("diff", .array (c.differences.map Difference.toJson))]

end Attest.Run
