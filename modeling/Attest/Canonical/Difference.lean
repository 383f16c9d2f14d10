import Attest.Canonical.Basic
import Attest.Json.Record

namespace Attest

inductive Difference.Reason where
  | valueMismatch
  | typeMismatch
  | missingInA
  | missingInB
  | lengthMismatch
deriving DecidableEq, Repr

namespace Difference.Reason

def name : Reason → String
  | .valueMismatch => "value_mismatch"
  | .typeMismatch => "type_mismatch"
  | .missingInA => "missing_in_a"
  | .missingInB => "missing_in_b"
  | .lengthMismatch => "length_mismatch"

def phrase : Reason → String
  | .valueMismatch => "value mismatch"
  | .typeMismatch => "type mismatch"
  | .missingInA => "missing in A"
  | .missingInB => "missing in B"
  | .lengthMismatch => "length mismatch"

def all : List Reason := [.valueMismatch, .typeMismatch, .missingInA, .missingInB, .lengthMismatch]

def decoder : Json.Decoder Reason := .name (all.map fun reason => (reason.name, reason))

end Difference.Reason

structure Difference where
  path : String
  a : Option Canonical
  b : Option Canonical
  reason : Difference.Reason
deriving DecidableEq, Repr

inductive Step where
  | key (name : String)
  | index (i : Nat)
deriving DecidableEq, Repr

abbrev Location := List Step

namespace Location

/-- A key follows a point, except behind an empty path; an index stands in brackets. -/
def extend (path : String) : Step → String
  | .key name => if path.isEmpty then name else path ++ "." ++ name
  | .index i => s!"{path}[{i}]"

def path (l : Location) : String := l.foldl extend ""

end Location

namespace Difference

def entry (l : Location) (a b : Option Canonical) (reason : Reason) : Location × Difference :=
  (l, ⟨l.path, a, b, reason⟩)

def onlyInA (l : Location) (member : String × Canonical) : Location × Difference :=
  entry (l ++ [.key member.1]) (some member.2) none .missingInB

def onlyInB (l : Location) (member : String × Canonical) : Location × Difference :=
  entry (l ++ [.key member.1]) none (some member.2) .missingInA

def ofParts (l : Location) (a b : Canonical) : List (Location × Difference) :=
  if a.typeName ≠ b.typeName then [entry l (some a) (some b) .typeMismatch]
  else if a ≠ b then [entry l (some a) (some b) .valueMismatch]
  else []

def ofLengths (l : Location) (a b : Nat) : List (Location × Difference) :=
  if a = b then [] else [entry l (some (.ofInt a)) (some (.ofInt b)) .lengthMismatch]

mutual

/-- The differences of the parts at a location, each with its own location. -/
def locate (l : Location) : (a b : Canonical) → List (Location × Difference)
  | .object as, .object bs => locateMembers l as bs
  | .array as, .array bs => ofLengths l as.length bs.length ++ locateItems l 0 as bs
  | a, b => ofParts l a b

def locateItems (l : Location) (i : Nat) : (as bs : List Canonical) → List (Location × Difference)
  | a :: as, b :: bs => locate (l ++ [.index i]) a b ++ locateItems l (i + 1) as bs
  | _, _ => []

def locateMembers (l : Location) :
    (as bs : List (String × Canonical)) → List (Location × Difference)
  | [], bs => bs.map (onlyInB l)
  | (key, a) :: as, bs =>
    (bs.takeWhile (·.1 < key)).map (onlyInB l) ++
      match bs.dropWhile (·.1 < key) with
      | [] => onlyInA l (key, a) :: locateMembers l as []
      | (other, b) :: bs =>
        if other = key then locate (l ++ [.key key]) a b ++ locateMembers l as bs
        else onlyInA l (key, a) :: locateMembers l as ((other, b) :: bs)

end

/-- All differences, in the order of the walk. -/
def between (a b : Canonical) : List Difference := (locate [] a b).map Prod.snd

def toJson (d : Difference) : Json :=
  .ofMembers <| [("path", .string d.path), ("reason", .string d.reason.name)] ++
    Json.member? "a" (d.a.map Canonical.toJson) ++ Json.member? "b" (d.b.map Canonical.toJson)

open Json in
def fields (side : Decoder Canonical) : List (Record.Field Difference) := [
  .mandatory "path" .string fun path d => { d with path },
  .optional "a" [] (.optional side) fun a d => { d with a },
  .optional "b" [] (.optional side) fun b d => { d with b },
  .mandatory "reason" Reason.decoder fun reason d => { d with reason }]

def decoderOf (side : Json.Decoder Canonical) : Json.Decoder Difference :=
  Json.Record.decode (fields side) ⟨"", none, none, .valueMismatch⟩

def decoder : Json.Decoder Difference := decoderOf Canonical.decoder

end Difference
end Attest
