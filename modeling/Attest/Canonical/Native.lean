import Attest.Canonical.Basic
import Attest.Number.Double

namespace Attest

def Literal.ofDouble? (x : Double) : Option Literal :=
  match x.decode with
  | .finite negative m => some (.ofMagnitude binary64 .upward negative m)
  | _ => none

def Literal.toDouble? (l : Literal) : Option Double :=
  (l.round binary64).map (Double.ofMagnitude l.negative)

namespace Canonical

/-- The number that spells an integer, if a double can hold it safely. -/
def safeInteger? (n : Int) : Option Literal :=
  if maxSafeInteger < n.natAbs then none else some (.ofInt n)

def ofDouble (x : Double) : Canonical :=
  match Literal.ofDouble? x with
  | some l => settle l
  | none => .null

end Canonical

namespace Json

/-- A single-precision number is spelled with the digits that tell it apart from its neighbours in
single precision; of two equally near spellings the even one is taken. -/
def ofSingle (bits : UInt32) : Json :=
  match binary32.decode bits.toNat with
  | .finite negative m => .number (.ofMagnitude binary32 .toEven negative m)
  | _ => .null

inductive KeyFault where
  | notText
deriving DecidableEq, Repr

def KeyFault.message : KeyFault → String
  | .notText => "serialization error: key must be a string"

def ofPairs (pairs : List (Json × Json)) : Except KeyFault Json := do
  let members ← pairs.mapM fun (key, value) =>
    match key.keyText? with
    | some text => .ok (text, value)
    | none => .error .notText
  return ofMembers members

inductive ConversionFault where
  | key (fault : KeyFault)
  | number
deriving DecidableEq, Repr

def ConversionFault.message : ConversionFault → String
  | .key fault => fault.message
  | .number => "serialization error: <json>"

mutual

/-- A value put together anew, its numbers from their texts and its objects as maps. -/
def converted : Json → Except ConversionFault Json
  | .number l =>
    match Literal.ofText? l.text with
    | some l => .ok (.number l)
    | none => .error .number
  | .array items => do return .array (← convertedItems items)
  | .object members => do (ofPairs (← convertedMembers members)).mapError .key
  | plain => .ok plain

def convertedItems : List Json → Except ConversionFault (List Json)
  | [] => .ok []
  | item :: items => do
    let item ← converted item
    return item :: (← convertedItems items)

def convertedMembers : List (String × Json) → Except ConversionFault (List (Json × Json))
  | [] => .ok []
  | (key, value) :: members => do
    let value ← converted value
    return (.string key, value) :: (← convertedMembers members)

end

def convertedBytes (j : Json) : Except ConversionFault Bytes := do
  return (← j.converted).canonicalBytes

end Json
end Attest
