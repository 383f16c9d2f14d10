import Attest.Number.Binary

namespace Attest

structure Double where
  bits : UInt64
deriving DecidableEq, Repr

namespace Double

def decode (x : Double) : FloatValue := binary64.decode x.bits.toNat

def ofMagnitude (negative : Bool) (m : Magnitude) : Double := ⟨.ofNat (binary64.encode negative m)⟩

def magnitudeBits (x : Double) : Nat := x.bits.toNat % Nat.pow 2 63

def isNegative (x : Double) : Bool := Nat.pow 2 63 ≤ x.bits.toNat

def isNaN (x : Double) : Bool := 0x7FF0000000000000 < x.magnitudeBits

/-- Orders the numbers by value: a pattern grows with the magnitude it stands for. -/
def valueKey (x : Double) : Int := if x.isNegative then -(x.magnitudeBits : Int) else x.magnitudeBits

def patternKey (x : Double) : Int :=
  if x.isNegative then -(x.magnitudeBits : Int) - 1 else x.magnitudeBits

/-- Numbers compare by value, the two zeros alike; as soon as a NaN is among them, the patterns are compared,
negative ones first and backwards. -/
def order (x y : Double) : Ordering :=
  if x.isNaN || y.isNaN then compare x.patternKey y.patternKey else compare x.valueKey y.valueKey

end Double
end Attest
