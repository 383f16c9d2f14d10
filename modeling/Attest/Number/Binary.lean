import Attest.Number.Digits

namespace Attest

structure Magnitude where
  significand : Nat
  power : Int
deriving DecidableEq, Repr

/-- Significands lie below `2 ^ precision`, powers between `least` and `greatest`; a significand
below `2 ^ (precision - 1)` has the least power. -/
structure BinaryFormat where
  precision : Nat
  least : Int
  greatest : Int
deriving DecidableEq, Repr

def binary64 : BinaryFormat := ⟨53, -1074, 971⟩

def binary32 : BinaryFormat := ⟨24, -149, 104⟩

namespace Magnitude

def numerator (x : Magnitude) : Nat := x.significand * Nat.pow 2 x.power.toNat

def denominator (x : Magnitude) : Nat := Nat.pow 2 (-x.power).toNat

def floor (x : Magnitude) : Nat := x.numerator / x.denominator

end Magnitude

def divNearestEven (a b : Nat) : Nat :=
  let twice := 2 * (a % b)
  if twice < b ∨ (twice = b ∧ a / b % 2 = 0) then a / b else a / b + 1

def floorLog2 (a b : Nat) : Int :=
  let e := (a.log2 : Int) - b.log2
  if a * Nat.pow 2 (-e).toNat < b * Nat.pow 2 e.toNat then e - 1 else e

def floorLog10 (a b : Nat) : Int :=
  let e := (Digits.count a : Int) - Digits.count b
  if a * Nat.pow 10 (-e).toNat < b * Nat.pow 10 e.toNat then e - 1 else e

inductive FloatValue where
  | nan
  | infinite (negative : Bool)
  | finite (negative : Bool) (magnitude : Magnitude)
deriving DecidableEq, Repr

namespace BinaryFormat

def zero (f : BinaryFormat) : Magnitude := ⟨0, f.least⟩

/-- A significand that rounding carried to `2 ^ precision` is halved. -/
def settle (f : BinaryFormat) (m : Nat) (power : Int) : Magnitude :=
  if m = Nat.pow 2 f.precision then ⟨Nat.pow 2 (f.precision - 1), power + 1⟩ else ⟨m, power⟩

def round (f : BinaryFormat) (a b : Nat) : Option Magnitude :=
  if a = 0 then some f.zero
  else
    let power := max f.least (floorLog2 a b - (f.precision - 1))
    let x := f.settle (divNearestEven (a * Nat.pow 2 (-power).toNat) (b * Nat.pow 2 power.toNat)) power
    if x.power ≤ f.greatest then some x else none

/-- The magnitude nearest to `n * 10 ^ e`. As eight is less than ten, a number with so many places
before or behind the point is out of the format's range, and no power of ten is computed for it. -/
def roundDecimal (f : BinaryFormat) (n : Nat) (e : Int) : Option Magnitude :=
  let places := Digits.count n + e
  if n = 0 ∨ 3 * places < f.least - 1 then some f.zero
  else if f.greatest + f.precision < 3 * (places - 1) then none
  else f.round (n * Nat.pow 10 e.toNat) (Nat.pow 10 (-e).toNat)

def fields (f : BinaryFormat) : Nat := (f.greatest - f.least).toNat + 3

def hidden (f : BinaryFormat) : Nat := Nat.pow 2 (f.precision - 1)

def decode (f : BinaryFormat) (bits : Nat) : FloatValue :=
  let fraction := bits % f.hidden
  let field := bits / f.hidden % f.fields
  let negative := bits / f.hidden / f.fields % 2 == 1
  if field = 0 then .finite negative ⟨fraction, f.least⟩
  else if field + 1 = f.fields then if fraction = 0 then .infinite negative else .nan
  else .finite negative ⟨f.hidden + fraction, f.least + field - 1⟩

def encodeMagnitude (f : BinaryFormat) (x : Magnitude) : Nat :=
  if x.significand < f.hidden then x.significand
  else (x.power - f.least + 1).toNat * f.hidden + (x.significand - f.hidden)

def encode (f : BinaryFormat) (negative : Bool) (x : Magnitude) : Nat :=
  (if negative then f.fields * f.hidden else 0) + f.encodeMagnitude x

end BinaryFormat
end Attest
