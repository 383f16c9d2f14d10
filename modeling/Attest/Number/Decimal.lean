import Attest.Number.Binary
import Attest.Number.Literal

namespace Attest

structure Decimal where
  digits : Nat
  exponent : Int
deriving DecidableEq, Repr

inductive Tie where
  | upward
  | toEven
deriving DecidableEq, Repr

namespace Decimal

/-- The multiple of `10 ^ unit` that rounds to `x`, if one does: of the two next to `x` the nearer
one. -/
def onGrid? (f : BinaryFormat) (tie : Tie) (x : Magnitude) (unit : Int) : Option Nat :=
  let a := x.numerator * Nat.pow 10 (-unit).toNat
  let b := x.denominator * Nat.pow 10 unit.toNat
  let low := a / b
  let twice := 2 * (a % b)
  let reads n := f.roundDecimal n unit = some x
  if reads low then
    if reads (low + 1) then
      if twice < b then some low
      else if b < twice then some (low + 1)
      else match tie with
        | .upward => some (low + 1)
        | .toEven => some (if low % 2 = 0 then low else low + 1)
    else some low
  else if reads (low + 1) then some (low + 1)
  else none

/-- Tries finer grids from `unit` on, at most `steps` of them; the last is taken as it is. -/
def searchFrom (f : BinaryFormat) (tie : Tie) (x : Magnitude) : (steps : Nat) → (unit : Int) → Decimal
  | 0, unit => ⟨x.numerator * Nat.pow 10 (-unit).toNat / (x.denominator * Nat.pow 10 unit.toNat), unit⟩
  | steps + 1, unit =>
    match onGrid? f tie x unit with
    | some n => ⟨n, unit⟩
    | none => searchFrom f tie x steps (unit - 1)

/-- Zeros at the end of the digits go into the exponent, at most `steps` of them. -/
def stripZeros : (steps : Nat) → Decimal → Decimal
  | 0, d => d
  | steps + 1, d =>
    if d.digits ≠ 0 ∧ d.digits % 10 = 0 then stripZeros steps ⟨d.digits / 10, d.exponent + 1⟩ else d

/-- A finite binary expansion ends in decimal too, after fewer places than `precision - least`. -/
def shortest (f : BinaryFormat) (tie : Tie) (x : Magnitude) : Decimal :=
  let d := searchFrom f tie x (f.precision + f.least.natAbs) (floorLog10 x.numerator x.denominator)
  stripZeros (Digits.count d.digits) d

/-- The literal in which the point stands among the digits as long as at most 21 digits come before
it and at most five zeros between it and the first digit; else an exponent follows one digit and the
fraction. -/
def literal (negative : Bool) (d : Decimal) : Literal :=
  let k := Digits.count d.digits
  let n := d.exponent + k
  if 0 ≤ d.exponent ∧ n ≤ 21 then ⟨negative, d.digits * Nat.pow 10 d.exponent.toNat, [], none⟩
  else if d.exponent < 0 ∧ -6 < n ∧ n ≤ 21 then
    let places := (-d.exponent).toNat
    ⟨negative, d.digits / Nat.pow 10 places, Digits.lastOf places d.digits, none⟩
  else
    ⟨negative, d.digits / Nat.pow 10 (k - 1), Digits.lastOf (k - 1) d.digits, some (.ofInt (n - 1))⟩

end Decimal

def Literal.ofMagnitude (f : BinaryFormat) (tie : Tie) (negative : Bool) (x : Magnitude) : Literal :=
  if x.significand = 0 then .ofInt 0 else (Decimal.shortest f tie x).literal negative

def Literal.round (f : BinaryFormat) (l : Literal) : Option Magnitude :=
  f.roundDecimal l.significand l.scale

end Attest
