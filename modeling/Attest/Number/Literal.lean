import Attest.Number.Digits

namespace Attest

/-- An exponent: its sign and its digits, of which there is at least one. -/
structure Exponent where
  negative : Bool
  lead : Digit
  more : List Digit
deriving DecidableEq, Repr

/-- A literal; without a fraction its list of digits is empty. -/
structure Literal where
  negative : Bool
  whole : Nat
  fraction : List Digit
  exponent : Option Exponent
deriving DecidableEq, Repr

namespace Exponent

def value (e : Exponent) : Int :=
  let n : Int := Digits.value (e.lead :: e.more)
  if e.negative then -n else n

def chars (e : Exponent) : List Char :=
  'e' :: (if e.negative then '-' else '+') :: Digits.chars (e.lead :: e.more)

def ofInt (n : Int) : Exponent :=
  match Digits.lastOf (Digits.count n.natAbs) n.natAbs with
  | d :: ds => ⟨n < 0, d, ds⟩
  | [] => ⟨false, 0, []⟩

end Exponent

namespace Literal

def ofInt (n : Int) : Literal := ⟨n < 0, n.natAbs, [], none⟩

def isInteger (l : Literal) : Bool := l.fraction.isEmpty && l.exponent.isNone

/-- The literal is an integer of 64 bits, signed or unsigned; a zero with a sign is none. -/
def isWord (l : Literal) : Bool :=
  l.isInteger && if l.negative then l.whole != 0 && l.whole ≤ Nat.pow 2 63 else l.whole < Nat.pow 2 64

def chars (l : Literal) : List Char :=
  (if l.negative then ['-'] else []) ++ Nat.toDigits 10 l.whole ++
    (if l.fraction.isEmpty then [] else '.' :: Digits.chars l.fraction) ++
    (l.exponent.map Exponent.chars).getD []

def text (l : Literal) : String := String.ofList l.chars

/-- A literal denotes `significand * 10 ^ scale`, less the sign. -/
def significand (l : Literal) : Nat :=
  l.whole * Nat.pow 10 l.fraction.length + Digits.value l.fraction

def scale (l : Literal) : Int :=
  (l.exponent.map Exponent.value).getD 0 - l.fraction.length

def scanWhole (bytes : Bytes) : Option (Nat × Bytes) :=
  match Digits.split bytes with
  | ([], _) => none
  | (d :: ds, rest) => if d = 0 ∧ ds ≠ [] then none else some (Digits.value (d :: ds), rest)

def scanFraction : Bytes → Option (List Digit × Bytes)
  | [] => some ([], [])
  | b :: rest =>
    if b = 0x2E then
      match Digits.split rest with
      | ([], _) => none
      | (ds, rest) => some (ds, rest)
    else some ([], b :: rest)

def scanSign : Bytes → Bool × Bytes
  | [] => (false, [])
  | b :: rest => if b = 0x2D then (true, rest) else if b = 0x2B then (false, rest) else (false, b :: rest)

/-- An exponent mark announces an optional sign and at least one digit. -/
def scanExponent : Bytes → Option (Option Exponent × Bytes)
  | [] => some (none, [])
  | b :: rest =>
    if b = 0x65 ∨ b = 0x45 then
      let (negative, rest) := scanSign rest
      match Digits.split rest with
      | ([], _) => none
      | (d :: ds, rest) => some (some ⟨negative, d, ds⟩, rest)
    else some (none, b :: rest)

def scanUnsigned (negative : Bool) (bytes : Bytes) : Option (Literal × Bytes) := do
  let (whole, rest) ← scanWhole bytes
  let (fraction, rest) ← scanFraction rest
  let (exponent, rest) ← scanExponent rest
  return (⟨negative, whole, fraction, exponent⟩, rest)

def scan : Bytes → Option (Literal × Bytes)
  | [] => none
  | b :: rest => if b = 0x2D then scanUnsigned true rest else scanUnsigned false (b :: rest)

def ofText? (s : String) : Option Literal :=
  match scan (Utf8.encode s) with
  | some (l, []) => some l
  | _ => none

end Literal
end Attest
