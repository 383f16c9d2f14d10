import Attest.Text.Utf8
import Attest.Text.Quote

namespace Attest.Hex

def digit (n : Nat) : Char := .ofNat (if n < 10 then 48 + n else 87 + n)

def encodeByte (b : UInt8) : List Char := [digit (b.toNat / 16), digit (b.toNat % 16)]

def encode (bytes : Bytes) : String := String.ofList (bytes.flatMap encodeByte)

def value? (b : UInt8) : Option Nat :=
  let n := b.toNat
  if 48 ≤ n ∧ n ≤ 57 then some (n - 48)
  else if 97 ≤ n ∧ n ≤ 102 then some (n - 87)
  else if 65 ≤ n ∧ n ≤ 70 then some (n - 55)
  else none

inductive Fault where
  | oddLength
  | badByte (byte : UInt8) (index : Nat)
deriving DecidableEq, Repr

/-- A byte that is no digit is shown as the character of that number. -/
def Fault.message : Fault → String
  | .oddLength => "Odd number of digits"
  | .badByte byte index => s!"Invalid character {Quote.char (.ofNat byte.toNat)} at position {index}"

def valueAt (index : Nat) (b : UInt8) : Except Fault Nat :=
  match value? b with
  | some n => .ok n
  | none => .error (.badByte b index)

def decodeFrom (index : Nat) : Bytes → Except Fault Bytes
  | [] => .ok []
  | [_] => .error .oddLength
  | a :: b :: rest => do
    let high ← valueAt index a
    let low ← valueAt (index + 1) b
    let bytes ← decodeFrom (index + 2) rest
    return .ofNat (16 * high + low) :: bytes

/-- An odd number of bytes is refused before any of them is looked at. -/
def decode (s : String) : Except Fault Bytes :=
  let digits := Utf8.encode s
  if digits.length % 2 = 0 then decodeFrom 0 digits else .error .oddLength

end Attest.Hex
