import Attest.Number.Literal
import Attest.Text.Hex

namespace Attest.Json

inductive Token where
  | beginArray
  | endArray
  | beginObject
  | endObject
  | colon
  | comma
  | null
  | bool (b : Bool)
  | number (literal : Literal)
  | string (text : Option String)
  | bad
deriving DecidableEq, Repr

/-- What a string is spelled with: bytes, and UTF-16 units written as escapes. -/
inductive Piece where
  | byte (b : UInt8)
  | unit (n : Nat)
deriving DecidableEq, Repr

namespace Piece

/-- The bytes that the pieces spell. A unit for half a pair needs its other half right behind it. -/
def bytes? : List Piece → Option Bytes
  | [] => some []
  | .byte b :: rest => (bytes? rest).map (b :: ·)
  | [.unit n] =>
    if 0xD800 ≤ n ∧ n < 0xE000 then none else some (String.utf8EncodeChar (.ofNat n))
  | .unit n :: .byte b :: rest =>
    if 0xD800 ≤ n ∧ n < 0xE000 then none
    else (bytes? rest).map (String.utf8EncodeChar (.ofNat n) ++ b :: ·)
  | .unit n :: .unit m :: rest =>
    if 0xD800 ≤ n ∧ n < 0xDC00 then
      if 0xDC00 ≤ m ∧ m < 0xE000 then
        let c := Char.ofNat (0x10000 + (n - 0xD800) * 0x400 + (m - 0xDC00))
        (bytes? rest).map (String.utf8EncodeChar c ++ ·)
      else none
    else if 0xDC00 ≤ n ∧ n < 0xE000 then none
    else (bytes? (.unit m :: rest)).map (String.utf8EncodeChar (.ofNat n) ++ ·)

def text? (pieces : List Piece) : Option String :=
  (bytes? pieces).bind fun bytes => (Utf8.decode bytes).toOption

end Piece

def escaped? (letter : UInt8) : Option UInt8 :=
  if letter = 0x22 ∨ letter = 0x5C ∨ letter = 0x2F then some letter
  else if letter = 0x62 then some 0x08
  else if letter = 0x66 then some 0x0C
  else if letter = 0x6E then some 0x0A
  else if letter = 0x72 then some 0x0D
  else if letter = 0x74 then some 0x09
  else none

def unit? (a b c d : UInt8) : Option Nat := do
  return (← Hex.value? a) * 0x1000 + (← Hex.value? b) * 0x100 + (← Hex.value? c) * 0x10 + (← Hex.value? d)

/-- The pieces of a string up to its closing quote, after those already `seen`, which are held last
to first. -/
def scanString (seen : List Piece) : Bytes → Option (List Piece × Bytes)
  | [] => none
  | b :: rest =>
    if b = 0x22 then some (seen.reverse, rest)
    else if b = 0x5C then
      match rest with
      | [] => none
      | letter :: rest =>
        if letter = 0x75 then
          match rest with
          | a :: b :: c :: d :: rest =>
            match unit? a b c d with
            | some n => scanString (.unit n :: seen) rest
            | none => none
          | _ => none
        else match escaped? letter with
          | some b => scanString (.byte b :: seen) rest
          | none => none
    else if b < 0x20 then none
    else scanString (.byte b :: seen) rest

namespace Token

def isBlank (b : UInt8) : Bool := b == 0x20 || b == 0x09 || b == 0x0A || b == 0x0D

def afterWord? : (word : List Char) → (bytes : Bytes) → Option Bytes
  | [], bytes => some bytes
  | _ :: _, [] => none
  | c :: word, b :: rest => if b.toNat = c.toNat then afterWord? word rest else none

def next (b : UInt8) (rest : Bytes) : Option (Token × Bytes) :=
  if b = 0x5B then some (.beginArray, rest)
  else if b = 0x5D then some (.endArray, rest)
  else if b = 0x7B then some (.beginObject, rest)
  else if b = 0x7D then some (.endObject, rest)
  else if b = 0x3A then some (.colon, rest)
  else if b = 0x2C then some (.comma, rest)
  else if b = 0x22 then (scanString [] rest).map fun (pieces, rest) => (.string (Piece.text? pieces), rest)
  else if b = 0x6E then (afterWord? ['u', 'l', 'l'] rest).map (.null, ·)
  else if b = 0x74 then (afterWord? ['r', 'u', 'e'] rest).map (.bool true, ·)
  else if b = 0x66 then (afterWord? ['a', 'l', 's', 'e'] rest).map (.bool false, ·)
  else (Literal.scan (b :: rest)).map fun (l, rest) => (.number l, rest)

def scanFrom : (steps : Nat) → Bytes → List Token
  | _, [] => []
  | 0, _ :: _ => [.bad]
  | steps + 1, b :: rest =>
    if isBlank b then scanFrom steps rest
    else match next b rest with
      | some (token, rest) => token :: scanFrom steps rest
      | none => [.bad]

def scan (bytes : Bytes) : List Token := scanFrom bytes.length bytes

end Token
end Attest.Json
