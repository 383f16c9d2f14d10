namespace Attest

abbrev Bytes := List UInt8

namespace Utf8

def encode (s : String) : Bytes := s.toList.flatMap String.utf8EncodeChar

/-- Bytes that are not text: up to `offset` they are. `length` counts the bytes there that cannot
begin a character; it is absent if the input ends inside one. -/
structure Fault where
  offset : Nat
  length : Option Nat
deriving DecidableEq, Repr

def Fault.message (f : Fault) : String :=
  match f.length with
  | some n => s!"invalid utf-8 sequence of {n} bytes from index {f.offset}"
  | none => s!"incomplete utf-8 byte sequence from index {f.offset}"

/-- What a first byte announces: how many bytes follow, the range of the first of them, and the
bits it contributes itself. -/
structure Lead where
  extra : Nat
  low : Nat
  high : Nat
  bits : Nat
deriving DecidableEq, Repr

def lead? (b : Nat) : Option Lead :=
  if b < 0x80 then some ⟨0, 0x80, 0xBF, b⟩
  else if b < 0xC2 then none
  else if b < 0xE0 then some ⟨1, 0x80, 0xBF, b - 0xC0⟩
  else if b < 0xF0 then
    some ⟨2, if b = 0xE0 then 0xA0 else 0x80, if b = 0xED then 0x9F else 0xBF, b - 0xE0⟩
  else if b < 0xF5 then
    some ⟨3, if b = 0xF0 then 0x90 else 0x80, if b = 0xF4 then 0x8F else 0xBF, b - 0xF0⟩
  else none

/-- Reads the bytes of one character, of which `extra` are still to come, the next between `low`
and `high`. `taken` counts those read. -/
def continued (extra low high value taken : Nat) : Bytes → Except (Option Nat) (Nat × Bytes)
  | [] => if extra = 0 then .ok (value, []) else .error none
  | b :: rest =>
    if extra = 0 then .ok (value, b :: rest)
    else if low ≤ b.toNat ∧ b.toNat ≤ high then
      continued (extra - 1) 0x80 0xBF (value * 64 + (b.toNat - 0x80)) (taken + 1) rest
    else .error (some taken)

def first : Bytes → Except (Option Nat) (Char × Bytes)
  | [] => .error none
  | b :: rest =>
    match lead? b.toNat with
    | none => .error (some 1)
    | some l => (continued l.extra l.low l.high l.bits 1 rest).map fun (n, rest) => (.ofNat n, rest)

/-- Reads characters until the bytes end; `steps` bounds their number, `seen` holds them last to
first. -/
def decodeFrom : (steps : Nat) → (total : Nat) → List Char → Bytes → Except Fault (List Char)
  | _, _, seen, [] => .ok seen.reverse
  | 0, total, _, rest => .error ⟨total - rest.length, none⟩
  | steps + 1, total, seen, rest =>
    match first rest with
    | .error length => .error ⟨total - rest.length, length⟩
    | .ok (c, rest) => decodeFrom steps total (c :: seen) rest

def decode (bytes : Bytes) : Except Fault String :=
  (decodeFrom bytes.length bytes.length [] bytes).map String.ofList

end Utf8

namespace Utf16

def unitsOfChar (c : Char) : List UInt16 :=
  let n := c.toNat
  if n < 0x10000 then [.ofNat n]
  else [.ofNat (0xD800 + (n - 0x10000) / 0x400), .ofNat (0xDC00 + (n - 0x10000) % 0x400)]

def units (s : String) : List UInt16 := s.toList.flatMap unitsOfChar

end Utf16
end Attest
