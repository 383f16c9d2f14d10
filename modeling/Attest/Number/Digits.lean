import Attest.Text.Utf8

namespace Attest

abbrev Digit := Fin 10

namespace Digits

def value (ds : List Digit) : Nat := ds.foldl (fun n d => 10 * n + d.val) 0

def lastOf : (k n : Nat) → List Digit
  | 0, _ => []
  | k + 1, n => lastOf k (n / 10) ++ [⟨n % 10, Nat.mod_lt _ (by decide)⟩]

def count (n : Nat) : Nat := (Nat.toDigits 10 n).length

def chars (ds : List Digit) : List Char := ds.map fun d => .ofNat (48 + d.val)

def ofByte? (b : UInt8) : Option Digit :=
  if h : 48 ≤ b.toNat ∧ b.toNat < 58 then some ⟨b.toNat - 48, by omega⟩ else none

def split : (bytes : Bytes) → List Digit × Bytes
  | [] => ([], [])
  | b :: rest =>
    match ofByte? b with
    | some d => let (ds, rest) := split rest; (d :: ds, rest)
    | none => ([], b :: rest)

end Digits
end Attest
