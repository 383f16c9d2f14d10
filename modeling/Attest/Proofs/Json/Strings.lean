import Attest.Json.Printer
import Attest.Json.Token
import Attest.Proofs.Text.Utf8

namespace Attest.Json

open Utf8

namespace Piece

theorem bytes?_append_bytes (bs : Bytes) (rest : List Piece) :
    bytes? (bs.map .byte ++ rest) = (bytes? rest).map (bs ++ ·) := by
  induction bs with
  | nil => simp
  | cons b bs ih =>
    rw [List.map_cons, List.cons_append, bytes?, ih, Option.map_map]
    rfl

theorem bytes?_unit {n : Nat} (noSurrogate : ¬ (0xD800 ≤ n ∧ n < 0xE000)) (rest : List Piece) :
    bytes? (.unit n :: rest) = (bytes? rest).map (String.utf8EncodeChar (.ofNat n) ++ ·) := by
  cases rest with
  | nil => simp [bytes?, noSurrogate]
  | cons p rest =>
    cases p with
    | byte b =>
      rw [bytes?, bytes?, if_neg noSurrogate, Option.map_map]
      rfl
    | unit m => rw [bytes?, if_neg (by omega), if_neg (by omega)]

end Piece

def IsPlain (b : UInt8) : Prop := b ≠ 0x22 ∧ b ≠ 0x5C ∧ ¬ b < 0x20

theorem scanString_close (seen : List Piece) (rest : Bytes) :
    scanString seen (0x22 :: rest) = some (seen.reverse, rest) := by
  rw [scanString.eq_def]
  rfl

theorem scanString_byte {b : UInt8} (plain : IsPlain b) (seen : List Piece) (rest : Bytes) :
    scanString seen (b :: rest) = scanString (.byte b :: seen) rest := by
  obtain ⟨quote, backslash, visible⟩ := plain
  rw [scanString.eq_def]
  simp only [quote, backslash, visible, if_false]

theorem scanString_letter (letter : UInt8) {b : UInt8} (known : escaped? letter = some b)
    (noUnit : letter ≠ 0x75) (seen : List Piece) (rest : Bytes) :
    scanString seen (0x5C :: letter :: rest) = scanString (.byte b :: seen) rest := by
  have noQuote : ¬ (0x5C : UInt8) = 0x22 := by decide
  rw [scanString.eq_def]
  simp only [noQuote, noUnit, known, if_false, if_true]

theorem scanString_unit {a b c d : UInt8} {n : Nat} (known : unit? a b c d = some n)
    (seen : List Piece) (rest : Bytes) :
    scanString seen (0x5C :: 0x75 :: a :: b :: c :: d :: rest) =
      scanString (.unit n :: seen) rest := by
  have noQuote : ¬ (0x5C : UInt8) = 0x22 := by decide
  rw [scanString.eq_def]
  simp only [noQuote, known, if_false, if_true]

theorem isPlain_of_mem_encodeChar {c : Char} (quote : c ≠ '"') (backslash : c ≠ '\\')
    (visible : ¬ c.toNat < 0x20) {b : UInt8} (member : b ∈ String.utf8EncodeChar c) : IsPlain b := by
  have different (d : Char) (other : c ≠ d) : c.toNat ≠ d.toNat := fun same =>
    other (Char.toNat_inj.mp same)
  have noQuote : c.toNat ≠ 0x22 := different '"' quote
  have noBackslash : c.toNat ≠ 0x5C := different '\\' backslash
  have value : b.toNat ≠ 0x22 ∧ b.toNat ≠ 0x5C ∧ ¬ b.toNat < 0x20 := by
    by_cases ascii : c.toNat < 0x80
    · rw [encodeChar_of_ascii ascii, List.mem_singleton] at member
      subst member
      rw [UInt8.toNat_ofNat', Nat.mod_eq_of_lt (by omega)]
      exact ⟨noQuote, noBackslash, visible⟩
    · have := toNat_of_mem_encodeChar (by omega) member
      omega
  refine ⟨?_, ?_, ?_⟩
  · rintro rfl
    exact value.1 rfl
  · rintro rfl
    exact value.2.1 rfl
  · intro small
    exact value.2.2 (UInt8.lt_iff_toNat_lt.mp small)

theorem ofChars_quote (s : String) :
    ofChars (quote s) = 0x22 :: (ofChars (s.toList.flatMap escapeChar) ++ [0x22]) := by
  have mark : String.utf8EncodeChar '"' = [0x22] := rfl
  rw [quote, ofChars_append, ofChars_cons, mark]
  rfl

end Attest.Json
