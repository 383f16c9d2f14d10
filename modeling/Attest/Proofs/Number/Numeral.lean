import Attest.Proofs.Number.Literal
import Attest.Proofs.Text.Quote

namespace Attest

def withSign (negative : Bool) (magnitude : Nat) : Int := if negative then -magnitude else magnitude

theorem natAbs_withSign (negative : Bool) (n : Nat) : (withSign negative n).natAbs = n := by
  unfold withSign
  split <;> omega

theorem withSign_natAbs (z : Int) : withSign (z < 0) z.natAbs = z := by
  simp only [withSign, decide_eq_true_eq]
  split <;> omega

theorem withSign_neg_iff {negative : Bool} {n : Nat} (nonzero : n ≠ 0) :
    withSign negative n < 0 ↔ negative = true := by
  unfold withSign
  split
  · rename_i sign
    exact iff_of_true (by omega) sign
  · rename_i sign
    exact iff_of_false (by omega) sign

def signChars (negative : Bool) : List Char := if negative then ['-'] else []

/-- A minus sign in front, if there is one, and what stands behind it. -/
def splitSign : List Char → Bool × List Char
  | '-' :: rest => (true, rest)
  | rest => (false, rest)

theorem splitSign_signChars (negative : Bool) (d : Digit) (ds : List Digit) (rest : List Char) :
    splitSign (signChars negative ++ (Digits.chars (d :: ds) ++ rest)) =
      (negative, Digits.chars (d :: ds) ++ rest) := by
  cases negative with
  | true => rfl
  | false =>
    have digit : ∀ d : Digit, Char.ofNat (48 + d.val) ≠ '-' := by decide
    show splitSign (Char.ofNat (48 + d.val) :: (Digits.chars ds ++ rest)) = _
    unfold splitSign
    split
    · rename_i minus
      exact absurd (List.cons.inj minus).1 (digit d)
    · rfl

theorem toString_withSign (negative : Bool) {n : Nat} (nonzero : n ≠ 0) :
    toString (withSign negative n) = String.ofList (signChars negative ++ Nat.toDigits 10 n) := by
  apply String.toList_injective
  rw [toList_toString_int, natAbs_withSign, String.toList_ofList, signChars]
  simp only [withSign_neg_iff nonzero]

namespace Literal

theorem ofInt_withSign (negative : Bool) {n : Nat} (nonzero : n ≠ 0) :
    ofInt (withSign negative n) = ⟨negative, n, [], none⟩ := by
  have sign : decide (withSign negative n < 0) = negative := by
    rw [Bool.eq_iff_iff, decide_eq_true_iff, withSign_neg_iff nonzero]
  rw [ofInt, natAbs_withSign, sign]

theorem text_ofInt (z : Int) : (ofInt z).text = toString z := by
  apply String.toList_injective
  rw [toList_toString_int, text, String.toList_ofList]
  simp [chars, ofInt]

end Literal

theorem Digits.all_isDigit_chars (ds : List Digit) : (chars ds).all Char.isDigit = true := by
  have digit : ∀ d : Digit, (Char.ofNat (48 + d.val)).isDigit = true := by decide
  simp [chars, digit]

/-- A sign and digits, of which there is at least one; zeros may come first. -/
structure Numeral where
  negative : Bool
  lead : Digit
  more : List Digit
deriving DecidableEq, Repr

namespace Numeral

def digits (n : Numeral) : List Digit := n.lead :: n.more

def value (n : Numeral) : Int := withSign n.negative (Digits.value n.digits)

def chars (n : Numeral) : List Char := signChars n.negative ++ Digits.chars n.digits

def text (n : Numeral) : String := String.ofList n.chars

theorem splitSign_chars (n : Numeral) : splitSign n.chars = (n.negative, Digits.chars n.digits) := by
  have parts := splitSign_signChars n.negative n.lead n.more []
  rwa [List.append_nil] at parts

theorem exists_toString (z : Int) : ∃ n : Numeral, n.chars = (toString z).toList ∧ n.value = z := by
  obtain ⟨d, ds, digits, -⟩ := Digits.lastOf_count_eq_cons z.natAbs
  have magnitude := Digits.value_lastOf_count z.natAbs
  rw [digits] at magnitude
  refine ⟨⟨z < 0, d, ds⟩, ?_, ?_⟩
  · rw [toList_toString_int, Digits.toDigits_eq_chars, digits, chars, signChars]
    simp only [decide_eq_true_eq]
    rfl
  · rw [value, Numeral.digits, magnitude, withSign_natAbs]

end Numeral
end Attest
