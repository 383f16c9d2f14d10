import Mathlib.Data.Nat.Cast.Field
import Mathlib.Tactic.Ring
import Attest.Number.Decimal
import Attest.Proofs.Number.Rounding

namespace Attest

namespace Decimal

def value (d : Decimal) : ℚ := d.digits * 10 ^ d.exponent

variable {f : BinaryFormat} {x : Magnitude} (tie : Tie)

theorem floor_grid (x : Magnitude) (unit : Int) :
    x.numerator * Nat.pow 10 (-unit).toNat / (x.denominator * Nat.pow 10 unit.toNat) =
      ⌊x.value / 10 ^ unit⌋₊ := by
  have quotient := cast_div_zpow 10 x.numerator x.denominator unit
  rw [Nat.cast_ofNat, x.numerator_div_denominator] at quotient
  rw [← quotient, Nat.floor_div_eq_div]

theorem of_onGrid? {unit : Int} {n : Nat} (found : onGrid? f tie x unit = some n) :
    f.roundDecimal n unit = some x ∧ n ≤ ⌊x.value / 10 ^ unit⌋₊ + 1 := by
  unfold onGrid? at found
  dsimp only at found
  rw [floor_grid] at found
  split at found
  · rename_i low
    split at found
    · rename_i high
      split at found
      · cases found
        exact ⟨low, Nat.le_succ _⟩
      · split at found
        · cases found
          exact ⟨high, le_rfl⟩
        · cases tie with
          | upward =>
            cases found
            exact ⟨high, le_rfl⟩
          | toEven =>
            cases found
            split
            · exact ⟨low, Nat.le_succ _⟩
            · exact ⟨high, le_rfl⟩
    · cases found
      exact ⟨low, Nat.le_succ _⟩
  · split at found
    · rename_i high
      cases found
      exact ⟨high, le_rfl⟩
    · cases found

/-- On a grid fine enough for the binary expansion to end, the next multiple below is the magnitude
itself. -/
theorem floor_mul_unit {unit : Int} (whole : unit ≤ 0) (fine : unit ≤ x.power) :
    ((x.numerator * Nat.pow 10 (-unit).toNat / (x.denominator * Nat.pow 10 unit.toNat) : Nat) : ℚ) *
      10 ^ unit = x.value := by
  have noWhole : unit.toNat = 0 := by omega
  have divides : x.denominator * Nat.pow 10 unit.toNat ∣ x.numerator * Nat.pow 10 (-unit).toNat := by
    rw [noWhole, Magnitude.denominator]
    simp only [Nat.pow_eq, pow_zero, mul_one]
    have two : 2 ^ (-x.power).toNat ∣ 2 ^ (-unit).toNat := Nat.pow_dvd_pow 2 (by omega)
    have ten : 2 ^ (-unit).toNat ∣ 10 ^ (-unit).toNat := pow_dvd_pow_of_dvd (by decide) _
    exact (two.trans ten).trans (Nat.dvd_mul_left _ _)
  have divisor : ((x.denominator * Nat.pow 10 unit.toNat : Nat) : ℚ) ≠ 0 :=
    Nat.cast_ne_zero.mpr (Nat.mul_ne_zero x.denominator_ne_zero (Nat.pow_pos (by decide)).ne')
  rw [Nat.cast_div divides divisor, cast_div_zpow, x.numerator_div_denominator, Nat.cast_ofNat]
  exact div_mul_cancel₀ _ (zpow_ne_zero _ (by norm_num))

theorem roundRat_searchFrom (regular : f.Regular) (fits : x.Fits f) (steps : Nat) {unit : Int}
    (whole : unit - steps ≤ 0) (fine : unit - steps ≤ x.power) :
    f.roundRat (searchFrom f tie x steps unit).value = some x := by
  induction steps generalizing unit with
  | zero =>
    rw [searchFrom, value, floor_mul_unit (by simpa using whole) (by simpa using fine)]
    exact BinaryFormat.roundRat_value fits
  | succ steps ih =>
    rw [searchFrom]
    cases found : onGrid? f tie x unit with
    | some n =>
      have reads := (of_onGrid? tie found).1
      rwa [BinaryFormat.roundDecimal_eq regular] at reads
    | none => exact ih (by omega) (by omega)

theorem stripZeros_value (steps : Nat) (d : Decimal) : (stripZeros steps d).value = d.value := by
  induction steps generalizing d with
  | zero => rfl
  | succ steps ih =>
    rw [stripZeros]
    split
    · rename_i zero
      have digits : d.digits = 10 * (d.digits / 10) := by omega
      rw [ih, value, value]
      dsimp only
      rw [zpow_add_one₀ (by norm_num : (10 : ℚ) ≠ 0)]
      conv_rhs => rw [digits, Nat.cast_mul, Nat.cast_ofNat]
      ring
    · rfl

theorem log_value_sub_le (regular : f.Regular) (fits : x.Fits f) (nonzero : x.significand ≠ 0) :
    Int.log 10 x.value - (f.precision + f.least.natAbs : Nat) ≤ 0 ∧
      Int.log 10 x.value - (f.precision + f.least.natAbs : Nat) ≤ x.power := by
  have least := regular.least_le
  have balanced := regular.balanced
  have low := fits.least_le
  have high := fits.le_greatest
  have positive := Magnitude.value_pos nonzero
  by_cases small : Int.log 10 x.value ≤ 0
  · omega
  · have bound : (2 : ℚ) ^ (3 * Int.log 10 x.value) < 2 ^ ((f.precision : Int) + x.power) :=
      calc (2 : ℚ) ^ (3 * Int.log 10 x.value) ≤ 10 ^ Int.log 10 x.value :=
            BinaryFormat.le_ten_zpow (by omega)
        _ ≤ x.value := Int.zpow_log_le_self (by decide) positive
        _ < 2 ^ ((f.precision : Int) + x.power) := fits.value_lt
    have := (zpow_lt_zpow_iff_right₀ one_lt_two).mp bound
    omega

theorem shortest_eq (nonzero : x.significand ≠ 0) : shortest f tie x =
    let d := searchFrom f tie x (f.precision + f.least.natAbs) (Int.log 10 x.value)
    stripZeros (Digits.count d.digits) d := by
  have numerator : x.numerator ≠ 0 := Nat.mul_ne_zero nonzero (Nat.pow_pos (by decide)).ne'
  rw [shortest, floorLog10_eq numerator x.denominator_ne_zero, x.numerator_div_denominator]

theorem roundRat_shortest (regular : f.Regular) (fits : x.Fits f) (nonzero : x.significand ≠ 0) :
    f.roundRat (shortest f tie x).value = some x := by
  obtain ⟨whole, fine⟩ := log_value_sub_le regular fits nonzero
  rw [shortest_eq tie nonzero, stripZeros_value]
  exact roundRat_searchFrom tie regular fits _ whole fine

end Decimal

theorem Exponent.value_ofInt (n : Int) : (Exponent.ofInt n).value = n := by
  obtain ⟨d, ds, digits, -⟩ := Digits.lastOf_count_eq_cons n.natAbs
  have value := Digits.value_lastOf_count n.natAbs
  rw [digits] at value
  simp only [Exponent.ofInt, Exponent.value, digits, value]
  split
  · rename_i negative
    have := of_decide_eq_true negative
    omega
  · rename_i nonneg
    have := of_decide_eq_false (Bool.not_eq_true _ ▸ nonneg)
    omega

namespace Literal

def magnitude (l : Literal) : ℚ := l.significand * 10 ^ l.scale

def value (l : Literal) : ℚ := if l.negative then -l.magnitude else l.magnitude

theorem round_eq {f : BinaryFormat} (regular : f.Regular) (l : Literal) :
    l.round f = f.roundRat l.magnitude := BinaryFormat.roundDecimal_eq regular _ _

theorem fits_of_round {f : BinaryFormat} (regular : f.Regular) {l : Literal} {x : Magnitude}
    (rounds : l.round f = some x) : x.Fits f := by
  rw [round_eq regular] at rounds
  apply BinaryFormat.roundRat_fits regular _ rounds
  exact mul_nonneg (Nat.cast_nonneg _) (zpow_pos (by norm_num) _).le

theorem significand_point (negative : Bool) (places n : Nat) (e : Option Exponent) :
    significand ⟨negative, n / Nat.pow 10 places, Digits.lastOf places n, e⟩ = n := by
  rw [significand, Digits.length_lastOf, Digits.value_lastOf]
  exact Nat.div_add_mod' n _

theorem scale_point (negative : Bool) (places whole n : Nat) (e : Option Exponent) :
    scale ⟨negative, whole, Digits.lastOf places n, e⟩ = (e.map Exponent.value).getD 0 - places := by
  rw [scale, Digits.length_lastOf]

theorem magnitude_literal (negative : Bool) (d : Decimal) :
    (d.literal negative).magnitude = d.value := by
  have count := Digits.count_pos d.digits
  unfold Decimal.literal
  dsimp only
  split
  · rename_i whole
    obtain ⟨k, exponent⟩ := Int.eq_ofNat_of_zero_le whole.1
    have scale : scale ⟨negative, d.digits * Nat.pow 10 d.exponent.toNat, [], none⟩ = 0 := rfl
    have significand : significand ⟨negative, d.digits * Nat.pow 10 d.exponent.toNat, [], none⟩ =
        d.digits * 10 ^ k := by
      rw [exponent]
      exact Nat.mul_one _
    rw [magnitude, scale, significand, Decimal.value, exponent]
    simp
  · split
    · rename_i point
      have places : (0 : Int) - (-d.exponent).toNat = d.exponent := by omega
      rw [magnitude, significand_point, scale_point, Decimal.value]
      exact congrArg (fun e : Int => (d.digits : ℚ) * 10 ^ e) places
    · have places : d.exponent + Digits.count d.digits - 1 - (Digits.count d.digits - 1 : Nat) =
          d.exponent := by omega
      rw [magnitude, significand_point, scale_point, Option.map_some, Option.getD_some,
        Exponent.value_ofInt, places, Decimal.value]

theorem round_ofMagnitude {f : BinaryFormat} (regular : f.Regular) (tie : Tie) (negative : Bool)
    {x : Magnitude} (fits : x.Fits f) : (ofMagnitude f tie negative x).round f = some x := by
  rw [round_eq regular, ofMagnitude]
  by_cases zero : x.significand = 0
  · have value : x.value = 0 := by rw [Magnitude.value, zero, Nat.cast_zero, zero_mul]
    have denotes : (ofInt 0).magnitude = x.value := by
      rw [value]
      exact zero_mul _
    rw [if_pos zero, denotes, BinaryFormat.roundRat_value fits]
  · rw [if_neg zero, magnitude_literal, Decimal.roundRat_shortest tie regular fits zero]

end Literal
end Attest
