import Attest.Number.Double
import Attest.Proofs.Number.Exact

namespace Attest

theorem nearestEven_le_add_half {q : ℚ} (nonneg : 0 ≤ q) : (nearestEven q : ℚ) ≤ q + 1 / 2 := by
  have floor := Nat.floor_le nonneg
  unfold nearestEven
  split
  · linarith
  · rename_i up
    have half : 1 / 2 ≤ q - ⌊q⌋₊ := by
      by_contra less
      exact up (.inl (lt_of_not_ge less))
    push_cast
    linarith

theorem Magnitude.floor_eq (x : Magnitude) : x.floor = ⌊x.value⌋₊ := by
  rw [floor, ← numerator_div_denominator, Nat.floor_div_eq_div]

namespace BinaryFormat

variable {f : BinaryFormat} {q : ℚ} {x : Magnitude}

theorem decode_fields {field fraction : Nat} (small : fraction < f.hidden) (finite : field + 1 < f.fields)
    (negative : Bool) :
    f.decode ((if negative then f.fields * f.hidden else 0) + (field * f.hidden + fraction)) =
      .finite negative (if field = 0 then ⟨fraction, f.least⟩ else ⟨f.hidden + fraction, f.least + field - 1⟩) := by
  have hidden := f.hidden_pos
  have fields : 0 < f.fields := by omega
  have whole : (if negative then f.fields * f.hidden else 0) + (field * f.hidden + fraction) =
      f.hidden * (f.fields * negative.toNat + field) + fraction := by
    cases negative
    · simp only [Bool.false_eq_true, if_false, Bool.toNat_false]
      ring
    · simp only [if_true, Bool.toNat_true]
      ring
  have sign : (negative.toNat % 2 == 1) = negative := by cases negative <;> rfl
  unfold decode
  rw [whole, Nat.mul_add_mod, Nat.mod_eq_of_lt small, Nat.mul_add_div hidden, Nat.div_eq_of_lt small,
    Nat.add_zero, Nat.mul_add_mod, Nat.mod_eq_of_lt (by omega), Nat.mul_add_div fields,
    Nat.div_eq_of_lt (by omega), Nat.add_zero, sign]
  dsimp only
  rw [if_neg finite.ne]
  split <;> rfl

section

variable (regular : f.Regular)

include regular

theorem unitPower_le (normal : 2 ^ (f.least + ((f.precision - 1 : Nat) : Int)) ≤ q) :
    2 ^ (f.precision - 1) * 2 ^ f.unitPower q ≤ q := by
  have positive : 0 < q := (zpow_pos two_pos _).trans_le normal
  rcases unitPower_eq_or_le_div regular positive with least | large
  · rw [least, mul_comm, ← zpow_natCast, ← zpow_add₀ two_ne_zero]
    exact normal
  · exact (le_div_iff₀ (zpow_pos two_pos _)).mp large

/-- Rounding adds at most half a unit, which is as small a part as the significand has digits for. -/
theorem value_le_of_roundRat (normal : 2 ^ (f.least + ((f.precision - 1 : Nat) : Int)) ≤ q)
    (rounds : f.roundRat q = some x) : x.value ≤ q * (1 + 1 / 2 ^ f.precision) := by
  have positive : 0 < q := (zpow_pos two_pos _).trans_le normal
  have unit : (0 : ℚ) < 2 ^ f.unitPower q := zpow_pos two_pos _
  have small := unitPower_le regular normal
  obtain ⟨k, more⟩ : ∃ k, f.precision = k + 1 := ⟨f.precision - 1, by have := regular.precision_pos; omega⟩
  rw [more, Nat.add_sub_cancel] at small
  have half : (2 : ℚ) ^ f.unitPower q / 2 ≤ q / 2 ^ f.precision := by
    rw [more, pow_succ, div_le_div_iff₀ two_pos (by positivity)]
    linarith
  calc x.value = nearestEven (q / 2 ^ f.unitPower q) * 2 ^ f.unitPower q :=
        value_of_roundRat regular positive.ne' rounds
    _ ≤ (q / 2 ^ f.unitPower q + 1 / 2) * 2 ^ f.unitPower q :=
        mul_le_mul_of_nonneg_right (nearestEven_le_add_half (div_nonneg positive.le unit.le)) unit.le
    _ = q + 2 ^ f.unitPower q / 2 := by rw [add_mul, div_mul_cancel₀ _ unit.ne']; ring
    _ ≤ q + q / 2 ^ f.precision := by linarith
    _ = q * (1 + 1 / 2 ^ f.precision) := by ring

theorem roundRat_dyadic {n : Nat} {e : Int} (small : n < 2 ^ f.precision) (least : f.least ≤ e)
    (greatest : e < f.greatest) : ∃ y, f.roundRat (n * 2 ^ e) = some y ∧ y.value = n * 2 ^ e := by
  by_cases zero : n = 0
  · refine ⟨f.zero, if_pos (by rw [zero, Nat.cast_zero, zero_mul]), ?_⟩
    rw [zero, Nat.cast_zero, zero_mul]
    exact zero_mul _
  · have unit (z : Int) : (0 : ℚ) < 2 ^ z := zpow_pos two_pos z
    have positive : (0 : ℚ) < n * 2 ^ e := mul_pos (Nat.cast_pos.mpr (Nat.pos_of_ne_zero zero)) (unit e)
    have below : (n * 2 ^ e : ℚ) < 2 ^ ((f.precision : Int) + e) := by
      rw [zpow_add₀ two_ne_zero, zpow_natCast]
      apply mul_lt_mul_of_pos_right _ (unit e)
      exact_mod_cast small
    have log := (Int.lt_zpow_iff_log_lt (by decide : 1 < 2) positive).mp (by exact_mod_cast below)
    have fine : f.unitPower (n * 2 ^ e) ≤ e := max_le least (by omega)
    obtain ⟨j, gap⟩ := Int.eq_ofNat_of_zero_le (Int.sub_nonneg_of_le fine)
    have quotient : (n * 2 ^ e : ℚ) / 2 ^ f.unitPower (n * 2 ^ e) = (n * 2 ^ j : Nat) := by
      rw [mul_div_assoc, ← zpow_sub₀ two_ne_zero, gap, zpow_natCast]
      push_cast
      rfl
    obtain ⟨y, rounds⟩ := exists_roundRat (lt_of_le_of_lt fine greatest)
    refine ⟨y, rounds, ?_⟩
    rw [value_of_roundRat regular positive.ne' rounds, quotient, nearestEven_natCast, ← quotient]
    exact div_mul_cancel₀ _ (unit _).ne'

/-- The bits of a magnitude are a field and a fraction, and no field of the values that are not finite. -/
theorem exists_fields (fits : x.Fits f) : ∃ field fraction, f.encodeMagnitude x = field * f.hidden + fraction ∧
    fraction < f.hidden ∧ field + 1 < f.fields ∧
    x = if field = 0 then ⟨fraction, f.least⟩ else ⟨f.hidden + fraction, f.least + field - 1⟩ := by
  have fields : f.fields = (f.greatest - f.least).toNat + 3 := rfl
  have carry := regular.two_pow_precision
  obtain ⟨significand_lt, least_le, le_greatest, normal⟩ := fits
  obtain ⟨significand, power⟩ := x
  dsimp only at significand_lt least_le le_greatest normal
  unfold encodeMagnitude
  dsimp only
  by_cases low : significand < f.hidden
  · obtain rfl : power = f.least := normal.resolve_right (Nat.not_le_of_lt low)
    refine ⟨0, significand, ?_, low, by omega, rfl⟩
    rw [if_pos low, Nat.zero_mul, Nat.zero_add]
  · refine ⟨(power - f.least + 1).toNat, significand - f.hidden, if_neg low, by omega, by omega, ?_⟩
    rw [if_neg (by omega)]
    congr 1 <;> omega

theorem decode_encode (fits : x.Fits f) (negative : Bool) :
    f.decode (f.encode negative x) = .finite negative x := by
  obtain ⟨field, fraction, bits, small, finite, parts⟩ := exists_fields regular fits
  rw [encode, bits, decode_fields small finite, ← parts]

theorem encode_lt (fits : x.Fits f) (negative : Bool) :
    f.encode negative x < 2 * (f.fields * f.hidden) := by
  obtain ⟨field, fraction, bits, small, finite, -⟩ := exists_fields regular fits
  have inside : field * f.hidden + fraction < f.fields * f.hidden :=
    calc field * f.hidden + fraction < (field + 1) * f.hidden := by rw [Nat.succ_mul]; omega
      _ ≤ f.fields * f.hidden := Nat.mul_le_mul_right _ (by omega)
  rw [encode, bits]
  split <;> omega

end

end BinaryFormat

namespace Double

def ofNat (n : Nat) : Double := .ofMagnitude false ((binary64.round n 1).getD binary64.zero)

/-- The product of two doubles that are numbers and not negative, unless it overflows. -/
def times? (x y : Double) : Option Magnitude :=
  match x.decode, y.decode with
  | .finite false a, .finite false b =>
    binary64.round (a.numerator * b.numerator) (a.denominator * b.denominator)
  | _, _ => none

theorem decode_ofMagnitude {x : Magnitude} (fits : x.Fits binary64) (negative : Bool) :
    (ofMagnitude negative x).decode = .finite negative x := by
  have bound := BinaryFormat.encode_lt BinaryFormat.binary64_regular fits negative
  have bits : (ofMagnitude negative x).bits.toNat = binary64.encode negative x := by
    rw [ofMagnitude, UInt64.toNat_ofNat']
    exact Nat.mod_eq_of_lt bound
  rw [decode, bits, BinaryFormat.decode_encode BinaryFormat.binary64_regular fits]

theorem times?_eq {x y : Double} {a b : Magnitude} (left : x.decode = .finite false a)
    (right : y.decode = .finite false b) : x.times? y = binary64.roundRat (a.value * b.value) := by
  rw [times?, left, right]
  dsimp only
  rw [BinaryFormat.round_eq _ _ (Nat.mul_ne_zero a.denominator_ne_zero b.denominator_ne_zero), Nat.cast_mul,
    Nat.cast_mul, mul_div_mul_comm, Magnitude.numerator_div_denominator, Magnitude.numerator_div_denominator]

theorem decode_dyadic {n k : Nat} (small : n < 2 ^ 53) (near : k ≤ 1074) :
    ∃ x, (ofMagnitude false ((binary64.round n (Nat.pow 2 k)).getD binary64.zero)).decode = .finite false x ∧
      x.value = n / 2 ^ k := by
  have least : binary64.least ≤ -(k : Int) := by rw [show binary64.least = -1074 from rfl]; omega
  have greatest : -(k : Int) < binary64.greatest := by rw [show binary64.greatest = 971 from rfl]; omega
  obtain ⟨x, rounds, value⟩ := BinaryFormat.roundRat_dyadic BinaryFormat.binary64_regular small least greatest
  have quotient : (n * 2 ^ (-(k : Int)) : ℚ) = n / 2 ^ k := by rw [zpow_neg, zpow_natCast, div_eq_mul_inv]
  rw [quotient] at rounds value
  have power : Nat.pow 2 k ≠ 0 := (Nat.pow_pos (by decide)).ne'
  have fits := BinaryFormat.roundRat_fits BinaryFormat.binary64_regular (by positivity) rounds
  refine ⟨x, ?_, value⟩
  rw [BinaryFormat.round_eq _ _ power, Nat.pow_eq, Nat.cast_pow, Nat.cast_ofNat, rounds]
  exact decode_ofMagnitude fits false

end Double
end Attest
