import Mathlib.Algebra.Order.Floor.Semifield
import Mathlib.Data.Int.Log
import Mathlib.Data.Rat.Floor
import Mathlib.Tactic.Linarith
import Mathlib.Tactic.NormNum
import Mathlib.Tactic.Positivity
import Attest.Number.Binary
import Attest.Proofs.Number.Digits

namespace Attest

theorem cast_div_zpow (c a b : Nat) (e : Int) :
    ((a * Nat.pow c (-e).toNat : Nat) : ℚ) / (b * Nat.pow c e.toNat : Nat) = a / b / (c : ℚ) ^ e := by
  simp only [Nat.pow_eq, Nat.cast_mul, Nat.cast_pow]
  obtain ⟨k, rfl | rfl⟩ := e.eq_nat_or_neg
  · have none : (-(k : Int)).toNat = 0 := by omega
    rw [none, Int.toNat_natCast, zpow_natCast, pow_zero, mul_one, div_div]
  · have none : (-(k : Int)).toNat = 0 := by omega
    rw [none, neg_neg, Int.toNat_natCast, zpow_neg, zpow_natCast, pow_zero, mul_one, div_inv_eq_mul,
      div_mul_eq_mul_div]

theorem floorLog_eq {c a b i j : Nat} (base : 1 < c) (lowA : c ^ i ≤ a) (highA : a < c ^ (i + 1))
    (lowB : c ^ j ≤ b) (highB : b < c ^ (j + 1)) {e : Int} (difference : e = i - j) :
    (if a * Nat.pow c (-e).toNat < b * Nat.pow c e.toNat then e - 1 else e) =
      Int.log c ((a : ℚ) / b) := by
  have power : ∀ n, 0 < c ^ n := fun n => Nat.pow_pos (Nat.zero_lt_of_lt base)
  have nonzero : (c : ℚ) ≠ 0 := Nat.cast_ne_zero.mpr (Nat.ne_zero_of_lt base)
  have unit : ∀ z : Int, (0 : ℚ) < (c : ℚ) ^ z :=
    zpow_pos (Nat.cast_pos.mpr (Nat.zero_lt_of_lt base))
  have positiveA : (0 : ℚ) < a := Nat.cast_pos.mpr ((power i).trans_le lowA)
  have positiveB : (0 : ℚ) < b := Nat.cast_pos.mpr ((power j).trans_le lowB)
  have positive : (0 : ℚ) < a / b := div_pos positiveA positiveB
  have above : Int.log c ((a : ℚ) / b) < e + 1 := by
    apply (Int.lt_zpow_iff_log_lt base positive).mp
    rw [div_lt_iff₀ positiveB]
    calc (a : ℚ) < (c : ℚ) ^ (i + 1) := by exact_mod_cast highA
      _ = (c : ℚ) ^ (e + 1) * (c : ℚ) ^ j := by
        rw [← zpow_natCast, ← zpow_natCast, ← zpow_add₀ nonzero]
        congr 1
        omega
      _ ≤ (c : ℚ) ^ (e + 1) * b := by
        apply mul_le_mul_of_nonneg_left _ (unit _).le
        exact_mod_cast lowB
  have below : e - 1 ≤ Int.log c ((a : ℚ) / b) := by
    apply (Int.zpow_le_iff_le_log base positive).mp
    rw [le_div_iff₀ positiveB]
    calc (c : ℚ) ^ (e - 1) * b ≤ (c : ℚ) ^ (e - 1) * (c : ℚ) ^ (j + 1) := by
          apply mul_le_mul_of_nonneg_left _ (unit _).le
          exact_mod_cast highB.le
      _ = (c : ℚ) ^ i := by
        rw [← zpow_natCast, ← zpow_natCast, ← zpow_add₀ nonzero]
        congr 1
        omega
      _ ≤ a := by exact_mod_cast lowA
  have decides : a * Nat.pow c (-e).toNat < b * Nat.pow c e.toNat ↔
      Int.log c ((a : ℚ) / b) < e := by
    have denominator : (0 : ℚ) < (b * Nat.pow c e.toNat : Nat) :=
      Nat.cast_pos.mpr (Nat.mul_pos (Nat.cast_pos.mp positiveB) (power _))
    rw [← Int.lt_zpow_iff_log_lt base positive, ← one_mul ((c : ℚ) ^ e),
      ← div_lt_iff₀ (unit e), ← cast_div_zpow, div_lt_one denominator, Nat.cast_lt]
  simp only [decides]
  split <;> omega

theorem floorLog2_eq {a b : Nat} (ha : a ≠ 0) (hb : b ≠ 0) :
    floorLog2 a b = Int.log 2 ((a : ℚ) / b) :=
  floorLog_eq (by decide) (Nat.log2_self_le ha) Nat.lt_log2_self (Nat.log2_self_le hb)
    Nat.lt_log2_self rfl

theorem floorLog10_eq {a b : Nat} (ha : a ≠ 0) (hb : b ≠ 0) :
    floorLog10 a b = Int.log 10 ((a : ℚ) / b) := by
  have counts : ∀ n, Digits.count n = Digits.count n - 1 + 1 := by
    intro n
    have := Digits.count_pos n
    omega
  have upper : ∀ n, n < 10 ^ (Digits.count n - 1 + 1) := by
    intro n
    rw [← counts]
    exact Digits.lt_pow_count n
  have := counts a
  have := counts b
  exact floorLog_eq (by decide) (Digits.pow_count_le ha) (upper a) (Digits.pow_count_le hb) (upper b)
    (by omega)

def nearestEven (q : ℚ) : Nat :=
  if q - ⌊q⌋₊ < 1 / 2 ∨ (q - ⌊q⌋₊ = 1 / 2 ∧ ⌊q⌋₊ % 2 = 0) then ⌊q⌋₊ else ⌊q⌋₊ + 1

theorem divNearestEven_eq (a : Nat) {b : Nat} (hb : b ≠ 0) :
    divNearestEven a b = nearestEven ((a : ℚ) / b) := by
  have positive : (0 : ℚ) < b := Nat.cast_pos.mpr (Nat.pos_of_ne_zero hb)
  have whole : ⌊(a : ℚ) / b⌋₊ = a / b := Nat.floor_div_eq_div a b
  have part : (a : ℚ) / b - (a / b : Nat) = (a % b : Nat) / b := by
    rw [sub_eq_iff_eq_add, div_add' _ _ _ positive.ne', div_left_inj' positive.ne']
    exact_mod_cast (Nat.mod_add_div' a b).symm
  have less : ((a % b : Nat) : ℚ) / b < 1 / 2 ↔ 2 * (a % b) < b := by
    rw [div_lt_div_iff₀ positive two_pos, one_mul, mul_comm]
    exact_mod_cast Iff.rfl
  have tie : ((a % b : Nat) : ℚ) / b = 1 / 2 ↔ 2 * (a % b) = b := by
    rw [div_eq_div_iff positive.ne' two_ne_zero, one_mul, mul_comm]
    exact_mod_cast Iff.rfl
  simp only [divNearestEven, nearestEven, whole, part, less, tie]

theorem floor_le_nearestEven (q : ℚ) : ⌊q⌋₊ ≤ nearestEven q := by
  unfold nearestEven
  split <;> omega

theorem nearestEven_le (q : ℚ) : nearestEven q ≤ ⌊q⌋₊ + 1 := by
  unfold nearestEven
  split <;> omega

theorem nearestEven_mono {q r : ℚ} (ordered : q ≤ r) : nearestEven q ≤ nearestEven r := by
  rcases (Nat.floor_mono ordered).lt_or_eq with less | same
  · calc nearestEven q ≤ ⌊q⌋₊ + 1 := nearestEven_le q
      _ ≤ ⌊r⌋₊ := less
      _ ≤ nearestEven r := floor_le_nearestEven r
  · -- Over the same whole part only the rest decides, and the rest of `r` is no smaller.
    have rest : q - ⌊r⌋₊ ≤ r - ⌊r⌋₊ := by linarith
    unfold nearestEven
    rw [same]
    split
    · split <;> omega
    · rename_i up
      rw [if_neg]
      rintro (low | ⟨tie, even⟩)
      · exact up (.inl (lt_of_le_of_lt rest low))
      · rcases (rest.trans tie.le).lt_or_eq with low | tie
        · exact up (.inl low)
        · exact up (.inr ⟨tie, even⟩)

theorem nearestEven_natCast (n : Nat) : nearestEven n = n := by
  rw [nearestEven, Nat.floor_natCast, if_pos]
  left
  norm_num

theorem nearestEven_of_lt_half {q : ℚ} (small : q < 1 / 2) : nearestEven q = 0 := by
  have zero : ⌊q⌋₊ = 0 := Nat.floor_eq_zero.mpr (by linarith)
  rw [nearestEven, zero, if_pos]
  left
  simpa using small

namespace Magnitude

def value (x : Magnitude) : ℚ := x.significand * 2 ^ x.power

theorem denominator_ne_zero (x : Magnitude) : x.denominator ≠ 0 := (Nat.pow_pos (by decide)).ne'

theorem numerator_div_denominator (x : Magnitude) : (x.numerator : ℚ) / x.denominator = x.value := by
  have quotient := cast_div_zpow 2 x.significand 1 (-x.power)
  rw [neg_neg, Nat.one_mul] at quotient
  rw [numerator, denominator, quotient, value]
  simp

theorem value_pos {x : Magnitude} (nonzero : x.significand ≠ 0) : 0 < x.value :=
  mul_pos (Nat.cast_pos.mpr (Nat.pos_of_ne_zero nonzero)) (zpow_pos two_pos _)

structure Fits (f : BinaryFormat) (x : Magnitude) : Prop where
  significand_lt : x.significand < 2 ^ f.precision
  least_le : f.least ≤ x.power
  le_greatest : x.power ≤ f.greatest
  normal : x.power = f.least ∨ 2 ^ (f.precision - 1) ≤ x.significand

theorem Fits.value_lt {f : BinaryFormat} {x : Magnitude} (fits : x.Fits f) :
    x.value < 2 ^ ((f.precision : Int) + x.power) := by
  rw [zpow_add₀ two_ne_zero, zpow_natCast, value]
  apply mul_lt_mul_of_pos_right _ (zpow_pos two_pos _)
  exact_mod_cast fits.significand_lt

end Magnitude

namespace BinaryFormat

/-- One is among the values, and the powers reach as far below it as above. -/
structure Regular (f : BinaryFormat) : Prop where
  precision_pos : 0 < f.precision
  least_le : f.least ≤ 0
  le_greatest : 0 ≤ f.greatest
  balanced : f.greatest ≤ 1 - f.least

theorem binary64_regular : binary64.Regular := ⟨by decide, by decide, by decide, by decide⟩

theorem hidden_pos (f : BinaryFormat) : 0 < f.hidden := Nat.pow_pos (by decide)

theorem Regular.two_pow_precision {f : BinaryFormat} (regular : f.Regular) :
    2 ^ f.precision = f.hidden + f.hidden := by
  rw [hidden, Nat.pow_eq, ← Nat.two_mul, ← pow_succ', Nat.sub_add_cancel regular.precision_pos]

def unitPower (f : BinaryFormat) (q : ℚ) : Int := max f.least (Int.log 2 q - (f.precision - 1))

def roundRat (f : BinaryFormat) (q : ℚ) : Option Magnitude :=
  if q = 0 then some f.zero
  else
    let x := f.settle (nearestEven (q / 2 ^ f.unitPower q)) (f.unitPower q)
    if x.power ≤ f.greatest then some x else none

theorem round_eq (f : BinaryFormat) (a : Nat) {b : Nat} (hb : b ≠ 0) :
    f.round a b = f.roundRat ((a : ℚ) / b) := by
  have denominator : (b : ℚ) ≠ 0 := Nat.cast_ne_zero.mpr hb
  by_cases zero : a = 0
  · simp [round, roundRat, zero]
  · have nonzero : (a : ℚ) / b ≠ 0 := div_ne_zero (Nat.cast_ne_zero.mpr zero) denominator
    have divisor : b * Nat.pow 2 (f.unitPower ((a : ℚ) / b)).toNat ≠ 0 :=
      Nat.mul_ne_zero hb (Nat.pow_pos (by decide)).ne'
    have significand := divNearestEven_eq (a * Nat.pow 2 (-f.unitPower ((a : ℚ) / b)).toNat) divisor
    rw [cast_div_zpow, Nat.cast_ofNat] at significand
    rw [round, roundRat, if_neg zero, if_neg nonzero, floorLog2_eq zero hb, ← unitPower]
    simp only [significand]

section

variable {f : BinaryFormat} {q : ℚ}

theorem div_unitPower_lt (positive : 0 < q) :
    q / 2 ^ f.unitPower q < 2 ^ f.precision := by
  rw [div_lt_iff₀ (zpow_pos two_pos _), ← zpow_natCast, ← zpow_add₀ two_ne_zero]
  refine (Int.lt_zpow_iff_log_lt (by decide : 1 < 2) positive).mpr ?_
  rw [unitPower]
  omega

theorem unitPower_eq_or_le_div (regular : f.Regular) (positive : 0 < q) :
    f.unitPower q = f.least ∨ 2 ^ (f.precision - 1) ≤ q / 2 ^ f.unitPower q := by
  have precision := regular.precision_pos
  rcases max_choice f.least (Int.log 2 q - (f.precision - 1)) with low | normal
  · exact .inl low
  · right
    rw [le_div_iff₀ (zpow_pos two_pos _), ← zpow_natCast, ← zpow_add₀ two_ne_zero]
    refine (Int.zpow_le_iff_le_log (by decide : 1 < 2) positive).mpr ?_
    rw [unitPower, normal]
    omega

theorem nearestEven_unitPower_le (positive : 0 < q) :
    nearestEven (q / 2 ^ f.unitPower q) ≤ 2 ^ f.precision := by
  have below := (div_unitPower_lt (f := f) positive).le
  have most := nearestEven_mono below
  rwa [← Nat.cast_ofNat, ← Nat.cast_pow, nearestEven_natCast] at most

theorem unitPower_eq_or_le_nearestEven (regular : f.Regular) (positive : 0 < q) :
    f.unitPower q = f.least ∨ 2 ^ (f.precision - 1) ≤ nearestEven (q / 2 ^ f.unitPower q) := by
  refine (unitPower_eq_or_le_div regular positive).imp_right fun large => ?_
  have least := nearestEven_mono large
  rwa [← Nat.cast_ofNat, ← Nat.cast_pow, nearestEven_natCast] at least

theorem settle_fits (precision : 0 < f.precision) {m : Nat} {power : Int}
    (bound : m ≤ 2 ^ f.precision) (least : f.least ≤ power)
    (normal : power = f.least ∨ 2 ^ (f.precision - 1) ≤ m)
    (greatest : (f.settle m power).power ≤ f.greatest) : (f.settle m power).Fits f := by
  unfold settle at greatest ⊢
  by_cases carried : m = Nat.pow 2 f.precision
  · rw [if_pos carried] at greatest ⊢
    have smaller : Nat.pow 2 (f.precision - 1) < 2 ^ f.precision :=
      Nat.pow_lt_pow_right (by decide) (Nat.sub_lt precision (by decide))
    exact ⟨smaller, least.trans (le_add_of_nonneg_right (by decide)), greatest, .inr le_rfl⟩
  · rw [if_neg carried] at greatest ⊢
    exact ⟨lt_of_le_of_ne bound carried, least, greatest, normal⟩

theorem roundRat_fits (regular : f.Regular) (nonneg : 0 ≤ q) {x : Magnitude}
    (rounds : f.roundRat q = some x) : x.Fits f := by
  rw [roundRat] at rounds
  by_cases zero : q = 0
  · rw [if_pos zero] at rounds
    cases rounds
    exact ⟨Nat.pow_pos (by decide), le_rfl, regular.least_le.trans regular.le_greatest, .inl rfl⟩
  · rw [if_neg zero] at rounds
    have positive : 0 < q := lt_of_le_of_ne nonneg (Ne.symm zero)
    dsimp only at rounds
    split at rounds
    · rename_i greatest
      cases rounds
      exact settle_fits regular.precision_pos (nearestEven_unitPower_le positive) (le_max_left _ _)
        (unitPower_eq_or_le_nearestEven regular positive) greatest
    · cases rounds

theorem unitPower_value {x : Magnitude} (fits : x.Fits f) (nonzero : x.significand ≠ 0) :
    f.unitPower x.value = x.power := by
  have positive := Magnitude.value_pos nonzero
  have above : Int.log 2 x.value - (f.precision - 1) ≤ x.power := by
    have := (Int.lt_zpow_iff_log_lt (by decide : 1 < 2) positive).mp (by exact_mod_cast fits.value_lt)
    omega
  rcases fits.normal with low | large
  · rw [unitPower, ← low]
    exact max_eq_left above
  · have below : x.power ≤ Int.log 2 x.value - (f.precision - 1) := by
      have bound : ((2 : Nat) : ℚ) ^ (((f.precision - 1 : Nat) : Int) + x.power) ≤ x.value := by
        rw [Nat.cast_ofNat, zpow_add₀ two_ne_zero, zpow_natCast, Magnitude.value]
        apply mul_le_mul_of_nonneg_right _ (zpow_pos two_pos _).le
        exact_mod_cast large
      have := (Int.zpow_le_iff_le_log (by decide) positive).mp bound
      omega
    rw [unitPower, le_antisymm above below]
    exact max_eq_right fits.least_le

theorem roundRat_value {x : Magnitude} (fits : x.Fits f) : f.roundRat x.value = some x := by
  obtain ⟨significand, power⟩ := x
  by_cases zero : significand = 0
  · subst zero
    have least : power = f.least := by
      refine fits.normal.resolve_right fun large => ?_
      exact absurd (Nat.le_zero.mp large) (Nat.pow_pos (by decide)).ne'
    rw [roundRat, Magnitude.value, Nat.cast_zero, zero_mul, if_pos rfl, least]
    rfl
  · have unit := unitPower_value fits zero
    have nonzero : (⟨significand, power⟩ : Magnitude).value ≠ 0 :=
      mul_ne_zero (Nat.cast_ne_zero.mpr zero) (zpow_ne_zero _ two_ne_zero)
    have quotient : (⟨significand, power⟩ : Magnitude).value / 2 ^ power = significand :=
      mul_div_cancel_right₀ _ (zpow_ne_zero _ two_ne_zero)
    have kept : significand ≠ Nat.pow 2 f.precision := fits.significand_lt.ne
    rw [roundRat, if_neg nonzero, unit, quotient, nearestEven_natCast, settle, if_neg kept]
    exact if_pos fits.le_greatest

theorem roundRat_of_lt (regular : f.Regular) (nonneg : 0 ≤ q) (small : q < 2 ^ (f.least - 1)) :
    f.roundRat q = some f.zero := by
  by_cases zero : q = 0
  · rw [roundRat, if_pos zero]
  · have positive : 0 < q := lt_of_le_of_ne nonneg (Ne.symm zero)
    have precision := regular.precision_pos
    have log := (Int.lt_zpow_iff_log_lt (by decide : 1 < 2) positive).mp (by exact_mod_cast small)
    have unit : f.unitPower q = f.least := max_eq_left (by omega)
    have half : q / 2 ^ f.least < 1 / 2 := by
      rw [div_lt_iff₀ (zpow_pos two_pos _)]
      rwa [zpow_sub_one₀ two_ne_zero, mul_comm, ← one_div] at small
    have kept : 0 ≠ Nat.pow 2 f.precision := (Nat.pow_pos (by decide)).ne
    rw [roundRat, if_neg zero, unit, nearestEven_of_lt_half half, settle, if_neg kept]
    exact if_pos (regular.least_le.trans regular.le_greatest)

theorem roundRat_of_le (large : 2 ^ (f.greatest + f.precision) ≤ q) : f.roundRat q = none := by
  have positive : 0 < q := (zpow_pos two_pos _).trans_le large
  have log := (Int.zpow_le_iff_le_log (by decide : 1 < 2) positive).mp (by exact_mod_cast large)
  have unit : f.greatest < f.unitPower q := by
    rw [unitPower]
    omega
  rw [roundRat, if_neg positive.ne']
  apply if_neg
  unfold settle
  split <;> dsimp only <;> omega

theorem le_ten_zpow {z : Int} (nonneg : 0 ≤ z) : (2 : ℚ) ^ (3 * z) ≤ 10 ^ z := by
  obtain ⟨k, rfl⟩ := Int.eq_ofNat_of_zero_le nonneg
  rw [zpow_mul, zpow_natCast, zpow_natCast]
  exact pow_le_pow_left₀ (by norm_num) (by norm_num) k

theorem ten_zpow_le {z : Int} (nonpos : z ≤ 0) : (10 : ℚ) ^ z ≤ 2 ^ (3 * z) := by
  have inverse := le_ten_zpow (Int.neg_nonneg_of_nonpos nonpos)
  rw [Int.mul_neg, zpow_neg, zpow_neg] at inverse
  exact (inv_le_inv₀ (zpow_pos two_pos _) (zpow_pos (by norm_num) _)).mp inverse

theorem roundRat_of_tiny (regular : f.Regular) (nonneg : 0 ≤ q) {z : Int} (below : q < 10 ^ z)
    (tiny : 3 * z < f.least - 1) : f.roundRat q = some f.zero := by
  have least := regular.least_le
  apply roundRat_of_lt regular nonneg
  calc q < 10 ^ z := below
    _ ≤ 2 ^ (3 * z) := ten_zpow_le (by omega)
    _ ≤ 2 ^ (f.least - 1) := zpow_le_zpow_right₀ one_le_two tiny.le

theorem roundRat_of_huge (regular : f.Regular) {z : Int} (above : 10 ^ z ≤ q)
    (huge : f.greatest + f.precision < 3 * z) : f.roundRat q = none := by
  have greatest := regular.le_greatest
  apply roundRat_of_le
  calc (2 : ℚ) ^ (f.greatest + f.precision) ≤ 2 ^ (3 * z) := zpow_le_zpow_right₀ one_le_two huge.le
    _ ≤ 10 ^ z := le_ten_zpow (by omega)
    _ ≤ q := above

theorem mul_ten_zpow_lt (n : Nat) (e : Int) : (n : ℚ) * 10 ^ e < 10 ^ ((Digits.count n : Int) + e) := by
  rw [zpow_add₀ (by norm_num), zpow_natCast]
  apply mul_lt_mul_of_pos_right _ (zpow_pos (by norm_num) _)
  exact_mod_cast Digits.lt_pow_count n

theorem le_mul_ten_zpow {n : Nat} (nonzero : n ≠ 0) (e : Int) :
    (10 : ℚ) ^ ((Digits.count n : Int) + e - 1) ≤ n * 10 ^ e := by
  have count := Digits.count_pos n
  have places : (Digits.count n : Int) + e - 1 = ((Digits.count n - 1 : Nat) : Int) + e := by omega
  rw [places, zpow_add₀ (by norm_num), zpow_natCast]
  apply mul_le_mul_of_nonneg_right _ (zpow_pos (by norm_num) _).le
  exact_mod_cast Digits.pow_count_le nonzero

theorem roundDecimal_eq (regular : f.Regular) (n : Nat) (e : Int) :
    f.roundDecimal n e = f.roundRat (n * 10 ^ e) := by
  by_cases zero : n = 0
  · simp [roundDecimal, roundRat, zero]
  · have nonneg : (0 : ℚ) ≤ n * 10 ^ e := mul_nonneg n.cast_nonneg (zpow_pos (by norm_num) e).le
    rw [roundDecimal]
    by_cases tiny : 3 * (Digits.count n + e) < f.least - 1
    · rw [if_pos (.inr tiny), roundRat_of_tiny regular nonneg (mul_ten_zpow_lt n e) tiny]
    rw [if_neg (not_or.mpr ⟨zero, tiny⟩)]
    by_cases huge : f.greatest + f.precision < 3 * (Digits.count n + e - 1)
    · rw [if_pos huge, roundRat_of_huge regular (le_mul_ten_zpow zero e) huge]
    · have divisor : Nat.pow 10 (-e).toNat ≠ 0 := (Nat.pow_pos (by decide)).ne'
      have quotient := cast_div_zpow 10 n 1 (-e)
      rw [neg_neg, Nat.one_mul, Nat.cast_one, div_one, zpow_neg, div_inv_eq_mul,
        Nat.cast_ofNat] at quotient
      rw [if_neg huge, round_eq f _ divisor, quotient]

end

end BinaryFormat
end Attest
