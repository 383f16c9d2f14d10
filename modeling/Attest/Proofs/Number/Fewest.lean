import Attest.Proofs.Number.Exact

namespace Attest

theorem Digits.count_le {n k : Nat} (positive : 0 < k) (small : n < 10 ^ k) : count n ≤ k := by
  rw [count_eq_log]
  by_cases zero : n = 0
  · rw [zero, Nat.log_zero_right]
    exact positive
  · exact Nat.log_lt_of_lt_pow zero small

namespace Decimal

theorem digits_ne_zero {f : BinaryFormat} {d : Decimal} {x : Magnitude} (reads : f.roundRat d.value = some x)
    (nonzero : x.significand ≠ 0) : d.digits ≠ 0 := by
  intro zero
  rw [value, zero, Nat.cast_zero, zero_mul, BinaryFormat.roundRat, if_pos rfl] at reads
  cases reads
  exact nonzero rfl

theorem stripZeros_digits_le (steps : Nat) (d : Decimal) : (stripZeros steps d).digits ≤ d.digits := by
  induction steps generalizing d with
  | zero => exact le_rfl
  | succ steps ih =>
    rw [stripZeros]
    split
    · exact (ih _).trans (Nat.div_le_self _ _)
    · exact le_rfl

theorem stripZeros_last {steps : Nat} {d : Decimal} (nonzero : d.digits ≠ 0)
    (enough : d.digits < 10 ^ steps) : (stripZeros steps d).digits % 10 ≠ 0 := by
  induction steps generalizing d with
  | zero =>
    rw [pow_zero] at enough
    omega
  | succ steps ih =>
    rw [stripZeros]
    split
    · rename_i zero
      rw [pow_succ'] at enough
      exact ih (by dsimp only; omega) (by dsimp only; omega)
    · rename_i last
      exact fun zero => last ⟨nonzero, zero⟩

variable {f : BinaryFormat} (tie : Tie) {x : Magnitude}

theorem searchFrom_bounds (steps : Nat) (unit : Int) :
    unit - steps ≤ (searchFrom f tie x steps unit).exponent ∧
      (searchFrom f tie x steps unit).exponent ≤ unit ∧
      (searchFrom f tie x steps unit).digits ≤
        ⌊x.value / 10 ^ (searchFrom f tie x steps unit).exponent⌋₊ + 1 := by
  induction steps generalizing unit with
  | zero =>
    rw [searchFrom, floor_grid]
    exact ⟨by simp, le_rfl, Nat.le_succ _⟩
  | succ steps ih =>
    rw [searchFrom]
    cases found : onGrid? f tie x unit with
    | some n => exact ⟨by dsimp only; omega, le_rfl, (of_onGrid? tie found).2⟩
    | none =>
      obtain ⟨least, most, near⟩ := ih (unit - 1)
      exact ⟨by dsimp only; omega, by dsimp only; omega, near⟩

section

variable (regular : f.Regular) (fits : x.Fits f)

include regular fits

variable (nonzero : x.significand ≠ 0)

include nonzero

theorem shortest_last : (shortest f tie x).digits % 10 ≠ 0 := by
  have whole := digits_ne_zero (roundRat_shortest tie regular fits nonzero) nonzero
  rw [shortest_eq tie nonzero] at whole ⊢
  exact stripZeros_last (fun zero => whole (Nat.le_zero.mp (zero ▸ stripZeros_digits_le _ _)))
    (Digits.lt_pow_count _)

theorem count_shortest_le_grid : ((Digits.count (shortest f tie x).digits : Nat) : Int) ≤
    Int.log 10 x.value + 1 -
      (searchFrom f tie x (f.precision + f.least.natAbs) (Int.log 10 x.value)).exponent := by
  obtain ⟨-, most, near⟩ :=
    searchFrom_bounds (f := f) tie (x := x) (f.precision + f.least.natAbs) (Int.log 10 x.value)
  have last := shortest_last tie regular fits nonzero
  have fewer := stripZeros_digits_le
    (Digits.count (searchFrom f tie x (f.precision + f.least.natAbs) (Int.log 10 x.value)).digits)
    (searchFrom f tie x (f.precision + f.least.natAbs) (Int.log 10 x.value))
  rw [← shortest_eq tie nonzero] at fewer
  generalize searchFrom f tie x (f.precision + f.least.natAbs) (Int.log 10 x.value) = d at most near fewer
  obtain ⟨k, room⟩ := Int.eq_ofNat_of_zero_le (a := Int.log 10 x.value - d.exponent) (by omega)
  have below : x.value / 10 ^ d.exponent < (10 ^ (k + 1) : Nat) := by
    have power : (0 : ℚ) < 10 ^ d.exponent := zpow_pos (by norm_num) _
    rw [div_lt_iff₀ power, Nat.cast_pow, Nat.cast_ofNat, ← zpow_natCast, ← zpow_add₀ (by norm_num)]
    have bound := Int.lt_zpow_succ_log_self (by decide : 1 < 10) x.value
    rw [Nat.cast_ofNat] at bound
    exact bound.trans_le (zpow_le_zpow_right₀ (by norm_num) (by omega))
  have floor : ⌊x.value / 10 ^ d.exponent⌋₊ < 10 ^ (k + 1) :=
    (Nat.floor_lt' (Nat.pow_pos (by decide)).ne').mpr below
  -- A one and zeros would have lost the zeros.
  have other : (shortest f tie x).digits ≠ 10 ^ (k + 1) := by
    intro same
    rw [same, pow_succ, Nat.mul_mod_left] at last
    exact last rfl
  have digits := Digits.count_le (Nat.succ_pos k) (by omega : (shortest f tie x).digits < 10 ^ (k + 1))
  omega

theorem count_shortest_le_steps :
    Digits.count (shortest f tie x).digits ≤ f.precision + f.least.natAbs + 1 := by
  have room := count_shortest_le_grid tie regular fits nonzero
  have least := (searchFrom_bounds (f := f) tie (x := x) (f.precision + f.least.natAbs)
    (Int.log 10 x.value)).1
  omega

theorem count_shortest_le_of_multiple {n : Nat} {unit : Int} (reads : f.roundRat (n * 10 ^ unit) = some x)
    (fine : unit ≤ Int.log 10 x.value) :
    ((Digits.count (shortest f tie x).digits : Nat) : Int) ≤ Int.log 10 x.value + 1 - unit := by
  have room := count_shortest_le_grid tie regular fits nonzero
  have grid := le_searchFrom_exponent tie regular fits reads (f.precision + f.least.natAbs) fine
  omega

theorem count_shortest_le {d : Decimal} (reads : f.roundRat d.value = some x) :
    Digits.count (shortest f tie x).digits ≤ Digits.count d.digits := by
  have own := BinaryFormat.roundRat_value fits
  have positive := Magnitude.value_pos nonzero
  have unit : ∀ z : Int, (0 : ℚ) < 10 ^ z := zpow_pos (by norm_num)
  have digits := digits_ne_zero reads nonzero
  have count := Digits.count_pos d.digits
  have least := BinaryFormat.le_mul_ten_zpow digits d.exponent
  have most := BinaryFormat.mul_ten_zpow_lt d.digits d.exponent
  rw [← value] at least most
  have low := Int.zpow_log_le_self (by decide : 1 < 10) positive
  have high := Int.lt_zpow_succ_log_self (by decide : 1 < 10) x.value
  rw [Nat.cast_ofNat] at low high
  rcases lt_trichotomy ((Digits.count d.digits : Int) + d.exponent - 1) (Int.log 10 x.value)
    with below | same | above
  · -- A power of ten lies between the decimal and the magnitude.
    have between : d.value ≤ ((1 : Nat) : ℚ) * 10 ^ Int.log 10 x.value := by
      rw [Nat.cast_one, one_mul]
      exact most.le.trans (zpow_le_zpow_right₀ (by norm_num) (by omega))
    have reads := BinaryFormat.roundRat_between regular
      (mul_nonneg d.digits.cast_nonneg (unit _).le) between (by simpa using low) reads own
    have one := count_shortest_le_of_multiple tie regular fits nonzero reads le_rfl
    omega
  · have few := count_shortest_le_of_multiple tie regular fits nonzero reads (by omega)
    omega
  · have between : ((10 : Nat) : ℚ) * 10 ^ Int.log 10 x.value ≤ d.value := by
      rw [Nat.cast_ofNat, ← zpow_one_add₀ (by norm_num)]
      exact (zpow_le_zpow_right₀ (by norm_num) (by omega)).trans least
    have beyond : x.value ≤ ((10 : Nat) : ℚ) * 10 ^ Int.log 10 x.value := by
      rw [Nat.cast_ofNat, ← zpow_one_add₀ (by norm_num), add_comm]
      exact high.le
    have reads := BinaryFormat.roundRat_between regular positive.le beyond between own reads
    have one := count_shortest_le_of_multiple tie regular fits nonzero reads le_rfl
    omega

end

end Decimal
end Attest
