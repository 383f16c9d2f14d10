import Attest.Proofs.Number.Shortest

namespace Attest

theorem Magnitude.value_nonneg (x : Magnitude) : 0 ≤ x.value :=
  mul_nonneg x.significand.cast_nonneg (zpow_pos two_pos _).le

namespace BinaryFormat

variable {f : BinaryFormat} {q r : ℚ} {x y : Magnitude}

theorem settle_value (precision : 0 < f.precision) (m : Nat) (power : Int) :
    (f.settle m power).value = m * 2 ^ power := by
  obtain ⟨k, more⟩ : ∃ k, f.precision = k + 1 := ⟨f.precision - 1, by omega⟩
  unfold settle
  split
  · rename_i carried
    rw [Magnitude.value, carried, more, zpow_add_one₀ two_ne_zero]
    push_cast [Nat.add_sub_cancel, Nat.pow_eq, pow_succ]
    ring
  · rfl

theorem value_of_roundRat (regular : f.Regular) (nonzero : q ≠ 0) (rounds : f.roundRat q = some x) :
    x.value = nearestEven (q / 2 ^ f.unitPower q) * 2 ^ f.unitPower q := by
  rw [roundRat, if_neg nonzero] at rounds
  dsimp only at rounds
  split at rounds
  · cases rounds
    exact settle_value regular.precision_pos _ _
  · cases rounds

theorem unitPower_mono (positive : 0 < q) (ordered : q ≤ r) : f.unitPower q ≤ f.unitPower r :=
  max_le_max_left _ (Int.sub_le_sub_right (Int.log_mono_right positive ordered) _)

theorem roundRat_mono (regular : f.Regular) (nonneg : 0 ≤ q) (ordered : q ≤ r)
    (left : f.roundRat q = some x) (right : f.roundRat r = some y) : x.value ≤ y.value := by
  by_cases zero : q = 0
  · rw [roundRat, if_pos zero] at left
    cases left
    have none : f.zero.value = 0 := zero_mul _
    rw [none]
    exact y.value_nonneg
  · have positive : 0 < q := lt_of_le_of_ne nonneg (Ne.symm zero)
    have larger : 0 < r := positive.trans_le ordered
    have precision := regular.precision_pos
    have unit : ∀ z : Int, (0 : ℚ) < 2 ^ z := zpow_pos two_pos
    rw [value_of_roundRat regular zero left, value_of_roundRat regular larger.ne' right]
    rcases (unitPower_mono (f := f) positive ordered).eq_or_lt with same | below
    · rw [same]
      apply mul_le_mul_of_nonneg_right _ (unit _).le
      exact_mod_cast nearestEven_mono (div_le_div_of_nonneg_right ordered (unit _).le)
    · -- The finer grid ends where the coarser one begins.
      have least : f.least ≤ f.unitPower q := le_max_left _ _
      have coarse := (unitPower_eq_or_le_nearestEven regular larger).resolve_left (by omega)
      calc (nearestEven (q / 2 ^ f.unitPower q) : ℚ) * 2 ^ f.unitPower q
          ≤ 2 ^ f.precision * 2 ^ f.unitPower q := by
            apply mul_le_mul_of_nonneg_right _ (unit _).le
            exact_mod_cast nearestEven_unitPower_le positive
        _ = 2 ^ ((f.precision : Int) + f.unitPower q) := by
            rw [zpow_add₀ two_ne_zero, zpow_natCast]
        _ ≤ 2 ^ (((f.precision - 1 : Nat) : Int) + f.unitPower r) :=
            zpow_le_zpow_right₀ one_le_two (by omega)
        _ = 2 ^ (f.precision - 1) * 2 ^ f.unitPower r := by
            rw [zpow_add₀ two_ne_zero, zpow_natCast]
        _ ≤ nearestEven (r / 2 ^ f.unitPower r) * 2 ^ f.unitPower r := by
            apply mul_le_mul_of_nonneg_right _ (unit _).le
            exact_mod_cast coarse

theorem settle_power_le (f : BinaryFormat) (m : Nat) (power : Int) :
    power ≤ (f.settle m power).power ∧ (f.settle m power).power ≤ power + 1 := by
  unfold settle
  split <;> dsimp only <;> omega

theorem settle_power_mono {m n : Nat} (ordered : m ≤ n) (bound : n ≤ 2 ^ f.precision) (power : Int) :
    (f.settle m power).power ≤ (f.settle n power).power := by
  by_cases carried : m = Nat.pow 2 f.precision
  · have both : n = Nat.pow 2 f.precision := le_antisymm bound (carried ▸ ordered)
    rw [carried, both]
  · rw [settle, if_neg carried]
    exact (settle_power_le f n power).1

theorem exists_roundRat_of_le (positive : 0 < q) (ordered : q ≤ r) (right : f.roundRat r = some y) :
    ∃ x, f.roundRat q = some x := by
  have larger : 0 < r := positive.trans_le ordered
  have power : (f.settle (nearestEven (q / 2 ^ f.unitPower q)) (f.unitPower q)).power ≤
      (f.settle (nearestEven (r / 2 ^ f.unitPower r)) (f.unitPower r)).power := by
    rcases (unitPower_mono (f := f) positive ordered).eq_or_lt with same | below
    · have quotients := div_le_div_of_nonneg_right ordered (zpow_pos two_pos (f.unitPower r)).le
      rw [same]
      exact settle_power_mono (nearestEven_mono quotients) (nearestEven_unitPower_le larger) _
    · have most := (settle_power_le f (nearestEven (q / 2 ^ f.unitPower q)) (f.unitPower q)).2
      have least := (settle_power_le f (nearestEven (r / 2 ^ f.unitPower r)) (f.unitPower r)).1
      omega
  rw [roundRat, if_neg larger.ne'] at right
  dsimp only at right
  split at right
  · rename_i greatest
    rw [roundRat, if_neg positive.ne']
    exact ⟨_, if_pos (power.trans greatest)⟩
  · cases right

theorem eq_of_value_eq (fits : x.Fits f) (others : y.Fits f) (same : x.value = y.value) : x = y := by
  apply Option.some.inj
  rw [← roundRat_value fits, same, roundRat_value others]

theorem roundRat_between (regular : f.Regular) {low high : ℚ} (nonneg : 0 ≤ low) (above : low ≤ q)
    (below : q ≤ high) (left : f.roundRat low = some x) (right : f.roundRat high = some x) :
    f.roundRat q = some x := by
  rcases (nonneg.trans above).eq_or_lt with zero | positive
  · rwa [le_antisymm above (zero ▸ nonneg)] at left
  · obtain ⟨y, rounds⟩ := exists_roundRat_of_le positive below right
    have least := roundRat_mono regular nonneg above left rounds
    have most := roundRat_mono regular positive.le below rounds right
    have same := eq_of_value_eq (roundRat_fits regular positive.le rounds)
      (roundRat_fits regular nonneg left) (le_antisymm most least)
    rw [rounds, same]

/-- Numbers whose unit lies below the greatest power do not overflow, even where rounding carries. -/
theorem exists_roundRat (room : f.unitPower q < f.greatest) : ∃ x, f.roundRat q = some x := by
  unfold roundRat
  split
  · exact ⟨_, rfl⟩
  · refine ⟨_, if_pos ?_⟩
    unfold settle
    split <;> dsimp only <;> omega

section

variable (regular : f.Regular) {n k : Nat}

include regular

theorem unitPower_natCast_le (nonzero : n ≠ 0) (small : n ≤ 2 ^ f.precision) :
    f.unitPower n ≤ 1 := by
  have positive : (0 : ℚ) < n := Nat.cast_pos.mpr (Nat.pos_of_ne_zero nonzero)
  have least := regular.least_le
  have log : Int.log 2 (n : ℚ) ≤ f.precision := by
    have ordered : (n : ℚ) ≤ ((2 : Nat) : ℚ) ^ (f.precision : Int) := by exact_mod_cast small
    rw [← Int.log_zpow (R := ℚ) (by decide : 1 < 2) f.precision]
    exact Int.log_mono_right positive ordered
  rw [unitPower]
  omega

/-- On its own grid such a number is a multiple of the unit: only `2 ^ precision` has a unit above one. -/
theorem exists_div_unitPower_natCast (nonzero : n ≠ 0) (small : n ≤ 2 ^ f.precision) :
    ∃ m : Nat, (n : ℚ) / 2 ^ f.unitPower n = m := by
  have precision := regular.precision_pos
  have least := regular.least_le
  rcases (unitPower_natCast_le regular nonzero small).lt_or_eq with fine | coarse
  · obtain ⟨j, unit⟩ := Int.eq_ofNat_of_zero_le (a := -f.unitPower n) (by omega)
    refine ⟨n * 2 ^ j, ?_⟩
    rw [← neg_neg (f.unitPower n), unit, zpow_neg, zpow_natCast, div_inv_eq_mul]
    push_cast
    rfl
  · have log : (f.precision : Int) ≤ Int.log 2 (n : ℚ) := by
      rw [unitPower] at coarse
      omega
    have positive : (0 : ℚ) < n := Nat.cast_pos.mpr (Nat.pos_of_ne_zero nonzero)
    have large : 2 ^ f.precision ≤ n := by
      exact_mod_cast (Int.zpow_le_iff_le_log (by decide : 1 < 2) positive).mpr log
    refine ⟨2 ^ (f.precision - 1), ?_⟩
    obtain ⟨j, more⟩ : ∃ j, f.precision = j + 1 := ⟨f.precision - 1, by omega⟩
    rw [coarse, zpow_one, le_antisymm small large, more, Nat.add_sub_cancel]
    push_cast [pow_succ]
    exact mul_div_cancel_right₀ _ two_ne_zero

variable (room : 1 < f.greatest)

include room

/-- A natural number that a significand can hold, and the power of two behind these, is rounded to
itself. -/
theorem roundRat_natCast (small : n ≤ 2 ^ f.precision) :
    ∃ x, f.roundRat n = some x ∧ x.value = n := by
  by_cases zero : n = 0
  · subst zero
    exact ⟨f.zero, if_pos Nat.cast_zero, by rw [Magnitude.value]; simp [BinaryFormat.zero]⟩
  · have nonzero : (n : ℚ) ≠ 0 := Nat.cast_ne_zero.mpr zero
    have unit := unitPower_natCast_le regular zero small
    obtain ⟨x, rounds⟩ := exists_roundRat (lt_of_le_of_lt unit room)
    obtain ⟨m, quotient⟩ := exists_div_unitPower_natCast regular zero small
    refine ⟨x, rounds, ?_⟩
    rw [value_of_roundRat regular nonzero rounds, quotient, nearestEven_natCast, ← quotient]
    exact div_mul_cancel₀ _ (zpow_ne_zero _ two_ne_zero)

theorem natCast_of_roundRat (rounds : f.roundRat n = some x) (value : x.value = k)
    (small : k < 2 ^ f.precision) : n = k := by
  by_cases inside : n ≤ 2 ^ f.precision
  · obtain ⟨y, same, kept⟩ := roundRat_natCast regular room inside
    rw [rounds] at same
    cases same
    exact_mod_cast kept.symm.trans value
  · obtain ⟨y, bound, kept⟩ := roundRat_natCast regular room (le_refl (2 ^ f.precision))
    have least := roundRat_mono regular (Nat.cast_nonneg _) (Nat.cast_le.mpr (Nat.le_of_not_le inside))
      bound rounds
    rw [kept, value] at least
    exact absurd (Nat.cast_le.mp least) (Nat.not_le_of_lt small)

end

end BinaryFormat

namespace Decimal

variable {f : BinaryFormat} (tie : Tie) {x : Magnitude} {n : Nat}

theorem stripZeros_exponent_le (steps : Nat) (d : Decimal) : d.exponent ≤ (stripZeros steps d).exponent := by
  induction steps generalizing d with
  | zero => exact le_rfl
  | succ steps ih =>
    rw [stripZeros]
    split
    · have further := ih ⟨d.digits / 10, d.exponent + 1⟩
      dsimp only at further
      omega
    · exact le_rfl

theorem exists_onGrid? (regular : f.Regular) (fits : x.Fits f) {unit : Int}
    (reads : f.roundRat (n * 10 ^ unit) = some x) : ∃ m, onGrid? f tie x unit = some m := by
  have power : (0 : ℚ) < 10 ^ unit := zpow_pos (by norm_num) _
  have next : f.roundDecimal ⌊x.value / 10 ^ unit⌋₊ unit = some x ∨
      f.roundDecimal (⌊x.value / 10 ^ unit⌋₊ + 1) unit = some x := by
    rw [BinaryFormat.roundDecimal_eq regular, BinaryFormat.roundDecimal_eq regular]
    have own := BinaryFormat.roundRat_value fits
    rcases le_or_gt n ⌊x.value / 10 ^ unit⌋₊ with below | above
    · have ordered := mul_le_mul_of_nonneg_right (Nat.cast_le (α := ℚ).mpr below) power.le
      have floor := Nat.floor_le (div_nonneg x.value_nonneg power.le)
      exact .inl (BinaryFormat.roundRat_between regular (mul_nonneg n.cast_nonneg power.le) ordered
        ((le_div_iff₀ power).mp floor) reads own)
    · have ordered := mul_le_mul_of_nonneg_right (Nat.cast_le (α := ℚ).mpr above) power.le
      have ceiling := (Nat.lt_floor_add_one (x.value / 10 ^ unit)).le
      rw [div_le_iff₀ power, ← Nat.cast_add_one] at ceiling
      exact .inr (BinaryFormat.roundRat_between regular x.value_nonneg ceiling ordered own reads)
  unfold onGrid?
  dsimp only
  rw [floor_grid]
  split
  · split
    · split
      · exact ⟨_, rfl⟩
      · split
        · exact ⟨_, rfl⟩
        · cases tie <;> exact ⟨_, rfl⟩
    · exact ⟨_, rfl⟩
  · rename_i low
    rw [if_pos (next.resolve_left low)]
    exact ⟨_, rfl⟩

theorem le_searchFrom_exponent (regular : f.Regular) (fits : x.Fits f) {fine : Int}
    (reads : f.roundRat (n * 10 ^ fine) = some x) (steps : Nat) {unit : Int} (ahead : fine ≤ unit) :
    fine ≤ (searchFrom f tie x steps unit).exponent := by
  induction steps generalizing unit with
  | zero => exact ahead
  | succ steps ih =>
    rw [searchFrom]
    cases found : onGrid? f tie x unit with
    | some n => exact ahead
    | none =>
      have other : fine ≠ unit := by
        rintro rfl
        obtain ⟨m, found'⟩ := exists_onGrid? tie regular fits reads
        rw [found] at found'
        cases found'
      exact ih (by omega)

/-- The search goes no further than the grid of the natural numbers, and there and on coarser grids nothing
else is read as `n`. -/
theorem shortest_natCast (regular : f.Regular) (room : 1 < f.greatest) (fits : x.Fits f) (value : x.value = n)
    (small : n < 2 ^ f.precision) (nonzero : n ≠ 0) :
    0 ≤ (shortest f tie x).exponent ∧ (shortest f tie x).value = n := by
  have significand : x.significand ≠ 0 := by
    intro zero
    rw [Magnitude.value, zero, Nat.cast_zero, zero_mul] at value
    exact nonzero (Nat.cast_eq_zero.mp value.symm)
  have own : f.roundRat (n * 10 ^ (0 : Int)) = some x := by
    rw [zpow_zero, mul_one, ← value]
    exact BinaryFormat.roundRat_value fits
  have log : Int.log 10 x.value = Nat.log 10 n := by rw [value, Int.log_natCast]
  have whole : 0 ≤ (shortest f tie x).exponent := by
    rw [shortest_eq tie significand, log]
    exact (le_searchFrom_exponent tie regular fits own _ (Int.natCast_nonneg _)).trans
      (stripZeros_exponent_le _ _)
  have reads := roundRat_shortest tie regular fits significand
  obtain ⟨k, exponent⟩ := Int.eq_ofNat_of_zero_le whole
  have multiple : (shortest f tie x).value = ((shortest f tie x).digits * 10 ^ k : Nat) := by
    rw [Decimal.value, exponent, zpow_natCast]
    push_cast
    rfl
  rw [multiple] at reads ⊢
  exact ⟨whole, congrArg Nat.cast (BinaryFormat.natCast_of_roundRat regular room reads value small)⟩

theorem literal_natCast (negative : Bool) {d : Decimal} (whole : 0 ≤ d.exponent) (value : d.value = n)
    (nonzero : n ≠ 0) (small : n < 10 ^ 21) : d.literal negative = ⟨negative, n, [], none⟩ := by
  obtain ⟨digits, exponent⟩ := d
  obtain ⟨k, rfl⟩ := Int.eq_ofNat_of_zero_le whole
  have product : digits * 10 ^ k = n := by
    rw [Decimal.value, zpow_natCast] at value
    exact_mod_cast value
  have digitsNonzero : digits ≠ 0 := by
    rintro rfl
    exact nonzero (by rw [← product, Nat.zero_mul])
  have places : Digits.count digits - 1 + k < 21 := by
    apply (Nat.pow_lt_pow_iff_right (by decide : 1 < 10)).mp
    calc 10 ^ (Digits.count digits - 1 + k) = 10 ^ (Digits.count digits - 1) * 10 ^ k := pow_add _ _ _
      _ ≤ digits * 10 ^ k := Nat.mul_le_mul_right _ (Digits.pow_count_le digitsNonzero)
      _ < 10 ^ 21 := product ▸ small
  have count := Digits.count_pos digits
  have plain : 0 ≤ (k : Int) ∧ (k : Int) + Digits.count digits ≤ 21 := by omega
  simp only [literal, if_pos plain, Int.toNat_natCast, Nat.pow_eq, product]

end Decimal
end Attest
