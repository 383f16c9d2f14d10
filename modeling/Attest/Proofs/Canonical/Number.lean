import Attest.Proofs.Canonical.Integer
import Attest.Proofs.Number.Exact

namespace Attest

namespace Literal

variable {l : Literal}

theorem magnitude_nonneg (l : Literal) : 0 ≤ l.magnitude :=
  mul_nonneg (Nat.cast_nonneg _) (zpow_pos (by norm_num) _).le

theorem abs_value (l : Literal) : |l.value| = l.magnitude := by
  rw [value]
  split
  · rw [abs_neg, abs_of_nonneg l.magnitude_nonneg]
  · exact abs_of_nonneg l.magnitude_nonneg

theorem negative_eq (nonzero : l.value ≠ 0) : l.negative = decide (l.value < 0) := by
  have positive : 0 < l.magnitude := by
    rw [← l.abs_value]
    exact abs_pos.mpr nonzero
  rw [value]
  cases l.negative with
  | true => simp [positive]
  | false => simp [positive.le]

theorem value_of_isInteger (integer : l.isInteger = true) : l.value = withSign l.negative l.whole := by
  rw [value, magnitude_of_isInteger integer, withSign]
  split <;> push_cast <;> rfl

end Literal

namespace Canonical

variable {l : Literal}

/-- What is made for a magnitude in the safe range is no integer beyond it: such an integer would be read
as another magnitude. -/
theorem settle_ofMagnitude {x : Magnitude} (fits : x.Fits binary64) (safe : x.value ≤ maxSafeInteger)
    (tie : Tie) (negative : Bool) :
    settle (.ofMagnitude binary64 tie negative x) = .number (.ofMagnitude binary64 tie negative x) := by
  have regular := BinaryFormat.binary64_regular
  apply if_neg
  rintro ⟨integer, beyond⟩
  have rounds := Literal.round_ofMagnitude regular tie negative fits
  rw [Literal.round_eq regular, Literal.magnitude_of_isInteger integer] at rounds
  obtain ⟨y, bound, kept⟩ :=
    BinaryFormat.roundRat_natCast regular (by decide) (le_refl (2 ^ binary64.precision))
  have least := BinaryFormat.roundRat_mono regular (Nat.cast_nonneg _) (Nat.cast_le.mpr beyond) bound rounds
  rw [kept] at least
  have less : maxSafeInteger < 2 ^ binary64.precision := by decide
  exact absurd (Nat.cast_le.mp (least.trans safe)) (Nat.not_le_of_lt less)

theorem ofMagnitude_natCast {x : Magnitude} (fits : x.Fits binary64) (tie : Tie) (negative : Bool) {n : Nat}
    (value : x.value = n) (nonzero : n ≠ 0) (safe : n ≤ maxSafeInteger) :
    Literal.ofMagnitude binary64 tie negative x = ⟨negative, n, [], none⟩ := by
  have significand : x.significand ≠ 0 := by
    intro zero
    rw [Magnitude.value, zero, Nat.cast_zero, zero_mul] at value
    exact nonzero (Nat.cast_eq_zero.mp value.symm)
  have held : maxSafeInteger < 2 ^ binary64.precision := by decide
  have short : maxSafeInteger < 10 ^ 21 := by decide
  obtain ⟨whole, kept⟩ := Decimal.shortest_natCast tie BinaryFormat.binary64_regular (by decide) fits value
    (lt_of_le_of_lt safe held) nonzero
  rw [Literal.ofMagnitude, if_neg significand]
  exact Decimal.literal_natCast negative whole kept nonzero (lt_of_le_of_lt safe short)

theorem ofLiteral_of_integer_value {z : Int} (value : l.value = z) (safe : z.natAbs ≤ maxSafeInteger) :
    ofLiteral l = .number (.ofInt z) := by
  by_cases integer : l.isInteger = true
  · have same : withSign l.negative l.whole = z := by
      exact_mod_cast (Literal.value_of_isInteger integer).symm.trans value
    rw [ofLiteral_eq_exactly integer, same, exactly, if_pos safe]
  · have regular := BinaryFormat.binary64_regular
    have magnitude : l.magnitude = z.natAbs := by
      rw [← l.abs_value, value, Nat.cast_natAbs, Int.cast_abs]
    have held : maxSafeInteger ≤ 2 ^ binary64.precision := by decide
    obtain ⟨x, rounds, kept⟩ :=
      BinaryFormat.roundRat_natCast regular (by decide) (safe.trans held)
    have fits := BinaryFormat.roundRat_fits regular (Nat.cast_nonneg _) rounds
    have bounded : x.value ≤ maxSafeInteger := by
      rw [kept]
      exact_mod_cast safe
    rw [← magnitude, ← Literal.round_eq regular] at rounds
    rw [ofLiteral_of_round (Bool.not_eq_true _ ▸ integer) rounds, settle_ofMagnitude fits bounded]
    by_cases zero : z = 0
    · have nothing : x.significand = 0 := by
        by_contra some
        have positive := Magnitude.value_pos some
        rw [kept, zero] at positive
        exact lt_irrefl _ positive
      rw [Literal.ofMagnitude, if_pos nothing, zero]
    · have nonzero : l.value ≠ 0 := by
        rw [value]
        exact_mod_cast zero
      have sign : l.negative = decide (z < 0) := by
        rw [Literal.negative_eq nonzero, value, decide_eq_decide]
        exact_mod_cast Iff.rfl
      rw [ofMagnitude_natCast fits .upward _ kept (Int.natAbs_ne_zero.mpr zero) safe, sign, Literal.ofInt]

theorem ofLiteral_of_other_value (other : ∀ z : Int, l.value ≠ z) (safe : |l.value| ≤ maxSafeInteger) :
    ∃ x, binary64.roundRat |l.value| = some x ∧
      ofLiteral l = .number (.ofMagnitude binary64 .upward (l.value < 0) x) := by
  have regular := BinaryFormat.binary64_regular
  have nonzero : l.value ≠ 0 := by exact_mod_cast other 0
  have integer : l.isInteger = false := by
    rw [← Bool.not_eq_true]
    exact fun integer => other _ (Literal.value_of_isInteger integer)
  obtain ⟨bound, top, kept⟩ :=
    BinaryFormat.roundRat_natCast (n := maxSafeInteger) regular (by decide) (by decide)
  obtain ⟨x, rounds⟩ := BinaryFormat.exists_roundRat_of_le (abs_pos.mpr nonzero) safe top
  have fits := BinaryFormat.roundRat_fits regular (abs_nonneg _) rounds
  have bounded := BinaryFormat.roundRat_mono regular (abs_nonneg _) safe rounds top
  rw [kept] at bounded
  refine ⟨x, rounds, ?_⟩
  rw [l.abs_value, ← Literal.round_eq regular] at rounds
  rw [ofLiteral_of_round integer rounds, settle_ofMagnitude fits bounded, Literal.negative_eq nonzero]

/-- Two literals of one value in the safe range, spelled in whatever way, have one number in canonical
form. -/
theorem spelling_is_irrelevant {l k : Literal} (same : l.value = k.value)
    (safe : |l.value| ≤ maxSafeInteger) :
    ∃ m, ofJson (.number l) = .number m ∧ ofJson (.number k) = .number m := by
  by_cases integer : ∃ z : Int, l.value = z
  · obtain ⟨z, value⟩ := integer
    have bound : z.natAbs ≤ maxSafeInteger := by
      rw [value, ← Int.cast_abs, ← Nat.cast_natAbs] at safe
      exact_mod_cast safe
    exact ⟨_, ofLiteral_of_integer_value value bound, ofLiteral_of_integer_value (same ▸ value) bound⟩
  · obtain ⟨x, rounds, form⟩ := ofLiteral_of_other_value (not_exists.mp integer) safe
    rw [same] at integer safe rounds form
    obtain ⟨y, others, alike⟩ := ofLiteral_of_other_value (not_exists.mp integer) safe
    obtain rfl := Option.some.inj (rounds.symm.trans others)
    exact ⟨_, form, alike⟩

/-- The least safe integer, in plain digits and with a point and an exponent. -/
theorem spelling_is_irrelevant_bound :
    let plain : Literal := ⟨true, 9007199254740991, [], none⟩
    let moved : Literal := ⟨true, 90071992547409, [9, 1], some ⟨false, 2, []⟩⟩
    plain.value = moved.value ∧ |plain.value| ≤ maxSafeInteger ∧
      ∃ m, ofJson (.number plain) = .number m ∧ ofJson (.number moved) = .number m := by
  intro plain moved
  have whole : plain.value = -(9007199254740991 : ℚ) := by
    norm_num [plain, Literal.value, Literal.magnitude, Literal.significand, Literal.scale, Digits.value]
  have point : moved.value = -(9007199254740991 : ℚ) := by
    norm_num [moved, Literal.value, Literal.magnitude, Literal.significand, Literal.scale, Exponent.value,
      Digits.value]
  have same : plain.value = moved.value := whole.trans point.symm
  have safe : |plain.value| ≤ maxSafeInteger := by
    rw [whole]
    norm_num [maxSafeInteger]
  exact ⟨same, safe, spelling_is_irrelevant same safe⟩

end Canonical
end Attest
