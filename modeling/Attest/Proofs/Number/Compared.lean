import Attest.Number.Double
import Attest.Proofs.Number.Rounding
import Mathlib.Algebra.Order.Group.Basic
import Mathlib.Order.Monotone.Odd
import Mathlib.Order.WithBot

namespace Attest

def FloatValue.extended? : FloatValue → Option (WithBot (WithTop ℚ))
  | .nan => none
  | .infinite negative => some (if negative then ⊥ else (⊤ : WithTop ℚ))
  | .finite negative x => some ((if negative then -x.value else x.value : ℚ) : WithTop ℚ)

namespace Double

def infinityBits : Nat := 0x7FF0000000000000

def magnitudeOf (pattern : Nat) : Magnitude :=
  if pattern / 2 ^ 52 = 0 then ⟨pattern % 2 ^ 52, -1074⟩
  else ⟨2 ^ 52 + pattern % 2 ^ 52, -1074 + (pattern / 2 ^ 52 : Nat) - 1⟩

theorem decode_cases (x : Double) :
    (x.magnitudeBits < infinityBits ∧ x.decode = .finite x.isNegative (magnitudeOf x.magnitudeBits)) ∨
    (x.magnitudeBits = infinityBits ∧ x.decode = .infinite x.isNegative) ∨
    (infinityBits < x.magnitudeBits ∧ x.decode = .nan) := by
  have bound : x.bits.toNat < 2 ^ 64 := x.bits.toNat_lt
  have hidden : binary64.hidden = 2 ^ 52 := rfl
  have fields : binary64.fields = 2048 := rfl
  have least : binary64.least = -1074 := rfl
  have split : x.magnitudeBits = x.bits.toNat % 2 ^ 63 := rfl
  have field : x.bits.toNat / 2 ^ 52 % 2048 = x.magnitudeBits / 2 ^ 52 := by omega
  have fraction : x.bits.toNat % 2 ^ 52 = x.magnitudeBits % 2 ^ 52 := by omega
  have sign : (x.bits.toNat / 2 ^ 52 / 2048 % 2 == 1) = x.isNegative := by
    show _ = decide (2 ^ 63 ≤ x.bits.toNat)
    rw [Bool.eq_iff_iff, beq_iff_eq, decide_eq_true_eq]
    omega
  have decoded : x.decode = if x.magnitudeBits / 2 ^ 52 + 1 = 2048 then
      if x.magnitudeBits % 2 ^ 52 = 0 then .infinite x.isNegative else .nan
      else .finite x.isNegative (magnitudeOf x.magnitudeBits) := by
    unfold decode BinaryFormat.decode magnitudeOf
    rw [hidden, fields, least, field, fraction, sign]
    by_cases small : x.magnitudeBits / 2 ^ 52 = 0
    · rw [if_pos small, if_neg (by omega), if_pos small]
    · rw [if_neg small, if_neg small]
  rw [decoded, infinityBits]
  by_cases last : x.magnitudeBits / 2 ^ 52 + 1 = 2048
  · rw [if_pos last]
    by_cases whole : x.magnitudeBits % 2 ^ 52 = 0
    · rw [if_pos whole]
      exact .inr (.inl ⟨by omega, rfl⟩)
    · rw [if_neg whole]
      exact .inr (.inr ⟨by omega, rfl⟩)
  · rw [if_neg last]
    exact .inl ⟨by omega, rfl⟩

theorem value_magnitudeOf_zero : (magnitudeOf 0).value = 0 := by simp [magnitudeOf, Magnitude.value]

theorem value_magnitudeOf_strictMono : StrictMono fun pattern => (magnitudeOf pattern).value := by
  apply strictMono_nat_of_lt_succ
  intro n
  have unit (e : Int) : (0 : ℚ) < 2 ^ e := zpow_pos (by norm_num) e
  unfold magnitudeOf Magnitude.value
  -- The fraction goes up by one, or is full and the exponent goes up by one.
  by_cases carry : n % 2 ^ 52 + 1 = 2 ^ 52
  · have field : (n + 1) / 2 ^ 52 = n / 2 ^ 52 + 1 := by omega
    have fraction : (n + 1) % 2 ^ 52 = 0 := by omega
    rw [field, fraction, if_neg (Nat.succ_ne_zero _)]
    by_cases least : n / 2 ^ 52 = 0
    · rw [if_pos least, least]
      dsimp only
      exact mul_lt_mul_of_pos_right (Nat.cast_lt.mpr (by omega)) (unit _)
    · have next : (-1074 + (n / 2 ^ 52 + 1 : Nat) - 1 : Int) = (-1074 + (n / 2 ^ 52 : Nat) - 1) + 1 := by omega
      rw [if_neg least]
      dsimp only
      rw [next, zpow_add_one₀ (by norm_num), mul_comm _ (2 : ℚ), ← mul_assoc]
      apply mul_lt_mul_of_pos_right _ (unit _)
      exact_mod_cast (by omega : 2 ^ 52 + n % 2 ^ 52 < (2 ^ 52 + 0) * 2)
  · have field : (n + 1) / 2 ^ 52 = n / 2 ^ 52 := by omega
    have fraction : (n + 1) % 2 ^ 52 = n % 2 ^ 52 + 1 := by omega
    rw [field, fraction]
    split
    all_goals
      dsimp only
      exact mul_lt_mul_of_pos_right (Nat.cast_lt.mpr (by omega)) (unit _)

def signedValue (key : Int) : ℚ :=
  if key < 0 then -(magnitudeOf key.natAbs).value else (magnitudeOf key.natAbs).value

theorem signedValue_lt {j k : Int} (less : j < k) : signedValue j < signedValue k := by
  have odd (k : Int) : signedValue (-k) = -signedValue k := by
    unfold signedValue
    rw [Int.natAbs_neg]
    rcases lt_trichotomy k 0 with negative | rfl | positive
    · rw [if_neg (by omega), if_pos negative, neg_neg]
    · simp [value_magnitudeOf_zero]
    · rw [if_pos (by omega), if_neg (by omega)]
  apply strictMono_of_odd_strictMonoOn_nonneg odd _ less
  intro j low k high less
  simp only [Set.mem_Ici] at low high
  unfold signedValue
  rw [if_neg (by omega), if_neg (by omega)]
  exact value_magnitudeOf_strictMono (by omega)

theorem signedValue_valueKey (x : Double) : signedValue x.valueKey =
    if x.isNegative then -(magnitudeOf x.magnitudeBits).value else (magnitudeOf x.magnitudeBits).value := by
  unfold signedValue valueKey
  cases x.isNegative
  · simp
  · by_cases zero : x.magnitudeBits = 0
    · simp [zero, value_magnitudeOf_zero]
    · simp only [if_true, Int.natAbs_neg, Int.natAbs_natCast]
      rw [if_pos (by omega)]

def extendedValue (key : Int) : WithBot (WithTop ℚ) :=
  if key = infinityBits then (⊤ : WithTop ℚ)
  else if key = -infinityBits then ⊥
  else (signedValue key : WithTop ℚ)

theorem extendedValue_lt {j k : Int} (above : -infinityBits ≤ j) (less : j < k) (below : k ≤ infinityBits) :
    extendedValue j < extendedValue k := by
  unfold extendedValue
  rw [if_neg (by omega : ¬ j = infinityBits), if_neg (by omega : ¬ k = -infinityBits)]
  by_cases top : k = infinityBits
  · rw [if_pos top]
    split
    · exact WithBot.bot_lt_coe _
    · exact WithBot.coe_lt_coe.mpr (WithTop.coe_lt_top _)
  · rw [if_neg top]
    split
    · exact WithBot.bot_lt_coe _
    · exact WithBot.coe_lt_coe.mpr (WithTop.coe_lt_coe.mpr (signedValue_lt less))

theorem extended_decode (x : Double) :
    (x.isNaN = true ∧ x.decode.extended? = none) ∨
    (x.isNaN = false ∧ (-infinityBits ≤ x.valueKey ∧ x.valueKey ≤ infinityBits) ∧
      x.decode.extended? = some (extendedValue x.valueKey)) := by
  have named : x.isNaN = decide (infinityBits < x.magnitudeBits) := rfl
  have within (small : x.magnitudeBits ≤ infinityBits) :
      -infinityBits ≤ x.valueKey ∧ x.valueKey ≤ infinityBits := by
    unfold valueKey
    split <;> omega
  rcases decode_cases x with ⟨small, decoded⟩ | ⟨equal, decoded⟩ | ⟨large, decoded⟩
  · refine .inr ⟨by rw [named, decide_eq_false (by omega)], within small.le, ?_⟩
    have apart : x.valueKey ≠ infinityBits ∧ x.valueKey ≠ -infinityBits := by
      unfold valueKey
      split <;> omega
    rw [decoded, extendedValue, if_neg apart.1, if_neg apart.2, signedValue_valueKey]
    rfl
  · refine .inr ⟨by rw [named, decide_eq_false (by omega)], within equal.le, ?_⟩
    rw [decoded, extendedValue, valueKey, equal]
    cases x.isNegative <;> rfl
  · exact .inl ⟨by rw [named, decide_eq_true large], by rw [decoded]; rfl⟩

theorem order_eq (x y : Double) : x.order y = match x.decode.extended?, y.decode.extended? with
    | some a, some b => compare a b
    | _, _ => compare x.patternKey y.patternKey := by
  unfold order
  rcases extended_decode x with ⟨nan, none⟩ | ⟨number, within, value⟩
  · rw [nan, none]
    rfl
  · rcases extended_decode y with ⟨nan, none⟩ | ⟨other, inside, worth⟩
    · rw [nan, none, Bool.or_true]
      cases x.decode.extended? <;> rfl
    · rw [number, other, value, worth]
      dsimp only [Bool.or_self]
      rcases lt_trichotomy x.valueKey y.valueKey with less | equal | greater
      · have values := extendedValue_lt within.1 less inside.2
        exact (Int.compare_eq_lt.mpr less).trans (compare_lt_iff_lt.mpr values).symm
      · rw [equal]
        exact (Int.compare_eq_eq.mpr rfl).trans (compare_eq_iff_eq.mpr rfl).symm
      · have values := extendedValue_lt inside.1 greater within.2
        exact (Int.compare_eq_gt.mpr greater).trans (compare_gt_iff_gt.mpr values).symm

theorem patternKey_outside {x y : Double} (nan : x.isNaN = true) (number : y.isNaN = false) :
    (x.patternKey < y.patternKey ∧ x.patternKey < y.valueKey) ∨
      (y.patternKey < x.patternKey ∧ y.valueKey < x.patternKey) := by
  unfold isNaN at nan number
  rw [decide_eq_true_eq] at nan
  rw [decide_eq_false_iff_not] at number
  unfold patternKey valueKey
  cases x.isNegative <;> cases y.isNegative <;> simp only [if_true, Bool.false_eq_true, if_false] <;> omega

/-- The numbers by their values, and around them the NaNs by their patterns. -/
def orderKey (x : Double) : Int := if x.isNaN then x.patternKey else x.valueKey

theorem order_eq_compare (x y : Double) : x.order y = compare x.orderKey y.orderKey := by
  unfold order orderKey
  cases left : x.isNaN <;> cases right : y.isNaN
  · rfl
  · rcases patternKey_outside right left with ⟨pattern, value⟩ | ⟨pattern, value⟩
    · exact (Int.compare_eq_gt.mpr pattern).trans (Int.compare_eq_gt.mpr value).symm
    · exact (Int.compare_eq_lt.mpr pattern).trans (Int.compare_eq_lt.mpr value).symm
  · rcases patternKey_outside left right with ⟨pattern, value⟩ | ⟨pattern, value⟩
    · exact (Int.compare_eq_lt.mpr pattern).trans (Int.compare_eq_lt.mpr value).symm
    · exact (Int.compare_eq_gt.mpr pattern).trans (Int.compare_eq_gt.mpr value).symm
  · rfl

end Double
end Attest
