import Attest.Proofs.Number.Product
import Attest.Proofs.Random.Shuffle

namespace Attest.Random

variable {α : Type}

theorem decode_unit (u : UInt32) : ∃ x, (unit u).decode = .finite false x ∧ x.value = u.toNat / 2 ^ 32 :=
  Double.decode_dyadic (u.toNat_lt.trans (by decide)) (by decide)

theorem decode_ofNat {m : Nat} (small : m < 2 ^ 53) :
    ∃ x, (Double.ofNat m).decode = .finite false x ∧ x.value = m := by
  obtain ⟨x, decoded, value⟩ := Double.decode_dyadic small (Nat.zero_le 1074)
  exact ⟨x, decoded, by rw [value, pow_zero, div_one]⟩

/-- The index among `m` items in double arithmetic, if no step of it fails. -/
def index? (u : UInt32) (m : Nat) : Option Nat := ((unit u).times? (.ofNat m)).map Magnitude.floor

theorem below_eq (u : UInt32) (m : Nat) :
    below u m = ⌊((binary64.roundRat (u.toNat * m / 2 ^ 32)).getD binary64.zero).value⌋₊ := by
  have power : Nat.pow 2 32 ≠ 0 := (Nat.pow_pos (by decide)).ne'
  rw [below, Magnitude.floor_eq, BinaryFormat.round_eq _ _ power, Nat.pow_eq, Nat.cast_mul, Nat.cast_pow,
    Nat.cast_ofNat]

theorem index?_eq (u : UInt32) {m : Nat} (small : m < 2 ^ 53) :
    index? u m = (binary64.roundRat (u.toNat * m / 2 ^ 32)).map fun x => ⌊x.value⌋₊ := by
  obtain ⟨x, draw, part⟩ := decode_unit u
  obtain ⟨y, items, count⟩ := decode_ofNat small
  rw [index?, Double.times?_eq draw items, part, count, div_mul_eq_mul_div]
  exact congrArg (Option.map · _) (funext Magnitude.floor_eq)

theorem product_bounds (u : UInt32) {m : Nat} (drawn : u.toNat ≠ 0) (positive : 0 < m) :
    (1 / 2 ^ 32 : ℚ) ≤ u.toNat * m / 2 ^ 32 ∧ (u.toNat * m / 2 ^ 32 : ℚ) ≤ (2 ^ 32 - 1) * m / 2 ^ 32 := by
  have items : (1 : ℚ) ≤ m := by exact_mod_cast positive
  have least : (1 : ℚ) ≤ u.toNat := by exact_mod_cast Nat.pos_of_ne_zero drawn
  have most : (u.toNat + 1 : ℚ) ≤ 2 ^ 32 := by exact_mod_cast u.toNat_lt
  constructor
  · exact div_le_div_of_nonneg_right (one_le_mul_of_one_le_of_one_le least items) (by norm_num)
  · exact div_le_div_of_nonneg_right (mul_le_mul_of_nonneg_right (by linarith) (by linarith)) (by norm_num)

theorem exists_roundRat_lt (u : UInt32) {m : Nat} (positive : 0 < m) (small : m < 2 ^ 53) :
    ∃ x, binary64.roundRat (u.toNat * m / 2 ^ 32) = some x ∧ x.value < m := by
  have items : (0 : ℚ) < m := Nat.cast_pos.mpr positive
  by_cases zero : u.toNat = 0
  · refine ⟨binary64.zero, if_pos (by rw [zero, Nat.cast_zero, zero_mul, zero_div]), ?_⟩
    rwa [Magnitude.value, BinaryFormat.zero, Nat.cast_zero, zero_mul]
  · obtain ⟨above, below⟩ := product_bounds u zero positive
    have regular := BinaryFormat.binary64_regular
    have precision : binary64.precision = 53 := rfl
    have normal : (2 : ℚ) ^ (-1022 : Int) ≤ u.toNat * m / 2 ^ 32 :=
      calc (2 : ℚ) ^ (-1022 : Int) ≤ 2 ^ (-32 : Int) := zpow_le_zpow_right₀ one_le_two (by decide)
        _ = 1 / 2 ^ 32 := by norm_num
        _ ≤ u.toNat * m / 2 ^ 32 := above
    obtain ⟨y, whole, -⟩ := BinaryFormat.roundRat_natCast regular (by decide) small.le
    obtain ⟨x, rounds⟩ := BinaryFormat.exists_roundRat_of_le (lt_of_lt_of_le (by norm_num) above)
      (by linarith) whole
    have rounded := BinaryFormat.value_le_of_roundRat regular normal rounds
    rw [precision] at rounded
    refine ⟨x, rounds, ?_⟩
    calc x.value ≤ u.toNat * m / 2 ^ 32 * (1 + 1 / 2 ^ 53) := rounded
      _ ≤ (2 ^ 32 - 1) * m / 2 ^ 32 * (1 + 1 / 2 ^ 53) := mul_le_mul_of_nonneg_right below (by norm_num)
      _ = m * ((2 ^ 32 - 1) / 2 ^ 32 * (1 + 1 / 2 ^ 53)) := by ring
      _ < m := mul_lt_of_lt_one_right items (by norm_num)

theorem below_lt (u : UInt32) {m : Nat} (positive : 0 < m) (small : m < 2 ^ 53) : below u m < m := by
  obtain ⟨x, rounds, less⟩ := exists_roundRat_lt u positive small
  rw [below_eq, rounds, Option.getD_some]
  exact (Nat.floor_lt x.value_nonneg).mpr less

theorem below_zero (u : UInt32) : below u 0 = 0 := by
  have zero : binary64.zero.value = 0 := zero_mul _
  have none : (u.toNat * (0 : Nat) / 2 ^ 32 : ℚ) = 0 := by rw [Nat.cast_zero, mul_zero, zero_div]
  rw [below_eq, none, BinaryFormat.roundRat, if_pos rfl, Option.getD_some, zero, Nat.floor_zero]

theorem index?_eq_below (u : UInt32) {m : Nat} (small : m < 2 ^ 53) : index? u m = some (below u m) := by
  have rounds : ∃ x, binary64.roundRat (u.toNat * m / 2 ^ 32) = some x := by
    rcases Nat.eq_zero_or_pos m with rfl | positive
    · exact ⟨binary64.zero, if_pos (by rw [Nat.cast_zero, mul_zero, zero_div])⟩
    · obtain ⟨x, rounds, -⟩ := exists_roundRat_lt u positive small
      exact ⟨x, rounds⟩
  obtain ⟨x, rounds⟩ := rounds
  rw [index?_eq u small, below_eq, rounds, Option.map_some, Option.getD_some]

def nextInt? (max : UInt32) (r : Random) : Option UInt32 × Random :=
  let (u, r) := r.next
  ((index? u max.toNat).map fun n => UInt32.ofNat (min n (2 ^ 32 - 1)), r)

def pick? (items : List α) (r : Random) : Option α × Random :=
  let (u, r) := r.next
  ((index? u items.length).bind fun j => items[j]?, r)

/-- Exchanges the items with those at the indices that draws give, as long as there are such items. -/
def shuffleFrom? (draw : Random → UInt32 × Random) : (i : Nat) → Array α → Random → Option (Array α × Random)
  | 0, items, r => some (items, r)
  | i + 1, items, r =>
    let (u, r) := draw r
    (index? u (i + 2)).bind fun j =>
      if inside : i + 1 < items.size ∧ j < items.size then
        shuffleFrom? draw i (items.swap (i + 1) j inside.1 inside.2) r
      else none

def shuffle? (items : List α) (r : Random) : Option (List α × Random) :=
  (shuffleFrom? next (items.length - 1) items.toArray r).map fun (items, r) => (items.toList, r)

theorem nextInt?_eq (max : UInt32) (r : Random) : ∃ n : UInt32, nextInt? max r = (some n, (nextBelow max.toNat r).2) ∧
    n.toNat = (nextBelow max.toNat r).1 ∧ (0 < max → n < max) := by
  have bound := max.toNat_lt
  unfold nextInt? nextBelow
  generalize r.next = drawn
  obtain ⟨u, r⟩ := drawn
  have few : below u max.toNat < 2 ^ 32 := by
    rcases Nat.eq_zero_or_pos max.toNat with zero | positive
    · rw [zero, below_zero]
      decide
    · exact (below_lt u positive (by omega)).trans bound
  have value : (UInt32.ofNat (below u max.toNat)).toNat = below u max.toNat := UInt32.toNat_ofNat_of_lt few
  refine ⟨.ofNat (below u max.toNat), ?_, value, ?_⟩
  · dsimp only
    rw [index?_eq_below u (by omega), Option.map_some, Nat.min_eq_left (Nat.le_sub_one_of_lt few)]
  · intro positive
    rw [UInt32.lt_iff_toNat_lt, value]
    exact below_lt u (UInt32.lt_iff_toNat_lt.mp positive) (by omega)

theorem pick?_eq (items : List α) (r : Random) (few : items.length < 2 ^ 53) : pick? items r = pick items r := by
  unfold pick? pick
  generalize r.next = drawn
  obtain ⟨u, r⟩ := drawn
  dsimp only
  rw [index?_eq_below u few, Option.bind_some]
  cases items with
  | nil => rfl
  | cons item items =>
    have inside := below_lt u (Nat.succ_pos items.length) few
    rw [List.length_cons, Nat.add_sub_cancel, Nat.min_eq_left (Nat.le_of_lt_succ inside)]

theorem shuffleFrom?_eq (draw : Random → UInt32 × Random) {i : Nat} {items : Array α} (r : Random)
    (inside : i = 0 ∨ i < items.size) (few : items.size < 2 ^ 53) :
    shuffleFrom? draw i items r = some (shuffleFrom draw i items r) := by
  induction i generalizing items r with
  | zero => rfl
  | succ i ih =>
    rw [shuffleFrom?, shuffleFrom]
    generalize draw r = drawn
    obtain ⟨u, r⟩ := drawn
    have last : i + 1 < items.size := by omega
    have near : below u (i + 2) < i + 2 := below_lt u (by omega) (by omega)
    have first : below u (i + 2) < items.size := by omega
    dsimp only
    rw [index?_eq_below u (by omega), Option.bind_some, dif_pos ⟨last, first⟩,
      Nat.min_eq_left (Nat.le_of_lt_succ near), Array.swapIfInBounds_def, dif_pos last, dif_pos first]
    exact ih r (by rw [Array.size_swap]; omega) (by rwa [Array.size_swap])

theorem shuffle?_eq (items : List α) (r : Random) (few : items.length < 2 ^ 53) :
    shuffle? items r = some (shuffle items r) := by
  have inside : items.length - 1 = 0 ∨ items.length - 1 < items.toArray.size := by
    rw [List.size_toArray]
    omega
  rw [shuffle?, shuffleFrom?_eq next r inside few, Option.map_some]
  rfl

/-- An index from a draw is below the number of items, although their product was rounded. So numbers below a bound
are below it, and a pick and a shuffle without guards are what they are with guards. -/
theorem drawn_indices_stay_in_range :
    (∀ (u : UInt32) (m : Nat), 0 < m → m < 2 ^ 53 →
      ∃ x, binary64.roundRat (u.toNat * m / 2 ^ 32) = some x ∧ ⌊x.value⌋₊ < m ∧
        below u m = ⌊x.value⌋₊ ∧ index? u m = some ⌊x.value⌋₊) ∧
    (∀ (max : UInt32) (r : Random), ∃ n : UInt32, nextInt? max r = (some n, (nextBelow max.toNat r).2) ∧
      n.toNat = (nextBelow max.toNat r).1 ∧ (0 < max → n < max)) ∧
    ∀ {α : Type} (items : List α) (r : Random), items.length < 2 ^ 53 →
      pick? items r = pick items r ∧ shuffle? items r = some (shuffle items r) := by
  refine ⟨?_, nextInt?_eq, fun items r few => ⟨pick?_eq items r few, shuffle?_eq items r few⟩⟩
  intro u m positive small
  obtain ⟨x, rounds, less⟩ := exists_roundRat_lt u positive small
  have index : below u m = ⌊x.value⌋₊ := by rw [below_eq, rounds, Option.getD_some]
  exact ⟨x, rounds, (Nat.floor_lt x.value_nonneg).mpr less, index, by rw [index?_eq_below u small, index]⟩

/-- The greatest draw, and a number of items for which rounding carries it to the next natural number. -/
theorem drawn_indices_stay_in_range_carried :
    let u : UInt32 := 0xFFFFFFFF
    let m := 2 ^ 53 - 2 ^ 32 + 1
    0 < m ∧ m < 2 ^ 53 ∧ below u m = u.toNat * m / 2 ^ 32 + 1 ∧ below u m < m ∧ index? u m = some (below u m) ∧
      (pick? ["a", "b", "c", "d"] (ofSeed "reach")).1 = some "d" := by
  intro u m
  have positive : 0 < m := by decide
  have small : m < 2 ^ 53 := by decide
  have carried : below u m = u.toNat * m / 2 ^ 32 + 1 := by decide +kernel
  have picked : (pick ["a", "b", "c", "d"] (ofSeed "reach")).1 = some "d" := by decide +kernel
  obtain ⟨inside, -, guards⟩ := drawn_indices_stay_in_range
  obtain ⟨x, -, less, exact, doubles⟩ := inside u m positive small
  refine ⟨positive, small, carried, exact ▸ less, exact ▸ doubles, ?_⟩
  rw [(guards ["a", "b", "c", "d"] (ofSeed "reach") (by decide)).1, picked]

end Attest.Random
