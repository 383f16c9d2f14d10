import Mathlib.Data.List.Induction
import Mathlib.Data.Nat.Log
import Mathlib.Tactic.Ring
import Attest.Number.Digits
import Attest.Proofs.Text.Utf8

namespace Attest.Digits

theorem value_append_digit (ds : List Digit) (d : Digit) : value (ds ++ [d]) = 10 * value ds + d := by
  simp [value, List.foldl_append]

theorem length_lastOf (k n : Nat) : (lastOf k n).length = k := by
  induction k generalizing n with
  | zero => rfl
  | succ k ih => simp [lastOf, ih]

theorem value_lastOf (k n : Nat) : value (lastOf k n) = n % 10 ^ k := by
  induction k generalizing n with
  | zero => simp [lastOf, value, Nat.mod_one]
  | succ k ih =>
    rw [lastOf, value_append_digit, ih, pow_succ', Nat.mod_mul]
    exact Nat.add_comm _ _

theorem lastOf_succ (k n : Nat) :
    lastOf (k + 1) n = ⟨n / 10 ^ k % 10, Nat.mod_lt _ (by decide)⟩ :: lastOf k n := by
  induction k generalizing n with
  | zero => simp [lastOf]
  | succ k ih =>
    have last : lastOf (k + 1) n = lastOf k (n / 10) ++ [⟨n % 10, Nat.mod_lt _ (by decide)⟩] := rfl
    rw [lastOf, ih (n / 10), List.cons_append, ← last]
    simp only [Nat.div_div_eq_div_mul, pow_succ']

theorem count_eq_log (n : Nat) : count n = Nat.log 10 n + 1 := by
  induction n using Nat.strong_induction_on with
  | _ n ih =>
    by_cases small : n < 10
    · rw [count, Nat.toDigits_of_lt_base small, Nat.log_of_lt small]
      rfl
    · have fewer := ih (n / 10) (by omega)
      rw [count] at fewer
      rw [count, Nat.toDigits_of_base_le (by decide) (by omega), List.length_append, fewer,
        Nat.log_of_one_lt_of_le (by decide) (by omega : 10 ≤ n)]
      rfl

theorem lt_pow_count (n : Nat) : n < 10 ^ count n := by
  rw [count_eq_log]
  exact Nat.lt_pow_succ_log_self (by decide) n

theorem pow_count_le {n : Nat} (nonzero : n ≠ 0) : 10 ^ (count n - 1) ≤ n := by
  rw [count_eq_log]
  exact Nat.pow_log_le_self 10 nonzero

theorem count_pos (n : Nat) : 0 < count n := by
  rw [count_eq_log]
  omega

theorem value_lastOf_count (n : Nat) : value (lastOf (count n) n) = n := by
  rw [value_lastOf, Nat.mod_eq_of_lt (lt_pow_count n)]

theorem toDigits_eq_chars (n : Nat) : Nat.toDigits 10 n = chars (lastOf (count n) n) := by
  have digitChar : ∀ d < 10, Nat.digitChar d = Char.ofNat (48 + d) := by decide
  induction n using Nat.strong_induction_on with
  | _ n ih =>
    by_cases small : n < 10
    · rw [count_eq_log, Nat.log_of_lt small, Nat.toDigits_of_lt_base small, digitChar n small]
      simp [lastOf, chars, Nat.mod_eq_of_lt small]
    · have more : count n = count (n / 10) + 1 := by
        rw [count_eq_log, count_eq_log, Nat.log_of_one_lt_of_le (by decide) (by omega : 10 ≤ n)]
      rw [Nat.toDigits_of_base_le (by decide) (by omega), ih (n / 10) (by omega), more, lastOf,
        digitChar _ (Nat.mod_lt _ (by decide))]
      simp [chars]

theorem lastOf_count_eq_cons (n : Nat) :
    ∃ d ds, lastOf (count n) n = d :: ds ∧ (d = 0 → ds = []) := by
  obtain ⟨k, more⟩ : ∃ k, count n = k + 1 := ⟨count n - 1, by have := count_pos n; omega⟩
  refine ⟨_, _, more ▸ lastOf_succ k n, fun zero => ?_⟩
  rcases Nat.eq_zero_or_pos k with rfl | large
  · rfl
  · -- A number of two digits or more has a leading digit that is not zero.
    exfalso
    have nonzero : n ≠ 0 := by
      rintro rfl
      have := count_eq_log 0
      simp at this
      omega
    have bound := lt_pow_count n
    have least := pow_count_le nonzero
    rw [more] at bound least
    have quotient : n / 10 ^ k < 10 := Nat.div_lt_of_lt_mul (by rw [← pow_succ]; exact bound)
    have positive : 0 < n / 10 ^ k := Nat.div_pos least (Nat.pow_pos (by decide))
    have lead := congrArg Fin.val zero
    simp only [Nat.mod_eq_of_lt quotient, Fin.val_zero] at lead
    omega

def bytes (ds : List Digit) : Bytes := ds.map fun d => UInt8.ofNat (48 + d.val)

theorem ofChars_chars (ds : List Digit) : Utf8.ofChars (chars ds) = bytes ds := by
  induction ds with
  | nil => rfl
  | cons d ds ih =>
    have ascii : ∀ d : Digit, String.utf8EncodeChar (.ofNat (48 + d.val)) = [UInt8.ofNat (48 + d.val)] := by
      decide
    simp only [chars, List.map_cons, Utf8.ofChars_cons, ascii] at ih ⊢
    simp [bytes, ih]

theorem ofByte?_digit : ∀ d : Digit, ofByte? (UInt8.ofNat (48 + d.val)) = some d := by decide

def Ends (rest : Bytes) : Prop := ∀ b ∈ rest.head?, ofByte? b = none

theorem split_bytes (ds : List Digit) {rest : Bytes} (ends : Ends rest) :
    split (bytes ds ++ rest) = (ds, rest) := by
  induction ds with
  | nil =>
    cases rest with
    | nil => rfl
    | cons b rest =>
      have stop : ofByte? b = none := ends b rfl
      simp [bytes, split, stop]
  | cons d ds ih =>
    rw [bytes] at ih
    rw [bytes, List.map_cons, List.cons_append, split, ofByte?_digit, ih]

theorem value_cons (d : Digit) (ds : List Digit) : value (d :: ds) = d * 10 ^ ds.length + value ds := by
  induction ds using List.reverseRecOn with
  | nil => simp [value]
  | append_singleton ds e ih =>
    rw [← List.cons_append, value_append_digit, value_append_digit, ih, List.length_append,
      List.length_singleton, pow_succ]
    ring

theorem value_lt (ds : List Digit) : value ds < 10 ^ ds.length := by
  induction ds with
  | nil => simp [value]
  | cons d ds ih =>
    have small : (d : Nat) + 1 ≤ 10 := d.isLt
    have most := Nat.mul_le_mul_right (10 ^ ds.length) small
    rw [value_cons, List.length_cons, pow_succ']
    rw [Nat.add_one_mul] at most
    omega

theorem lastOf_value (ds : List Digit) : lastOf ds.length (value ds) = ds := by
  induction ds using List.reverseRecOn with
  | nil => rfl
  | append_singleton ds d ih =>
    have small : (d : Nat) < 10 := d.isLt
    have front : (10 * value ds + d) / 10 = value ds := by omega
    have last : (10 * value ds + d) % 10 = d := by omega
    rw [List.length_append, List.length_singleton, lastOf, value_append_digit, front, ih]
    congr 2
    exact Fin.ext last

/-- Digits that do not begin with a zero are those of the number they denote, and so is a single zero. -/
theorem lastOf_count_value {d : Digit} {ds : List Digit} (lead : d = 0 → ds = []) :
    lastOf (count (value (d :: ds))) (value (d :: ds)) = d :: ds := by
  have count : count (value (d :: ds)) = (d :: ds).length := by
    by_cases zero : d = 0
    · rw [lead zero, zero]
      rfl
    · have positive : 1 ≤ (d : Nat) := Nat.pos_of_ne_zero fun none => zero (Fin.ext none)
      have least := Nat.mul_le_mul_right (10 ^ ds.length) positive
      have most := value_lt (d :: ds)
      rw [count_eq_log, List.length_cons, Nat.add_right_cancel_iff]
      apply Nat.log_eq_of_pow_le_of_lt_pow _ most
      rw [value_cons]
      omega
  rw [count, lastOf_value]

theorem eq_of_ofByte? {b : UInt8} {d : Digit} (read : ofByte? b = some d) :
    b = UInt8.ofNat (48 + d.val) := by
  unfold ofByte? at read
  split at read
  · rename_i inside
    cases read
    rw [Nat.add_sub_cancel' inside.1, UInt8.ofNat_toNat]
  · cases read

theorem eq_of_split {input rest : Bytes} {ds : List Digit} (read : split input = (ds, rest)) :
    input = bytes ds ++ rest ∧ Ends rest := by
  induction input generalizing ds with
  | nil =>
    cases read
    exact ⟨rfl, nofun⟩
  | cons b input ih =>
    rw [split] at read
    cases digit : ofByte? b with
    | some d =>
      simp only [digit, Prod.mk.injEq] at read
      obtain ⟨rfl, rfl⟩ := read
      obtain ⟨front, ends⟩ := ih rfl
      refine ⟨?_, ends⟩
      rw [bytes, List.map_cons, List.cons_append, ← eq_of_ofByte? digit]
      exact congrArg (b :: ·) front
    | none =>
      simp only [digit, Prod.mk.injEq] at read
      obtain ⟨rfl, rfl⟩ := read
      refine ⟨rfl, fun a first => ?_⟩
      obtain rfl : b = a := by simpa using first
      exact digit

end Attest.Digits
