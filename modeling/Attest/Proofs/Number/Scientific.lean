import Attest.Number.Double
import Attest.Proofs.Number.Numeral
import Attest.Proofs.Number.Shortest

namespace Attest

namespace Digits

theorem count_value {d : Digit} {ds : List Digit} (lead : d ≠ 0) :
    count (value (d :: ds)) = ds.length + 1 := by
  have single : d = 0 → ds = [] := fun zero => absurd zero lead
  have digits := congrArg List.length (lastOf_count_value single)
  rwa [length_lastOf] at digits

theorem value_singleton (d : Digit) : value [d] = d := by simp [value]

theorem toDigits_value {d : Digit} {ds : List Digit} (lead : d ≠ 0) :
    Nat.toDigits 10 (value (d :: ds)) = chars (d :: ds) := by
  rw [toDigits_eq_chars, lastOf_count_value fun zero => absurd zero lead]

theorem lastOf_count_eq_cons_of_ne_zero {n : Nat} (nonzero : n ≠ 0) :
    ∃ d ds, lastOf (count n) n = d :: ds ∧ d ≠ 0 := by
  obtain ⟨d, ds, digits, single⟩ := lastOf_count_eq_cons n
  refine ⟨d, ds, digits, fun zero => nonzero ?_⟩
  rw [← value_lastOf_count n, digits, single zero, value_singleton, zero, Fin.val_zero]

theorem value_append (ds es : List Digit) : value (ds ++ es) = value ds * 10 ^ es.length + value es := by
  induction es using List.reverseRecOn with
  | nil => simp [value]
  | append_singleton es e ih =>
    rw [← List.append_assoc, value_append_digit, value_append_digit, ih, List.length_append,
      List.length_singleton, pow_succ]
    ring

theorem value_zeros (k : Nat) : value (List.replicate k 0) = 0 := by
  induction k with
  | zero => rfl
  | succ k ih => rw [List.replicate_succ, value_cons, ih, Fin.val_zero, Nat.zero_mul]

theorem chars_append (ds es : List Digit) : chars (ds ++ es) = chars ds ++ chars es := List.map_append

theorem chars_zeros (k : Nat) : chars (List.replicate k 0) = List.replicate k '0' := List.map_replicate

theorem value_append_div (ds es : List Digit) : value (ds ++ es) / 10 ^ es.length = value ds := by
  rw [value_append, Nat.mul_comm, Nat.mul_add_div (Nat.pow_pos (by decide)),
    Nat.div_eq_of_lt (value_lt es), Nat.add_zero]

theorem lastOf_mod (k n : Nat) : lastOf k (n % 10 ^ k) = lastOf k n := by
  have same := lastOf_value (lastOf k n)
  rwa [length_lastOf, value_lastOf] at same

theorem lastOf_value_append (ds es : List Digit) : lastOf es.length (value (ds ++ es)) = es := by
  rw [← lastOf_mod, value_append, Nat.mul_add_mod', Nat.mod_eq_of_lt (value_lt es), lastOf_value]

end Digits

namespace Exponent

theorem exists_ofInt (e : Int) :
    ∃ d ds, Digits.lastOf (Digits.count e.natAbs) e.natAbs = d :: ds ∧ ofInt e = ⟨e < 0, d, ds⟩ := by
  obtain ⟨d, ds, digits, -⟩ := Digits.lastOf_count_eq_cons e.natAbs
  exact ⟨d, ds, digits, by rw [ofInt, digits]⟩

theorem chars_ofInt (e : Int) :
    (ofInt e).chars = 'e' :: (if 0 ≤ e then '+' else '-') :: Nat.toDigits 10 e.natAbs := by
  obtain ⟨d, ds, digits, spelled⟩ := exists_ofInt e
  rw [spelled, chars, Digits.toDigits_eq_chars, digits]
  by_cases sign : 0 ≤ e
  · simp [sign]
  · simp [sign, not_le.mp sign]

theorem lead_ofInt {e : Int} (nonzero : e ≠ 0) : (ofInt e).lead ≠ 0 := by
  obtain ⟨d, ds, digits, spelled⟩ := exists_ofInt e
  obtain ⟨lead, more, same, first⟩ := Digits.lastOf_count_eq_cons_of_ne_zero (Int.natAbs_ne_zero.mpr nonzero)
  obtain ⟨rfl, -⟩ := List.cons.inj (digits.symm.trans same)
  rw [spelled]
  exact first

end Exponent

/-- Digits with a point behind the first one, and an exponent. The first digit is not a zero, and the
last is none either. -/
structure Scientific where
  lead : Digit
  more : List Digit
  exponent : Int
  lead_ne_zero : lead ≠ 0
  last_ne_zero : ∀ d ∈ more.getLast?, d ≠ 0

namespace Scientific

def digits (s : Scientific) : List Digit := s.lead :: s.more

def value (s : Scientific) : ℚ := Digits.value s.digits / 10 ^ s.more.length * 10 ^ s.exponent

def decimal (s : Scientific) : Decimal := ⟨Digits.value s.digits, s.exponent - s.more.length⟩

def literal (negative : Bool) (s : Scientific) : Literal := s.decimal.literal negative

/-- The text `d₁.d₂d₃…e<exponent>`; there is no point behind a single digit. -/
def chars (s : Scientific) : List Char :=
  Digits.chars [s.lead] ++ (if s.more.isEmpty then [] else '.' :: Digits.chars s.more) ++
    'e' :: (toString s.exponent).toList

theorem value_decimal (s : Scientific) : s.decimal.value = s.value := by
  rw [value, decimal, Decimal.value, zpow_sub₀ (by norm_num), zpow_natCast]
  ring

theorem count_digits (s : Scientific) : Digits.count (Digits.value s.digits) = s.more.length + 1 :=
  Digits.count_value s.lead_ne_zero

end Scientific

def inInt32? (n : Int) : Option Int := if -2 ^ 31 ≤ n ∧ n < 2 ^ 31 then some n else none

def readInt32? (text : List Char) : Option Int :=
  let (negative, digits) := splitSign text
  if digits.isEmpty || !digits.all Char.isDigit then none
  else inInt32? (withSign negative (digits.foldl (fun n c => 10 * n + (c.toNat - 48)) 0))

def splitOnce? (c : Char) (text : List Char) : Option (List Char × List Char) :=
  match text.dropWhile (· != c) with
  | [] => none
  | _ :: rest => some (text.takeWhile (· != c), rest)

def cut? (i : Nat) (text : List Char) : Option (List Char × List Char) :=
  if i ≤ text.length then some (text.take i, text.drop i) else none

/-- The point put among digits that stand for `d₁.d₂d₃… * 10 ^ exponent`. Every cut is in the digits, and
every count in 32 bits, or there is no result. -/
def place? (negative : Bool) (digits : List Char) (exponent : Int) : Option (List Char) := do
  let sign := signChars negative
  let k ← inInt32? digits.length
  let n ← inInt32? (exponent + 1)
  if k ≤ n ∧ n ≤ 21 then
    return sign ++ (digits ++ List.replicate (n - k).toNat '0')
  else if 0 < n ∧ n ≤ 21 then
    let (whole, fraction) ← cut? n.toNat digits
    return sign ++ (whole ++ '.' :: fraction)
  else if -6 < n ∧ n ≤ 0 then
    return sign ++ ('0' :: '.' :: (List.replicate (-n).toNat '0' ++ digits))
  else
    let (first, rest) ← cut? 1 digits
    let e ← inInt32? (n - 1)
    let size ← inInt32? e.natAbs
    return sign ++ (first ++ (if 1 < k then '.' :: rest else []) ++
      'e' :: (if 0 ≤ e then '+' else '-') :: Nat.toDigits 10 size.natAbs)

/-- A text in scientific spelling taken apart, and written with the point in its place. -/
def layOut? (negative : Bool) (scientific : List Char) : Option (List Char) := do
  let (mantissa, exponent) ← splitOnce? 'e' scientific
  let exponent ← readInt32? exponent
  place? negative (mantissa.filter (· != '.')) exponent

namespace Scientific

variable (s : Scientific)

theorem splitOnce?_chars : splitOnce? 'e' s.chars = some
    (Digits.chars [s.lead] ++ (if s.more.isEmpty then [] else '.' :: Digits.chars s.more),
      (toString s.exponent).toList) := by
  have digit : ∀ d : Digit, Char.ofNat (48 + d.val) ≠ 'e' := by decide
  have front : ∀ c ∈ Digits.chars [s.lead] ++
      (if s.more.isEmpty then [] else '.' :: Digits.chars s.more), (c != 'e') = true := by
    intro c there
    rw [bne_iff_ne]
    rcases List.mem_append.mp there with first | behind
    · obtain rfl := List.mem_singleton.mp first
      exact digit s.lead
    · split at behind
      · cases behind
      · rcases List.mem_cons.mp behind with rfl | more
        · decide
        · obtain ⟨d, -, rfl⟩ := List.mem_map.mp more
          exact digit d
  rw [splitOnce?, chars, List.dropWhile_append_of_pos front, List.takeWhile_append_of_pos front]
  simp

theorem filter_mantissa :
    (Digits.chars [s.lead] ++ (if s.more.isEmpty then [] else '.' :: Digits.chars s.more)).filter
      (· != '.') = Digits.chars s.digits := by
  have digit : ∀ d : Digit, (Char.ofNat (48 + d.val) != '.') = true := by decide
  have kept (ds : List Digit) : (Digits.chars ds).filter (· != '.') = Digits.chars ds := by
    apply List.filter_eq_self.mpr
    intro c there
    obtain ⟨d, -, rfl⟩ := List.mem_map.mp there
    exact digit d
  rw [List.filter_append, kept, digits]
  split
  · rename_i single
    rw [List.isEmpty_iff.mp single]
    rfl
  · rw [List.filter_cons_of_neg (by decide), kept]
    rfl

theorem readInt32?_toString (z : Int) : readInt32? (toString z).toList = inInt32? z := by
  have digit : ∀ d : Digit, (Char.ofNat (48 + d.val)).toNat - 48 = d.val := by decide
  obtain ⟨n, own, value⟩ := Numeral.exists_toString z
  have digits : ((Digits.chars n.digits).isEmpty || !(Digits.chars n.digits).all Char.isDigit) = false := by
    rw [Digits.all_isDigit_chars]
    rfl
  have magnitude : (Digits.chars n.digits).foldl (fun n c => 10 * n + (c.toNat - 48)) 0 =
      Digits.value n.digits := by
    rw [Digits.chars, List.foldl_map]
    simp only [digit]
    rfl
  rw [← own, readInt32?, n.splitSign_chars]
  dsimp only
  rw [digits, if_neg Bool.false_ne_true, magnitude, ← Numeral.value, value]

theorem inInt32?_of_bounds {z : Int} (low : -2 ^ 31 ≤ z) (high : z < 2 ^ 31) : inInt32? z = some z :=
  if_pos ⟨low, high⟩

theorem layOut?_chars (negative : Bool) (low : -2 ^ 31 ≤ s.exponent) (high : s.exponent < 2 ^ 31) :
    layOut? negative s.chars = place? negative (Digits.chars s.digits) s.exponent := by
  have read : readInt32? (toString s.exponent).toList = some s.exponent := by
    rw [readInt32?_toString, inInt32?_of_bounds low high]
  rw [layOut?, splitOnce?_chars, Option.bind_eq_bind, Option.bind_some]
  dsimp only
  rw [read, filter_mantissa, Option.bind_eq_bind, Option.bind_some]

/-- Where the point goes: behind the digits and zeros, among the digits, or before zeros and the digits;
or it stays where it is, and the exponent with it. -/
inductive Place (s : Scientific) : Prop where
  | behind (zeros : Nat) (place : s.exponent = s.more.length + zeros) (near : s.exponent ≤ 20)
  | among (front : List Digit) (next : Digit) (back : List Digit) (parts : s.more = front ++ next :: back)
      (place : s.exponent = front.length) (near : s.exponent ≤ 20)
  | before (zeros : Nat) (place : s.exponent = -(zeros + 1 : Nat)) (near : -6 ≤ s.exponent)
  | kept (far : ¬ (-6 ≤ s.exponent ∧ s.exponent ≤ 20))

theorem place : s.Place := by
  by_cases near : -6 ≤ s.exponent ∧ s.exponent ≤ 20
  · by_cases negative : s.exponent < 0
    · exact .before (-s.exponent - 1).toNat (by omega) near.1
    · by_cases short : s.more.length ≤ s.exponent
      · exact .behind (s.exponent - s.more.length).toNat (by omega) near.2
      · have inside : s.exponent.toNat < s.more.length := by omega
        refine .among (s.more.take s.exponent.toNat) s.more[s.exponent.toNat]
          (s.more.drop (s.exponent.toNat + 1)) ?_ ?_ near.2
        · rw [← List.drop_eq_getElem_cons inside, List.take_append_drop]
        · rw [List.length_take]
          omega
  · exact .kept near

section

variable {s} (negative : Bool)

theorem literal_behind {zeros : Nat} (place : s.exponent = s.more.length + zeros)
    (near : s.exponent ≤ 20) :
    s.literal negative = ⟨negative, Digits.value (s.digits ++ List.replicate zeros 0), [], none⟩ := by
  have power : s.exponent - s.more.length = zeros := by omega
  have plain : 0 ≤ (zeros : Int) ∧ (zeros : Int) + (s.more.length + 1 : Nat) ≤ 21 := by omega
  rw [literal, decimal, power, Decimal.literal, s.count_digits, if_pos plain, Digits.value_append,
    Digits.value_zeros, List.length_replicate]
  rfl

theorem literal_point {places : Nat} (place : s.exponent - s.more.length = -(places + 1 : Nat))
    (near : -6 ≤ s.exponent ∧ s.exponent ≤ 20) :
    s.literal negative = ⟨negative, Digits.value s.digits / 10 ^ (places + 1),
      Digits.lastOf (places + 1) (Digits.value s.digits), none⟩ := by
  have notWhole : ¬ (0 ≤ -((places + 1 : Nat) : Int) ∧
      -((places + 1 : Nat) : Int) + (s.more.length + 1 : Nat) ≤ 21) := by omega
  have point : -((places + 1 : Nat) : Int) < 0 ∧ -6 < -((places + 1 : Nat) : Int) + (s.more.length + 1 : Nat) ∧
      -((places + 1 : Nat) : Int) + (s.more.length + 1 : Nat) ≤ 21 := by omega
  rw [literal, decimal, place, Decimal.literal, s.count_digits, if_neg notWhole, if_pos point, neg_neg,
    Int.toNat_natCast]
  rfl

theorem literal_among {front back : List Digit} {next : Digit} (parts : s.more = front ++ next :: back)
    (place : s.exponent = front.length) (near : s.exponent ≤ 20) :
    s.literal negative = ⟨negative, Digits.value (s.lead :: front), next :: back, none⟩ := by
  have length : s.more.length = front.length + (back.length + 1) := by
    rw [parts, List.length_append, List.length_cons]
  have digits : s.digits = s.lead :: front ++ next :: back := by
    rw [Scientific.digits, parts, List.cons_append]
  have behind : s.exponent - s.more.length = -(back.length + 1 : Nat) := by omega
  rw [literal_point negative behind (by omega), digits]
  congr 1
  · exact Digits.value_append_div _ (next :: back)
  · exact Digits.lastOf_value_append _ (next :: back)

theorem literal_before {zeros : Nat} (place : s.exponent = -(zeros + 1 : Nat)) (near : -6 ≤ s.exponent) :
    s.literal negative = ⟨negative, 0, List.replicate zeros 0 ++ s.digits, none⟩ := by
  have length : (List.replicate zeros 0 ++ s.digits).length = zeros + s.more.length + 1 := by
    rw [List.length_append, List.length_replicate, Scientific.digits, List.length_cons]
    omega
  have value : Digits.value (List.replicate zeros 0 ++ s.digits) = Digits.value s.digits := by
    rw [Digits.value_append, Digits.value_zeros, Nat.zero_mul, Nat.zero_add]
  have small := Digits.value_lt (List.replicate zeros 0 ++ s.digits)
  have digits := Digits.lastOf_value (List.replicate zeros 0 ++ s.digits)
  rw [length, value] at small digits
  have behind : s.exponent - s.more.length = -(zeros + s.more.length + 1 : Nat) := by omega
  rw [literal_point negative behind (by omega), digits, Nat.div_eq_of_lt small]

theorem literal_kept (far : ¬ (-6 ≤ s.exponent ∧ s.exponent ≤ 20)) :
    s.literal negative = ⟨negative, s.lead, s.more, some (.ofInt s.exponent)⟩ := by
  have notWhole : ¬ (0 ≤ s.exponent - s.more.length ∧
      s.exponent - s.more.length + (s.more.length + 1 : Nat) ≤ 21) := by omega
  have noPoint : ¬ (s.exponent - s.more.length < 0 ∧
      -6 < s.exponent - s.more.length + (s.more.length + 1 : Nat) ∧
      s.exponent - s.more.length + (s.more.length + 1 : Nat) ≤ 21) := by omega
  have order : s.exponent - s.more.length + (s.more.length + 1 : Nat) - 1 = s.exponent := by omega
  have whole := Digits.value_append_div [s.lead] s.more
  have fraction := Digits.lastOf_value_append [s.lead] s.more
  rw [List.singleton_append] at whole fraction
  rw [literal, decimal, Decimal.literal, s.count_digits, if_neg notWhole, if_neg noPoint, order,
    Nat.add_sub_cancel, digits, Nat.pow_eq, whole, fraction, Digits.value_singleton]

theorem chars_kept (far : ¬ (-6 ≤ s.exponent ∧ s.exponent ≤ 20)) :
    (s.literal negative).chars = signChars negative ++ (Digits.chars [s.lead] ++
      (if s.more.isEmpty then [] else '.' :: Digits.chars s.more) ++
      'e' :: (if 0 ≤ s.exponent then '+' else '-') :: Nat.toDigits 10 s.exponent.natAbs) := by
  have single : Nat.toDigits 10 s.lead.val = Digits.chars [s.lead] := by
    rw [← Digits.value_singleton, Digits.toDigits_value s.lead_ne_zero]
  rw [literal_kept negative far, Literal.chars, single, Option.map_some, Option.getD_some,
    Exponent.chars_ofInt, signChars, List.append_assoc, List.append_assoc, List.append_assoc]

section

variable (high : s.exponent + 1 < 2 ^ 31) (short : s.digits.length < 2 ^ 31)

theorem inInt32?_length (short : s.digits.length < 2 ^ 31) :
    inInt32? (Digits.chars s.digits).length = some ((s.more.length + 1 : Nat) : Int) := by
  have length : (Digits.chars s.digits).length = s.more.length + 1 := by
    rw [Digits.chars, List.length_map, digits, List.length_cons]
  rw [digits, List.length_cons] at short
  rw [length]
  exact inInt32?_of_bounds (by omega) (by exact_mod_cast short)

theorem inInt32?_next (low : -2 ^ 31 < s.exponent) (high : s.exponent + 1 < 2 ^ 31) :
    inInt32? (s.exponent + 1) = some (s.exponent + 1) := inInt32?_of_bounds (by omega) high

include high short

theorem place?_behind {zeros : Nat} (place : s.exponent = s.more.length + zeros) (near : s.exponent ≤ 20) :
    place? negative (Digits.chars s.digits) s.exponent = some (s.literal negative).chars := by
  have plain : ((s.more.length + 1 : Nat) : Int) ≤ s.exponent + 1 ∧ s.exponent + 1 ≤ 21 := by omega
  have padding : (s.exponent + 1 - (s.more.length + 1 : Nat)).toNat = zeros := by omega
  have digits : Nat.toDigits 10 (Digits.value (s.digits ++ List.replicate zeros 0)) =
      Digits.chars (s.digits ++ List.replicate zeros 0) := Digits.toDigits_value s.lead_ne_zero
  rw [place?, inInt32?_length short, inInt32?_next (by omega) high]
  simp only [Option.bind_eq_bind, Option.bind_some, Option.pure_def]
  rw [if_pos plain, padding, literal_behind negative place near, Literal.chars, digits,
    Digits.chars_append, Digits.chars_zeros]
  simp [signChars]

theorem place?_among {front back : List Digit} {next : Digit} (parts : s.more = front ++ next :: back)
    (place : s.exponent = front.length) (near : s.exponent ≤ 20) :
    place? negative (Digits.chars s.digits) s.exponent = some (s.literal negative).chars := by
  have notPlain : ¬ (((s.more.length + 1 : Nat) : Int) ≤ s.exponent + 1 ∧ s.exponent + 1 ≤ 21) := by
    rw [parts, List.length_append, List.length_cons]
    omega
  have point : 0 < s.exponent + 1 ∧ s.exponent + 1 ≤ 21 := by omega
  have position : (s.exponent + 1).toNat = (Digits.chars (s.lead :: front)).length := by
    rw [Digits.chars, List.length_map, List.length_cons]
    omega
  have split : Digits.chars s.digits =
      Digits.chars (s.lead :: front) ++ Digits.chars (next :: back) := by
    rw [digits, parts, ← List.cons_append, Digits.chars_append]
  have cut : cut? (s.exponent + 1).toNat (Digits.chars s.digits) =
      some (Digits.chars (s.lead :: front), Digits.chars (next :: back)) := by
    rw [cut?, split, position, if_pos (by simp), List.take_left, List.drop_left]
  rw [place?, inInt32?_length short, inInt32?_next (by omega) high]
  simp only [Option.bind_eq_bind, Option.bind_some, Option.pure_def]
  rw [if_neg notPlain, if_pos point, cut, Option.bind_some, literal_among negative parts place near,
    Literal.chars, Digits.toDigits_value s.lead_ne_zero]
  simp [signChars]

theorem place?_before {zeros : Nat} (place : s.exponent = -(zeros + 1 : Nat)) (near : -6 ≤ s.exponent) :
    place? negative (Digits.chars s.digits) s.exponent = some (s.literal negative).chars := by
  have notPlain : ¬ (((s.more.length + 1 : Nat) : Int) ≤ s.exponent + 1 ∧ s.exponent + 1 ≤ 21) := by
    omega
  have noPoint : ¬ (0 < s.exponent + 1 ∧ s.exponent + 1 ≤ 21) := by omega
  have close : -6 < s.exponent + 1 ∧ s.exponent + 1 ≤ 0 := by omega
  have padding : (-(s.exponent + 1)).toNat = zeros := by omega
  rw [place?, inInt32?_length short, inInt32?_next (by omega) high]
  simp only [Option.bind_eq_bind, Option.bind_some, Option.pure_def]
  rw [if_neg notPlain, if_neg noPoint, if_pos close, padding, literal_before negative place near,
    Literal.chars]
  simp [signChars, digits, Digits.chars_append, Digits.chars_zeros]

theorem place?_kept (far : ¬ (-6 ≤ s.exponent ∧ s.exponent ≤ 20)) (low : -2 ^ 31 < s.exponent) :
    place? negative (Digits.chars s.digits) s.exponent = some (s.literal negative).chars := by
  have notPlain : ¬ (((s.more.length + 1 : Nat) : Int) ≤ s.exponent + 1 ∧ s.exponent + 1 ≤ 21) := by
    omega
  have noPoint : ¬ (0 < s.exponent + 1 ∧ s.exponent + 1 ≤ 21) := by omega
  have notClose : ¬ (-6 < s.exponent + 1 ∧ s.exponent + 1 ≤ 0) := by omega
  have cut : cut? 1 (Digits.chars s.digits) = some (Digits.chars [s.lead], Digits.chars s.more) :=
    if_pos (by simp [Digits.chars, digits])
  have exponent : inInt32? (s.exponent + 1 - 1) = some s.exponent := by
    rw [Int.add_sub_cancel]
    exact inInt32?_of_bounds low.le (by omega)
  have size : inInt32? s.exponent.natAbs = some (s.exponent.natAbs : Int) :=
    inInt32?_of_bounds (by omega) (by omega)
  have fraction : (if (1 : Int) < (s.more.length + 1 : Nat) then '.' :: Digits.chars s.more else []) =
      if s.more.isEmpty then [] else '.' :: Digits.chars s.more := by
    cases s.more with
    | nil => rfl
    | cons d ds =>
      rw [List.length_cons, if_pos (by omega)]
      rfl
  rw [place?, inInt32?_length short, inInt32?_next low high]
  simp only [Option.bind_eq_bind, Option.bind_some, Option.pure_def]
  rw [if_neg notPlain, if_neg noPoint, if_neg notClose, cut, Option.bind_some, exponent,
    Option.bind_some, size, Option.bind_some, Int.natAbs_natCast, fraction, chars_kept negative far]

theorem place?_digits (low : -2 ^ 31 < s.exponent) :
    place? negative (Digits.chars s.digits) s.exponent = some (s.literal negative).chars := by
  cases s.place with
  | behind zeros place near => exact place?_behind negative high short place near
  | among front next back parts place near => exact place?_among negative high short parts place near
  | before zeros place near => exact place?_before negative high short place near
  | kept far => exact place?_kept negative high short far low

end

end

end Scientific
end Attest
