import Attest.Proofs.Canonical.Native
import Attest.Proofs.Number.Numeral

namespace Attest

namespace Digits

/-- One digit more behind a number of 64 bits, if there is room for it. -/
def addDigit? (n : Nat) (c : Char) : Option Nat :=
  let m := 10 * n + (c.toNat - 48)
  if m < 2 ^ 64 then some m else none

def word? (digits : List Char) : Option Nat :=
  if digits.isEmpty then none else digits.foldlM addDigit? 0

/-- The number of 64 bits that digits without zeros in front spell; none at all are a zero. -/
def magnitude? (trimmed : List Char) : Option Nat :=
  match word? trimmed with
  | some n => some n
  | none => if trimmed.isEmpty then some 0 else none

def significant (ds : List Digit) : List Digit := ds.dropWhile fun d => d.val = 0

theorem dropWhile_chars (ds : List Digit) : (chars ds).dropWhile (· == '0') = chars (significant ds) := by
  have zero : ∀ d : Digit, (Char.ofNat (48 + d.val) == '0') = decide (d.val = 0) := by decide
  rw [chars, List.dropWhile_map, chars, significant]
  simp only [Function.comp_def, zero]

theorem value_significant (ds : List Digit) : value (significant ds) = value ds := by
  induction ds with
  | nil => rfl
  | cons d ds ih =>
    rw [significant, List.dropWhile_cons]
    split
    · rename_i zero
      rw [← significant, ih, value_cons, of_decide_eq_true zero, Nat.zero_mul, Nat.zero_add]
    · rfl

/-- Zeros in front dropped, the digits are those of the number they denote; of a zero nothing is left. -/
theorem significant_cases (ds : List Digit) :
    (value ds = 0 ∧ significant ds = []) ∨
      (value ds ≠ 0 ∧ chars (significant ds) = Nat.toDigits 10 (value ds)) := by
  cases form : significant ds with
  | nil =>
    left
    rw [← value_significant ds, form]
    exact ⟨rfl, rfl⟩
  | cons d rest =>
    right
    have lead : d ≠ 0 := by
      intro zero
      have kept := List.head?_dropWhile_not (fun d : Digit => d.val = 0) ds
      rw [← significant, form] at kept
      simp [zero] at kept
    have value : value (d :: rest) = value ds := by rw [← form, value_significant]
    have positive : 1 ≤ (d : Nat) := Nat.pos_of_ne_zero fun none => lead (Fin.ext none)
    have least := Nat.mul_le_mul_right (10 ^ rest.length) positive
    have power : 0 < 10 ^ rest.length := Nat.pow_pos (by decide)
    refine ⟨?_, ?_⟩
    · rw [← value, value_cons]
      omega
    · rw [toDigits_eq_chars, ← value, lastOf_count_value fun zero => absurd zero lead]

theorem le_foldl (ds : List Digit) (n : Nat) : n ≤ ds.foldl (fun n d => 10 * n + d.val) n := by
  induction ds generalizing n with
  | nil => exact le_rfl
  | cons d ds ih =>
    have further := ih (10 * n + d.val)
    rw [List.foldl_cons]
    omega

theorem foldlM_addDigit? (ds : List Digit) (n : Nat) (fits : n < 2 ^ 64) :
    (chars ds).foldlM addDigit? n =
      if ds.foldl (fun n d => 10 * n + d.val) n < 2 ^ 64
        then some (ds.foldl (fun n d => 10 * n + d.val) n) else none := by
  have digit : ∀ d : Digit, (Char.ofNat (48 + d.val)).toNat - 48 = d.val := by decide
  induction ds generalizing n with
  | nil => exact (if_pos fits).symm
  | cons d ds ih =>
    rw [chars, List.map_cons, List.foldlM_cons, List.foldl_cons, addDigit?, digit]
    by_cases room : 10 * n + d.val < 2 ^ 64
    · rw [if_pos room]
      exact ih _ room
    · have more := le_foldl ds (10 * n + d.val)
      rw [if_neg room, if_neg (by omega)]
      rfl

theorem magnitude?_significant (ds : List Digit) :
    magnitude? (chars (significant ds)) = if value ds < 2 ^ 64 then some (value ds) else none := by
  rcases significant_cases ds with ⟨zero, nothing⟩ | ⟨-, trimmed⟩
  · rw [zero, nothing]
    rfl
  · have full : (chars (significant ds)).isEmpty = false := by
      rw [trimmed]
      simp
    have read := foldlM_addDigit? (significant ds) 0 (by decide)
    rw [← value, value_significant] at read
    rw [magnitude?, word?, full, if_neg Bool.false_ne_true, read]
    by_cases fits : value ds < 2 ^ 64
    · rw [if_pos fits]
    · rw [if_neg fits]
      rfl

end Digits

namespace Canonical

/-- An integer as a number with its digits if a double holds it safely, and as the text of them if not. -/
def exactly (z : Int) : Canonical :=
  if z.natAbs ≤ maxSafeInteger then .number (.ofInt z) else .string (toString z)

theorem ofInt_eq_exactly (z : Int) : ofInt z = exactly z := by
  rw [ofInt, settle, exactly, Literal.text_ofInt]
  by_cases safe : z.natAbs ≤ maxSafeInteger
  · rw [if_pos safe, if_neg fun ⟨_, beyond⟩ => absurd safe (Nat.not_le_of_lt beyond)]
  · rw [if_neg safe, if_pos ⟨rfl, Nat.lt_of_not_le safe⟩]

theorem exactly_withSign (negative : Bool) {n : Nat} (nonzero : n ≠ 0) :
    exactly (withSign negative n) = if n ≤ maxSafeInteger then .number ⟨negative, n, [], none⟩
      else .string (String.ofList (signChars negative ++ Nat.toDigits 10 n)) := by
  rw [exactly, natAbs_withSign, Literal.ofInt_withSign negative nonzero, toString_withSign negative nonzero]

theorem exactly_injective : Function.Injective exactly := by
  intro z w same
  unfold exactly at same
  split at same <;> split at same
  · have texts := congrArg Literal.text (number.inj same)
    rw [Literal.text_ofInt, Literal.text_ofInt] at texts
    exact toString_int_injective texts
  · cases same
  · cases same
  · exact toString_int_injective (string.inj same)

/-- The integer of digits behind a sign, its magnitude counted in 64 bits. -/
def ofDigits? (negative : Bool) (digits : List Char) : Option Canonical :=
  if digits.isEmpty || !digits.all Char.isDigit then none
  else
    let trimmed := digits.dropWhile (· == '0')
    let kept := String.ofList (signChars negative ++ trimmed)
    match Digits.magnitude? trimmed with
    | some n =>
      if n = 0 then some (.number (.ofInt 0))
      else if n ≤ maxSafeInteger then some (.number ⟨negative, n, [], none⟩)
      else some (.string kept)
    | none => some (.string kept)

def readInteger? (text : List Char) : Option Canonical :=
  let (negative, digits) := splitSign text
  ofDigits? negative digits

theorem ofDigits?_chars (negative : Bool) {ds : List Digit} (nonempty : ds ≠ []) :
    ofDigits? negative (Digits.chars ds) = some (exactly (withSign negative (Digits.value ds))) := by
  have digits : ((Digits.chars ds).isEmpty || !(Digits.chars ds).all Char.isDigit) = false := by
    rw [Digits.all_isDigit_chars]
    simpa [Digits.chars] using nonempty
  rw [ofDigits?, digits, if_neg Bool.false_ne_true, Digits.dropWhile_chars]
  dsimp only
  rw [Digits.magnitude?_significant]
  rcases Digits.significant_cases ds with ⟨zero, -⟩ | ⟨nonzero, trimmed⟩
  · rw [zero]
    cases negative <;> rfl
  · rw [exactly_withSign negative nonzero, trimmed]
    by_cases fits : Digits.value ds < 2 ^ 64
    · simp only [if_pos fits, if_neg nonzero]
      split <;> rfl
    · have beyond : ¬ Digits.value ds ≤ maxSafeInteger := by
        have bounded : maxSafeInteger < 2 ^ 64 := by decide
        omega
      simp only [if_neg fits, if_neg beyond]

theorem ofDigits?_of_other {negative : Bool} {c : Char} {text : List Char} (there : c ∈ text)
    (other : c.isDigit = false) : ofDigits? negative text = none := by
  apply if_pos
  rw [Bool.or_eq_true, Bool.not_eq_true', List.all_eq_false]
  exact .inr ⟨c, there, by simp [other]⟩

theorem readInteger?_chars (n : Numeral) : readInteger? n.chars = some (exactly n.value) := by
  rw [readInteger?, n.splitSign_chars]
  exact ofDigits?_chars n.negative (List.cons_ne_nil _ _)

theorem ofLiteral_eq_exactly {l : Literal} (integer : l.isInteger = true) :
    ofLiteral l = exactly (withSign l.negative l.whole) := by
  obtain ⟨negative, whole, fraction, exponent⟩ := l
  obtain ⟨noFraction, noExponent⟩ := Bool.and_eq_true_iff.mp integer
  obtain rfl := List.isEmpty_iff.mp noFraction
  obtain rfl := Option.isNone_iff_eq_none.mp noExponent
  rw [ofLiteral, if_pos integer, ← ofInt_eq_exactly, ofInt]
  by_cases zero : whole = 0
  · rw [zero]
    cases negative <;> rfl
  · have sign : (negative && whole != 0) = negative := by simp [zero]
    rw [Literal.ofInt_withSign negative zero, sign]

/-- Exactly the literals in plain digits are read so, and every other one is left to rounding. -/
theorem readInteger?_literal (l : Literal) :
    readInteger? l.chars = if l.isInteger then some (ofLiteral l) else none := by
  obtain ⟨d, ds, digits, -⟩ := Digits.lastOf_count_eq_cons l.whole
  have value : Digits.value (d :: ds) = l.whole := by rw [← digits, Digits.value_lastOf_count]
  have kept := ofDigits?_chars l.negative (List.cons_ne_nil d ds)
  rw [value, ← digits, ← Digits.toDigits_eq_chars] at kept
  have parts := splitSign_signChars l.negative d ds
    ((if l.fraction.isEmpty then [] else '.' :: Digits.chars l.fraction) ++
      (l.exponent.map Exponent.chars).getD [])
  rw [← digits, ← Digits.toDigits_eq_chars, ← List.append_assoc, ← List.append_assoc,
    ← List.append_assoc, signChars, ← Literal.chars] at parts
  rw [readInteger?, parts]
  by_cases integer : l.isInteger = true
  · obtain ⟨noFraction, noExponent⟩ := Bool.and_eq_true_iff.mp integer
    rw [if_pos integer, ofLiteral_eq_exactly integer, ← kept, noFraction,
      Option.isNone_iff_eq_none.mp noExponent]
    simp
  · -- What follows the digits begins with a point or with the mark of an exponent.
    rw [if_neg integer]
    cases fraction : l.fraction with
    | cons e es => exact ofDigits?_of_other (c := '.') (by simp) rfl
    | nil =>
      cases exponent : l.exponent with
      | some e => exact ofDigits?_of_other (c := 'e') (by simp [Exponent.chars]) rfl
      | none => simp [Literal.isInteger, fraction, exponent] at integer

end Canonical

namespace Numeral

theorem ofText?_text (n : Numeral) : Literal.ofText? n.text =
    if n.lead = 0 ∧ n.more ≠ [] then none else some ⟨n.negative, Digits.value n.digits, [], none⟩ := by
  obtain ⟨negative, lead, more⟩ := n
  have ends : Digits.Ends [] := nofun
  have digits := Digits.split_bytes (lead :: more) ends
  rw [List.append_nil] at digits
  have whole : Literal.scanWhole (Digits.bytes (lead :: more)) =
      if lead = 0 ∧ more ≠ [] then none else some (Digits.value (lead :: more), []) := by
    rw [Literal.scanWhole, digits]
  have unsigned : Literal.scanUnsigned negative (Digits.bytes (lead :: more)) =
      if lead = 0 ∧ more ≠ [] then none
      else some (⟨negative, Digits.value (lead :: more), [], none⟩, []) := by
    rw [Literal.scanUnsigned, whole]
    split <;> rfl
  have plain : ∀ d : Digit, UInt8.ofNat (48 + d.val) ≠ 0x2D := by decide
  have scanned : Literal.scan (Utf8.encode (text ⟨negative, lead, more⟩)) =
      Literal.scanUnsigned negative (Digits.bytes (lead :: more)) := by
    rw [text, Utf8.encode_ofList, chars, Utf8.ofChars_append, Digits.ofChars_chars]
    cases negative with
    | true => rfl
    | false => exact if_neg (plain lead)
  rw [Literal.ofText?, scanned, unsigned]
  by_cases zeros : lead = 0 ∧ more ≠ []
  · rw [if_pos zeros, if_pos zeros]
  · rw [if_neg zeros, if_neg zeros]
    rfl

end Numeral

namespace Canonical

/-- The canonical form of an integer that was not read from a text: its number, if it has one. -/
def ofNative (z : Int) : Canonical :=
  match safeInteger? z with
  | some l => .number l
  | none => .string (toString z)

theorem ofNative_eq_exactly (z : Int) : ofNative z = exactly z := by
  rw [ofNative, safeInteger?, exactly]
  by_cases safe : z.natAbs ≤ maxSafeInteger
  · rw [if_pos safe, if_neg (Nat.not_lt_of_le safe)]
  · rw [if_neg safe, if_pos (Nat.lt_of_not_le safe)]

/-- The literal of an integer, of any length and with zeros in front or without, becomes that integer. So
two of them are alike exactly if they denote the same integer, and an integer that was put in natively
is like its literal. No other literal is read so. -/
theorem integers_are_exact (n m : Numeral) :
    readInteger? n.chars = some (exactly n.value) ∧
      (readInteger? n.chars = readInteger? m.chars ↔ n.value = m.value) ∧
      (∀ l, Literal.ofText? n.text = some l → ofJson (.number l) = exactly n.value) ∧
      (∀ z : Int, Literal.ofText? (toString z) = some (.ofInt z) ∧ (Literal.ofInt z).text = toString z ∧
        ofJson (.number (.ofInt z)) = exactly z ∧ ofInt z = exactly z ∧ ofNative z = exactly z) ∧
      ∀ l : Literal, readInteger? l.chars = if l.isInteger then some (ofJson (.number l)) else none := by
  refine ⟨readInteger?_chars n, ?_, fun l spelled => ?_, fun z => ?_, readInteger?_literal⟩
  · rw [readInteger?_chars, readInteger?_chars, Option.some_inj, exactly_injective.eq_iff]
  · rw [n.ofText?_text] at spelled
    split at spelled
    · cases spelled
    · cases spelled
      exact ofLiteral_eq_exactly rfl
  · have text := Literal.text_ofInt z
    have own : withSign (Literal.ofInt z).negative (Literal.ofInt z).whole = z := withSign_natAbs z
    have kept : ofLiteral (.ofInt z) = exactly z := by rw [ofLiteral_eq_exactly rfl, own]
    refine ⟨?_, text, kept, ofInt_eq_exactly z, ofNative_eq_exactly z⟩
    rw [← text, Literal.ofText?_text]

theorem integers_are_exact_past_word :
    let n : Numeral := ⟨false, 1, [8, 4, 4, 6, 7, 4, 4, 0, 7, 3, 7, 0, 9, 5, 5, 1, 6, 1, 6]⟩
    n.value = 2 ^ 64 ∧ readInteger? n.chars = some (.string "18446744073709551616") ∧
      ofJson (.number ⟨false, 2 ^ 64, [], none⟩) = .string "18446744073709551616" := by
  intro n
  have value : n.value = 2 ^ 64 := by decide
  have text : exactly n.value = .string "18446744073709551616" := by decide
  obtain ⟨read, -, spelled, -⟩ := integers_are_exact n n
  rw [text] at read spelled
  have literal := n.ofText?_text
  have digits : Digits.value n.digits = 2 ^ 64 := by decide
  rw [if_neg (by decide), digits] at literal
  exact ⟨value, read, spelled _ literal⟩

end Canonical
end Attest
