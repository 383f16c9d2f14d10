import Attest.Number.Literal
import Attest.Proofs.Number.Digits

namespace Attest.Literal

def Stops (rest : Bytes) : Prop :=
  ∀ b ∈ rest.head?, Digits.ofByte? b = none ∧ b ≠ 0x2E ∧ b ≠ 0x65 ∧ b ≠ 0x45

theorem Stops.nil : Stops [] := by
  intro b member
  cases member

theorem Stops.cons {b : UInt8} (other : Digits.ofByte? b = none ∧ b ≠ 0x2E ∧ b ≠ 0x65 ∧ b ≠ 0x45)
    (rest : Bytes) : Stops (b :: rest) := by
  intro a member
  obtain rfl : b = a := by simpa using member
  exact other

theorem Stops.ends {rest : Bytes} (stops : Stops rest) : Digits.Ends rest :=
  fun b member => (stops b member).1

def fractionBytes (ds : List Digit) : Bytes := if ds.isEmpty then [] else 0x2E :: Digits.bytes ds

def exponentBytes : Option Exponent → Bytes
  | none => []
  | some e => 0x65 :: (if e.negative then 0x2D else 0x2B) :: Digits.bytes (e.lead :: e.more)

theorem ofChars_chars (l : Literal) :
    Utf8.ofChars l.chars = (if l.negative then [0x2D] else []) ++
      (Digits.bytes (Digits.lastOf (Digits.count l.whole) l.whole) ++
        (fractionBytes l.fraction ++ exponentBytes l.exponent)) := by
  have minus : String.utf8EncodeChar '-' = [0x2D] := rfl
  have plus : String.utf8EncodeChar '+' = [0x2B] := rfl
  have point : String.utf8EncodeChar '.' = [0x2E] := rfl
  have mark : String.utf8EncodeChar 'e' = [0x65] := rfl
  have sign : Utf8.ofChars (if l.negative then ['-'] else []) = if l.negative then [0x2D] else [] := by
    cases l.negative <;> simp [minus]
  have fraction : Utf8.ofChars (if l.fraction.isEmpty then [] else '.' :: Digits.chars l.fraction) =
      fractionBytes l.fraction := by
    rw [fractionBytes]
    cases l.fraction.isEmpty <;> simp [Digits.ofChars_chars, point]
  have exponent : Utf8.ofChars ((l.exponent.map Exponent.chars).getD []) = exponentBytes l.exponent := by
    cases l.exponent with
    | none => rfl
    | some e =>
      obtain ⟨negative, lead, more⟩ := e
      cases negative <;> simp [exponentBytes, Exponent.chars, Digits.ofChars_chars, mark, plus, minus]
  rw [chars, Utf8.ofChars_append, Utf8.ofChars_append, Utf8.ofChars_append, sign, fraction, exponent,
    Digits.toDigits_eq_chars, Digits.ofChars_chars, List.append_assoc, List.append_assoc]

theorem scanWhole_bytes (n : Nat) {rest : Bytes} (ends : Digits.Ends rest) :
    scanWhole (Digits.bytes (Digits.lastOf (Digits.count n) n) ++ rest) = some (n, rest) := by
  obtain ⟨d, ds, digits, lead⟩ := Digits.lastOf_count_eq_cons n
  have value := Digits.value_lastOf_count n
  rw [scanWhole, Digits.split_bytes _ ends]
  rw [digits] at value ⊢
  have plain : ¬ (d = 0 ∧ ds ≠ []) := fun ⟨zero, more⟩ => more (lead zero)
  simp only [if_neg plain, value]

theorem scanFraction_bytes (ds : List Digit) {rest : Bytes} (ends : Digits.Ends rest)
    (point : ∀ b ∈ rest.head?, b ≠ 0x2E) :
    scanFraction (fractionBytes ds ++ rest) = some (ds, rest) := by
  cases ds with
  | nil =>
    cases rest with
    | nil => rfl
    | cons b rest =>
      have other : b ≠ 0x2E := point b rfl
      simp [fractionBytes, scanFraction, other]
  | cons d ds =>
    have digits := Digits.split_bytes (d :: ds) ends
    simp [fractionBytes, scanFraction, digits]

/-- What may be written for an exponent: a large mark for the small one, and no sign for a plus sign. -/
inductive ExponentSpelling : Option Exponent → Bytes → Prop where
  | none : ExponentSpelling none []
  | some (e : Exponent) {mark : UInt8} {sign : Bytes} (marked : mark = 0x65 ∨ mark = 0x45)
      (signed : if e.negative then sign = [0x2D] else sign = [] ∨ sign = [0x2B]) :
      ExponentSpelling (some e) (mark :: (sign ++ Digits.bytes (e.lead :: e.more)))

def Spelling (l : Literal) (own : Bytes) : Prop :=
  ∃ exponent, ExponentSpelling l.exponent exponent ∧
    own = (if l.negative then [0x2D] else []) ++
      (Digits.bytes (Digits.lastOf (Digits.count l.whole) l.whole) ++ (fractionBytes l.fraction ++ exponent))

theorem exponentSpelling_exponentBytes (e : Option Exponent) : ExponentSpelling e (exponentBytes e) := by
  cases e with
  | none => exact .none
  | some e =>
    rw [exponentBytes]
    have spelled (sign : UInt8) (signed : if e.negative then [sign] = [0x2D] else [sign] = [] ∨ [sign] = [0x2B]) :=
      ExponentSpelling.some e (.inl rfl) signed
    cases sign : e.negative with
    | true => exact spelled 0x2D (by simp [sign])
    | false => exact spelled 0x2B (by simp [sign])

theorem spelling_chars (l : Literal) : l.Spelling (Utf8.ofChars l.chars) :=
  ⟨_, exponentSpelling_exponentBytes l.exponent, ofChars_chars l⟩

theorem scanExponent_spelling {e : Option Exponent} {own : Bytes} (spelled : ExponentSpelling e own)
    {rest : Bytes} (stops : Stops rest) : scanExponent (own ++ rest) = some (e, rest) := by
  cases spelled with
  | none =>
    cases rest with
    | nil => rfl
    | cons b rest =>
      obtain ⟨-, -, small, large⟩ := stops b rfl
      simp [scanExponent, small, large]
  | some e marked signed =>
    obtain ⟨negative, lead, more⟩ := e
    have digits := Digits.split_bytes (lead :: more) stops.ends
    have noSign : ∀ d : Digit, UInt8.ofNat (48 + d.val) ≠ 0x2D ∧ UInt8.ofNat (48 + d.val) ≠ 0x2B := by
      decide
    cases negative with
    | true =>
      obtain rfl := signed
      simp [scanExponent, marked, scanSign, digits]
    | false =>
      rcases signed with rfl | rfl
      · obtain ⟨noMinus, noPlus⟩ := noSign lead
        have unsigned : scanSign (Digits.bytes (lead :: more) ++ rest) =
            (false, Digits.bytes (lead :: more) ++ rest) := by
          rw [Digits.bytes, List.map_cons, List.cons_append, scanSign, if_neg noMinus, if_neg noPlus]
        simp [scanExponent, marked, unsigned, digits]
      · simp [scanExponent, marked, scanSign, digits]

theorem stops_exponentSpelling {e : Option Exponent} {own : Bytes} (spelled : ExponentSpelling e own)
    {rest : Bytes} (stops : Stops rest) :
    ∀ b ∈ (own ++ rest).head?, Digits.ofByte? b = none ∧ b ≠ 0x2E := by
  intro b member
  cases spelled with
  | none => exact ⟨(stops b member).1, (stops b member).2.1⟩
  | @some _ mark _ marked _ =>
    obtain rfl : mark = b := by simpa using member
    rcases marked with rfl | rfl <;> decide

theorem ends_fractionBytes (ds : List Digit) {rest : Bytes} (ends : Digits.Ends rest) :
    Digits.Ends (fractionBytes ds ++ rest) := by
  cases ds with
  | nil => exact ends
  | cons d ds =>
    intro b member
    obtain rfl : 0x2E = b := by simpa [fractionBytes] using member
    decide

theorem scanUnsigned_spelling {l : Literal} {exponent : Bytes}
    (spelled : ExponentSpelling l.exponent exponent) {rest : Bytes} (stops : Stops rest) :
    scanUnsigned l.negative (Digits.bytes (Digits.lastOf (Digits.count l.whole) l.whole) ++
      (fractionBytes l.fraction ++ (exponent ++ rest))) = some (l, rest) := by
  have afterFraction := stops_exponentSpelling spelled stops
  have afterWhole := ends_fractionBytes l.fraction fun b member => (afterFraction b member).1
  have whole := scanWhole_bytes l.whole afterWhole
  have fraction := scanFraction_bytes l.fraction (fun b member => (afterFraction b member).1)
    fun b member => (afterFraction b member).2
  have exponent := scanExponent_spelling spelled stops
  simp only [scanUnsigned, whole, fraction, exponent, Option.bind_eq_bind, Option.bind_some,
    Option.pure_def]

theorem scan_spelling {l : Literal} {own : Bytes} (spelled : l.Spelling own) {rest : Bytes}
    (stops : Stops rest) : scan (own ++ rest) = some (l, rest) := by
  obtain ⟨exponent, spelled, rfl⟩ := spelled
  have parts := scanUnsigned_spelling spelled stops
  rw [List.append_assoc, List.append_assoc, List.append_assoc]
  cases sign : l.negative with
  | true =>
    rw [sign] at parts
    simpa [scan] using parts
  | false =>
    rw [sign] at parts
    obtain ⟨d, ds, digits, -⟩ := Digits.lastOf_count_eq_cons l.whole
    have noMinus : ∀ d : Digit, UInt8.ofNat (48 + d.val) ≠ 0x2D := by decide
    rw [digits, Digits.bytes, List.map_cons, List.cons_append] at parts ⊢
    rw [if_neg (by decide), List.nil_append, scan, if_neg (noMinus d), parts]

theorem scan_chars (l : Literal) {rest : Bytes} (stops : Stops rest) :
    scan (Utf8.ofChars l.chars ++ rest) = some (l, rest) :=
  scan_spelling l.spelling_chars stops

theorem spelling_head {l : Literal} {own : Bytes} (spelled : l.Spelling own) :
    ∃ b bytes, own = b :: bytes ∧ (b = 0x2D ∨ ∃ d : Digit, b = UInt8.ofNat (48 + d.val)) := by
  obtain ⟨exponent, -, rfl⟩ := spelled
  cases l.negative with
  | true => exact ⟨_, _, rfl, .inl rfl⟩
  | false =>
    obtain ⟨d, ds, digits, -⟩ := Digits.lastOf_count_eq_cons l.whole
    rw [digits]
    exact ⟨_, _, rfl, .inr ⟨d, rfl⟩⟩

section

variable {input rest : Bytes}

theorem eq_of_scanWhole {n : Nat} (read : scanWhole input = some (n, rest)) :
    input = Digits.bytes (Digits.lastOf (Digits.count n) n) ++ rest ∧ Digits.Ends rest := by
  cases digits : Digits.split input with
  | mk ds more =>
    rw [scanWhole, digits] at read
    cases ds with
    | nil => cases read
    | cons d ds =>
      dsimp only at read
      split at read
      · cases read
      · rename_i lead
        cases read
        rw [Digits.lastOf_count_value fun zero => of_not_not fun more => lead ⟨zero, more⟩]
        exact Digits.eq_of_split digits

theorem eq_of_scanFraction {ds : List Digit} (ends : Digits.Ends input)
    (read : scanFraction input = some (ds, rest)) :
    input = fractionBytes ds ++ rest ∧ Digits.Ends rest := by
  cases input with
  | nil =>
    cases read
    exact ⟨rfl, ends⟩
  | cons b input =>
    rw [scanFraction] at read
    split at read
    · rename_i point
      subst point
      cases digits : Digits.split input with
      | mk ds more =>
        rw [digits] at read
        cases ds with
        | nil => cases read
        | cons d ds =>
          cases read
          obtain ⟨front, ends⟩ := Digits.eq_of_split digits
          exact ⟨congrArg (0x2E :: ·) front, ends⟩
    · cases read
      exact ⟨rfl, ends⟩

theorem eq_of_scanExponent {e : Option Exponent} (ends : Digits.Ends input)
    (read : scanExponent input = some (e, rest)) :
    ∃ own, ExponentSpelling e own ∧ input = own ++ rest ∧ Digits.Ends rest := by
  cases input with
  | nil =>
    cases read
    exact ⟨[], .none, rfl, ends⟩
  | cons b input =>
    rw [scanExponent] at read
    split at read
    · rename_i marked
      have signed : ∃ sign, input = sign ++ (scanSign input).2 ∧
          if (scanSign input).1 then sign = [0x2D] else sign = [] ∨ sign = [0x2B] := by
        cases input with
        | nil => exact ⟨[], rfl, .inl rfl⟩
        | cons s input =>
          rw [scanSign]
          split
          · rename_i minus
            exact ⟨[s], rfl, congrArg (fun s => [s]) minus⟩
          split
          · rename_i plus
            exact ⟨[s], rfl, .inr (congrArg (fun s => [s]) plus)⟩
          · exact ⟨[], rfl, .inl rfl⟩
      obtain ⟨sign, front, signed⟩ := signed
      cases digits : Digits.split (scanSign input).2 with
      | mk ds more =>
        dsimp only at read
        rw [digits] at read
        cases ds with
        | nil => cases read
        | cons d ds =>
          cases read
          obtain ⟨inside, ends⟩ := Digits.eq_of_split digits
          refine ⟨_, .some ⟨(scanSign input).1, d, ds⟩ marked signed, ?_, ends⟩
          rw [List.cons_append, List.append_assoc, ← inside, ← front]
    · cases read
      exact ⟨[], .none, rfl, ends⟩

theorem eq_of_scanUnsigned {negative : Bool} {l : Literal}
    (read : scanUnsigned negative input = some (l, rest)) :
    ∃ exponent, ExponentSpelling l.exponent exponent ∧ l.negative = negative ∧ Digits.Ends rest ∧
      input = Digits.bytes (Digits.lastOf (Digits.count l.whole) l.whole) ++
        (fractionBytes l.fraction ++ exponent) ++ rest := by
  simp only [scanUnsigned, Option.bind_eq_bind, Option.bind_eq_some_iff, Option.pure_def,
    Option.some.injEq, Prod.mk.injEq] at read
  obtain ⟨⟨whole, afterWhole⟩, hw, ⟨ds, afterFraction⟩, hf, ⟨e, afterExponent⟩, he, rfl, rfl⟩ := read
  obtain ⟨first, ends⟩ := eq_of_scanWhole hw
  obtain ⟨second, ends⟩ := eq_of_scanFraction ends hf
  obtain ⟨exponent, spelled, third, ends⟩ := eq_of_scanExponent ends he
  refine ⟨exponent, spelled, rfl, ends, ?_⟩
  rw [first, second, third, List.append_assoc, List.append_assoc]

theorem eq_of_scan {l : Literal} (read : scan input = some (l, rest)) :
    ∃ own, l.Spelling own ∧ input = own ++ rest ∧ Digits.Ends rest := by
  cases input with
  | nil => cases read
  | cons b input =>
    rw [scan] at read
    split at read
    · rename_i minus
      obtain ⟨exponent, spelled, sign, ends, front⟩ := eq_of_scanUnsigned read
      refine ⟨_, ⟨exponent, spelled, rfl⟩, ?_, ends⟩
      rw [sign, if_pos rfl, minus, front]
      rfl
    · obtain ⟨exponent, spelled, sign, ends, front⟩ := eq_of_scanUnsigned read
      refine ⟨_, ⟨exponent, spelled, rfl⟩, ?_, ends⟩
      rw [sign, if_neg Bool.false_ne_true, front]
      rfl

end

end Attest.Literal
