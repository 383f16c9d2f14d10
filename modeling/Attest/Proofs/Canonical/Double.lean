import Attest.Proofs.Canonical.Native
import Attest.Proofs.Number.Fewest
import Attest.Proofs.Number.Scientific

namespace Attest

theorem BinaryFormat.fits_of_decode {f : BinaryFormat} (regular : f.Regular) {bits : Nat} {negative : Bool}
    {x : Magnitude} (finite : f.decode bits = .finite negative x) : x.Fits f := by
  have least := regular.least_le
  have greatest := regular.le_greatest
  have fraction := Nat.mod_lt bits f.hidden_pos
  have carry := regular.two_pow_precision
  have fields : f.fields = (f.greatest - f.least).toNat + 3 := rfl
  have field := Nat.mod_lt (bits / f.hidden) (fields ▸ Nat.succ_pos _ : 0 < f.fields)
  rw [decode] at finite
  split at finite
  · cases finite
    exact ⟨by dsimp only; omega, le_rfl, least.trans greatest, .inl rfl⟩
  · rename_i normal
    split at finite
    · split at finite <;> cases finite
    · rename_i inside
      cases finite
      exact ⟨by dsimp only; omega, by dsimp only; omega, by dsimp only; omega, .inr (Nat.le_add_right _ _)⟩

namespace Scientific

theorem exists_decimal {d : Decimal} (last : d.digits % 10 ≠ 0) : ∃ s : Scientific, s.decimal = d := by
  have nonzero : d.digits ≠ 0 := fun zero => last (by rw [zero])
  obtain ⟨lead, more, digits, lead_ne_zero⟩ := Digits.lastOf_count_eq_cons_of_ne_zero nonzero
  have value := Digits.value_lastOf_count d.digits
  rw [digits] at value
  have last_ne_zero : ∀ e ∈ more.getLast?, e ≠ 0 := by
    rintro e final rfl
    obtain ⟨front, rfl⟩ := List.getLast?_eq_some_iff.mp final
    rw [← List.cons_append, Digits.value_append_digit] at value
    rw [← value, Fin.val_zero, Nat.add_zero, Nat.mul_mod_right] at last
    exact last rfl
  refine ⟨⟨lead, more, d.exponent + more.length, lead_ne_zero, last_ne_zero⟩, ?_⟩
  rw [decimal, Scientific.digits, value, Int.add_sub_cancel]

/-- What is printed for a magnitude: digits that are read as it, and no fewer of them are. -/
structure Renders (s : Scientific) (m : Magnitude) : Prop where
  reads : binary64.roundRat s.value = some m
  fewest : ∀ t : Scientific, binary64.roundRat t.value = some m → s.digits.length ≤ t.digits.length

/-- How a literal shows what scientific digits denote: exactly, in plain digits unless the point is far
off, and without zeros that say nothing. -/
structure Shown (negative : Bool) (s : Scientific) (l : Literal) : Prop where
  valid : Literal.ofText? l.text = some l
  value : l.value = if negative then -s.value else s.value
  plain_iff : l.exponent = none ↔ -6 ≤ s.exponent ∧ s.exponent ≤ 20
  exponential : ¬ (-6 ≤ s.exponent ∧ s.exponent ≤ 20) → l.chars =
    signChars negative ++ (Digits.chars [s.lead] ++
      (if s.more.isEmpty then [] else '.' :: Digits.chars s.more) ++
      'e' :: (if 0 ≤ s.exponent then '+' else '-') :: Nat.toDigits 10 s.exponent.natAbs)
  fraction_last : ∀ d ∈ l.fraction.getLast?, d ≠ 0
  exponent_lead : ∀ e ∈ l.exponent, e.lead ≠ 0

section

variable (s : Scientific) (negative : Bool)

theorem digits_last : ∀ d ∈ s.digits.getLast?, d ≠ 0 := by
  intro d last
  rw [digits, List.getLast?_cons] at last
  cases more : s.more.getLast? with
  | none =>
    rw [more] at last
    cases last
    exact s.lead_ne_zero
  | some e =>
    rw [more] at last
    cases last
    exact s.last_ne_zero e more

theorem value_literal : (s.literal negative).value = if negative then -s.value else s.value := by
  rw [Literal.value, literal, Decimal.literal_negative, Literal.magnitude_literal, value_decimal]

/-- Wherever the point goes, the literal is valid, denotes what the digits do and has no idle zero. -/
theorem shown : s.Shown negative (s.literal negative) := by
  have valid := Literal.ofText?_text (s.literal negative)
  have value := s.value_literal negative
  cases s.place with
  | behind zeros place near =>
    rw [literal_behind negative place near] at valid value ⊢
    have low : -6 ≤ s.exponent := by omega
    exact ⟨valid, value, iff_of_true rfl ⟨low, near⟩, fun far => absurd ⟨low, near⟩ far, by simp, by simp⟩
  | among front next back parts place near =>
    rw [literal_among negative parts place near] at valid value ⊢
    have low : -6 ≤ s.exponent := by omega
    refine ⟨valid, value, iff_of_true rfl ⟨low, near⟩, fun far => absurd ⟨low, near⟩ far, ?_, by simp⟩
    intro d last
    apply s.last_ne_zero
    rw [parts, List.getLast?_append_of_ne_nil _ (List.cons_ne_nil _ _)]
    exact last
  | before zeros place near =>
    rw [literal_before negative place near] at valid value ⊢
    have high : s.exponent ≤ 20 := by omega
    refine ⟨valid, value, iff_of_true rfl ⟨near, high⟩, fun far => absurd ⟨near, high⟩ far, ?_, by simp⟩
    intro d last
    apply s.digits_last
    rw [Scientific.digits, ← List.getLast?_append_of_ne_nil (List.replicate zeros 0) (List.cons_ne_nil _ _)]
    exact last
  | kept far =>
    rw [literal_kept negative far] at valid value ⊢
    refine ⟨valid, value, iff_of_false (Option.some_ne_none _) far, fun _ => ?_, s.last_ne_zero, ?_⟩
    · rw [← literal_kept negative far, chars_kept negative far]
    · intro e spelled
      obtain rfl := Option.some.inj spelled
      exact Exponent.lead_ofInt (by omega)

end

namespace Renders

variable {s : Scientific} {m : Magnitude} (renders : s.Renders m) (nonzero : m.significand ≠ 0)

include renders nonzero

theorem exponent_bounds : -361 < s.exponent ∧ s.exponent < 342 := by
  have regular := BinaryFormat.binary64_regular
  have reads := renders.reads
  rw [← s.value_decimal] at reads
  have digits := Decimal.digits_ne_zero reads nonzero
  have least := BinaryFormat.le_mul_ten_zpow digits s.decimal.exponent
  have most := BinaryFormat.mul_ten_zpow_lt s.decimal.digits s.decimal.exponent
  have places : (Digits.count s.decimal.digits : Int) + s.decimal.exponent = s.exponent + 1 := by
    rw [decimal, s.count_digits]
    dsimp only
    omega
  rw [places] at least most
  constructor
  · by_contra tiny
    have zero := BinaryFormat.roundRat_of_tiny regular
      (mul_nonneg (Nat.cast_nonneg _) (zpow_pos (by norm_num) _).le) most
      (by rw [binary64]; dsimp only; omega)
    rw [← Decimal.value, reads] at zero
    cases zero
    exact nonzero rfl
  · by_contra huge
    have none := BinaryFormat.roundRat_of_huge regular least (by rw [binary64]; dsimp only; omega)
    rw [← Decimal.value, reads] at none
    cases none

end Renders

section

variable {m : Magnitude} (fits : m.Fits binary64) (nonzero : m.significand ≠ 0)

include fits nonzero

theorem exists_renders : ∃ s : Scientific, s.Renders m ∧ s.decimal = Decimal.shortest binary64 .upward m := by
  have regular := BinaryFormat.binary64_regular
  obtain ⟨s, decimal⟩ := exists_decimal (Decimal.shortest_last .upward regular fits nonzero)
  refine ⟨s, ⟨?_, ?_⟩, decimal⟩
  · rw [← s.value_decimal, decimal]
    exact Decimal.roundRat_shortest .upward regular fits nonzero
  · intro t reads
    rw [← t.value_decimal] at reads
    have few := Decimal.count_shortest_le .upward regular fits nonzero reads
    rw [← decimal] at few
    exact (s.count_digits.symm.trans_le few).trans_eq t.count_digits

theorem Renders.length_le {s : Scientific} (renders : s.Renders m) : s.digits.length ≤ 1128 := by
  obtain ⟨t, own, decimal⟩ := exists_renders fits nonzero
  have few := Decimal.count_shortest_le_steps .upward BinaryFormat.binary64_regular fits nonzero
  rw [← decimal] at few
  exact (renders.fewest t own.reads).trans (t.count_digits.symm.trans_le few)

theorem Renders.layOut?_chars {s : Scientific} (renders : s.Renders m) (negative : Bool) :
    layOut? negative s.chars = some (s.literal negative).chars := by
  obtain ⟨low, high⟩ := renders.exponent_bounds nonzero
  have short := renders.length_le fits nonzero
  rw [s.layOut?_chars negative (by omega) (by omega),
    place?_digits negative (by omega) (by omega) (by omega)]

end

end Scientific

/-- Whatever is printed for a finite double that is not zero, the point is put in its place without fail, and
the outcome is a literal that shows what was printed; what is written for the double is one of these. -/
theorem double_keeps_its_value {x : Double} {negative : Bool} {m : Magnitude}
    (finite : x.decode = .finite negative m) (nonzero : m.significand ≠ 0) :
    (∃ s : Scientific, s.Renders m ∧ Literal.ofDouble? x = some (s.literal negative)) ∧
      ∀ s : Scientific, s.Renders m →
        layOut? negative s.chars = some (s.literal negative).chars ∧ s.Shown negative (s.literal negative) := by
  have fits := BinaryFormat.fits_of_decode BinaryFormat.binary64_regular finite
  constructor
  · obtain ⟨s, renders, decimal⟩ := Scientific.exists_renders fits nonzero
    refine ⟨s, renders, ?_⟩
    rw [Literal.ofDouble?, finite]
    dsimp only
    rw [Literal.ofMagnitude, if_neg nonzero, Scientific.literal, decimal]
  · intro s renders
    exact ⟨renders.layOut?_chars fits nonzero negative, s.shown negative⟩

theorem double_keeps_its_value_beyond :
    (⟨0x444B1AE4D6E2EF50⟩ : Double).decode = .finite false ⟨7629394531250000, 17⟩ ∧
      (∃ s : Scientific, s.Renders ⟨7629394531250000, 17⟩ ∧
        Literal.ofDouble? ⟨0x444B1AE4D6E2EF50⟩ = some (s.literal false)) ∧
      layOut? false "1e21".toList = some "1e+21".toList := by
  have finite : (⟨0x444B1AE4D6E2EF50⟩ : Double).decode = .finite false ⟨7629394531250000, 17⟩ := by decide
  obtain ⟨written, laid⟩ := double_keeps_its_value finite (by decide)
  let s : Scientific := ⟨1, [], 21, by decide, nofun⟩
  have reads : binary64.roundRat s.value = some ⟨7629394531250000, 17⟩ := by
    rw [← s.value_decimal, Decimal.value, ← BinaryFormat.roundDecimal_eq BinaryFormat.binary64_regular]
    decide +kernel
  have renders : s.Renders ⟨7629394531250000, 17⟩ := ⟨reads, fun _ _ => Nat.succ_le_succ (Nat.zero_le _)⟩
  have spelled : s.chars = "1e21".toList := by decide
  have literal : (s.literal false).chars = "1e+21".toList := by decide
  rw [← spelled, ← literal]
  exact ⟨finite, written, (laid s renders).1⟩

end Attest
