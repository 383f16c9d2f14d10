import Attest.Canonical.Basic
import Attest.Proofs.Entries
import Attest.Proofs.Number.Shortest

namespace Attest

theorem Decimal.literal_negative (negative : Bool) (d : Decimal) :
    (d.literal negative).negative = negative := by
  unfold literal
  dsimp only
  split
  · rfl
  · split <;> rfl

namespace Literal

theorem magnitude_of_isInteger {l : Literal} (integer : l.isInteger = true) :
    l.magnitude = l.whole := by
  obtain ⟨negative, whole, fraction, exponent⟩ := l
  obtain ⟨noFraction, noExponent⟩ := Bool.and_eq_true_iff.mp integer
  obtain rfl := List.isEmpty_iff.mp noFraction
  obtain rfl := Option.isNone_iff_eq_none.mp noExponent
  simp [magnitude, significand, scale, Digits.value]

theorem ofMagnitude_sign {f : BinaryFormat} (regular : f.Regular) (tie : Tie) (negative : Bool)
    {x : Magnitude} (fits : x.Fits f) :
    let l := ofMagnitude f tie negative x
    l.isInteger = true → (l.negative && l.whole != 0) = l.negative := by
  intro l integer
  by_cases zero : x.significand = 0
  · have none : l = ofInt 0 := if_pos zero
    rw [none]
    rfl
  · have rounds := round_ofMagnitude regular tie negative fits
    rw [round_eq regular, magnitude_of_isInteger integer] at rounds
    have nonzero : l.whole ≠ 0 := by
      intro none
      rw [none, Nat.cast_zero, BinaryFormat.roundRat, if_pos rfl] at rounds
      cases rounds
      exact zero rfl
    simp [nonzero]

theorem ofMagnitude_negative {f : BinaryFormat} (tie : Tie) (negative : Bool) {x : Magnitude}
    (fraction : (ofMagnitude f tie negative x).isInteger = false) :
    (ofMagnitude f tie negative x).negative = negative := by
  unfold ofMagnitude at fraction ⊢
  by_cases zero : x.significand = 0
  · rw [if_pos zero] at fraction
    cases fraction
  · rw [if_neg zero]
    exact Decimal.literal_negative negative _

end Literal

namespace Canonical

theorem settle_eq_number {l m : Literal} (number : settle l = .number m) : m = l := by
  unfold settle at number
  split at number
  · cases number
  · cases number
    rfl

theorem ofLiteral_of_isInteger {l : Literal} (integer : l.isInteger = true)
    (sign : (l.negative && l.whole != 0) = l.negative) : ofLiteral l = settle l := by
  rw [ofLiteral, if_pos integer, sign]

theorem ofLiteral_of_round {l : Literal} (fraction : l.isInteger = false) {x : Magnitude}
    (rounds : l.round binary64 = some x) :
    ofLiteral l = settle (.ofMagnitude binary64 .upward l.negative x) := by
  rw [ofLiteral, if_neg (by simp [fraction]), rounds]

theorem ofLiteral_of_number {l m : Literal} (number : ofLiteral l = .number m) :
    ofLiteral m = .number m := by
  by_cases integer : l.isInteger
  · rw [ofLiteral, if_pos integer] at number
    obtain rfl := settle_eq_number number
    rw [ofLiteral_of_isInteger (by exact integer) (by cases l.negative <;> simp), number]
  · cases rounds : l.round binary64 with
    | none =>
      rw [ofLiteral, if_neg integer, rounds] at number
      cases number
    | some x =>
      rw [ofLiteral_of_round (Bool.not_eq_true _ ▸ integer) rounds] at number
      obtain rfl := settle_eq_number number
      have regular := BinaryFormat.binary64_regular
      have fits := Literal.fits_of_round regular rounds
      cases written : (Literal.ofMagnitude binary64 .upward l.negative x).isInteger with
      | true =>
        have sign := Literal.ofMagnitude_sign regular .upward l.negative fits written
        rw [ofLiteral_of_isInteger written sign, number]
      | false =>
        have again := Literal.round_ofMagnitude regular .upward l.negative fits
        rw [ofLiteral_of_round written again, Literal.ofMagnitude_negative .upward _ written, number]

mutual

/-- Keys ascend, and every number is its own canonical form. -/
def Normal : Canonical → Prop
  | .number l => ofLiteral l = .number l
  | .array items => NormalItems items
  | .object members => Entries.Ascending members ∧ NormalMembers members
  | _ => True

def NormalItems : List Canonical → Prop
  | [] => True
  | item :: items => item.Normal ∧ NormalItems items

def NormalMembers : List (String × Canonical) → Prop
  | [] => True
  | (_, value) :: members => value.Normal ∧ NormalMembers members

end

theorem normalItems_iff {items : List Canonical} : NormalItems items ↔ ∀ item ∈ items, item.Normal := by
  induction items with
  | nil => simp [NormalItems]
  | cons item items ih => simp [NormalItems, ih]

theorem normalMembers_iff {members : List (String × Canonical)} :
    NormalMembers members ↔ ∀ entry ∈ members, entry.2.Normal := by
  induction members with
  | nil => simp [NormalMembers]
  | cons member members ih => simp [NormalMembers, ih]

theorem ofLiteral_cases (l : Literal) :
    ofLiteral l = .null ∨ (∃ s, ofLiteral l = .string s) ∨ ∃ m, ofLiteral l = .number m := by
  have settled : ∀ m, (∃ s, settle m = .string s) ∨ ∃ n, settle m = .number n := by
    intro m
    unfold settle
    split
    · exact .inl ⟨_, rfl⟩
    · exact .inr ⟨_, rfl⟩
  unfold ofLiteral
  split
  · exact .inr (settled _)
  · split
    · exact .inr (settled _)
    · exact .inl rfl

theorem normal_ofLiteral (l : Literal) : (ofLiteral l).Normal := by
  rcases ofLiteral_cases l with form | ⟨s, form⟩ | ⟨m, form⟩
  · rw [form]
    trivial
  · rw [form]
    trivial
  · rw [form]
    exact ofLiteral_of_number form

mutual

theorem normal_ofJson : (j : Json) → (ofJson j).Normal
  | .null | .bool _ | .string _ => trivial
  | .number l => normal_ofLiteral l
  | .array items => normalItems_ofItems items
  | .object members => by
    refine ⟨Entries.ascending_ofList _, normalMembers_iff.mpr fun entry member => ?_⟩
    exact normalMembers_iff.mp (normalMembers_ofMembers members) entry (Entries.mem_of_mem_ofList member)

theorem normalItems_ofItems : (items : List Json) → NormalItems (ofItems items)
  | [] => trivial
  | item :: items => ⟨normal_ofJson item, normalItems_ofItems items⟩

theorem normalMembers_ofMembers : (members : List (String × Json)) →
    NormalMembers (ofMembers members)
  | [] => trivial
  | (_, value) :: members => ⟨normal_ofJson value, normalMembers_ofMembers members⟩

end

mutual

theorem ofJson_toJson : (c : Canonical) → c.Normal → ofJson c.toJson = c
  | .null, _ | .bool _, _ | .string _, _ => rfl
  | .number _, normal => normal
  | .array items, normal => congrArg Canonical.array (ofItems_toItems items normal)
  | .object members, ⟨ascending, normal⟩ => by
    rw [toJson, ofJson, ofMembers_toMembers members normal, Entries.ofList_of_ascending ascending]

theorem ofItems_toItems : (items : List Canonical) → NormalItems items → ofItems (toItems items) = items
  | [], _ => rfl
  | item :: items, ⟨first, others⟩ => by
    rw [toItems, ofItems, ofJson_toJson item first, ofItems_toItems items others]

theorem ofMembers_toMembers : (members : List (String × Canonical)) → NormalMembers members →
    ofMembers (toMembers members) = members
  | [], _ => rfl
  | (key, value) :: members, ⟨first, others⟩ => by
    rw [toMembers, ofMembers, ofJson_toJson value first, ofMembers_toMembers members others]

end

theorem ofJson_toJson_ofJson (j : Json) : ofJson (ofJson j).toJson = ofJson j :=
  ofJson_toJson _ (normal_ofJson j)

end Canonical
end Attest
