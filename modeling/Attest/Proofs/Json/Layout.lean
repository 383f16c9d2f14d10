import Attest.Proofs.Json.Tokens

namespace Attest.Json

/-- The bytes spell the tokens, with blanks before, between and behind them. A number may not run into
what follows it. -/
inductive Layout : List Token → Bytes → Prop where
  | nil : Layout [] []
  | blank {tokens : List Token} {b : UInt8} {rest : Bytes} (blank : Token.isBlank b = true)
      (others : Layout tokens rest) : Layout tokens (b :: rest)
  | token {t : Token} {tokens : List Token} {own rest : Bytes} (spelled : t.Spelling own)
      (apart : ∀ l, t = .number l → Literal.Stops rest) (others : Layout tokens rest) :
      Layout (t :: tokens) (own ++ rest)

namespace Token

theorem scan_spelling {t : Token} {own : Bytes} (spelled : t.Spelling own) {rest : Bytes}
    (apart : ∀ l, t = .number l → Literal.Stops rest) : scan (own ++ rest) = t :: scan rest := by
  cases spelled with
  | number spelled => exact scan_number spelled (apart _ rfl)
  | text spelled => exact scan_text spelled rest
  | textless spelled fault => rw [scan_quoted spelled, fault]
  | _ => exact scan_token (by decide) rfl

theorem stops_of_scan {rest : Bytes} (ends : Digits.Ends rest) (good : .bad ∉ scan rest) :
    Literal.Stops rest := by
  cases rest with
  | nil => exact .nil
  | cons b rest =>
    refine .cons ⟨ends b rfl, ?_⟩ rest
    have no (a : UInt8) (visible : isBlank a = false) (fault : next a rest = none) : b ≠ a := by
      rintro rfl
      rw [scan_fault visible fault] at good
      exact good List.mem_cons_self
    exact ⟨no 0x2E (by decide) rfl, no 0x65 (by decide) rfl, no 0x45 (by decide) rfl⟩

theorem layout_scan (n : Nat) (bytes : Bytes) (short : bytes.length ≤ n) (good : .bad ∉ scan bytes) :
    Layout (scan bytes) bytes := by
  induction n generalizing bytes with
  | zero =>
    obtain rfl := List.length_eq_zero_iff.mp (Nat.le_zero.mp short)
    exact .nil
  | succ n ih =>
    cases bytes with
    | nil => exact .nil
    | cons b rest =>
      simp only [List.length_cons] at short
      cases visible : isBlank b with
      | true =>
        rw [scan_blank visible] at good ⊢
        exact .blank visible (ih rest (by omega) good)
      | false =>
        cases found : next b rest with
        | none =>
          rw [scan_fault visible found] at good
          exact absurd List.mem_cons_self good
        | some result =>
          obtain ⟨t, more⟩ := result
          have shorter := length_next_le found
          rw [scan_token visible found] at good ⊢
          have later : .bad ∉ scan more := fun bad => good (List.mem_cons_of_mem _ bad)
          obtain ⟨own, spelled, front, ends⟩ := eq_of_next found
          rw [front]
          exact .token spelled (fun l number => stops_of_scan (ends l number) later)
            (ih more (by omega) later)

theorem scan_eq_iff_layout {tokens : List Token} (good : .bad ∉ tokens) {bytes : Bytes} :
    scan bytes = tokens ↔ Layout tokens bytes := by
  constructor
  · rintro rfl
    exact layout_scan _ bytes (Nat.le_refl _) good
  · intro layout
    clear good
    induction layout with
    | nil => rfl
    | blank blank _ ih => rw [scan_blank blank, ih]
    | token spelled apart _ ih => rw [scan_spelling spelled apart, ih]

end Token

theorem Layout.good {tokens : List Token} {bytes : Bytes} (layout : Layout tokens bytes) : .bad ∉ tokens := by
  induction layout with
  | nil => exact List.not_mem_nil
  | blank _ _ ih => exact ih
  | token spelled _ _ ih =>
    intro bad
    rcases List.mem_cons.mp bad with rfl | later
    · cases spelled
    · exact ih later

end Attest.Json
