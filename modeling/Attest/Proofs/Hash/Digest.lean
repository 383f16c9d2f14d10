import Attest.Proofs.Hash.Collision

namespace Attest.Digest

theorem ofHex_eq_ok_iff {s : String} {d : Digest} : ofHex s = .ok d ↔ s.toLower = d.hex := by
  rw [hex, ← Hex.decode_eq_ok_iff, ofHex]
  cases read : Hex.decode s with
  | error fault => simp
  | ok bytes =>
    dsimp only
    rw [ofBytes?, Except.ok.injEq]
    by_cases length : bytes.length = 32
    · rw [dif_pos length]
      constructor
      · intro same
        cases same
        rfl
      · rintro rfl
        rfl
    · rw [dif_neg length]
      constructor
      · intro failed
        cases failed
      · rintro rfl
        exact absurd d.length_bytes length

theorem toLower_hex (d : Digest) : d.hex.toLower = d.hex := ofHex_eq_ok_iff.mp d.ofHex_hex

def IsText (s : String) : Prop := s.length = 64 ∧ ∀ c ∈ s.toList, Hex.IsDigit c

instance (s : String) : Decidable (IsText s) :=
  inferInstanceAs (Decidable (s.length = 64 ∧ ∀ c ∈ s.toList, Hex.IsDigit c))

theorem exists_ofHex_iff {s : String} : (∃ d, ofHex s = .ok d) ↔ IsText s := by
  have texts := Hex.exists_decode_iff (s := s) (k := 32)
  rw [IsText, ← texts]
  constructor
  · rintro ⟨d, read⟩
    exact ⟨d.bytes, Hex.decode_eq_ok_iff.mpr (ofHex_eq_ok_iff.mp read), d.length_bytes⟩
  · rintro ⟨bytes, read, length⟩
    exact ⟨⟨bytes, length⟩, ofHex_eq_ok_iff.mpr (Hex.decode_eq_ok_iff.mp read)⟩

theorem isText_hex (d : Digest) : IsText d.hex := exists_ofHex_iff.mp ⟨d, d.ofHex_hex⟩

theorem ofTagged_append (digits : String) : ofTagged (algorithm ++ ":" ++ digits) = ofHex digits := by
  have chars : (algorithm ++ ":" ++ digits).toList = algorithm.toList ++ ':' :: digits.toList := by
    rw [String.toList_append, String.toList_append, List.append_assoc]
    rfl
  have plain : ∀ c ∈ algorithm.toList, decide (c ≠ ':') = true := List.all_eq_true.mp (by decide)
  have stops : ((':' : Char) :: digits.toList).takeWhile (fun c => decide (c ≠ ':')) = [] := rfl
  have name : (algorithm ++ ":" ++ digits).toList.takeWhile (· ≠ ':') = algorithm.toList := by
    rw [chars, List.takeWhile_append_of_pos plain, stops, List.append_nil]
  have rest : (algorithm ++ ":" ++ digits).toList.dropWhile (· ≠ ':') = ':' :: digits.toList := by
    rw [chars, List.dropWhile_append_of_pos plain]
    rfl
  rw [ofTagged, name, rest]
  dsimp only
  rw [String.ofList_toList, String.ofList_toList, if_pos rfl]

theorem exists_append_of_ofTagged {s : String} {d : Digest} (read : ofTagged s = .ok d) :
    ∃ digits, s = algorithm ++ ":" ++ digits := by
  have whole := List.takeWhile_append_dropWhile (p := (· ≠ ':')) (l := s.toList)
  rw [ofTagged] at read
  cases rest : s.toList.dropWhile (· ≠ ':') with
  | nil =>
    rw [rest] at read
    cases read
  | cons c cs =>
    have colon : c = ':' := by
      have first := List.head?_dropWhile_not (· ≠ ':') s.toList
      rw [rest] at first
      simpa using first
    rw [rest] at read whole
    dsimp only at read
    split at read
    · rename_i name
      refine ⟨String.ofList cs, ?_⟩
      rw [← String.toList_inj, ← whole, ← name, colon]
      simp
    · cases read

theorem ofTagged_eq_ok_iff {s : String} {d : Digest} :
    ofTagged s = .ok d ↔ ∃ digits, s = algorithm ++ ":" ++ digits ∧ ofHex digits = .ok d := by
  constructor
  · intro read
    obtain ⟨digits, rfl⟩ := exists_append_of_ofTagged read
    exact ⟨digits, rfl, (ofTagged_append digits).symm.trans read⟩
  · rintro ⟨digits, rfl, read⟩
    exact (ofTagged_append digits).trans read

end Attest.Digest
