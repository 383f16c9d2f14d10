import Attest.Text.Quote
import Mathlib.Data.List.Basic

namespace Attest

theorem append_cons_inj_of_count {c : Char} {as bs xs ys : List Char} (counts : as.count c = bs.count c)
    (same : as ++ c :: xs = bs ++ c :: ys) : as = bs ∧ xs = ys := by
  induction as generalizing bs with
  | nil =>
    cases bs with
    | nil => exact ⟨rfl, (List.cons.inj same).2⟩
    | cons b bs =>
      obtain ⟨rfl, -⟩ := List.cons.inj same
      simp at counts
  | cons a as ih =>
    cases bs with
    | nil =>
      obtain ⟨rfl, -⟩ := List.cons.inj same
      simp at counts
    | cons b bs =>
      obtain ⟨rfl, rest⟩ := List.cons.inj same
      have fewer : as.count c = bs.count c := by simpa [List.count_cons] using counts
      obtain ⟨rfl, tails⟩ := ih fewer rest
      exact ⟨rfl, tails⟩

theorem append_cons_inj {c : Char} {as bs xs ys : List Char} (absent : c ∉ as) (missing : c ∉ bs)
    (same : as ++ c :: xs = bs ++ c :: ys) : as = bs ∧ xs = ys :=
  append_cons_inj_of_count (by rw [List.count_eq_zero.mpr absent, List.count_eq_zero.mpr missing]) same

/-- A part that begins after the last such character is found again, whatever comes before it. -/
theorem append_cons_inj_last {c : Char} {as bs xs ys : List Char} (absent : c ∉ xs) (missing : c ∉ ys)
    (same : as ++ c :: xs = bs ++ c :: ys) : as = bs ∧ xs = ys := by
  have reversed := congrArg List.reverse same
  rw [List.reverse_append, List.reverse_cons, List.append_assoc, List.reverse_append, List.reverse_cons,
    List.append_assoc] at reversed
  obtain ⟨backs, fronts⟩ := append_cons_inj (List.mem_reverse.not.mpr absent) (List.mem_reverse.not.mpr missing)
    reversed
  exact ⟨List.reverse_injective fronts, List.reverse_injective backs⟩

theorem append_inj_of_all {p : Char → Bool} {as bs xs ys : List Char} (all : ∀ c ∈ as, p c = true)
    (others : ∀ c ∈ bs, p c = true) (ends : ∀ c ∈ xs.head?, p c = false)
    (stops : ∀ c ∈ ys.head?, p c = false) (same : as ++ xs = bs ++ ys) : as = bs ∧ xs = ys := by
  have taken (cs zs : List Char) (inside : ∀ c ∈ cs, p c = true) (after : ∀ c ∈ zs.head?, p c = false) :
      (cs ++ zs).takeWhile p = cs := by
    rw [List.takeWhile_append_of_pos inside]
    cases zs with
    | nil => simp
    | cons z zs => simp [after z rfl]
  have first : as = bs := by rw [← taken as xs all ends, same, taken bs ys others stops]
  subst first
  exact ⟨rfl, List.append_cancel_left same⟩

theorem digitChar_inj : ∀ a < 16, ∀ b < 16, Nat.digitChar a = Nat.digitChar b → a = b := by decide

theorem toDigits_inj {b : Nat} (base : 1 < b) (few : b ≤ 16) {n m : Nat}
    (same : Nat.toDigits b n = Nat.toDigits b m) : n = m := by
  induction n using Nat.strongRecOn generalizing m with
  | ind n ih =>
    have split (k : Nat) : Nat.toDigits b k =
        (if k < b then [] else Nat.toDigits b (k / b)) ++ [Nat.digitChar (k % b)] := by
      rw [Nat.toDigits_eq_if base]
      by_cases small : k < b
      · simp [small, Nat.mod_eq_of_lt]
      · simp [small]
    rw [split n, split m] at same
    obtain ⟨front, last⟩ := List.append_inj' same rfl
    have low (k : Nat) : k % b < 16 := Nat.lt_of_lt_of_le (Nat.mod_lt _ (by omega)) few
    have ones : n % b = m % b := digitChar_inj _ (low n) _ (low m) (List.cons.inj last).1
    have fronts : n / b = m / b := by
      by_cases small : n < b <;> by_cases short : m < b
      · rw [Nat.div_eq_of_lt small, Nat.div_eq_of_lt short]
      · rw [if_pos small, if_neg short] at front
        exact absurd front.symm Nat.toDigits_ne_nil
      · rw [if_neg small, if_pos short] at front
        exact absurd front Nat.toDigits_ne_nil
      · rw [if_neg small, if_neg short] at front
        exact ih (n / b) (Nat.div_lt_self (by omega) base) front
    rw [← Nat.div_add_mod n b, ← Nat.div_add_mod m b, ones, fronts]

def IsIntChar (c : Char) : Bool := c.isDigit || c == '-'

theorem toList_toString_int (n : Int) :
    (toString n).toList = (if n < 0 then ['-'] else []) ++ Nat.toDigits 10 n.natAbs := by
  show n.repr.toList = _
  cases n <;> simp [Int.repr, Nat.repr]

theorem isIntChar_toString (n : Int) : ∀ c ∈ (toString n).toList, IsIntChar c = true := by
  intro c member
  rw [toList_toString_int, List.mem_append] at member
  rcases member with sign | digit
  · split at sign
    · obtain rfl := List.mem_singleton.mp sign
      rfl
    · cases sign
  · rw [IsIntChar, Nat.isDigit_of_mem_toDigits (by decide) (by decide) digit, Bool.true_or]

theorem toString_int_injective : Function.Injective (toString : Int → String) := by
  intro n m same
  have chars := congrArg String.toList same
  rw [toList_toString_int, toList_toString_int] at chars
  have minus (k : Nat) : '-' ∉ Nat.toDigits 10 k := by
    intro member
    have digit := Nat.isDigit_of_mem_toDigits (by decide) (by decide) member
    exact absurd digit (by decide)
  have signs : n < 0 ↔ m < 0 := by
    have counts := congrArg (List.count '-') chars
    rw [List.count_append, List.count_append, List.count_eq_zero.mpr (minus _),
      List.count_eq_zero.mpr (minus _)] at counts
    by_cases left : n < 0 <;> by_cases right : m < 0 <;> simp [left, right] at counts ⊢
  have magnitudes : n.natAbs = m.natAbs := by
    by_cases negative : n < 0
    · rw [if_pos negative, if_pos (signs.mp negative)] at chars
      exact toDigits_inj (by decide) (by decide) (List.append_cancel_left chars)
    · rw [if_neg negative, if_neg fun other => negative (signs.mpr other)] at chars
      exact toDigits_inj (by decide) (by decide) (List.append_cancel_left chars)
  omega

theorem toString_append_inj {n m : Int} {xs ys : List Char} (ends : ∀ c ∈ xs.head?, IsIntChar c = false)
    (stops : ∀ c ∈ ys.head?, IsIntChar c = false)
    (same : (toString n).toList ++ xs = (toString m).toList ++ ys) : n = m ∧ xs = ys := by
  obtain ⟨texts, rest⟩ := append_inj_of_all (isIntChar_toString n) (isIntChar_toString m) ends stops same
  exact ⟨toString_int_injective (String.toList_injective texts), rest⟩

namespace Quote

theorem brace_not_mem_toDigits (n : Nat) : '\x7d' ∉ Nat.toDigits 16 n := by
  induction n using Nat.strongRecOn with
  | ind n ih =>
    rw [Nat.toDigits_eq_if (by decide)]
    split
    · simp
    · rename_i large
      have front := ih (n / 16) (by omega)
      simp [front]

def letters : List (Char × Char) :=
  [('\x00', '0'), ('\t', 't'), ('\r', 'r'), ('\n', 'n'), ('\\', '\\'), ('"', '"')]

theorem letters_inj : ∀ a ∈ letters, ∀ b ∈ letters, a.2 = b.2 → a.1 = b.1 := by decide

theorem letters_ne_u : ∀ a ∈ letters, a.2 ≠ 'u' := by decide

theorem escape_cases (c : Char) :
    (∃ letter, (c, letter) ∈ letters ∧ (escape '"' c).toList = ['\\', letter]) ∨
    (escape '"' c).toList = '\\' :: 'u' :: '\x7b' :: (Nat.toDigits 16 c.toNat ++ ['\x7d']) ∨
    ((escape '"' c).toList = [c] ∧ c ≠ '\\' ∧ c ≠ '"') := by
  unfold escape
  split
  · subst c
    exact .inl ⟨'0', by decide, rfl⟩
  split
  · subst c
    exact .inl ⟨'t', by decide, rfl⟩
  split
  · subst c
    exact .inl ⟨'r', by decide, rfl⟩
  split
  · subst c
    exact .inl ⟨'n', by decide, rfl⟩
  split
  · rename_i special
    refine .inl ⟨c, ?_, String.toList_ofList⟩
    rcases special with rfl | rfl <;> decide
  · rename_i plain
    split
    · exact .inr (.inl (by simp [hexOf]))
    · exact .inr (.inr ⟨by simp, fun slash => plain (.inl slash), fun quote => plain (.inr quote)⟩)

theorem escape_append_inj {c d : Char} {xs ys : List Char}
    (same : (escape '"' c).toList ++ xs = (escape '"' d).toList ++ ys) : c = d ∧ xs = ys := by
  -- A letter, a number or the character itself on either side: unlike kinds differ in their first two characters.
  rcases escape_cases c with ⟨a, named, left⟩ | left | ⟨left, slash, -⟩ <;>
    rcases escape_cases d with ⟨b, known, right⟩ | right | ⟨right, other, -⟩ <;>
    rw [left, right] at same <;> simp only [List.cons_append, List.nil_append, List.cons.injEq, true_and] at same
  · exact ⟨letters_inj _ named _ known same.1, same.2⟩
  · exact absurd same.1 (letters_ne_u _ named)
  · exact absurd same.1.symm other
  · exact absurd same.1.symm (letters_ne_u _ known)
  · rw [List.append_assoc, List.append_assoc] at same
    obtain ⟨number, rest⟩ :=
      append_cons_inj (brace_not_mem_toDigits _) (brace_not_mem_toDigits _) same
    exact ⟨Char.toNat_inj.mp (toDigits_inj (by decide) (by decide) number), rest⟩
  · exact absurd same.1.symm other
  · exact absurd same.1 slash
  · exact absurd same.1 slash
  · exact same

theorem escape_append_ne {c : Char} {xs ys : List Char} : (escape '"' c).toList ++ xs ≠ '"' :: ys := by
  intro same
  rcases escape_cases c with ⟨a, -, found⟩ | found | ⟨found, -, plain⟩ <;>
    rw [found] at same <;> simp at same
  exact plain same.1

theorem toList_text (s : String) :
    (text s).toList = '"' :: (s.toList.flatMap fun c => (escape '"' c).toList) ++ ['"'] := by
  simp [text, String.toList_join, List.flatMap_map]

theorem text_append_inj {s t : String} {xs ys : List Char}
    (same : (text s).toList ++ xs = (text t).toList ++ ys) : s = t ∧ xs = ys := by
  have chars (as bs : List Char)
      (same : (as.flatMap fun c => (escape '"' c).toList) ++ '"' :: xs =
        (bs.flatMap fun c => (escape '"' c).toList) ++ '"' :: ys) : as = bs ∧ xs = ys := by
    induction as generalizing bs with
    | nil =>
      cases bs with
      | nil => exact ⟨rfl, (List.cons.inj same).2⟩
      | cons b bs =>
        rw [List.flatMap_cons, List.append_assoc] at same
        exact absurd same.symm escape_append_ne
    | cons a as ih =>
      cases bs with
      | nil =>
        rw [List.flatMap_cons, List.append_assoc] at same
        exact absurd same escape_append_ne
      | cons b bs =>
        rw [List.flatMap_cons, List.flatMap_cons, List.append_assoc, List.append_assoc] at same
        obtain ⟨rfl, rest⟩ := escape_append_inj same
        obtain ⟨rfl, tails⟩ := ih bs rest
        exact ⟨rfl, tails⟩
  rw [toList_text, toList_text] at same
  simp only [List.cons_append, List.append_assoc, List.cons.injEq, true_and, List.nil_append] at same
  obtain ⟨texts, rest⟩ := chars _ _ same
  exact ⟨String.toList_injective texts, rest⟩

end Quote
end Attest
