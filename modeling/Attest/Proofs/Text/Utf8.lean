import Attest.Text.Utf8

namespace Attest.Utf8

def ofChars (cs : List Char) : Bytes := cs.flatMap String.utf8EncodeChar

@[simp] theorem ofChars_nil : ofChars [] = [] := rfl

@[simp] theorem ofChars_cons (c : Char) (cs : List Char) :
    ofChars (c :: cs) = String.utf8EncodeChar c ++ ofChars cs := rfl

@[simp] theorem ofChars_append (cs ds : List Char) : ofChars (cs ++ ds) = ofChars cs ++ ofChars ds :=
  List.flatMap_append

theorem encode_ofList (cs : List Char) : encode (String.ofList cs) = ofChars cs := by
  rw [encode, String.toList_ofList, ofChars]

theorem encodeChar_of_ascii {c : Char} (ascii : c.toNat < 0x80) :
    String.utf8EncodeChar c = [UInt8.ofNat c.toNat] := by
  have bound : c.val.toNat ≤ 0x7F := by simp only [Char.toNat] at ascii; omega
  simp only [String.utf8EncodeChar, bound, if_true, Char.toNat]

theorem toNat_of_mem_encodeChar {c : Char} (wide : 0x80 ≤ c.toNat) {b : UInt8}
    (member : b ∈ String.utf8EncodeChar c) : 0x80 ≤ b.toNat := by
  simp only [Char.toNat] at wide
  unfold String.utf8EncodeChar at member
  have byte (n : Nat) (low : 0x80 ≤ n) (high : n < 0x100) : 0x80 ≤ (UInt8.ofNat n).toNat := by
    simp only [UInt8.toNat_ofNat']
    omega
  simp only [show ¬ c.val.toNat ≤ 0x7F by omega, if_false] at member
  split at member
  · simp only [List.mem_cons, List.not_mem_nil, or_false] at member
    rcases member with rfl | rfl <;> exact byte _ (by omega) (by omega)
  · split at member
    · simp only [List.mem_cons, List.not_mem_nil, or_false] at member
      rcases member with rfl | rfl | rfl <;> exact byte _ (by omega) (by omega)
    · simp only [List.mem_cons, List.not_mem_nil, or_false] at member
      rcases member with rfl | rfl | rfl | rfl <;> exact byte _ (by omega) (by omega)

theorem continued_cons {extra low high value taken n : Nat} (rest : Bytes) (small : n < 0x100)
    (above : low ≤ n) (below : n ≤ high) :
    continued (extra + 1) low high value taken (UInt8.ofNat n :: rest) =
      continued extra 0x80 0xBF (value * 64 + (n - 0x80)) (taken + 1) rest := by
  have byte : (UInt8.ofNat n).toNat = n := by
    simp only [UInt8.toNat_ofNat']
    omega
  rw [continued]
  simp [byte, above, below]

theorem continued_done (low high value taken : Nat) (rest : Bytes) :
    continued 0 low high value taken rest = .ok (value, rest) := by
  cases rest <;> simp [continued]

theorem first_cons {n : Nat} (rest : Bytes) (small : n < 0x100) {l : Lead} (lead : lead? n = some l) :
    first (UInt8.ofNat n :: rest) =
      (continued l.extra l.low l.high l.bits 1 rest).map fun (n, rest) => (.ofNat n, rest) := by
  have byte : (UInt8.ofNat n).toNat = n := by
    simp only [UInt8.toNat_ofNat']
    omega
  simp [first, byte, lead]

theorem lead?_two : ∀ q < 0x20, 2 ≤ q → lead? (q + 0xC0) = some ⟨1, 0x80, 0xBF, q⟩ := by decide

theorem lead?_three : ∀ q < 0x10, lead? (q + 0xE0) =
    some ⟨2, if q = 0 then 0xA0 else 0x80, if q = 13 then 0x9F else 0xBF, q⟩ := by decide

theorem lead?_four : ∀ q < 5, lead? (q + 0xF0) =
    some ⟨3, if q = 0 then 0x90 else 0x80, if q = 4 then 0x8F else 0xBF, q⟩ := by decide

theorem first_encodeChar (c : Char) (rest : Bytes) :
    first (String.utf8EncodeChar c ++ rest) = .ok (c, rest) := by
  have scalar : c.val.toNat < 0xD800 ∨ (0xDFFF < c.val.toNat ∧ c.val.toNat < 0x110000) := c.valid
  have back : Char.ofNat c.val.toNat = c := Char.ofNat_toNat c
  unfold String.utf8EncodeChar
  generalize c.val.toNat = v at scalar back
  dsimp only
  split
  · have lead : lead? v = some ⟨0, 0x80, 0xBF, v⟩ := by rw [lead?, if_pos (by omega)]
    rw [List.singleton_append, first_cons rest (by omega) lead, continued_done]
    change Except.ok (Char.ofNat v, rest) = _
    rw [back]
  · split
    · have whole : v / 64 % 0x20 = v / 64 := Nat.mod_eq_of_lt (by omega)
      have value : v / 64 * 64 + (v % 0x40 + 0x80 - 0x80) = v := by omega
      have lead := lead?_two (v / 64) (by omega) (by omega)
      rw [whole, List.cons_append, List.singleton_append, first_cons _ (by omega) lead]
      dsimp only
      rw [continued_cons _ (by omega) (by omega) (by omega), continued_done]
      change Except.ok (Char.ofNat _, rest) = _
      rw [value, back]
    · split
      · -- The first continuation byte has a narrower range where it would begin an overlong form or
        -- a surrogate.
        have whole : v / 4096 % 0x10 = v / 4096 := Nat.mod_eq_of_lt (by omega)
        have value : (v / 4096 * 64 + (v / 64 % 0x40 + 0x80 - 0x80)) * 64 +
            (v % 0x40 + 0x80 - 0x80) = v := by omega
        have lead := lead?_three (v / 4096) (by omega)
        rw [whole, List.cons_append, List.cons_append, List.singleton_append,
          first_cons _ (by omega) lead]
        dsimp only
        rw [continued_cons _ (by omega) (by split <;> omega) (by split <;> omega),
          continued_cons _ (by omega) (by omega) (by omega), continued_done]
        change Except.ok (Char.ofNat _, rest) = _
        rw [value, back]
      · have whole : v / 262144 % 0x08 = v / 262144 := Nat.mod_eq_of_lt (by omega)
        have value : ((v / 262144 * 64 + (v / 4096 % 0x40 + 0x80 - 0x80)) * 64 +
            (v / 64 % 0x40 + 0x80 - 0x80)) * 64 + (v % 0x40 + 0x80 - 0x80) = v := by omega
        have lead := lead?_four (v / 262144) (by omega)
        rw [whole, List.cons_append, List.cons_append, List.cons_append, List.singleton_append,
          first_cons _ (by omega) lead]
        dsimp only
        rw [continued_cons _ (by omega) (by split <;> omega) (by split <;> omega),
          continued_cons _ (by omega) (by omega) (by omega),
          continued_cons _ (by omega) (by omega) (by omega), continued_done]
        change Except.ok (Char.ofNat _, rest) = _
        rw [value, back]

theorem decodeFrom_ofChars (cs seen : List Char) (steps total : Nat) (enough : cs.length ≤ steps) :
    decodeFrom steps total seen (ofChars cs) = .ok (seen.reverse ++ cs) := by
  induction cs generalizing seen steps with
  | nil => simp [decodeFrom]
  | cons c cs ih =>
    obtain ⟨steps, rfl⟩ : ∃ more, steps = more + 1 := ⟨steps - 1, by simp at enough; omega⟩
    have step : decodeFrom (steps + 1) total seen (ofChars (c :: cs)) =
        decodeFrom steps total (c :: seen) (ofChars cs) := by
      obtain ⟨b, bytes, spelled⟩ := List.exists_cons_of_ne_nil (String.utf8EncodeChar_ne_nil (c := c))
      have read := first_encodeChar c (ofChars cs)
      rw [spelled, List.cons_append] at read
      rw [ofChars_cons, spelled, List.cons_append, decodeFrom, read]
      exact List.cons_ne_nil _ _
    rw [step, ih (c :: seen) steps (by simpa using enough)]
    simp

theorem length_le_ofChars (cs : List Char) : cs.length ≤ (ofChars cs).length := by
  induction cs with
  | nil => simp
  | cons c cs ih =>
    have := List.length_pos_iff.mpr (String.utf8EncodeChar_ne_nil (c := c))
    simp only [ofChars_cons, List.length_append, List.length_cons]
    omega

theorem decode_ofChars (cs : List Char) : decode (ofChars cs) = .ok (String.ofList cs) := by
  rw [decode, decodeFrom_ofChars cs [] _ _ (length_le_ofChars cs)]
  rfl

theorem encode_injective : Function.Injective encode := by
  intro s t same
  have decoded := congrArg decode same
  rw [← String.ofList_toList (s := s), ← String.ofList_toList (s := t), encode_ofList, encode_ofList,
    decode_ofChars, decode_ofChars] at decoded
  simpa using decoded

theorem continued_succ_eq_ok {extra low high value taken n : Nat} {input rest : Bytes}
    (read : continued (extra + 1) low high value taken input = .ok (n, rest)) :
    ∃ b tail, input = b :: tail ∧ low ≤ b.toNat ∧ b.toNat ≤ high ∧
      continued extra 0x80 0xBF (value * 64 + (b.toNat - 0x80)) (taken + 1) tail = .ok (n, rest) := by
  cases input with
  | nil => cases read
  | cons b tail =>
    rw [continued, if_neg (Nat.succ_ne_zero extra)] at read
    split at read
    · rename_i inside
      exact ⟨b, tail, rfl, inside.1, inside.2, read⟩
    · cases read

theorem continued_zero_eq_ok {low high value taken n : Nat} {input rest : Bytes}
    (read : continued 0 low high value taken input = .ok (n, rest)) : n = value ∧ rest = input := by
  rw [continued_done] at read
  cases read
  exact ⟨rfl, rfl⟩

theorem toNat_ofNat {n : Nat} (scalar : n < 0xD800 ∨ (0xDFFF < n ∧ n < 0x110000)) :
    (Char.ofNat n).val.toNat = n := by
  rw [Char.ofNat, dif_pos scalar]
  rfl

section

variable {p q r s n : Nat}

theorem encodeChar_two (value : n = p * 64 + q) (lead : 2 ≤ p ∧ p < 0x20) (more : q < 0x40) :
    String.utf8EncodeChar (.ofNat n) = [.ofNat (p + 0xC0), .ofNat (q + 0x80)] := by
  have high : n / 64 % 0x20 = p := by omega
  have low : n % 0x40 = q := by omega
  rw [String.utf8EncodeChar, toNat_ofNat (by omega)]
  rw [if_neg (by omega), if_pos (by omega), high, low]

theorem encodeChar_three (value : n = (p * 64 + q) * 64 + r) (lead : p < 0x10) (more : q < 0x40)
    (last : r < 0x40) (wide : p = 0 → 0x20 ≤ q) (apart : p = 13 → q < 0x20) :
    String.utf8EncodeChar (.ofNat n) = [.ofNat (p + 0xE0), .ofNat (q + 0x80), .ofNat (r + 0x80)] := by
  have high : n / 4096 % 0x10 = p := by omega
  have mid : n / 64 % 0x40 = q := by omega
  have low : n % 0x40 = r := by omega
  rw [String.utf8EncodeChar, toNat_ofNat (by omega)]
  rw [if_neg (by omega), if_neg (by omega), if_pos (by omega), high, mid, low]

theorem encodeChar_four (value : n = ((p * 64 + q) * 64 + r) * 64 + s) (lead : p < 5) (more : q < 0x40)
    (next : r < 0x40) (last : s < 0x40) (wide : p = 0 → 0x10 ≤ q) (inside : p = 4 → q < 0x10) :
    String.utf8EncodeChar (.ofNat n) =
      [.ofNat (p + 0xF0), .ofNat (q + 0x80), .ofNat (r + 0x80), .ofNat (s + 0x80)] := by
  have high : n / 262144 % 0x08 = p := by omega
  have upper : n / 4096 % 0x40 = q := by omega
  have lower : n / 64 % 0x40 = r := by omega
  have low : n % 0x40 = s := by omega
  rw [String.utf8EncodeChar, toNat_ofNat (by omega)]
  rw [if_neg (by omega), if_neg (by omega), if_neg (by omega), high, upper, lower, low]

end

theorem ofNat_sub_add {b : UInt8} {n : Nat} (above : n ≤ b.toNat) : UInt8.ofNat (b.toNat - n + n) = b := by
  rw [Nat.sub_add_cancel above, UInt8.ofNat_toNat]

theorem lead?_cases {b : Nat} {l : Lead} (lead : lead? b = some l) :
    (b < 0x80 ∧ l = ⟨0, 0x80, 0xBF, b⟩) ∨
    (0xC2 ≤ b ∧ b < 0xE0 ∧ l = ⟨1, 0x80, 0xBF, b - 0xC0⟩) ∨
    (0xE0 ≤ b ∧ b < 0xF0 ∧
      l = ⟨2, if b = 0xE0 then 0xA0 else 0x80, if b = 0xED then 0x9F else 0xBF, b - 0xE0⟩) ∨
    (0xF0 ≤ b ∧ b < 0xF5 ∧
      l = ⟨3, if b = 0xF0 then 0x90 else 0x80, if b = 0xF4 then 0x8F else 0xBF, b - 0xF0⟩) := by
  unfold lead? at lead
  split at lead
  · exact .inl ⟨‹_›, (Option.some.inj lead).symm⟩
  split at lead
  · cases lead
  split at lead
  · exact .inr (.inl ⟨by omega, ‹_›, (Option.some.inj lead).symm⟩)
  split at lead
  · exact .inr (.inr (.inl ⟨by omega, ‹_›, (Option.some.inj lead).symm⟩))
  split at lead
  · exact .inr (.inr (.inr ⟨by omega, ‹_›, (Option.some.inj lead).symm⟩))
  · cases lead

theorem eq_of_first {input rest : Bytes} {c : Char} (read : first input = .ok (c, rest)) :
    input = String.utf8EncodeChar c ++ rest := by
  cases input with
  | nil => cases read
  | cons b tail =>
    rw [first] at read
    cases lead : lead? b.toNat with
    | none => simp [lead] at read
    | some l =>
      simp only [lead] at read
      cases found : continued l.extra l.low l.high l.bits 1 tail with
      | error e => simp [found, Except.map] at read
      | ok result =>
        obtain ⟨n, rest'⟩ := result
        simp only [found, Except.map, Except.ok.injEq, Prod.mk.injEq] at read
        obtain ⟨rfl, rfl⟩ := read
        rcases lead?_cases lead with ⟨low, rfl⟩ | ⟨low, high, rfl⟩ | ⟨low, high, rfl⟩ | ⟨low, high, rfl⟩ <;>
          dsimp only at found
        · obtain ⟨same, rfl⟩ := continued_zero_eq_ok found
          have value : (Char.ofNat n).toNat = b.toNat := same ▸ toNat_ofNat (by omega)
          rw [encodeChar_of_ascii (by omega), value, UInt8.ofNat_toNat]
          rfl
        · obtain ⟨b₁, tail, rfl, low₁, high₁, found⟩ := continued_succ_eq_ok found
          obtain ⟨value, rfl⟩ := continued_zero_eq_ok found
          rw [encodeChar_two value (by omega) (by omega), ofNat_sub_add (by omega), ofNat_sub_add low₁]
          rfl
        · obtain ⟨b₁, tail, rfl, low₁, high₁, found⟩ := continued_succ_eq_ok found
          obtain ⟨b₂, tail, rfl, low₂, high₂, found⟩ := continued_succ_eq_ok found
          obtain ⟨value, rfl⟩ := continued_zero_eq_ok found
          have above : 0x80 ≤ b₁.toNat := Nat.le_trans (by split <;> omega) low₁
          have below : b₁.toNat ≤ 0xBF := Nat.le_trans high₁ (by split <;> omega)
          rw [encodeChar_three value (by omega) (by omega) (by omega) ?_ ?_, ofNat_sub_add low,
            ofNat_sub_add above, ofNat_sub_add low₂]
          · rfl
          · intro first
            rw [if_pos (by omega)] at low₁
            omega
          · intro surrogate
            rw [if_pos (by omega)] at high₁
            omega
        · obtain ⟨b₁, tail, rfl, low₁, high₁, found⟩ := continued_succ_eq_ok found
          obtain ⟨b₂, tail, rfl, low₂, high₂, found⟩ := continued_succ_eq_ok found
          obtain ⟨b₃, tail, rfl, low₃, high₃, found⟩ := continued_succ_eq_ok found
          obtain ⟨value, rfl⟩ := continued_zero_eq_ok found
          have above : 0x80 ≤ b₁.toNat := Nat.le_trans (by split <;> omega) low₁
          have below : b₁.toNat ≤ 0xBF := Nat.le_trans high₁ (by split <;> omega)
          rw [encodeChar_four value (by omega) (by omega) (by omega) (by omega) ?_ ?_, ofNat_sub_add low,
            ofNat_sub_add above, ofNat_sub_add low₂, ofNat_sub_add low₃]
          · rfl
          · intro first
            rw [if_pos (by omega)] at low₁
            omega
          · intro last
            rw [if_pos (by omega)] at high₁
            omega

theorem decodeFrom_eq_ok {steps total : Nat} {seen cs : List Char} {input : Bytes}
    (read : decodeFrom steps total seen input = .ok cs) :
    ∃ own, cs = seen.reverse ++ own ∧ input = ofChars own := by
  induction steps generalizing seen input with
  | zero =>
    cases input with
    | nil =>
      cases read
      exact ⟨[], (List.append_nil _).symm, rfl⟩
    | cons b rest => cases read
  | succ steps ih =>
    cases input with
    | nil =>
      cases read
      exact ⟨[], (List.append_nil _).symm, rfl⟩
    | cons b rest =>
      cases found : first (b :: rest) with
      | error length => simp [decodeFrom, found] at read
      | ok result =>
        obtain ⟨c, more⟩ := result
        simp only [decodeFrom, found] at read
        obtain ⟨own, rfl, rfl⟩ := ih read
        refine ⟨c :: own, ?_, eq_of_first found⟩
        rw [List.reverse_cons, List.append_assoc, List.singleton_append]

theorem decode_eq_ok_iff {bytes : Bytes} {s : String} : decode bytes = .ok s ↔ bytes = encode s := by
  constructor
  · intro read
    cases found : decodeFrom bytes.length bytes.length [] bytes with
    | error fault => simp [decode, found, Except.map] at read
    | ok cs =>
      obtain ⟨own, rfl, spelled⟩ := decodeFrom_eq_ok found
      simp only [decode, found, Except.map, Except.ok.injEq] at read
      rw [spelled, ← read, encode_ofList]
  · rintro rfl
    have read := decode_ofChars s.toList
    rwa [String.ofList_toList] at read

theorem encodeChar_of_wide {c : Char} (wide : 0x80 ≤ c.toNat) :
    ∃ lead tail, String.utf8EncodeChar c = lead :: tail ∧ 0xC0 ≤ lead.toNat ∧
      ∀ b ∈ tail, 0x80 ≤ b.toNat ∧ b.toNat < 0xC0 := by
  simp only [Char.toNat] at wide
  have byte (n : Nat) (high : n < 0x100) : (UInt8.ofNat n).toNat = n := by
    simp only [UInt8.toNat_ofNat']
    omega
  have continues (n : Nat) : 0x80 ≤ (UInt8.ofNat (n % 0x40 + 0x80)).toNat ∧
      (UInt8.ofNat (n % 0x40 + 0x80)).toNat < 0xC0 := by
    rw [byte _ (by omega)]
    omega
  unfold String.utf8EncodeChar
  simp only [show ¬ c.val.toNat ≤ 0x7F by omega, if_false]
  split
  · refine ⟨_, _, rfl, ?_, by simp only [List.forall_mem_cons, continues, List.not_mem_nil, false_imp_iff,
      implies_true, and_self]⟩
    rw [byte _ (by omega)]
    omega
  split
  · refine ⟨_, _, rfl, ?_, by simp only [List.forall_mem_cons, continues, List.not_mem_nil, false_imp_iff,
      implies_true, and_self]⟩
    rw [byte _ (by omega)]
    omega
  · refine ⟨_, _, rfl, ?_, by simp only [List.forall_mem_cons, continues, List.not_mem_nil, false_imp_iff,
      implies_true, and_self]⟩
    rw [byte _ (by omega)]
    omega

end Attest.Utf8
