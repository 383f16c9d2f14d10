import Attest.Proofs.Outcome
import Attest.Proofs.Text.Utf8
import Attest.Text.Hex

namespace Attest.Hex

theorem toLower_digit : ∀ n < 16, (digit n).toLower = digit n := by decide

theorem toNat_digit_lt : ∀ n < 16, (digit n).toNat < 0x80 := by decide

def IsDigit (c : Char) : Prop :=
  ('0' ≤ c ∧ c ≤ '9') ∨ ('a' ≤ c ∧ c ≤ 'f') ∨ ('A' ≤ c ∧ c ≤ 'F')

instance (c : Char) : Decidable (IsDigit c) :=
  inferInstanceAs (Decidable (('0' ≤ c ∧ c ≤ '9') ∨ ('a' ≤ c ∧ c ≤ 'f') ∨ ('A' ≤ c ∧ c ≤ 'F')))

def halves (b : UInt8) : List Nat := [b.toNat / 16, b.toNat % 16]

theorem halves_lt {bytes : Bytes} : ∀ n ∈ bytes.flatMap halves, n < 16 := by
  intro n member
  obtain ⟨b, -, half⟩ := List.mem_flatMap.mp member
  have small : b.toNat < 256 := b.toNat_lt
  simp only [halves, List.mem_cons, List.not_mem_nil, or_false] at half
  rcases half with rfl | rfl <;> omega

theorem halves_ofNat {high low : Nat} (above : high < 16) (below : low < 16) :
    halves (.ofNat (16 * high + low)) = [high, low] := by
  have byte : (UInt8.ofNat (16 * high + low)).toNat = 16 * high + low := by
    rw [UInt8.toNat_ofNat']
    omega
  have upper : (16 * high + low) / 16 = high := by omega
  have lower : (16 * high + low) % 16 = low := by omega
  rw [halves, byte, upper, lower]

theorem length_halves (bytes : Bytes) : (bytes.flatMap halves).length = 2 * bytes.length := by
  induction bytes with
  | nil => rfl
  | cons b bytes ih =>
    rw [List.flatMap_cons, List.length_append, ih, halves, List.length_cons]
    simp only [List.length_cons, List.length_nil]
    omega

theorem toList_encode (bytes : Bytes) : (encode bytes).toList = (bytes.flatMap halves).map digit := by
  rw [encode, String.toList_ofList, List.map_flatMap]
  rfl

theorem map_toLower_encode (bytes : Bytes) :
    (encode bytes).toList.map Char.toLower = (encode bytes).toList := by
  rw [toList_encode, List.map_map]
  exact List.map_congr_left fun n member => toLower_digit n (halves_lt n member)

theorem toLower_eq_digit_iff : ∀ n < 0x80, ∀ k < 16,
    value? (.ofNat n) = some k ↔ (Char.ofNat n).toLower = digit k := by decide +kernel

theorem isDigit_iff_toLower : ∀ n < 0x80,
    IsDigit (.ofNat n) ↔ ∃ k < 16, (Char.ofNat n).toLower = digit k := by decide +kernel

theorem value?_of_wide {b : UInt8} (wide : 0x80 ≤ b.toNat) : value? b = none := by
  unfold value?
  rw [if_neg (by omega), if_neg (by omega), if_neg (by omega)]

theorem toLower_ne_digit {c : Char} (wide : 0x80 ≤ c.toNat) {n : Nat} (small : n < 16) :
    c.toLower ≠ digit n := by
  intro same
  have ascii := toNat_digit_lt n small
  have kept : c.toLower = c := by
    apply dif_neg
    rintro ⟨-, low⟩
    have bound : c.toNat ≤ 90 := low
    omega
  rw [← same, kept] at ascii
  omega

theorem isDigit_iff {c : Char} : IsDigit c ↔ ∃ n < 16, c.toLower = digit n := by
  by_cases ascii : c.toNat < 0x80
  · have table := isDigit_iff_toLower c.toNat ascii
    rwa [Char.ofNat_toNat] at table
  · have wide : 0x80 ≤ c.toNat := Nat.le_of_not_lt ascii
    constructor
    · intro digit
      have bound (d : Char) (low : d.toNat < 0x80) : ¬ c ≤ d := fun below =>
        absurd (Nat.le_trans wide below) (Nat.not_le_of_lt low)
      rcases digit with ⟨-, below⟩ | ⟨-, below⟩ | ⟨-, below⟩
      · exact absurd below (bound '9' (by decide))
      · exact absurd below (bound 'f' (by decide))
      · exact absurd below (bound 'F' (by decide))
    · rintro ⟨n, small, same⟩
      exact absurd same (toLower_ne_digit wide small)

theorem map_value?_ofChars {cs : List Char} {values : List Nat} (small : ∀ n ∈ values, n < 16) :
    (Utf8.ofChars cs).map value? = values.map some ↔ cs.map Char.toLower = values.map digit := by
  induction cs generalizing values with
  | nil => cases values <;> simp
  | cons c cs ih =>
    cases values with
    | nil => simp [String.utf8EncodeChar_ne_nil]
    | cons n values =>
      obtain ⟨first, others⟩ := List.forall_mem_cons.mp small
      by_cases ascii : c.toNat < 0x80
      · have own := toLower_eq_digit_iff c.toNat ascii n first
        rw [Char.ofNat_toNat] at own
        rw [Utf8.ofChars_cons, Utf8.encodeChar_of_ascii ascii, List.singleton_append, List.map_cons,
          List.map_cons, List.map_cons, List.map_cons, List.cons.injEq, List.cons.injEq, own, ih others]
      · have wide : 0x80 ≤ c.toNat := Nat.le_of_not_lt ascii
        obtain ⟨b, bytes, spelled⟩ := List.exists_cons_of_ne_nil (String.utf8EncodeChar_ne_nil (c := c))
        have high := Utf8.toNat_of_mem_encodeChar wide (spelled ▸ List.mem_cons_self : b ∈ _)
        rw [Utf8.ofChars_cons, spelled, List.cons_append, List.map_cons, List.map_cons, List.map_cons,
          List.map_cons, List.cons.injEq, List.cons.injEq, value?_of_wide high]
        simp [toLower_ne_digit wide first]

theorem valueAt_eq_ok_iff {index : Nat} {b : UInt8} {n : Nat} : valueAt index b = .ok n ↔ value? b = some n := by
  rw [valueAt]
  cases value? b <;> simp

theorem value?_lt {b : UInt8} {n : Nat} (value : value? b = some n) : n < 16 := by
  unfold value? at value
  dsimp only at value
  split at value
  · obtain rfl := Option.some.inj value
    omega
  split at value
  · obtain rfl := Option.some.inj value
    omega
  split at value
  · obtain rfl := Option.some.inj value
    omega
  · cases value

theorem decodeFrom_eq_ok_iff {index : Nat} {digits bytes : Bytes} :
    decodeFrom index digits = .ok bytes ↔ digits.map value? = (bytes.flatMap halves).map some := by
  induction index, digits using decodeFrom.induct generalizing bytes with
  | case1 => cases bytes <;> simp [decodeFrom, halves]
  | case2 => cases bytes <;> simp [decodeFrom, halves]
  | case3 index a b rest ih =>
    rw [decodeFrom]
    simp only [bind_eq_ok, valueAt_eq_ok_iff, ih]
    constructor
    · rintro ⟨high, first, low, second, bytes, others, done⟩
      cases done
      have pair := halves_ofNat (value?_lt first) (value?_lt second)
      rw [List.flatMap_cons, pair, List.map_cons, List.map_cons, first, second, others]
      rfl
    · intro spelled
      cases bytes with
      | nil => cases spelled
      | cons byte bytes =>
        rw [List.flatMap_cons, halves] at spelled
        simp only [List.map_cons, List.cons_append, List.nil_append, List.cons.injEq] at spelled
        obtain ⟨first, second, others⟩ := spelled
        refine ⟨_, first, _, second, bytes, others, ?_⟩
        rw [Nat.div_add_mod, UInt8.ofNat_toNat]
        rfl

theorem toList_toLower (s : String) : s.toLower.toList = s.toList.map Char.toLower := String.toList_map

theorem decode_eq_ok_iff {s : String} {bytes : Bytes} : decode s = .ok bytes ↔ s.toLower = encode bytes := by
  have spelled : s.toLower = encode bytes ↔ s.toList.map Char.toLower = (bytes.flatMap halves).map digit := by
    rw [← String.toList_inj, toList_encode, toList_toLower]
  rw [spelled, ← map_value?_ofChars halves_lt, ← @decodeFrom_eq_ok_iff 0, decode]
  show (if (Utf8.ofChars s.toList).length % 2 = 0 then _ else _) = _ ↔ _
  split
  · rfl
  · rename_i odd
    constructor
    · intro failed
      cases failed
    · intro read
      have lengths := congrArg List.length (decodeFrom_eq_ok_iff.mp read)
      rw [List.length_map, List.length_map, length_halves] at lengths
      omega

theorem decode_encode (bytes : Bytes) : decode (encode bytes) = .ok bytes := by
  apply decode_eq_ok_iff.mpr
  rw [← String.toList_inj, toList_toLower, map_toLower_encode]

theorem exists_halves {cs : List Char} {k : Nat} (length : cs.length = 2 * k) (digits : ∀ c ∈ cs, IsDigit c) :
    ∃ bytes : Bytes, bytes.length = k ∧ cs.map Char.toLower = (bytes.flatMap halves).map digit := by
  induction k generalizing cs with
  | zero =>
    obtain rfl := List.length_eq_zero_iff.mp length
    exact ⟨[], rfl, rfl⟩
  | succ k ih =>
    obtain ⟨c, cs, rfl⟩ := List.exists_cons_of_length_eq_add_one length
    obtain ⟨d, cs, rfl⟩ := List.exists_cons_of_length_eq_add_one (Nat.succ.inj length)
    obtain ⟨here, digits⟩ := List.forall_mem_cons.mp digits
    obtain ⟨next, digits⟩ := List.forall_mem_cons.mp digits
    obtain ⟨high, above, first⟩ := isDigit_iff.mp here
    obtain ⟨low, below, second⟩ := isDigit_iff.mp next
    obtain ⟨bytes, count, others⟩ := ih (Nat.succ.inj (Nat.succ.inj length)) digits
    refine ⟨.ofNat (16 * high + low) :: bytes, congrArg Nat.succ count, ?_⟩
    rw [List.flatMap_cons, halves_ofNat above below, List.map_cons, List.map_cons, first, second, others]
    rfl

theorem exists_decode_iff {s : String} {k : Nat} :
    (∃ bytes, decode s = .ok bytes ∧ bytes.length = k) ↔ s.length = 2 * k ∧ ∀ c ∈ s.toList, IsDigit c := by
  rw [← String.length_toList]
  constructor
  · rintro ⟨bytes, read, rfl⟩
    have lower := congrArg String.toList (decode_eq_ok_iff.mp read)
    rw [toList_encode, toList_toLower] at lower
    have lengths := congrArg List.length lower
    rw [List.length_map, List.length_map, length_halves] at lengths
    refine ⟨lengths, fun c there => isDigit_iff.mpr ?_⟩
    have digit : c.toLower ∈ s.toList.map Char.toLower := List.mem_map_of_mem there
    rw [lower] at digit
    obtain ⟨n, half, same⟩ := List.mem_map.mp digit
    exact ⟨n, halves_lt n half, same.symm⟩
  · rintro ⟨length, digits⟩
    obtain ⟨bytes, count, lower⟩ := exists_halves length digits
    refine ⟨bytes, decode_eq_ok_iff.mpr ?_, count⟩
    rw [← String.toList_inj, toList_encode, toList_toLower, lower]

theorem encode_injective : Function.Injective encode := by
  intro a b same
  have read := congrArg decode same
  rw [decode_encode, decode_encode] at read
  exact Except.ok.inj read

theorem digit_lt_digit_iff : ∀ m < 16, ∀ n < 16, digit m < digit n ↔ m < n := by decide

theorem digit_inj : ∀ m < 16, ∀ n < 16, digit m = digit n ↔ m = n := by decide

theorem map_digit_lt_iff {a b : Bytes} :
    (a.flatMap halves).map digit < (b.flatMap halves).map digit ↔ a < b := by
  induction a generalizing b with
  | nil => cases b <;> simp [halves]
  | cons x a ih =>
    cases b with
    | nil => simp [halves]
    | cons y b =>
      have left : x.toNat < 256 := x.toNat_lt
      have right : y.toNat < 256 := y.toNat_lt
      rw [List.flatMap_cons, List.flatMap_cons, halves, halves]
      simp only [List.map_cons, List.cons_append, List.nil_append, List.cons_lt_cons_iff]
      rw [digit_lt_digit_iff _ (by omega) _ (by omega), digit_lt_digit_iff _ (by omega) _ (by omega),
        digit_inj _ (by omega) _ (by omega), digit_inj _ (by omega) _ (by omega), ih, UInt8.lt_iff_toNat_lt,
        ← UInt8.toNat_inj]
      by_cases rest : a < b <;> simp only [rest, and_true, and_false, or_false] <;> omega

theorem encode_lt_encode_iff {a b : Bytes} : encode a < encode b ↔ a < b := by
  rw [String.lt_iff, toList_encode, toList_encode, map_digit_lt_iff]

end Attest.Hex
