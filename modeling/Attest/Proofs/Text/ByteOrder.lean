import Attest.Canonical.Basic
import Attest.Order
import Attest.Text.Utf8
import Attest.Proofs.Entries
import Attest.Proofs.Text.Utf8
import Mathlib.Data.String.Basic

namespace Attest

theorem compare_div_mod (d a b : Nat) :
    compare a b = (compare (a / d) (b / d)).then (compare (a % d) (b % d)) := by
  have left := Nat.div_add_mod a d
  have right := Nat.div_add_mod b d
  rcases lt_trichotomy (a / d) (b / d) with less | same | greater
  · rw [compare_lt_iff_lt.mpr less, compare_lt_iff_lt.mpr (Nat.lt_of_div_lt_div less)]
    rfl
  · rw [compare_eq_iff_eq.mpr same, Ordering.eq_then]
    rw [same] at left
    rcases lt_trichotomy (a % d) (b % d) with less | equal | greater
    · rw [compare_lt_iff_lt.mpr less, compare_lt_iff_lt.mpr (by omega)]
    · rw [compare_eq_iff_eq.mpr equal, compare_eq_iff_eq.mpr (by omega)]
    · rw [compare_gt_iff_gt.mpr greater, compare_gt_iff_gt.mpr (by omega)]
  · rw [compare_gt_iff_gt.mpr greater, compare_gt_iff_gt.mpr (Nat.lt_of_div_lt_div greater)]
    rfl

namespace Utf8

def following (n : Nat) : Nat :=
  if n < 0x80 then 0 else if n < 0x800 then 1 else if n < 0x10000 then 2 else 3

def mark : (following : Nat) → Nat
  | 0 => 0
  | 1 => 0xC0
  | 2 => 0xE0
  | _ => 0xF0

def leading (n : Nat) : Nat := n / 64 ^ following n + mark (following n)

def trailing : (count n : Nat) → Bytes
  | 0, _ => []
  | count + 1, n => .ofNat (n / 64 ^ count % 64 + 0x80) :: trailing count n

theorem leading_cases {n : Nat} (inside : n < 0x110000) :
    (n < 0x80 ∧ following n = 0 ∧ leading n = n) ∨
    (0x80 ≤ n ∧ n < 0x800 ∧ following n = 1 ∧ leading n = n / 64 + 0xC0) ∨
    (0x800 ≤ n ∧ n < 0x10000 ∧ following n = 2 ∧ leading n = n / 4096 + 0xE0) ∨
    (0x10000 ≤ n ∧ following n = 3 ∧ leading n = n / 262144 + 0xF0) := by
  unfold leading
  by_cases one : n < 0x80
  · have none : following n = 0 := if_pos one
    exact .inl ⟨one, none, by simp only [none, mark, pow_zero, Nat.div_one, Nat.add_zero]⟩
  by_cases two : n < 0x800
  · have single : following n = 1 := by rw [following, if_neg one, if_pos two]
    exact .inr (.inl ⟨by omega, two, single, by simp only [single, mark, pow_one]⟩)
  by_cases three : n < 0x10000
  · have double : following n = 2 := by rw [following, if_neg one, if_neg two, if_pos three]
    exact .inr (.inr (.inl ⟨by omega, three, double, by simp only [double, mark, Nat.reducePow]⟩))
  · have triple : following n = 3 := by rw [following, if_neg one, if_neg two, if_neg three]
    exact .inr (.inr (.inr ⟨by omega, triple, by simp only [triple, mark, Nat.reducePow]⟩))

theorem leading_lt {n : Nat} (inside : n < 0x110000) : leading n < 0x100 := by
  rcases leading_cases inside with ⟨_, -, lead⟩ | ⟨_, _, -, lead⟩ | ⟨_, _, -, lead⟩ | ⟨_, -, lead⟩ <;> omega

theorem leading_lt_leading {n m : Nat} (inside : n < 0x110000) (otherInside : m < 0x110000)
    (fewer : following n < following m) : n < m ∧ leading n < leading m := by
  rcases leading_cases inside with ⟨_, own, lead⟩ | ⟨_, _, own, lead⟩ | ⟨_, _, own, lead⟩ | ⟨_, own, lead⟩ <;>
    rcases leading_cases otherInside with
      ⟨_, other, last⟩ | ⟨_, _, other, last⟩ | ⟨_, _, other, last⟩ | ⟨_, other, last⟩ <;>
    omega

theorem toNat_lt (c : Char) : c.toNat < 0x110000 := by
  have scalar : c.val.toNat < 0xD800 ∨ (0xDFFF < c.val.toNat ∧ c.val.toNat < 0x110000) := c.valid
  rw [Char.toNat]
  omega

theorem encodeChar_eq (c : Char) :
    String.utf8EncodeChar c = .ofNat (leading c.toNat) :: trailing (following c.toNat) c.toNat := by
  have inside := toNat_lt c
  rw [String.utf8EncodeChar]
  simp only [Char.toNat] at inside ⊢
  generalize c.val.toNat = n at inside
  rcases leading_cases inside with ⟨_, own, lead⟩ | ⟨_, _, own, lead⟩ | ⟨_, _, own, lead⟩ | ⟨_, own, lead⟩
  · rw [own, lead, if_pos (by omega), trailing]
  · have whole : n / 64 % 0x20 = n / 64 := Nat.mod_eq_of_lt (by omega)
    rw [own, lead, if_neg (by omega), if_pos (by omega), whole]
    simp only [trailing, pow_zero, Nat.div_one]
  · have whole : n / 4096 % 0x10 = n / 4096 := Nat.mod_eq_of_lt (by omega)
    rw [own, lead, if_neg (by omega), if_neg (by omega), if_pos (by omega), whole]
    simp only [trailing, pow_zero, pow_one, Nat.div_one]
  · have whole : n / 262144 % 0x08 = n / 262144 := Nat.mod_eq_of_lt (by omega)
    rw [own, lead, if_neg (by omega), if_neg (by omega), if_neg (by omega), whole]
    simp only [trailing, pow_zero, pow_one, Nat.div_one, Nat.reducePow]

theorem compare_byte {n m : Nat} (small : n < 0x100) (otherSmall : m < 0x100) :
    compare (UInt8.ofNat n) (UInt8.ofNat m) = compare n m := by
  have own : (UInt8.ofNat n).toNat = n := Nat.mod_eq_of_lt small
  have other : (UInt8.ofNat m).toNat = m := Nat.mod_eq_of_lt otherSmall
  change compareOfLessAndEq _ _ = compareOfLessAndEq _ _
  simp only [compareOfLessAndEq, UInt8.lt_iff_toNat_lt, ← UInt8.toNat_inj, own, other]

theorem compare_add_right (n m k : Nat) : compare (n + k) (m + k) = compare n m := by
  change compareOfLessAndEq _ _ = compareOfLessAndEq _ _
  simp only [compareOfLessAndEq, Nat.add_lt_add_iff_right, Nat.add_right_cancel_iff]

theorem compare_trailing (count n m : Nat) (rest others : Bytes) :
    compare (trailing count n ++ rest) (trailing count m ++ others) =
      (compare (n % 64 ^ count) (m % 64 ^ count)).then (compare rest others) := by
  induction count with
  | zero =>
    rw [pow_zero, Nat.mod_one, Nat.mod_one]
    rfl
  | succ count ih =>
    have digit : n / 64 ^ count % 64 < 64 := Nat.mod_lt _ (by decide)
    have otherDigit : m / 64 ^ count % 64 < 64 := Nat.mod_lt _ (by decide)
    rw [trailing, trailing, List.cons_append, List.cons_append, List.compare_cons_cons, ih,
      compare_byte (by omega) (by omega), compare_add_right, ← Ordering.then_assoc]
    rw [compare_div_mod (64 ^ count) (n % 64 ^ (count + 1)) (m % 64 ^ (count + 1)), pow_succ,
      Nat.mod_mul_right_div_self, Nat.mod_mul_right_div_self, Nat.mod_mul_right_mod, Nat.mod_mul_right_mod]

/-- Two characters at the same place decide as their code points do, whatever stands behind them. -/
theorem compare_encodeChar (c d : Char) (rest others : Bytes) :
    compare (String.utf8EncodeChar c ++ rest) (String.utf8EncodeChar d ++ others) =
      (compare c.toNat d.toNat).then (compare rest others) := by
  have inside := toNat_lt c
  have otherInside := toNat_lt d
  rw [encodeChar_eq, encodeChar_eq, List.cons_append, List.cons_append, List.compare_cons_cons,
    compare_byte (leading_lt inside) (leading_lt otherInside)]
  rcases lt_trichotomy (following c.toNat) (following d.toNat) with fewer | same | more
  · obtain ⟨before, lead⟩ := leading_lt_leading inside otherInside fewer
    rw [compare_lt_iff_lt.mpr before, compare_lt_iff_lt.mpr lead]
    rfl
  · rw [leading, leading, same, compare_add_right, compare_trailing, ← Ordering.then_assoc, ← compare_div_mod]
  · obtain ⟨before, lead⟩ := leading_lt_leading otherInside inside more
    rw [compare_gt_iff_gt.mpr before, compare_gt_iff_gt.mpr lead]
    rfl

/-- The values of the characters of a text, in their order. -/
def codePoints (s : String) : List Nat := s.toList.map Char.toNat

theorem compare_ofChars (cs ds : List Char) :
    compare (ofChars cs) (ofChars ds) = compare (cs.map Char.toNat) (ds.map Char.toNat) := by
  induction cs generalizing ds with
  | nil =>
    cases ds with
    | nil => rfl
    | cons d ds =>
      rw [ofChars_cons, encodeChar_eq]
      rfl
  | cons c cs ih =>
    cases ds with
    | nil =>
      rw [ofChars_cons, encodeChar_eq]
      rfl
    | cons d ds =>
      rw [ofChars_cons, ofChars_cons, compare_encodeChar, ih, List.map_cons, List.map_cons,
        List.compare_cons_cons]

theorem compare_of_lt {cs ds : List Char} (before : cs < ds) :
    compare (cs.map Char.toNat) (ds.map Char.toNat) = .lt := by
  induction List.lex_lt.mpr before with
  | nil => rfl
  | @cons c cs ds behind ih =>
    have same : compare c.toNat c.toNat = .eq := compare_eq_iff_eq.mpr rfl
    rw [List.map_cons, List.map_cons, List.compare_cons_cons, same, Ordering.eq_then, ih (List.lex_lt.mp behind)]
  | @rel c cs d ds less =>
    have values : compare c.toNat d.toNat = .lt := compare_lt_iff_lt.mpr less
    rw [List.map_cons, List.map_cons, List.compare_cons_cons, values, Ordering.lt_then]

theorem compare_eq_codePoints (s t : String) : compare s t = compare (codePoints s) (codePoints t) := by
  have swapped : compare (codePoints s) (codePoints t) = (compare (codePoints t) (codePoints s)).swap :=
    Std.OrientedCmp.eq_swap
  rcases lt_trichotomy s t with before | rfl | behind
  · have less : compare (codePoints s) (codePoints t) = .lt := compare_of_lt (String.lt_iff_toList_lt.mp before)
    rw [compare_lt_iff_lt.mpr before, less]
  · have same : compare (codePoints s) (codePoints s) = .eq := Std.ReflCmp.compare_self
    rw [compare_eq_iff_eq.mpr rfl, same]
  · have less : compare (codePoints t) (codePoints s) = .lt := compare_of_lt (String.lt_iff_toList_lt.mp behind)
    rw [compare_gt_iff_gt.mpr behind, swapped, less]
    rfl

theorem compare_encode (s t : String) : compare (encode s) (encode t) = compare (codePoints s) (codePoints t) :=
  compare_ofChars s.toList t.toList

theorem compare_eq_encode (s t : String) : compare s t = compare (encode s) (encode t) := by
  rw [compare_eq_codePoints, compare_encode]

end Utf8

def Comparator.onBytes {α : Type} (key : α → String) : Comparator α :=
  fun a b => compare (Utf8.encode (key a)) (Utf8.encode (key b))

namespace Entries

variable {α : Type}

/-- Puts `value` at `key` in a table whose keys are in the order of their bytes. -/
def put (key : String) (value : α) : List (String × α) → List (String × α)
  | [] => [(key, value)]
  | (k, v) :: rest =>
    match compare (Utf8.encode key) (Utf8.encode k) with
    | .lt => (key, value) :: (k, v) :: rest
    | .eq => (key, value) :: rest
    | .gt => (k, v) :: put key value rest

theorem insert_eq_put (key : String) (value : α) (entries : List (String × α)) :
    insert key value entries = put key value entries := by
  induction entries with
  | nil => rfl
  | cons entry rest ih =>
    obtain ⟨k, v⟩ := entry
    rw [insert, put, ← Utf8.compare_eq_encode]
    rcases lt_trichotomy key k with before | rfl | behind
    · rw [if_pos before, compare_lt_iff_lt.mpr before]
    · rw [if_neg (lt_irrefl _), if_pos rfl, compare_eq_iff_eq.mpr rfl]
    · rw [if_neg (lt_asymm behind), if_neg (ne_of_gt behind), compare_gt_iff_gt.mpr behind, ih]

def placed (pairs : List (String × α)) : List (String × α) :=
  pairs.foldl (fun entries (k, v) => put k v entries) []

theorem ofList_eq_placed (pairs : List (String × α)) : ofList pairs = placed pairs := by
  simp only [ofList, placed, insert_eq_put]

theorem pairwise_keys_placed (pairs : List (String × α)) :
    (keys (placed pairs)).Pairwise fun k l => compare (Utf8.codePoints k) (Utf8.codePoints l) = .lt := by
  have ascending : Ascending (placed pairs) := ofList_eq_placed pairs ▸ ascending_ofList pairs
  refine ascending.imp fun before => ?_
  rw [← Utf8.compare_eq_codePoints]
  exact compare_lt_iff_lt.mpr before

end Entries

theorem Comparator.onText_eq_onBytes {α : Type} (key : α → String) : onText key = onBytes key := by
  funext a b
  exact Utf8.compare_eq_encode (key a) (key b)

/-- Texts compared by their bytes are compared by their code points, and this is the order of all texts here:
in comparing and sorting them, in tables by key and in the objects of canonical values. -/
theorem Utf8.byte_order_is_code_point_order :
    (∀ s t : String, compare (encode s) (encode t) = compare (codePoints s) (codePoints t)) ∧
    (∀ {α : Type} (key : α → String), Comparator.onText key = Comparator.onBytes key ∧
      ∀ items, sortByText key items = (Comparator.onBytes key).sort items) ∧
    (∀ texts, sortTexts texts = (Comparator.onBytes id).sort texts) ∧
    (∀ {α : Type} (pairs : List (String × α)), Entries.ofList pairs = Entries.placed pairs ∧
      (Entries.keys (Entries.placed pairs)).Pairwise fun k l => compare (codePoints k) (codePoints l) = .lt) ∧
    ∀ members, Canonical.ofJson (.object members) = .object (Entries.placed (Canonical.ofMembers members)) := by
  refine ⟨compare_encode, fun key => ⟨Comparator.onText_eq_onBytes key, fun items => ?_⟩, fun texts => ?_,
    fun pairs => ⟨Entries.ofList_eq_placed pairs, Entries.pairwise_keys_placed pairs⟩, fun members => ?_⟩
  · rw [← Comparator.onText_eq_onBytes]
    rfl
  · rw [sortTexts, Comparator.onText_eq_onBytes]
  · rw [Canonical.ofJson, Entries.ofList_eq_placed]

/-- The units of UTF-16 are in another order. -/
example : compare (Utf8.encode "\uffff") (Utf8.encode "😀") = .lt ∧
    compare (Utf16.units "\uffff") (Utf16.units "😀") = .gt := by decide

end Attest
