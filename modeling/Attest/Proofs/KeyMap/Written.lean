import Attest.KeyMap.Json
import Attest.Proofs.Json.Reading
import Attest.Proofs.Json.Values
import Attest.Proofs.Text.Quote

namespace Attest

def IsInt64 (n : Int) : Prop := -2 ^ 63 ≤ n ∧ n < 2 ^ 63

instance (n : Int) : Decidable (IsInt64 n) := inferInstanceAs (Decidable (_ ∧ _))

namespace Json.Decoder

variable {α : Type}

/-- The members of an object as the text has them, in turn and with any key again. -/
def pairs (decoder : Decoder α) : Decoder (List (String × α))
  | depth + 1, .object members => members.mapM (member (decoder depth))
  | _, _ => .error .malformed

theorem int64_outline_ofInt {n : Int} (inRange : IsInt64 n) (depth : Nat) :
    int64 depth (Json.ofInt n).outline = .ok n := by
  rcases inRange with ⟨low, high⟩
  have plain : (Literal.ofInt n).isInteger = true := rfl
  by_cases negative : n < 0
  · have magnitude : (Literal.ofInt n).whole ≠ 0 ∧ (Literal.ofInt n).whole ≤ Nat.pow 2 63 := by
      simp only [Literal.ofInt, Nat.pow_eq]
      omega
    have sign : (Literal.ofInt n).negative = true := decide_eq_true negative
    have value : -((Literal.ofInt n).whole : Int) = n := by
      simp only [Literal.ofInt]
      omega
    simp only [Json.ofInt, Json.outline, int64, plain, sign, if_pos magnitude, if_true, value]
  · have magnitude : (Literal.ofInt n).whole < Nat.pow 2 63 := by
      simp only [Literal.ofInt, Nat.pow_eq]
      omega
    have sign : (Literal.ofInt n).negative = false := decide_eq_false negative
    have value : ((Literal.ofInt n).whole : Int) = n := by
      simp only [Literal.ofInt]
      omega
    simp [Json.ofInt, Json.outline, int64, plain, sign, magnitude, value]

theorem isInt64_of_int64 {depth : Nat} {o : Outline} {n : Int} (read : int64 depth o = .ok n) : IsInt64 n := by
  unfold int64 at read
  split at read
  · split at read
    · split at read
      · split at read
        · rename_i magnitude
          cases read
          simp only [Nat.pow_eq] at magnitude
          constructor <;> omega
        · cases read
      · split at read
        · rename_i magnitude
          cases read
          simp only [Nat.pow_eq] at magnitude
          constructor <;> omega
        · cases read
    · cases read
  · cases read

end Json.Decoder

namespace KeyMap

variable {α : Type}

theorem read_decoder (d : Json.Decoder α) (text : Bytes) :
    Json.read (decoder d) text = ofList <$> Json.read (.pairs d) text := by
  have decoded (depth : Nat) (o : Json.Outline) : decoder d depth o = ofList <$> Json.Decoder.pairs d depth o := by
    cases depth with
    | zero => cases o <;> rfl
    | succ depth =>
      cases o with
      | object members =>
        simp only [decoder, Json.Decoder.entries, Json.Decoder.pairs]
        cases members.mapM (Json.Decoder.member (d depth)) <;> rfl
      | _ => rfl
  simp only [Json.read, decoded]
  cases Json.Decoder.pairs d Json.maxDepth (Json.Outline.ofBytes text).1 with
  | error fault => rfl
  | ok pairs => cases (Json.Outline.ofBytes text).2 <;> rfl

theorem pairs_text {d : Json.Decoder α} {encode : α → Json} (m : KeyMap α)
    (again : ∀ entry ∈ m.entries, ∀ depth, d depth (encode entry.2).outline = .ok entry.2) :
    Json.read (.pairs d) (Utf8.encode (m.toJson encode).text) = .ok m.entries := by
  have found := Json.Outline.ofBytes_chars (m.toJson encode)
  have inside : Json.Decoder.pairs d Json.maxDepth (m.toJson encode).outline = .ok m.entries := by
    rw [toJson, Json.outline, Json.outlineOfMembers_eq_map, List.map_map]
    apply mapM_eq_ok_iff.mpr
    rw [List.forall₂_map_left_iff]
    apply List.forall₂_same.mpr
    intro entry member
    exact Json.Decoder.member_eq_ok_iff.mpr ⟨rfl, again entry member _⟩
  rw [Json.read, Json.text, Utf8.encode_ofList, found]
  simp only [inside]
  rfl

def pairChars (pair : String × Int) : List Char :=
  (Quote.text pair.1).toList ++ ':' :: ' ' :: (toString pair.2).toList

def behindPair : List (String × Int) → List Char
  | [] => ['\x7d']
  | pair :: pairs => ',' :: ' ' :: (pairChars pair ++ behindPair pairs)

theorem head_behindPair (pairs : List (String × Int)) : ∀ c ∈ (behindPair pairs).head?, IsIntChar c = false := by
  cases pairs <;> simp [behindPair] <;> decide

theorem pairChars_append_inj {pair other : String × Int} {pairs others : List (String × Int)}
    (same : pairChars pair ++ behindPair pairs = pairChars other ++ behindPair others) :
    pair = other ∧ behindPair pairs = behindPair others := by
  simp only [pairChars, List.append_assoc, List.cons_append] at same
  obtain ⟨keys, rest⟩ := Quote.text_append_inj same
  simp only [List.cons.injEq, true_and] at rest
  obtain ⟨values, tails⟩ := toString_append_inj (head_behindPair _) (head_behindPair _) rest
  exact ⟨Prod.ext keys values, tails⟩

theorem behindPair_injective : Function.Injective behindPair := by
  intro pairs others same
  induction pairs generalizing others with
  | nil =>
    cases others with
    | nil => rfl
    | cons other others => simp [behindPair] at same
  | cons pair pairs ih =>
    cases others with
    | nil => simp [behindPair] at same
    | cons other others =>
      simp only [behindPair, List.cons.injEq, true_and] at same
      obtain ⟨first, rest⟩ := pairChars_append_inj same
      rw [first, ih rest]

def shown : List (String × Int) → List Char
  | [] => ['\x7d']
  | pair :: pairs => pairChars pair ++ behindPair pairs

theorem intercalate_pairChars (pair : String × Int) (pairs : List (String × Int)) :
    [',', ' '].intercalate ((pair :: pairs).map pairChars) ++ ['\x7d'] = pairChars pair ++ behindPair pairs := by
  induction pairs generalizing pair with
  | nil => rw [List.map_singleton, List.intercalate_singleton, behindPair]
  | cons next pairs ih =>
    rw [List.map_cons, List.map_cons, List.intercalate_cons_cons, ← List.map_cons, List.append_assoc, ih]
    simp [behindPair]

theorem toList_describe (m : KeyMap Int) : (m.describe toString).toList = '\x7b' :: shown m.entries := by
  have chars (pair : String × Int) :
      (Quote.text pair.1 ++ ": " ++ toString pair.2).toList = pairChars pair := by
    simp [pairChars]
  simp only [describe, String.toList_append, String.toList_intercalate, List.map_map, Function.comp_def, chars]
  cases m.entries with
  | nil => rfl
  | cons pair pairs =>
    show '\x7b' :: ([',', ' '].intercalate ((pair :: pairs).map pairChars) ++ ['\x7d']) = _
    rw [intercalate_pairChars, shown]

theorem shown_injective : Function.Injective shown := by
  intro pairs others same
  cases pairs with
  | nil =>
    cases others with
    | nil => rfl
    | cons other others => simp [shown, pairChars, Quote.toList_text] at same
  | cons pair pairs =>
    cases others with
    | nil => simp [shown, pairChars, Quote.toList_text] at same
    | cons other others =>
      obtain ⟨first, rest⟩ := pairChars_append_inj same
      rw [first, behindPair_injective rest]

theorem describe_injective : Function.Injective (describe (toString : Int → String)) := by
  intro m n same
  have chars := congrArg String.toList same
  rw [toList_describe, toList_describe] at chars
  have entries : m.entries = n.entries := shown_injective (List.cons.inj chars).2
  cases m
  cases n
  exact congrArg mk entries

end KeyMap
end Attest
