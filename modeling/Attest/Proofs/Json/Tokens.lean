import Attest.Proofs.Json.Spelling
import Attest.Proofs.Number.Literal

namespace Attest.Json

open Utf8

inductive Token.Spelling : Token → Bytes → Prop where
  | beginArray : Spelling .beginArray [0x5B]
  | endArray : Spelling .endArray [0x5D]
  | beginObject : Spelling .beginObject [0x7B]
  | endObject : Spelling .endObject [0x7D]
  | colon : Spelling .colon [0x3A]
  | comma : Spelling .comma [0x2C]
  | null : Spelling .null [0x6E, 0x75, 0x6C, 0x6C]
  | true : Spelling (.bool true) [0x74, 0x72, 0x75, 0x65]
  | false : Spelling (.bool false) [0x66, 0x61, 0x6C, 0x73, 0x65]
  | number {l : Literal} {own : Bytes} (spelled : l.Spelling own) : Spelling (.number l) own
  | text {s : String} {own : Bytes} (spelled : Spelled CharSpelling s.toList own) :
      Spelling (.string (some s)) (0x22 :: (own ++ [0x22]))
  | textless {pieces : List Piece} {own : Bytes} (spelled : Spelled Piece.Spelling pieces own)
      (fault : Piece.text? pieces = none) : Spelling (.string none) (0x22 :: (own ++ [0x22]))

namespace Token

theorem eq_of_afterWord? {word : List Char} {input rest : Bytes} (read : afterWord? word input = some rest) :
    input = word.map (fun c => .ofNat c.toNat) ++ rest := by
  induction word generalizing input with
  | nil =>
    cases read
    rfl
  | cons c word ih =>
    cases input with
    | nil => cases read
    | cons b input =>
      rw [afterWord?] at read
      split at read
      · rename_i same
        rw [List.map_cons, List.cons_append, ← same, UInt8.ofNat_toNat, ← ih read]
      · cases read

theorem eq_of_next {b : UInt8} {input rest : Bytes} {t : Token} (found : next b input = some (t, rest)) :
    ∃ own, t.Spelling own ∧ b :: input = own ++ rest ∧ ∀ l, t = .number l → Digits.Ends rest := by
  by_cases beginArray : b = 0x5B
  · subst beginArray
    cases found
    exact ⟨_, .beginArray, rfl, nofun⟩
  by_cases endArray : b = 0x5D
  · subst endArray
    cases found
    exact ⟨_, .endArray, rfl, nofun⟩
  by_cases beginObject : b = 0x7B
  · subst beginObject
    cases found
    exact ⟨_, .beginObject, rfl, nofun⟩
  by_cases endObject : b = 0x7D
  · subst endObject
    cases found
    exact ⟨_, .endObject, rfl, nofun⟩
  by_cases colon : b = 0x3A
  · subst colon
    cases found
    exact ⟨_, .colon, rfl, nofun⟩
  by_cases comma : b = 0x2C
  · subst comma
    cases found
    exact ⟨_, .comma, rfl, nofun⟩
  rw [next, if_neg beginArray, if_neg endArray, if_neg beginObject, if_neg endObject, if_neg colon,
    if_neg comma] at found
  by_cases quote : b = 0x22
  · subst quote
    obtain ⟨⟨pieces, _⟩, closed, same⟩ := Option.map_eq_some_iff.mp found
    cases same
    obtain ⟨inside, own, same, spelled, rfl⟩ := spelled_of_scanString _ _ closed
    rw [List.reverse_nil, List.nil_append] at same
    subst same
    refine ⟨0x22 :: (own ++ [0x22]), ?_, ?_, nofun⟩
    · cases text : Piece.text? pieces with
      | none => exact .textless spelled text
      | some s => exact .text (exists_pieces_iff.mp ⟨pieces, spelled, text⟩)
    · rw [List.cons_append, List.append_assoc]
      rfl
  rw [if_neg quote] at found
  by_cases null : b = 0x6E
  · subst null
    obtain ⟨_, matched, same⟩ := Option.map_eq_some_iff.mp found
    cases same
    exact ⟨_, .null, congrArg (0x6E :: ·) (eq_of_afterWord? matched), nofun⟩
  rw [if_neg null] at found
  by_cases true : b = 0x74
  · subst true
    obtain ⟨_, matched, same⟩ := Option.map_eq_some_iff.mp found
    cases same
    exact ⟨_, .true, congrArg (0x74 :: ·) (eq_of_afterWord? matched), nofun⟩
  rw [if_neg true] at found
  by_cases false : b = 0x66
  · subst false
    obtain ⟨_, matched, same⟩ := Option.map_eq_some_iff.mp found
    cases same
    exact ⟨_, .false, congrArg (0x66 :: ·) (eq_of_afterWord? matched), nofun⟩
  rw [if_neg false] at found
  obtain ⟨⟨l, _⟩, number, same⟩ := Option.map_eq_some_iff.mp found
  cases same
  obtain ⟨own, spelled, front, ends⟩ := Literal.eq_of_scan number
  exact ⟨own, .number spelled, front, fun _ _ => ends⟩

theorem Spelling.ne_nil {t : Token} {own : Bytes} (spelled : t.Spelling own) : own ≠ [] := by
  cases spelled with
  | number spelled =>
    obtain ⟨_, _, rfl, -⟩ := Literal.spelling_head spelled
    exact List.cons_ne_nil _ _
  | _ => exact List.cons_ne_nil _ _

theorem length_next_le {b : UInt8} {input rest : Bytes} {t : Token}
    (read : next b input = some (t, rest)) : rest.length ≤ input.length := by
  obtain ⟨own, spelled, front, -⟩ := eq_of_next read
  have taken := List.length_pos_iff.mpr spelled.ne_nil
  have lengths := congrArg List.length front
  rw [List.length_cons, List.length_append] at lengths
  omega

theorem scanFrom_eq_of_le (input : Bytes) {steps more : Nat} (enough : input.length ≤ steps)
    (le : steps ≤ more) : scanFrom steps input = scanFrom more input := by
  induction steps generalizing input more with
  | zero =>
    obtain rfl := List.length_eq_zero_iff.mp (Nat.le_zero.mp enough)
    cases more <;> rfl
  | succ steps ih =>
    obtain ⟨more, rfl⟩ : ∃ m, more = m + 1 := ⟨more - 1, by omega⟩
    cases input with
    | nil => rfl
    | cons b input =>
      simp only [List.length_cons] at enough
      rw [scanFrom, scanFrom]
      split
      · exact ih input (by omega) (by omega)
      · cases read : next b input with
        | none => rfl
        | some found =>
          have shorter := length_next_le read
          exact congrArg (found.1 :: ·) (ih found.2 (by omega) (by omega))

theorem scan_nil : scan [] = [] := rfl

theorem scan_blank {b : UInt8} (blank : isBlank b = true) (rest : Bytes) :
    scan (b :: rest) = scan rest := by
  rw [scan, List.length_cons, scanFrom, if_pos blank, scan]

theorem scan_fault {b : UInt8} (visible : isBlank b = false) {rest : Bytes} (fault : next b rest = none) :
    scan (b :: rest) = [.bad] := by
  rw [scan, List.length_cons, scanFrom, if_neg (by simp [visible])]
  simp only [fault]

theorem scan_token {b : UInt8} {input rest : Bytes} {t : Token} (visible : isBlank b = false)
    (found : next b input = some (t, rest)) : scan (b :: input) = t :: scan rest := by
  rw [scan, List.length_cons, scanFrom, if_neg (by simp [visible])]
  simp only [found]
  rw [scan, scanFrom_eq_of_le rest (Nat.le_refl _) (length_next_le found)]

theorem scan_quoted {pieces : List Piece} {own : Bytes} (spelled : Spelled Piece.Spelling pieces own)
    (rest : Bytes) :
    scan (0x22 :: (own ++ [0x22]) ++ rest) = .string (Piece.text? pieces) :: scan rest := by
  rw [List.cons_append, List.append_assoc]
  apply scan_token (by decide)
  have closed := scanString_spelled spelled [] rest
  simp [next, closed]

theorem scan_text {s : String} {own : Bytes} (spelled : Spelled CharSpelling s.toList own) (rest : Bytes) :
    scan (0x22 :: (own ++ [0x22]) ++ rest) = .string (some s) :: scan rest := by
  obtain ⟨pieces, inside, text⟩ := exists_pieces_iff.mpr spelled
  rw [scan_quoted inside, text]

theorem scan_string (s : String) (rest : Bytes) :
    scan (ofChars (quote s) ++ rest) = .string (some s) :: scan rest := by
  rw [ofChars_quote]
  exact scan_text (spelled_escaped s.toList) rest

theorem next_number {b : UInt8} (starts : b = 0x2D ∨ ∃ d : Digit, b = UInt8.ofNat (48 + d.val))
    (input : Bytes) : isBlank b = false ∧
      next b input = (Literal.scan (b :: input)).map fun (l, rest) => (.number l, rest) := by
  have other : isBlank b = false ∧ b ≠ 0x5B ∧ b ≠ 0x5D ∧ b ≠ 0x7B ∧ b ≠ 0x7D ∧ b ≠ 0x3A ∧ b ≠ 0x2C ∧
      b ≠ 0x22 ∧ b ≠ 0x6E ∧ b ≠ 0x74 ∧ b ≠ 0x66 := by
    rcases starts with rfl | ⟨d, rfl⟩
    · decide
    · revert d
      decide
  obtain ⟨visible, h1, h2, h3, h4, h5, h6, h7, h8, h9, h10⟩ := other
  exact ⟨visible, by simp only [next, h1, h2, h3, h4, h5, h6, h7, h8, h9, h10, if_false]⟩

theorem scan_number {l : Literal} {own : Bytes} (spelled : l.Spelling own) {rest : Bytes}
    (stops : Literal.Stops rest) : scan (own ++ rest) = .number l :: scan rest := by
  have read := Literal.scan_spelling spelled stops
  obtain ⟨b, bytes, rfl, starts⟩ := Literal.spelling_head spelled
  rw [List.cons_append] at read ⊢
  obtain ⟨visible, found⟩ := next_number starts (bytes ++ rest)
  apply scan_token visible
  rw [found, read]
  rfl

end Token

mutual

def tokens : Json → List Token
  | .null => [.null]
  | .bool b => [.bool b]
  | .number l => [.number l]
  | .string s => [.string (some s)]
  | .array items => .beginArray :: tokensOfItems items ++ [.endArray]
  | .object members => .beginObject :: tokensOfMembers members ++ [.endObject]

def tokensOfItems : List Json → List Token
  | [] => []
  | [item] => item.tokens
  | item :: items => item.tokens ++ .comma :: tokensOfItems items

def tokensOfMembers : List (String × Json) → List Token
  | [] => []
  | [(key, value)] => .string (some key) :: .colon :: value.tokens
  | (key, value) :: members =>
    .string (some key) :: .colon :: value.tokens ++ .comma :: tokensOfMembers members

end

theorem charsOfItems_cons (item next : Json) (items : List Json) :
    charsOfItems (item :: next :: items) = item.chars ++ ',' :: charsOfItems (next :: items) := rfl

theorem charsOfMembers_cons (key : String) (value : Json) (next : String × Json)
    (members : List (String × Json)) : charsOfMembers ((key, value) :: next :: members) =
      quote key ++ ':' :: value.chars ++ ',' :: charsOfMembers (next :: members) := rfl

theorem tokensOfItems_cons (item next : Json) (items : List Json) :
    tokensOfItems (item :: next :: items) = item.tokens ++ .comma :: tokensOfItems (next :: items) :=
  rfl

theorem tokensOfMembers_cons (key : String) (value : Json) (next : String × Json)
    (members : List (String × Json)) : tokensOfMembers ((key, value) :: next :: members) =
      .string (some key) :: .colon :: value.tokens ++ .comma :: tokensOfMembers (next :: members) := rfl

section

variable (rest : Bytes)

theorem stops_comma : Literal.Stops (String.utf8EncodeChar ',' ++ rest) := .cons (by decide) rest

theorem stops_endArray : Literal.Stops (String.utf8EncodeChar ']' ++ rest) := .cons (by decide) rest

theorem stops_endObject : Literal.Stops (String.utf8EncodeChar '\x7d' ++ rest) :=
  .cons (by decide) rest

theorem scan_beginArray :
    Token.scan (String.utf8EncodeChar '[' ++ rest) = .beginArray :: Token.scan rest :=
  Token.scan_token (by decide) rfl

theorem scan_endArray :
    Token.scan (String.utf8EncodeChar ']' ++ rest) = .endArray :: Token.scan rest :=
  Token.scan_token (by decide) rfl

theorem scan_beginObject :
    Token.scan (String.utf8EncodeChar '\x7b' ++ rest) = .beginObject :: Token.scan rest :=
  Token.scan_token (by decide) rfl

theorem scan_endObject :
    Token.scan (String.utf8EncodeChar '\x7d' ++ rest) = .endObject :: Token.scan rest :=
  Token.scan_token (by decide) rfl

theorem scan_colon : Token.scan (String.utf8EncodeChar ':' ++ rest) = .colon :: Token.scan rest :=
  Token.scan_token (by decide) rfl

theorem scan_comma : Token.scan (String.utf8EncodeChar ',' ++ rest) = .comma :: Token.scan rest :=
  Token.scan_token (by decide) rfl

end

mutual

theorem scan_chars : (j : Json) → {rest : Bytes} → Literal.Stops rest →
    Token.scan (ofChars j.chars ++ rest) = j.tokens ++ Token.scan rest
  | .null, rest, _ => Token.scan_token (by decide) rfl
  | .bool true, rest, _ => Token.scan_token (by decide) rfl
  | .bool false, rest, _ => Token.scan_token (by decide) rfl
  | .number l, rest, stops => Token.scan_number l.spelling_chars stops
  | .string s, rest, _ => Token.scan_string s rest
  | .array items, rest, _ => by
    have inside := scan_charsOfItems items (stops_endArray rest)
    rw [chars, tokens, ofChars_append, ofChars_cons, ofChars_cons, ofChars_nil, List.append_nil,
      List.append_assoc, List.append_assoc, scan_beginArray, inside, scan_endArray]
    simp only [List.cons_append, List.append_assoc, List.nil_append]
  | .object members, rest, _ => by
    have inside := scan_charsOfMembers members (stops_endObject rest)
    rw [chars, tokens, ofChars_append, ofChars_cons, ofChars_cons, ofChars_nil, List.append_nil,
      List.append_assoc, List.append_assoc, scan_beginObject, inside, scan_endObject]
    simp only [List.cons_append, List.append_assoc, List.nil_append]

theorem scan_charsOfItems : (items : List Json) → {rest : Bytes} → Literal.Stops rest →
    Token.scan (ofChars (charsOfItems items) ++ rest) = tokensOfItems items ++ Token.scan rest
  | [], rest, _ => rfl
  | [item], rest, stops => scan_chars item stops
  | item :: next :: items, rest, stops => by
    have first := scan_chars item (stops_comma (ofChars (charsOfItems (next :: items)) ++ rest))
    have more := scan_charsOfItems (next :: items) stops
    rw [charsOfItems_cons, tokensOfItems_cons, ofChars_append, ofChars_cons, List.append_assoc,
      List.append_assoc, first, scan_comma, more]
    simp only [List.cons_append, List.append_assoc]

theorem scan_charsOfMembers : (members : List (String × Json)) → {rest : Bytes} →
    Literal.Stops rest → Token.scan (ofChars (charsOfMembers members) ++ rest) =
      tokensOfMembers members ++ Token.scan rest
  | [], rest, _ => rfl
  | [(key, value)], rest, stops => by
    rw [charsOfMembers, tokensOfMembers, ofChars_append, ofChars_cons, List.append_assoc,
      List.append_assoc, Token.scan_string, scan_colon, scan_chars value stops]
    rfl
  | (key, value) :: next :: members, rest, stops => by
    have first := scan_chars value
      (stops_comma (ofChars (charsOfMembers (next :: members)) ++ rest))
    have more := scan_charsOfMembers (next :: members) stops
    rw [charsOfMembers_cons, tokensOfMembers_cons, ofChars_append, ofChars_append, ofChars_cons,
      ofChars_cons, List.append_assoc, List.append_assoc, List.append_assoc, List.append_assoc,
      Token.scan_string, scan_colon, first, scan_comma, more]
    simp only [List.cons_append, List.append_assoc]

end

end Attest.Json
