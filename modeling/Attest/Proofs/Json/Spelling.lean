import Attest.Proofs.Json.Strings

namespace Attest.Json

open Utf8

inductive Spelled {α : Type} (spelling : α → Bytes → Prop) : List α → Bytes → Prop where
  | nil : Spelled spelling [] []
  | cons {a : α} {as : List α} {own rest : Bytes} (first : spelling a own) (others : Spelled spelling as rest) :
      Spelled spelling (a :: as) (own ++ rest)

theorem Spelled.append {α : Type} {spelling : α → Bytes → Prop} {as more : List α} {own rest : Bytes}
    (first : Spelled spelling as own) (others : Spelled spelling more rest) :
    Spelled spelling (as ++ more) (own ++ rest) := by
  induction first with
  | nil => exact others
  | cons here _ ih =>
    rw [List.cons_append, List.append_assoc]
    exact .cons here ih

inductive Piece.Spelling : Piece → Bytes → Prop where
  | plain {b : UInt8} (plain : IsPlain b) : Spelling (.byte b) [b]
  | letter {letter b : UInt8} (known : escaped? letter = some b) : Spelling (.byte b) [0x5C, letter]
  | unit {a b c d : UInt8} {n : Nat} (known : unit? a b c d = some n) :
      Spelling (.unit n) [0x5C, 0x75, a, b, c, d]

inductive CharSpelling : Char → Bytes → Prop where
  | plain {c : Char} (quote : c ≠ '"') (backslash : c ≠ '\\') (visible : ¬ c.toNat < 0x20) :
      CharSpelling c (String.utf8EncodeChar c)
  | letter {letter b : UInt8} (known : escaped? letter = some b) :
      CharSpelling (.ofNat b.toNat) [0x5C, letter]
  | unit {a b c d : UInt8} {n : Nat} (known : unit? a b c d = some n)
      (noSurrogate : ¬ (0xD800 ≤ n ∧ n < 0xE000)) : CharSpelling (.ofNat n) [0x5C, 0x75, a, b, c, d]
  | pair {a b c d a' b' c' d' : UInt8} {n m : Nat} (first : unit? a b c d = some n)
      (second : unit? a' b' c' d' = some m) (high : 0xD800 ≤ n ∧ n < 0xDC00) (low : 0xDC00 ≤ m ∧ m < 0xE000) :
      CharSpelling (.ofNat (0x10000 + (n - 0xD800) * 0x400 + (m - 0xDC00)))
        [0x5C, 0x75, a, b, c, d, 0x5C, 0x75, a', b', c', d']

theorem CharSpelling.plain_of_ascii {c : Char} (ascii : c.toNat < 0x80) (plain : IsPlain (.ofNat c.toNat)) :
    CharSpelling c (String.utf8EncodeChar c) := by
  obtain ⟨quote, backslash, visible⟩ := plain
  refine .plain ?_ ?_ fun small => ?_
  · rintro rfl
    exact quote rfl
  · rintro rfl
    exact backslash rfl
  · apply visible
    rw [UInt8.lt_iff_toNat_lt, UInt8.toNat_ofNat', Nat.mod_eq_of_lt (by omega)]
    exact small

theorem CharSpelling.plain_of_wide {c : Char} (wide : ¬ c.toNat < 0x80) :
    CharSpelling c (String.utf8EncodeChar c) := by
  refine .plain ?_ ?_ fun small => ?_
  · rintro rfl
    exact wide (by decide)
  · rintro rfl
    exact wide (by decide)
  · omega

theorem CharSpelling.control : ∀ n < 0x20, CharSpelling (.ofNat n)
    (ofChars ['\\', 'u', '0', '0', Nat.digitChar (n / 16), Nat.digitChar (n % 16)]) := by
  have written : ∀ n < 0x20,
      ofChars ['\\', 'u', '0', '0', Nat.digitChar (n / 16), Nat.digitChar (n % 16)] =
        [0x5C, 0x75, 0x30, 0x30, .ofNat (Nat.digitChar (n / 16)).toNat,
          .ofNat (Nat.digitChar (n % 16)).toNat] := by decide
  have read : ∀ n < 0x20, unit? 0x30 0x30 (.ofNat (Nat.digitChar (n / 16)).toNat)
      (.ofNat (Nat.digitChar (n % 16)).toNat) = some n := by decide
  intro n control
  rw [written n control]
  exact .unit (read n control) (by omega)

theorem CharSpelling.escaped (c : Char) : CharSpelling c (ofChars (escapeChar c)) := by
  rw [escapeChar]
  split
  · subst c
    exact @CharSpelling.letter 0x22 0x22 rfl
  split
  · subst c
    exact @CharSpelling.letter 0x5C 0x5C rfl
  split
  · subst c
    exact @CharSpelling.letter 0x62 0x08 rfl
  split
  · subst c
    exact @CharSpelling.letter 0x66 0x0C rfl
  split
  · subst c
    exact @CharSpelling.letter 0x6E 0x0A rfl
  split
  · subst c
    exact @CharSpelling.letter 0x72 0x0D rfl
  split
  · subst c
    exact @CharSpelling.letter 0x74 0x09 rfl
  split
  · rename_i control
    have spelled := CharSpelling.control c.toNat control
    rwa [Char.ofNat_toNat] at spelled
  · rename_i noQuote noBackslash _ _ _ _ _ visible
    rw [ofChars_cons, ofChars_nil, List.append_nil]
    exact .plain noQuote noBackslash visible

theorem spelled_escaped (cs : List Char) : Spelled CharSpelling cs (ofChars (cs.flatMap escapeChar)) := by
  induction cs with
  | nil => exact .nil
  | cons c cs ih =>
    rw [List.flatMap_cons, ofChars_append]
    exact .cons (.escaped c) ih

theorem escaped?_ascii {letter b : UInt8} (known : escaped? letter = some b) : b.toNat < 0x80 := by
  unfold escaped? at known
  split at known
  · rename_i own
    cases known
    rcases own with rfl | rfl | rfl <;> decide
  iterate 5
    split at known
    · cases known
      decide
  cases known

theorem scanString_spelled {pieces : List Piece} {own : Bytes} (spelled : Spelled Piece.Spelling pieces own)
    (seen : List Piece) (rest : Bytes) :
    scanString seen (own ++ 0x22 :: rest) = some (seen.reverse ++ pieces, rest) := by
  induction spelled generalizing seen with
  | nil => rw [List.nil_append, scanString_close, List.append_nil]
  | @cons piece pieces own more first _ ih =>
    have step : scanString seen (own ++ (more ++ 0x22 :: rest)) =
        scanString (piece :: seen) (more ++ 0x22 :: rest) := by
      cases first with
      | plain plain => exact scanString_byte plain seen _
      | @letter letter b known =>
        have noUnit : letter ≠ 0x75 := by
          rintro rfl
          cases known
        exact scanString_letter letter known noUnit seen _
      | unit known => exact scanString_unit known seen _
    rw [List.append_assoc, step, ih, List.reverse_cons, List.append_assoc, List.singleton_append]

theorem spelled_of_scanString (seen : List Piece) (input : Bytes) {pieces : List Piece} {rest : Bytes}
    (read : scanString seen input = some (pieces, rest)) :
    ∃ found own, pieces = seen.reverse ++ found ∧ Spelled Piece.Spelling found own ∧
      input = own ++ 0x22 :: rest := by
  -- One more piece, spelled at the front of what is left.
  have step {seen : List Piece} {piece : Piece} {own input : Bytes} (spelled : piece.Spelling own)
      (later : ∃ found more, pieces = (piece :: seen).reverse ++ found ∧
        Spelled Piece.Spelling found more ∧ input = more ++ 0x22 :: rest) :
      ∃ found more, pieces = seen.reverse ++ found ∧ Spelled Piece.Spelling found more ∧
        own ++ input = more ++ 0x22 :: rest := by
    obtain ⟨found, more, rfl, others, rfl⟩ := later
    refine ⟨piece :: found, own ++ more, ?_, .cons spelled others, ?_⟩
    · rw [List.reverse_cons, List.append_assoc, List.singleton_append]
    · rw [List.append_assoc]
  induction seen, input using scanString.induct with
  | case1 seen => cases read
  | case2 seen input =>
    rw [scanString_close] at read
    cases read
    exact ⟨[], [], (List.append_nil _).symm, .nil, rfl⟩
  | case3 seen _ => cases read
  | case4 seen a b c d input n known _ ih =>
    rw [scanString_unit known] at read
    exact step (.unit known) (ih read)
  | case5 seen a b c d input unknown _ =>
    rw [scanString.eq_def] at read
    simp [unknown] at read
  | case6 seen input _ _ =>
    rw [scanString.eq_def] at read
    simp at read
  | case7 seen letter input noUnit b known _ ih =>
    rw [scanString_letter letter known noUnit] at read
    exact step (.letter known) (ih read)
  | case8 seen letter input noUnit unknown _ =>
    rw [scanString.eq_def] at read
    simp [noUnit, unknown] at read
  | case9 seen b input quote backslash control =>
    rw [scanString.eq_def] at read
    simp [quote, backslash, control] at read
  | case10 seen b input quote backslash visible ih =>
    have plain : IsPlain b := ⟨quote, backslash, visible⟩
    rw [scanString_byte plain] at read
    exact step (.plain plain) (ih read)

theorem spelled_bytes {bs : Bytes} (plain : ∀ b ∈ bs, IsPlain b) :
    Spelled Piece.Spelling (bs.map .byte) bs := by
  induction bs with
  | nil => exact .nil
  | cons b bs ih =>
    obtain ⟨here, others⟩ := List.forall_mem_cons.mp plain
    exact .cons (.plain here) (ih others)

namespace Piece

theorem bytes?_pair {n m : Nat} (high : 0xD800 ≤ n ∧ n < 0xDC00) (low : 0xDC00 ≤ m ∧ m < 0xE000)
    (rest : List Piece) : bytes? (.unit n :: .unit m :: rest) = (bytes? rest).map
      (String.utf8EncodeChar (.ofNat (0x10000 + (n - 0xD800) * 0x400 + (m - 0xDC00))) ++ ·) := by
  rw [bytes?, if_pos high, if_pos low]

theorem bytes?_unit_cases {n : Nat} {rest : List Piece} {bytes : Bytes}
    (read : bytes? (.unit n :: rest) = some bytes) :
    (¬ (0xD800 ≤ n ∧ n < 0xE000) ∧ ∃ more, bytes? rest = some more ∧
      bytes = String.utf8EncodeChar (.ofNat n) ++ more) ∨
    ∃ m others more, rest = .unit m :: others ∧ (0xD800 ≤ n ∧ n < 0xDC00) ∧ (0xDC00 ≤ m ∧ m < 0xE000) ∧
      bytes? others = some more ∧
      bytes = String.utf8EncodeChar (.ofNat (0x10000 + (n - 0xD800) * 0x400 + (m - 0xDC00))) ++ more := by
  by_cases surrogate : 0xD800 ≤ n ∧ n < 0xE000
  · rcases rest with _ | ⟨b | m, others⟩
    · rw [bytes?, if_pos surrogate] at read
      cases read
    · rw [bytes?, if_pos surrogate] at read
      cases read
    · by_cases high : 0xD800 ≤ n ∧ n < 0xDC00
      · by_cases low : 0xDC00 ≤ m ∧ m < 0xE000
        · rw [bytes?_pair high low] at read
          obtain ⟨more, found, rfl⟩ := Option.map_eq_some_iff.mp read
          exact .inr ⟨m, others, more, rfl, high, low, found, rfl⟩
        · rw [bytes?, if_pos high, if_neg low] at read
          cases read
      · rw [bytes?, if_neg high, if_pos (by omega)] at read
        cases read
  · rw [bytes?_unit surrogate] at read
    obtain ⟨more, others, rfl⟩ := Option.map_eq_some_iff.mp read
    exact .inl ⟨surrogate, more, others, rfl⟩

end Piece

theorem CharSpelling.pieces {c : Char} {own : Bytes} (spelled : CharSpelling c own) :
    ∃ pieces, Spelled Piece.Spelling pieces own ∧
      ∀ more, Piece.bytes? (pieces ++ more) = (Piece.bytes? more).map (String.utf8EncodeChar c ++ ·) := by
  cases spelled with
  | plain quote backslash visible =>
    exact ⟨_, spelled_bytes fun b member => isPlain_of_mem_encodeChar quote backslash visible member,
      Piece.bytes?_append_bytes _⟩
  | @letter letter b known =>
    have ascii := escaped?_ascii known
    have value : (Char.ofNat b.toNat).toNat = b.toNat := toNat_ofNat (by omega)
    rw [encodeChar_of_ascii (by omega), value, UInt8.ofNat_toNat]
    exact ⟨[.byte b], .cons (Piece.Spelling.letter known) .nil, Piece.bytes?_append_bytes [b]⟩
  | @unit _ _ _ _ n known noSurrogate =>
    exact ⟨[.unit n], .cons (Piece.Spelling.unit known) .nil, Piece.bytes?_unit noSurrogate⟩
  | @pair _ _ _ _ _ _ _ _ n m first second high low =>
    exact ⟨[.unit n, .unit m], .cons (Piece.Spelling.unit first) (.cons (Piece.Spelling.unit second) .nil),
      Piece.bytes?_pair high low⟩

theorem pieces_of_spelled {cs : List Char} {own : Bytes} (spelled : Spelled CharSpelling cs own) :
    ∃ pieces, Spelled Piece.Spelling pieces own ∧ Piece.bytes? pieces = some (ofChars cs) := by
  induction spelled with
  | nil => exact ⟨[], .nil, rfl⟩
  | @cons c cs _ _ first _ ih =>
    obtain ⟨front, spelled, read⟩ := first.pieces
    obtain ⟨pieces, others, inside⟩ := ih
    refine ⟨front ++ pieces, spelled.append others, ?_⟩
    rw [read, inside, ofChars_cons]
    rfl

theorem spelled_continued {tail : Bytes} (continues : ∀ b ∈ tail, 0x80 ≤ b.toNat ∧ b.toNat < 0xC0)
    {pieces : List Piece} {own more : Bytes} (spelled : Spelled Piece.Spelling pieces own)
    (read : Piece.bytes? pieces = some (tail ++ more)) :
    ∃ others rest, own = tail ++ rest ∧ Spelled Piece.Spelling others rest ∧
      Piece.bytes? others = some more := by
  induction tail generalizing pieces own with
  | nil => exact ⟨pieces, own, rfl, spelled, read⟩
  | cons t tail ih =>
    obtain ⟨here, later⟩ := List.forall_mem_cons.mp continues
    have noLead (d : Char) (bs : Bytes) : String.utf8EncodeChar d ++ bs ≠ t :: (tail ++ more) := by
      intro same
      by_cases ascii : d.toNat < 0x80
      · rw [encodeChar_of_ascii ascii] at same
        obtain ⟨rfl, -⟩ := List.cons.inj same
        rw [UInt8.toNat_ofNat'] at here
        omega
      · obtain ⟨lead, _, form, high, -⟩ := encodeChar_of_wide (Nat.le_of_not_lt ascii)
        rw [form] at same
        obtain ⟨rfl, -⟩ := List.cons.inj same
        omega
    cases spelled with
    | nil => cases read
    | cons first others =>
      cases first with
      | plain =>
        rw [Piece.bytes?] at read
        obtain ⟨_, found, same⟩ := Option.map_eq_some_iff.mp read
        obtain ⟨rfl, rfl⟩ := List.cons.inj same
        obtain ⟨pieces, rest, rfl, spelled, inside⟩ := ih later others found
        exact ⟨pieces, rest, rfl, spelled, inside⟩
      | letter known =>
        rw [Piece.bytes?] at read
        obtain ⟨_, -, same⟩ := Option.map_eq_some_iff.mp read
        obtain ⟨rfl, -⟩ := List.cons.inj same
        have := escaped?_ascii known
        omega
      | unit =>
        rcases Piece.bytes?_unit_cases read with ⟨-, _, -, same⟩ | ⟨_, _, _, -, -, -, -, same⟩
        · exact absurd same.symm (noLead _ _)
        · exact absurd same.symm (noLead _ _)

theorem encodeChar_append_inj {c d : Char} {rest more : Bytes}
    (same : String.utf8EncodeChar c ++ rest = String.utf8EncodeChar d ++ more) : c = d ∧ rest = more := by
  have read := congrArg first same
  rw [first_encodeChar, first_encodeChar] at read
  simpa using read

theorem charSpelling_of_pieces {c : Char} {pieces : List Piece} {own more : Bytes}
    (spelled : Spelled Piece.Spelling pieces own)
    (read : Piece.bytes? pieces = some (String.utf8EncodeChar c ++ more)) :
    ∃ front others rest, own = front ++ rest ∧ CharSpelling c front ∧
      Spelled Piece.Spelling others rest ∧ Piece.bytes? others = some more := by
  cases spelled with
  | nil =>
    have nonempty := String.utf8EncodeChar_ne_nil (c := c)
    rw [Piece.bytes?, Option.some.injEq] at read
    exact absurd (List.append_eq_nil_iff.mp read.symm).1 nonempty
  | @cons _ others _ rest first spelled =>
    cases first with
    | @plain b plain =>
      rw [Piece.bytes?] at read
      obtain ⟨_, found, same⟩ := Option.map_eq_some_iff.mp read
      by_cases ascii : c.toNat < 0x80
      · rw [encodeChar_of_ascii ascii] at same
        obtain ⟨own, rfl⟩ := List.cons.inj same
        refine ⟨[b], others, rest, rfl, ?_, spelled, found⟩
        have written := encodeChar_of_ascii ascii
        rw [← own] at written
        exact written ▸ .plain_of_ascii ascii (own ▸ plain)
      · obtain ⟨lead, tail, form, -, continues⟩ := encodeChar_of_wide (Nat.le_of_not_lt ascii)
        rw [form] at same
        obtain ⟨rfl, rfl⟩ := List.cons.inj same
        obtain ⟨pieces, rest, rfl, spelled, inside⟩ := spelled_continued continues spelled found
        exact ⟨b :: tail, pieces, rest, rfl, form ▸ .plain_of_wide ascii, spelled, inside⟩
    | @letter letter b known =>
      rw [Piece.bytes?] at read
      obtain ⟨_, found, same⟩ := Option.map_eq_some_iff.mp read
      have low := escaped?_ascii known
      by_cases ascii : c.toNat < 0x80
      · rw [encodeChar_of_ascii ascii] at same
        obtain ⟨rfl, rfl⟩ := List.cons.inj same
        refine ⟨_, others, rest, rfl, ?_, spelled, found⟩
        have spelled := CharSpelling.letter known
        rwa [UInt8.toNat_ofNat', Nat.mod_eq_of_lt (by omega), Char.ofNat_toNat] at spelled
      · obtain ⟨lead, tail, form, high, -⟩ := encodeChar_of_wide (Nat.le_of_not_lt ascii)
        rw [form] at same
        obtain ⟨rfl, -⟩ := List.cons.inj same
        omega
    | @unit _ _ _ _ n known =>
      rcases Piece.bytes?_unit_cases read with
        ⟨noSurrogate, _, found, same⟩ | ⟨m, others, _, rfl, high, low, found, same⟩
      · obtain ⟨own, rfl⟩ := encodeChar_append_inj same
        exact ⟨_, others, rest, rfl, own ▸ .unit known noSurrogate, spelled, found⟩
      · obtain ⟨own, rfl⟩ := encodeChar_append_inj same
        cases spelled with
        | cons second spelled =>
          cases second with
          | unit other =>
            rw [own, ← List.append_assoc]
            exact ⟨_, others, _, rfl, .pair known other high low, spelled, found⟩

theorem spelled_of_pieces (cs : List Char) {pieces : List Piece} {own : Bytes}
    (spelled : Spelled Piece.Spelling pieces own) (read : Piece.bytes? pieces = some (ofChars cs)) :
    Spelled CharSpelling cs own := by
  induction cs generalizing pieces own with
  | nil =>
    cases spelled with
    | nil => exact .nil
    | cons first _ =>
      have nonempty (d : Char) (bs : Bytes) : [] ≠ String.utf8EncodeChar d ++ bs := fun same =>
        absurd (List.append_eq_nil_iff.mp same.symm).1 String.utf8EncodeChar_ne_nil
      cases first with
      | plain | letter =>
        rw [Piece.bytes?] at read
        obtain ⟨_, -, same⟩ := Option.map_eq_some_iff.mp read
        cases same
      | unit =>
        rcases Piece.bytes?_unit_cases read with ⟨-, _, -, same⟩ | ⟨_, _, _, -, -, -, -, same⟩
        · exact absurd same (nonempty _ _)
        · exact absurd same (nonempty _ _)
  | cons c cs ih =>
    obtain ⟨front, others, rest, rfl, first, spelled, found⟩ := charSpelling_of_pieces spelled read
    exact .cons first (ih spelled found)

theorem exists_pieces_iff {s : String} {own : Bytes} :
    (∃ pieces, Spelled Piece.Spelling pieces own ∧ Piece.text? pieces = some s) ↔
      Spelled CharSpelling s.toList own := by
  constructor
  · rintro ⟨pieces, spelled, text⟩
    rw [Piece.text?] at text
    obtain ⟨bytes, read, decoded⟩ := Option.bind_eq_some_iff.mp text
    cases found : decode bytes with
    | error fault =>
      rw [found] at decoded
      cases decoded
    | ok t =>
      rw [found] at decoded
      cases decoded
      rw [decode_eq_ok_iff.mp found] at read
      exact spelled_of_pieces _ spelled read
  · intro spelled
    obtain ⟨pieces, spelled, read⟩ := pieces_of_spelled spelled
    refine ⟨pieces, spelled, ?_⟩
    rw [Piece.text?, read, Option.bind_some, decode_ofChars, String.ofList_toList]
    rfl

end Attest.Json
