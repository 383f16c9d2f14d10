import Attest.Notary
import Attest.Proofs.Json.Plain
import Attest.Proofs.Json.Written
import Attest.Proofs.Number.Numeral
import Attest.Proofs.Run.Appending

namespace Attest

open Json Json.Record
open Entries (under)
open Utf8 (encode)

namespace Event

theorem orderly : Orderly fields := by
  refine ⟨by decide, ?_⟩
  simp only [fields, List.pairwise_cons, List.forall_mem_cons, List.not_mem_nil, false_imp_iff,
    implies_true, List.Pairwise.nil, and_true]
  and_intros <;> exact Field.commutes (by intros; rfl)

theorem gather_eq_ok_iff {depth : Nat} {members : List (String × Json)} {e : Event} :
    gather fields depth (outlineOfMembers members) ⟨"", .null, none⟩ = .ok e ↔
      Yields Decoder.string depth (under ["type"] members) "" e.kind ∧
      Yields Decoder.value depth (under ["payload"] members) .null e.payload ∧
      Yields (.optional .string) depth (under ["schemaVersion", "schema_version"] members) none
        e.version := by
  constructor
  · intro read
    obtain ⟨_, kind, read⟩ := (gather_field Event.kind).mp read
    obtain ⟨_, payload, read⟩ := (gather_field Event.payload).mp read
    obtain ⟨_, version, read⟩ := (gather_field Event.version).mp read
    cases read
    exact ⟨kind, payload, version⟩
  · rintro ⟨kind, payload, version⟩
    refine (gather_field Event.kind).mpr ⟨_, kind, ?_⟩
    refine (gather_field Event.payload).mpr ⟨_, payload, ?_⟩
    exact (gather_field Event.version).mpr ⟨_, version, rfl⟩

/-- An event is a container itself; the payload has what is left of those that a text may nest. -/
def payloadDepth : Nat := maxDepth - 1

structure Fits (e : Event) : Prop where
  ordered : e.payload.Ordered
  shallow : e.payload.nesting ≤ payloadDepth
  plain : e.payload.outline.isPlain = true

/-- What is written of an event: its fields in their order, without a version that is absent. -/
def listed (e : Event) : List (String × Json) :=
  ("type", .string e.kind) :: ("payload", e.payload) :: member? "schemaVersion" (e.version.map .string)

theorem under_listed (e : Event) : under ["type"] e.listed = [("type", .string e.kind)] ∧
    under ["payload"] e.listed = [("payload", e.payload)] ∧
    under ["schemaVersion", "schema_version"] e.listed = member? "schemaVersion" (e.version.map .string) := by
  obtain ⟨kind, payload, _ | version⟩ := e <;> exact ⟨rfl, rfl, rfl⟩

theorem decoder_listed {e : Event} (fits : e.Fits) :
    decoder (payloadDepth + 1) (object e.listed).outline = .ok e := by
  obtain ⟨kind, payload, version⟩ := e.under_listed
  refine (decode_outline_eq_ok_iff orderly).mpr ⟨?_, gather_eq_ok_iff.mpr ⟨?_, ?_, ?_⟩, ?_⟩
  · simp only [fields, List.forall_mem_cons, List.not_mem_nil, false_imp_iff, implies_true, and_true]
    refine ⟨?_, ?_, ?_⟩
    · exact Nat.le_of_eq (congrArg List.length kind)
    · exact Nat.le_of_eq (congrArg List.length payload)
    · refine Nat.le_trans (Nat.le_of_eq (congrArg List.length version)) ?_
      cases e.version with
      | none => exact Nat.zero_le 1
      | some v => exact Nat.le_refl 1
  · rw [kind]
    exact Decoder.string_outline_eq_ok_iff.mpr rfl
  · rw [payload]
    exact (Decoder.value_of_isPlain fits.plain).trans
      (Decoder.content_outline e.payload fits.shallow fits.ordered)
  · rw [version]
    exact yields_optionalString e.version
  · simp only [fields, List.forall_mem_cons, List.not_mem_nil, false_imp_iff, implies_true, and_true]
    refine ⟨fun _ none => ?_, nofun, nofun⟩
    exact List.cons_ne_nil _ _ (kind.symm.trans none)

def line (e : Event) : List Char := (object e.listed).chars

theorem read_line {e : Event} (fits : e.Fits) :
    Json.read decoder (encode (String.ofList e.line)) = .ok e := by
  apply read_eq_ok_iff.mpr
  refine ⟨(object e.listed).outline, ?_, decoder_listed fits⟩
  rw [Utf8.encode_ofList]
  exact Outline.ofBytes_chars _

end Event

namespace Json

theorem feed_not_mem_escapeChar (c : Char) : '\n' ∉ escapeChar c := by
  rw [escapeChar]
  iterate 7
    split
    · decide
  split
  · rename_i control
    have digits : ∀ n < 0x20,
        '\n' ∉ ['\\', 'u', '0', '0', Nat.digitChar (n / 16), Nat.digitChar (n % 16)] := by decide
    exact digits _ control
  · rename_i feed _ _ _
    exact fun there => feed (List.mem_singleton.mp there).symm

theorem feed_not_mem_quote (s : String) : '\n' ∉ quote s := by
  rw [quote]
  simp [feed_not_mem_escapeChar]

theorem feed_not_mem_literal (l : Literal) : '\n' ∉ l.chars := by
  have whole (n : Nat) : '\n' ∉ Nat.toDigits 10 n := fun there =>
    absurd (Nat.isDigit_of_mem_toDigits (by decide) (by decide) there) (by decide)
  have digits (ds : List Digit) : '\n' ∉ Digits.chars ds := fun there =>
    absurd (List.all_eq_true.mp (Digits.all_isDigit_chars ds) _ there) (by decide)
  rw [Literal.chars, List.mem_append, List.mem_append, List.mem_append, not_or, not_or, not_or]
  refine ⟨⟨⟨?_, whole _⟩, ?_⟩, ?_⟩
  · split <;> decide
  · split
    · exact List.not_mem_nil
    · exact fun there => digits l.fraction (List.mem_of_ne_of_mem (by decide) there)
  · cases l.exponent with
    | none => exact List.not_mem_nil
    | some e =>
      have sign : '\n' ≠ if e.negative then '-' else '+' := by split <;> decide
      intro there
      exact digits _ (List.mem_of_ne_of_mem sign (List.mem_of_ne_of_mem (by decide) there))

mutual

theorem feed_not_mem_chars : (j : Json) → '\n' ∉ j.chars
  | .null | .bool true | .bool false => by decide
  | .number l => feed_not_mem_literal l
  | .string s => feed_not_mem_quote s
  | .array items => by simp [chars, feed_not_mem_charsOfItems items]
  | .object members => by simp [chars, feed_not_mem_charsOfMembers members]

theorem feed_not_mem_charsOfItems : (items : List Json) → '\n' ∉ charsOfItems items
  | [] => List.not_mem_nil
  | [item] => feed_not_mem_chars item
  | item :: next :: items => by
    simp [charsOfItems_cons, feed_not_mem_chars item, feed_not_mem_charsOfItems (next :: items)]

theorem feed_not_mem_charsOfMembers : (members : List (String × Json)) → '\n' ∉ charsOfMembers members
  | [] => List.not_mem_nil
  | [(key, value)] => by simp [charsOfMembers, feed_not_mem_quote, feed_not_mem_chars value]
  | (key, value) :: next :: members => by
    simp [charsOfMembers_cons, feed_not_mem_quote, feed_not_mem_chars value,
      feed_not_mem_charsOfMembers (next :: members)]

end

end Json

namespace Run

structure Spaces where
  chars : List Char
  blank : ∀ c ∈ chars, isBlank c = true
  single : '\n' ∉ chars

inductive Row where
  | event (e : Event)
  | blank (spaces : Spaces)

namespace Row

def chars : Row → List Char
  | event e => e.line
  | blank spaces => spaces.chars

def events : Row → List Event
  | event e => [e]
  | blank _ => []

theorem feed_not_mem_chars (row : Row) : '\n' ∉ row.chars := by
  cases row with
  | event e => exact Json.feed_not_mem_chars _
  | blank spaces => exact spaces.single

theorem readRow_trimBlank {row : Row} (fits : ∀ e ∈ row.events, e.Fits) (number : Nat) :
    readRow number (trimBlank row.chars) = .ok row.events := by
  cases row with
  | event e =>
    have visible : trimBlank e.line = e.line := trimBlank_of_visible _ (by decide) (by decide)
    rw [chars, visible, readRow, readLine, Event.read_line (fits e List.mem_cons_self)]
    rfl
  | blank spaces =>
    rw [chars, trimBlank_eq_nil_iff.mpr spaces.blank]
    rfl

end Row

/-- What ends a line: a line feed, with or without a carriage return before it. -/
inductive Ending where
  | feed
  | returnFeed

def Ending.before : Ending → List Char
  | feed => []
  | returnFeed => ['\r']

theorem Ending.blank_before (ending : Ending) : ∀ c ∈ ending.before, isBlank c = true := by
  cases ending with
  | feed => exact List.forall_mem_nil _
  | returnFeed => exact List.forall_mem_singleton.mpr rfl

theorem Ending.single_before (ending : Ending) : '\n' ∉ ending.before := by
  cases ending <;> decide

/-- A log as it is written: rows, and between two of them what ends the first. -/
def laidOut (row : Row) : List (Ending × Row) → List Char
  | [] => row.chars
  | (ending, next) :: rows => row.chars ++ ending.before ++ '\n' :: laidOut next rows

def eventsOf (row : Row) (rows : List (Ending × Row)) : List Event :=
  row.events ++ rows.flatMap fun (_, row) => row.events

theorem readLines_row {row : Row} (fits : ∀ e ∈ row.events, e.Fits) {spaces : List Char}
    (blank : ∀ c ∈ spaces, isBlank c = true) (number : Nat) (lines : List (List Char)) :
    readLines number ((row.chars ++ spaces) :: lines) =
      (row.events ++ ·) <$> readLines (number + 1) lines := by
  rw [readLines_cons, trimBlank_append blank, Row.readRow_trimBlank fits]
  rfl

theorem linesOf_row {row : Row} {spaces : List Char} (single : '\n' ∉ spaces) :
    linesOf (row.chars ++ spaces) = [row.chars ++ spaces] :=
  linesOf_single fun there => (List.mem_append.mp there).elim row.feed_not_mem_chars single

theorem readLines_laidOut {row : Row} {rows : List (Ending × Row)}
    (fits : ∀ e ∈ eventsOf row rows, e.Fits) (number : Nat) :
    readLines number (linesOf (laidOut row rows)) = .ok (eventsOf row rows) := by
  induction rows generalizing row number with
  | nil =>
    rw [eventsOf, List.flatMap_nil, List.append_nil] at fits ⊢
    have only := readLines_row fits (List.forall_mem_nil _) number []
    rw [List.append_nil] at only
    rw [laidOut, linesOf_single row.feed_not_mem_chars, only]
    exact congrArg Except.ok (List.append_nil _)
  | cons next rows ih =>
    obtain ⟨ending, next⟩ := next
    obtain ⟨here, others⟩ := List.forall_mem_append.mp fits
    rw [laidOut, linesOf_append_feed, linesOf_row ending.single_before, List.singleton_append,
      readLines_row here ending.blank_before, ih others]
    rfl

/-- A log is read back from every text that is written for it, and has its fingerprint in this form too, if no
object in a payload begins with the key of numbers. -/
theorem written_log_is_read_back (row : Row) (rows : List (Ending × Row))
    (fits : ∀ e ∈ eventsOf row rows, e.Fits) :
    readLog (encode (String.ofList (laidOut row rows))) = .ok (eventsOf row rows) ∧
    ∀ (n : Notary) (id : String), n.fingerprintText id (encode (String.ofList (laidOut row rows))) =
      n.fingerprint id (eventsOf row rows) := by
  have read : readLog (encode (String.ofList (laidOut row rows))) = .ok (eventsOf row rows) := by
    rw [readLog_encode, String.toList_ofList]
    exact readLines_laidOut fits 1
  refine ⟨read, fun n id => ?_⟩
  rw [Notary.fingerprintText, read]
  rfl

/-- Line feeds in a kind and in a key, a payload that is null and one with a version of its own, between
blank lines. -/
theorem written_log_is_read_back_feeds :
    let bare : Event := ⟨"a\n", .null, none⟩
    let full : Event := ⟨"", .object [("\r\n", .string "\""), ("schemaVersion", .ofInt 1)], some ""⟩
    let space : Row := .blank ⟨[' ', '\r'], by simp [isBlank], by decide⟩
    let rows : List (Ending × Row) := [(.feed, .event bare), (.returnFeed, .event full), (.feed, space)]
    laidOut space rows = (" \r\n\x7b\"type\":\"a\\n\",\"payload\":null\x7d\r\n" ++
      "\x7b\"type\":\"\",\"payload\":\x7b\"\\r\\n\":\"\\\"\",\"schemaVersion\":1\x7d,\"schemaVersion\":\"\"\x7d\n" ++
      " \r").toList ∧
    eventsOf space rows = [bare, full] ∧ (∀ e ∈ [bare, full], e.Fits) ∧
    readLog (encode (String.ofList (laidOut space rows))) = .ok [bare, full] ∧
    ∀ (n : Notary) (id : String), n.fingerprintText id (encode (String.ofList (laidOut space rows))) =
      n.fingerprint id [bare, full] := by
  intro bare full space rows
  have fits : ∀ e ∈ [bare, full], e.Fits := by
    refine List.forall_mem_cons.mpr ⟨⟨trivial, by decide, rfl⟩, List.forall_mem_singleton.mpr ⟨?_, by decide, rfl⟩⟩
    refine ⟨?_, trivial, trivial, trivial⟩
    unfold Entries.Ascending
    decide
  exact ⟨by decide +kernel, rfl, fits, written_log_is_read_back space rows fits⟩

/-- A payload that is read back as the number it spells. -/
theorem written_log_is_read_back_number :
    let e : Event := ⟨"a", .object [("$serde_json::private::Number", .string "1")], none⟩
    let text := laidOut (.event e) []
    text = "\x7b\"type\":\"a\",\"payload\":\x7b\"$serde_json::private::Number\":\"1\"\x7d\x7d".toList ∧
    eventsOf (.event e) [] = [e] ∧ e.payload.nesting ≤ Event.payloadDepth ∧
    readLog (encode (String.ofList text)) = .ok [{ e with payload := .ofInt 1 }] := by
  intro e text
  exact ⟨by decide +kernel, rfl, by decide, by decide +kernel⟩

end Run
end Attest
