import Attest.Proofs.Outcome
import Attest.Proofs.Text.Line
import Attest.Proofs.Text.Utf8
import Attest.Run.Log

namespace Attest.Run

open Utf8 (encode)

variable {number : Nat} {lines : List (List Char)}

def readRow (number : Nat) (line : List Char) : Except Error (List Event) :=
  if line.isEmpty then .ok [] else (fun e => [e]) <$> readLine number line

theorem readLines_cons (number : Nat) (line : List Char) (lines : List (List Char)) :
    readLines number (line :: lines) =
      readRow number (trimBlank line) >>= fun here => (here ++ ·) <$> readLines (number + 1) lines := by
  rw [readLines, readRow]
  by_cases blank : (trimBlank line).isEmpty
  · rw [if_pos blank, if_pos blank]
    cases readLines (number + 1) lines <;> rfl
  · rw [if_neg blank, if_neg blank]
    cases readLine number (trimBlank line) with
    | error fault => rfl
    | ok e => cases readLines (number + 1) lines <;> rfl

theorem readLines_append (number : Nat) (lines others : List (List Char)) :
    readLines number (lines ++ others) =
      readLines number lines >>= fun here => (here ++ ·) <$> readLines (number + lines.length) others := by
  induction lines generalizing number with
  | nil =>
    rw [List.nil_append, List.length_nil, Nat.add_zero, readLines]
    cases readLines number others <;> rfl
  | cons line lines ih =>
    rw [List.cons_append, readLines_cons, readLines_cons, ih, List.length_cons,
      Nat.add_right_comm number 1, ← Nat.add_assoc]
    cases readRow number (trimBlank line) with
    | error fault => rfl
    | ok here =>
      cases readLines (number + 1) lines with
      | error fault => rfl
      | ok more =>
        cases readLines (number + lines.length + 1) others with
        | error fault => rfl
        | ok rest => exact congrArg Except.ok (List.append_assoc here more rest).symm

theorem readLines_congr {others : List (List Char)} (same : lines.map trimBlank = others.map trimBlank) :
    readLines number lines = readLines number others := by
  induction lines generalizing number others with
  | nil =>
    obtain rfl := List.map_eq_nil_iff.mp same.symm
    rfl
  | cons line lines ih =>
    obtain ⟨other, others, rfl, first, rest⟩ := List.map_eq_cons_iff.mp same.symm
    rw [readLines_cons, readLines_cons, first, ih rest.symm]

theorem readLines_closedLines (number : Nat) (text : List Char) :
    readLines number (linesOf text) = readLines number (closedLines text) := by
  rcases map_trimBlank_linesOf text with same | same
  · exact readLines_congr same
  · have behind : (linesOf text).map trimBlank = (closedLines text ++ [[]]).map trimBlank := by
      rw [same, List.map_append]
      rfl
    rw [readLines_congr behind, readLines_append, readLines_cons]
    cases readLines number (closedLines text) with
    | error fault => rfl
    | ok events => exact congrArg Except.ok (List.append_nil events)

theorem located_readLine {line : List Char} {err : Error} (failed : readLine number line = .error err) :
    ∃ fault, err = .unreadableLine number fault ∧
      Json.read Event.decoder (encode (String.ofList line)) = .error fault := by
  rw [readLine] at failed
  cases read : Json.read Event.decoder (encode (String.ofList line)) with
  | error fault =>
    rw [read] at failed
    cases failed
    exact ⟨fault, rfl, rfl⟩
  | ok e =>
    rw [read] at failed
    cases failed

theorem located_readRow {line : List Char} {err : Error} (failed : readRow number line = .error err) :
    ∃ fault, err = .unreadableLine number fault ∧
      Json.read Event.decoder (encode (String.ofList line)) = .error fault := by
  rw [readRow] at failed
  split at failed
  · cases failed
  · cases read : readLine number line with
    | error cause =>
      rw [read] at failed
      cases failed
      exact located_readLine read
    | ok e =>
      rw [read] at failed
      cases failed

theorem located {err : Error} (failed : readLines number lines = .error err) :
    ∃ i line fault, err = .unreadableLine (number + i) fault ∧ (lines.map trimBlank)[i]? = some line ∧
      Json.read Event.decoder (encode (String.ofList line)) = .error fault := by
  induction lines generalizing number with
  | nil => cases failed
  | cons line lines ih =>
    rw [readLines_cons] at failed
    rcases bind_eq_error.mp failed with here | ⟨events, -, later⟩
    · obtain ⟨fault, rfl, read⟩ := located_readRow here
      exact ⟨0, trimBlank line, fault, rfl, rfl, read⟩
    · cases rest : readLines (number + 1) lines with
      | error cause =>
        rw [rest] at later
        cases later
        obtain ⟨i, line, fault, rfl, there, read⟩ := ih rest
        exact ⟨i + 1, line, fault, by rw [Nat.add_assoc, Nat.add_comm 1], there, read⟩
      | ok more =>
        rw [rest] at later
        cases later

def Error.later (count : Nat) : Error → Error
  | .unreadableLine line fault => .unreadableLine (line + count) fault
  | other => other

theorem readRow_later (number count : Nat) (line : List Char) :
    readRow (number + count) line = (readRow number line).mapError (.later count) := by
  rw [readRow, readRow, readLine, readLine]
  split
  · rfl
  · cases Json.read Event.decoder (encode (String.ofList line)) <;> rfl

theorem readLines_later (number count : Nat) (lines : List (List Char)) :
    readLines (number + count) lines = (readLines number lines).mapError (.later count) := by
  induction lines generalizing number with
  | nil => rfl
  | cons line lines ih =>
    rw [readLines_cons, readLines_cons, readRow_later, Nat.add_right_comm, ih]
    cases readRow number (trimBlank line) with
    | error cause => rfl
    | ok here => cases readLines (number + 1) lines <;> rfl

theorem readLog_encode (text : String) : readLog (encode text) = readLines 1 (linesOf text.toList) := by
  rw [readLog, Utf8.decode_eq_ok_iff.mpr rfl]
  rfl

variable (a b : String)

theorem toList_joined : (a ++ "\n" ++ b).toList = a.toList ++ '\n' :: b.toList := by
  rw [String.toList_append, String.toList_append, List.append_assoc]
  rfl

theorem readLog_joined : readLog (encode (a ++ "\n" ++ b)) =
    readLog (encode a) >>= fun here =>
      (here ++ ·) <$> (readLog (encode b)).mapError (.later (1 + a.toList.count '\n')) := by
  rw [readLog_encode, readLog_encode, readLog_encode, toList_joined, linesOf_append_feed, readLines_append,
    length_linesOf, readLines_later, Nat.add_comm (a.toList.count '\n')]

theorem lineAt_joined_behind {k : Nat} (counted : 0 < k) :
    lineAt (a ++ "\n" ++ b).toList (k + 1 + a.toList.count '\n') = lineAt b.toList k := by
  have front : (((linesOf a.toList).map withoutReturn).map trimBlank).length = a.toList.count '\n' + 1 := by
    rw [List.length_map, List.length_map, length_linesOf]
  rw [lineAt, lineAt, toList_joined, closedLines_append_feed, List.map_append,
    List.getElem?_append_right (by omega), front]
  congr 1
  omega

theorem lineAt_joined_before {k : Nat} {line : List Char} (found : lineAt a.toList k = some line) :
    lineAt (a ++ "\n" ++ b).toList k = some line := by
  rw [lineAt, toList_joined, closedLines_append_feed, List.map_append, List.map_map,
    trimBlank_comp_withoutReturn]
  obtain ⟨rest, own⟩ : ∃ rest, (linesOf a.toList).map trimBlank = (closedLines a.toList).map trimBlank ++ rest := by
    rcases map_trimBlank_linesOf a.toList with same | same
    · exact ⟨[], by rw [same, List.append_nil]⟩
    · exact ⟨_, same⟩
  obtain ⟨inside, -⟩ := List.getElem?_eq_some_iff.mp found
  rw [own, List.append_assoc, List.getElem?_append_left inside]
  exact found

variable {a b}

theorem failed_line {text : String} {err : Error} (failed : readLog (encode text) = .error err) :
    ∃ k line fault, err = .unreadableLine k fault ∧ 0 < k ∧ lineAt text.toList k = some line ∧
      Json.read Event.decoder (encode (String.ofList line)) = .error fault := by
  rw [readLog_encode, readLines_closedLines] at failed
  obtain ⟨i, line, fault, rfl, there, read⟩ := located failed
  refine ⟨1 + i, line, fault, rfl, by omega, ?_, read⟩
  rw [lineAt, Nat.add_sub_cancel_left]
  exact there

/-- A log written behind another one, with a line feed between them, adds its events to those of the other.
If it fails, it fails there on the same line, further down by the lines that the other one has; and if the
other one fails already, so does the whole, on the same line. Only lines of a text can fail. -/
theorem log_is_append_only (a b : String) :
    (∀ events more, readLog (encode a) = .ok events → readLog (encode b) = .ok more →
      readLog (encode (a ++ "\n" ++ b)) = .ok (events ++ more)) ∧
    (∀ events k fault, readLog (encode a) = .ok events →
      readLog (encode b) = .error (.unreadableLine k fault) →
      readLog (encode (a ++ "\n" ++ b)) = .error (.unreadableLine (k + 1 + a.toList.count '\n') fault) ∧
      lineAt (a ++ "\n" ++ b).toList (k + 1 + a.toList.count '\n') = lineAt b.toList k) ∧
    (∀ k fault, readLog (encode a) = .error (.unreadableLine k fault) →
      readLog (encode (a ++ "\n" ++ b)) = .error (.unreadableLine k fault) ∧
      lineAt (a ++ "\n" ++ b).toList k = lineAt a.toList k) ∧
    ∀ text err, readLog (encode text) = .error err →
      ∃ k line fault, err = .unreadableLine k fault ∧ 0 < k ∧ lineAt text.toList k = some line ∧
        Json.read Event.decoder (encode (String.ofList line)) = .error fault := by
  refine ⟨?_, ?_, ?_, fun _ _ => failed_line⟩
  · intro events more first second
    rw [readLog_joined, first, second]
    rfl
  · intro events k fault first second
    obtain ⟨_, _, _, same, counted, -⟩ := failed_line second
    cases same
    refine ⟨?_, lineAt_joined_behind a b counted⟩
    rw [readLog_joined, first, second, Nat.add_assoc]
    rfl
  · intro k fault first
    obtain ⟨_, line, _, same, -, found, -⟩ := failed_line first
    cases same
    refine ⟨?_, (lineAt_joined_before a b found).trans found.symm⟩
    rw [readLog_joined, first]
    rfl

/-- A log that ends with a line feed, with blank lines and carriage returns, before one that is read and
before one that fails on its second line. -/
theorem log_is_append_only_feed :
    let a := "\u00A0\n\x7b\"type\":\"a\"\x7d \r\n"
    let b := "\x7b\"type\":\"b\"\x7d\r"
    let broken := " \n\x7bbroken\n"
    readLog (encode a) = .ok [⟨"a", .null, none⟩] ∧ readLog (encode b) = .ok [⟨"b", .null, none⟩] ∧
      readLog (encode (a ++ "\n" ++ b)) = .ok [⟨"a", .null, none⟩, ⟨"b", .null, none⟩] ∧
      readLog (encode broken) = .error (.unreadableLine 2 .malformed) ∧
      readLog (encode (a ++ "\n" ++ broken)) = .error (.unreadableLine 5 .malformed) ∧
      readLog (encode (broken ++ "\n" ++ a)) = .error (.unreadableLine 2 .malformed) := by
  intro a b broken
  have first : readLog (encode a) = .ok [⟨"a", .null, none⟩] := by decide +kernel
  have second : readLog (encode b) = .ok [⟨"b", .null, none⟩] := by decide +kernel
  have failed : readLog (encode broken) = .error (.unreadableLine 2 .malformed) := by decide +kernel
  have lines : a.toList.count '\n' = 2 := by decide +kernel
  have later := ((log_is_append_only a broken).2.1 _ _ _ first failed).1
  rw [lines] at later
  exact ⟨first, second, (log_is_append_only a b).1 _ _ first second, failed, later,
    ((log_is_append_only broken a).2.2.1 _ _ failed).1⟩

end Attest.Run
