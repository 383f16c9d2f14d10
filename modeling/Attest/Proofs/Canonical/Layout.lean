import Attest.Proofs.Canonical.Settled
import Attest.Proofs.Json.Alike

namespace Attest.Json

/-- The second outline has the keys of every object of the first in ascending order, each of them once,
with the settled form of the last value under it. An object that stands for a number has none. -/
inductive Settles : Outline → Outline → Prop where
  | null : Settles .null .null
  | bool (b : Bool) : Settles (.bool b) (.bool b)
  | number (l : Literal) : Settles (.number l) (Canonical.ofLiteral l).toJson.outline
  | string (s : String) : Settles (.string (some s)) (.string (some s))
  | array {items others : List Outline} (inside : List.Forall₂ Settles items others) :
      Settles (.array items) (.array others)
  | spelled {s : String} {l : Literal} (numeral : Literal.ofText? s = some l) :
      Settles (.object [(some Decoder.numberKey, .string (some s))]) (Canonical.ofLiteral l).toJson.outline
  | object {members : List (Option String × Outline)} {settled : List (String × Outline)}
      {source : String → Outline} (ordinary : ¬ Decoder.standsForNumber members = true)
      (ascending : Entries.Ascending settled)
      (keys : ∀ key, key ∈ Entries.keys settled ↔ some key ∈ members.map Prod.fst)
      (last : ∀ key ∈ Entries.keys settled, Entries.last? (some key) members = some (source key))
      (inside : ∀ entry ∈ settled, Settles (source entry.1) entry.2) :
      Settles (.object members) (.object (settled.map fun entry => (some entry.1, entry.2)))

section

variable {decode : Outline → Except Fault Json} {members : List (Option String × Outline)}
  {pairs : List (String × Json)}

theorem last?_reads (inside : List.Forall₂ (Decoder.Reads decode) members pairs) (key : String) :
    Option.Rel (fun o j => decode o = .ok j) (Entries.last? (some key) members)
      (Entries.last? key pairs) := by
  induction inside with
  | nil => exact .none
  | @cons m pair members pairs first _ later =>
    obtain ⟨named, read⟩ := first
    rw [Entries.last?_cons, Entries.last?_cons, named]
    generalize Entries.last? (some key) members = found at later
    generalize Entries.last? key pairs = found' at later
    cases later with
    | some read => exact .some read
    | none =>
      rw [Option.none_or, Option.none_or]
      by_cases same : pair.1 = key
      · rw [if_pos (congrArg some same), if_pos same]
        exact .some read
      · rw [if_neg fun also => same (Option.some.inj also), if_neg same]
        exact .none

theorem settles_object (ordinary : ¬ Decoder.standsForNumber members = true)
    (inside : List.Forall₂ (Decoder.Reads decode) members pairs)
    (below : ∀ o j, decode o = .ok j → Settles o j.settled.outline) :
    Settles (.object members) (object (Entries.ofList pairs)).settled.outline := by
  have ascending := Entries.ascending_ofList pairs
  have keys : ∀ key, key ∈ Entries.keys (Entries.ofList pairs) ↔ some key ∈ members.map Prod.fst := by
    intro key
    rw [Decoder.keys_of_reads inside, List.mem_map_of_injective (Option.some_injective _)]
    exact Entries.mem_keys_ofList
  let source (key : String) : Outline := (Entries.last? (some key) members).getD .null
  have found : ∀ entry ∈ Entries.ofList pairs,
      Entries.last? (some entry.1) members = some (source entry.1) ∧
        decode (source entry.1) = .ok entry.2 := by
    intro entry there
    have last := (Entries.get?_eq_some_iff ascending).mpr there
    rw [Entries.get?_ofList] at last
    have related := last?_reads inside entry.1
    rw [last] at related
    simp only [source]
    generalize Entries.last? (some entry.1) members = found at related
    cases related with
    | some read => exact ⟨rfl, read⟩
  have form : (object (Entries.ofList pairs)).settled.outline =
      .object ((Entries.mapValues (fun j => j.settled.outline) (Entries.ofList pairs)).map
        fun entry => (some entry.1, entry.2)) := by
    rw [settled_object ascending, outline, outlineOfMembers_eq_map, Entries.mapValues, Entries.mapValues,
      List.map_map, List.map_map]
    rfl
  rw [form]
  refine @Settles.object members _ source ordinary (ascending.mapValues _) ?_ ?_ ?_
  · intro key
    rw [Entries.keys_mapValues, keys]
  · intro key listed
    rw [Entries.keys_mapValues] at listed
    obtain ⟨entry, there, rfl⟩ := List.mem_map.mp listed
    exact (found entry there).1
  · intro entry listed
    obtain ⟨entry, there, rfl⟩ := List.mem_map.mp listed
    exact below _ entry.2 (found entry there).2

end

theorem settles_of_value {depth : Nat} {o : Outline} {j : Json} (read : Decoder.value depth o = .ok j) :
    Settles o j.settled.outline := by
  refine Decoder.value_induction (motive := fun _ o j => Settles o j.settled.outline) ?null ?bool ?number ?string
    ?array ?spelled ?object read
  case null => exact fun _ => .null
  case bool => exact fun _ => .bool
  case number => exact fun _ => .number
  case string => exact fun _ => .string
  case array =>
    intro depth outlines items inside ih
    rw [settled_array, outline, outlineOfItems_eq_map, List.map_map]
    apply Settles.array
    exact List.forall₂_map_right_iff.mpr ((mapM_eq_ok_iff.mp inside).imp ih)
  case spelled => exact fun _ _ _ numeral => .spelled numeral
  case object =>
    intro depth outlines members ordinary inside ih
    exact settles_object ordinary (Decoder.forall₂_reads_iff.mp inside) ih

theorem value_unique_of_alike {depth : Nat} {o o' : Outline} {j k : Json} (alike : Outline.Alike .free o o')
    (read : Decoder.value depth o = .ok j) (again : Decoder.value depth o' = .ok k) : k = j := by
  obtain ⟨_, before, rfl⟩ := Decoder.exists_content_of_value read
  obtain ⟨_, after, rfl⟩ := Decoder.exists_content_of_value again
  have moved := (Decoder.steady_content.eq_ok_iff alike).mp before
  rw [Except.ok.inj (after.symm.trans moved)]

/-- A document that is laid out otherwise has the same canonical text, if it is read at all; it is, if no
object in it begins with the key of numbers. The canonical text has the keys of every object in order. -/
theorem canonical_text_ignores_layout {text : Bytes} {j : Json} (read : Json.read Decoder.value text = .ok j) :
    ∃ o, Outline.Writes o text ∧
      (∀ o' text', Outline.Alike .free o o' → o'.Writes text' →
        (∀ k, Json.read Decoder.value text' = .ok k → k.canonicalText = j.canonicalText ∧ k.digest = j.digest) ∧
        (o'.isPlain = true → ∃ k, Json.read Decoder.value text' = .ok k)) ∧
      ∃ c, Outline.Writes c j.canonicalBytes ∧ Settles o c := by
  obtain ⟨o, found, inside⟩ := read_eq_ok_iff.mp read
  refine ⟨o, Outline.ofBytes_eq_iff_writes.mp found, ?_, j.settled.outline, ?_, settles_of_value inside⟩
  · intro o' text' alike writes
    have found' := Outline.ofBytes_eq_iff_writes.mpr writes
    constructor
    · intro k again
      obtain ⟨_, found'', inside'⟩ := read_eq_ok_iff.mp again
      obtain ⟨rfl, -⟩ := Prod.mk.inj (found'.symm.trans found'')
      rw [value_unique_of_alike alike inside inside']
      exact ⟨rfl, rfl⟩
    · intro plain
      obtain ⟨k, before, -⟩ := Decoder.exists_content_of_value inside
      have after := (Decoder.steady_content.eq_ok_iff alike).mp before
      rw [← Decoder.value_of_isPlain plain] at after
      exact ⟨k, read_eq_ok_iff.mpr ⟨o', found', after⟩⟩
  · exact Outline.ofBytes_eq_iff_writes.mp (ofBytes_canonicalBytes j)

/-- Members of two objects exchanged, blanks, and characters written as one unit or as two. -/
theorem canonical_text_ignores_layout_respelled :
    let text := Utf8.encode "\x7b\"b\":[1,\"é\"],\"😀\":\x7b\"z\":null,\"a\":true\x7d\x7d"
    let other := Utf8.encode (" \x7b \"\\ud83d\\uDE00\" :\x7b\"\\u0061\":true,\n\"z\":null\x7d,\t" ++
      "\"b\":[1 ,\"\\u00e9\"]\r\n\x7d ")
    ∃ j k, Json.read Decoder.value text = .ok j ∧ Json.read Decoder.value other = .ok k ∧
      k.canonicalText = j.canonicalText ∧ k.digest = j.digest := by
  intro text other
  let number : Outline := .number ⟨false, 1, [], none⟩
  let b : Option String × Outline := (some "b", .array [number, .string (some "é")])
  let z : Option String × Outline := (some "z", .null)
  let a : Option String × Outline := (some "a", .bool true)
  let first : Outline := .object [b, (some "😀", .object [z, a])]
  let last : Outline := .object [(some "😀", .object [a, z]), b]
  have writesFirst : first.Writes text :=
    Outline.ofBytes_eq_iff_writes.mp (Outline.ofBytes_of_scan (by decide) (by decide +kernel))
  have writesLast : last.Writes other :=
    Outline.ofBytes_eq_iff_writes.mp (Outline.ofBytes_of_scan (by decide) (by decide +kernel))
  have alike : Outline.Alike .free first last := by
    have inner : Outline.Change .free (.object [z, a]) (.object [a, z]) := .reorder (by decide) (.swap ..)
    have outer : Outline.Change .free (.object [b, (some "😀", .object [a, z])]) last :=
      .reorder (by decide) (.swap ..)
    exact .trans _ _ _ (.rel _ _ (@Outline.Change.member .free [b] [] _ _ _ inner)) (.rel _ _ outer)
  obtain ⟨j, read⟩ := exists_of_isOk (show (Json.read Decoder.value text).isOk = true by decide +kernel)
  obtain ⟨o, writes, same, -⟩ := canonical_text_ignores_layout read
  rw [writes.unique writesFirst] at same
  obtain ⟨kept, accepted⟩ := same last other alike writesLast
  obtain ⟨k, again⟩ := accepted (by decide)
  exact ⟨j, k, read, again, kept k again⟩

/-- With the key of numbers moved to the front, an object is no longer read. -/
theorem canonical_text_ignores_layout_moved :
    let spelled : Option String × Outline := (some Decoder.numberKey, .string (some "1"))
    let beside : Option String × Outline := (some "zz", .number ⟨false, 1, [], none⟩)
    let first : Outline := .object [beside, spelled]
    let last : Outline := .object [spelled, beside]
    let text := Utf8.encode "\x7b\"zz\":1,\"$serde_json::private::Number\":\"1\"\x7d"
    let other := Utf8.encode "\x7b\"$serde_json::private::Number\":\"1\",\"zz\":1\x7d"
    first.Writes text ∧ last.Writes other ∧ Outline.Change .free first last ∧
      (Json.read Decoder.value text).isOk = true ∧ Json.read Decoder.value other = .error .malformed := by
  intro spelled beside first last text other
  refine ⟨?_, ?_, .reorder (by decide) (.swap ..), by decide +kernel, by decide +kernel⟩
  · exact Outline.ofBytes_eq_iff_writes.mp (Outline.ofBytes_of_scan (by decide) (by decide +kernel))
  · exact Outline.ofBytes_eq_iff_writes.mp (Outline.ofBytes_of_scan (by decide) (by decide +kernel))

end Attest.Json
