import Attest.Proofs.Canonical.Truthful
import Attest.Proofs.Canonical.Views
import Attest.Proofs.Json.Follows
import Attest.Proofs.Json.Written

namespace Attest

open Json Json.Record
open Entries (under)

namespace Canonical

theorem ofInt_eq_ofLiteral (z : Int) : ofInt z = ofLiteral (.ofInt z) := by
  refine (ofLiteral_of_isInteger rfl ?_).symm
  rcases z with n | n <;> simp [Literal.ofInt]

/-- A part of a value, with so many containers left that it may nest. -/
structure Fits (depth : Nat) (c : Canonical) : Prop where
  normal : c.Normal
  shallow : c.toJson.nesting ≤ depth

section

variable {depth : Nat} {c : Canonical}

theorem fits_ofInt (z : Int) : (ofInt z).Fits depth := by
  rw [ofInt_eq_ofLiteral]
  refine ⟨normal_ofLiteral _, ?_⟩
  rw [nesting_ofLiteral]
  exact Nat.zero_le depth

theorem Fits.part {part : Canonical} (fits : c.Fits depth) (inside : PartOf part c) : part.Fits depth := by
  refine ⟨fits.normal.part inside, Nat.le_trans (Nat.le_of_lt ?_) fits.shallow⟩
  cases inside with
  | item inside =>
    apply Nat.lt_succ_of_le
    apply nestingOfItems_le_iff.mp (Nat.le_refl _)
    rw [toItems_eq_map]
    exact List.mem_map_of_mem inside
  | @member entry members inside =>
    have there : (entry.1, entry.2.toJson) ∈ toMembers members := by
      rw [toMembers_eq_mapValues]
      exact List.mem_map_of_mem inside
    exact Nat.lt_succ_of_le (nestingOfMembers_le_iff.mp (Nat.le_refl _) _ there)

theorem Fits.at? {l : Location} (fits : c.Fits depth) {part : Canonical} (here : c.at? l = some part) :
    part.Fits depth := by
  induction l generalizing c with
  | nil => exact Option.some.inj here ▸ fits
  | cons step l ih =>
    cases step with
    | key key =>
      cases c with
      | object members =>
        obtain ⟨next, found, below⟩ := Option.bind_eq_some_iff.mp here
        exact ih (fits.part (fits.normal.ordered.partOf found)) below
      | _ => cases here
    | index i =>
      cases c with
      | array items =>
        obtain ⟨next, found, below⟩ := Option.bind_eq_some_iff.mp here
        exact ih (fits.part (.item (List.mem_of_getElem? found))) below
      | _ => cases here

/-- The reader of canonical values, had it not to look for numbers in objects. -/
def contentDecoder : Decoder Canonical := fun depth o => ofJson <$> Decoder.content depth o

theorem follows_decoder : contentDecoder.Follows (fun o => o.isPlain = true) id decoder := by
  intro depth o c plain read
  rw [contentDecoder, ← Decoder.value_of_isPlain plain] at read
  exact ⟨c, read, rfl⟩

theorem contentDecoder_toJson (fits : c.Fits depth) : contentDecoder depth c.toJson.outline = .ok c := by
  have read := Decoder.content_outline c.toJson fits.shallow (ordered_toJson c fits.normal)
  exact map_eq_ok.mpr ⟨c.toJson, read, ofJson_toJson c fits.normal⟩

theorem respects_contentDecoder : Decoder.Respects id id contentDecoder := by
  rintro depth o o' c ⟨⟨j, before, after⟩, -⟩ read
  obtain ⟨_, value, rfl⟩ := map_eq_ok.mp read
  cases value.symm.trans before
  exact map_eq_ok.mpr ⟨j, after, rfl⟩

end

end Canonical

namespace Difference

variable {side : Decoder Canonical}

theorem orderly : Orderly (fields side) := by
  refine ⟨by simp [Field.spellings, fields, Field.mandatory, Field.optional], ?_⟩
  simp only [fields, List.pairwise_cons, List.forall_mem_cons, List.not_mem_nil, false_imp_iff,
    implies_true, List.Pairwise.nil, and_true]
  and_intros <;> exact Field.commutes (by intros; rfl)

theorem follows_decoder :
    (decoderOf Canonical.contentDecoder).Follows (fun o => o.isPlain = true) id decoder := by
  have side := Canonical.follows_decoder.optional
  rw [Option.map_id] at side
  refine follows_decode hereditary_isPlain ?_ rfl
  simp only [fields, List.forall₂_cons, List.Forall₂.nil, and_true]
  refine ⟨?_, Field.follows side (by intros; rfl), Field.follows side (by intros; rfl), ?_⟩ <;>
    exact Field.follows (Decoder.follows_rfl _) (by intros; rfl)

theorem respects_decoderOf : Decoder.Respects id id (decoderOf Canonical.contentDecoder) := by
  have side := Decoder.respects_optional_id Canonical.respects_contentDecoder
  refine respects_decode rewriting_id orderly ?_ rfl
  simp only [fields, List.forall_mem_cons, List.not_mem_nil, false_imp_iff, implies_true, and_true]
  refine ⟨?_, ?_, ?_, ?_⟩
  · exact Field.respects (Decoder.respects_string rewriting_id) (by intros; rfl)
  · exact Field.respects side (by intros; rfl)
  · exact Field.respects side (by intros; rfl)
  · exact Field.respects (Decoder.respects_name rewriting_id _) (by intros; rfl)

theorem gather_eq_ok_iff {depth : Nat} {members : List (String × Json)} {d : Difference} :
    gather (fields side) depth (outlineOfMembers members) ⟨"", none, none, .valueMismatch⟩ = .ok d ↔
      Yields Decoder.string depth (under ["path"] members) "" d.path ∧
      Yields (.optional side) depth (under ["a"] members) none d.a ∧
      Yields (.optional side) depth (under ["b"] members) none d.b ∧
      Yields Reason.decoder depth (under ["reason"] members) .valueMismatch d.reason := by
  constructor
  · intro read
    obtain ⟨_, path, read⟩ := (gather_field Difference.path).mp read
    obtain ⟨_, a, read⟩ := (gather_field Difference.a).mp read
    obtain ⟨_, b, read⟩ := (gather_field Difference.b).mp read
    obtain ⟨_, reason, read⟩ := (gather_field Difference.reason).mp read
    cases read
    exact ⟨path, a, b, reason⟩
  · rintro ⟨path, a, b, reason⟩
    refine (gather_field Difference.path).mpr ⟨_, path, ?_⟩
    refine (gather_field Difference.a).mpr ⟨_, a, ?_⟩
    refine (gather_field Difference.b).mpr ⟨_, b, ?_⟩
    exact (gather_field Difference.reason).mpr ⟨_, reason, rfl⟩

def present (side : Option Canonical) : Option Canonical := side.filter (· ≠ .null)

theorem present_eq_self_iff {side : Option Canonical} : present side = side ↔ side ≠ some .null := by
  cases side with
  | none => simp [present]
  | some c => simp [present, Option.filter_some]

def reread (d : Difference) : Difference := { d with a := present d.a, b := present d.b }

theorem reread_eq_self_iff {d : Difference} : d.reread = d ↔ d.a ≠ some .null ∧ d.b ≠ some .null := by
  rw [← present_eq_self_iff, ← present_eq_self_iff, reread, mk.injEq]
  simp only [true_and, and_true]

structure Fits (depth : Nat) (d : Difference) : Prop where
  a : ∀ c, d.a = some c → c.Fits depth
  b : ∀ c, d.b = some c → c.Fits depth

theorem Truthful.fits {a b : Canonical} {l : Location} {d : Difference} {depth : Nat}
    (truthful : Truthful a b l d) (left : a.Fits depth) (right : b.Fits depth) : d.Fits depth := by
  cases truthful with
  | values _ hereA hereB | types _ hereA hereB =>
    exact ⟨fun _ side => Option.some.inj side ▸ left.at? hereA,
      fun _ side => Option.some.inj side ▸ right.at? hereB⟩
  | onlyInA _ _ _ _ here => exact ⟨fun _ side => Option.some.inj side ▸ left.at? here, nofun⟩
  | onlyInB _ _ _ _ _ here => exact ⟨nofun, fun _ side => Option.some.inj side ▸ right.at? here⟩
  | lengths =>
    exact ⟨fun _ side => Option.some.inj side ▸ Canonical.fits_ofInt _,
      fun _ side => Option.some.inj side ▸ Canonical.fits_ofInt _⟩

theorem fits_of_mem_between {a b : Canonical} {d : Difference} {depth : Nat} (left : a.Fits depth)
    (right : b.Fits depth) (there : d ∈ between a b) : d.Fits depth := by
  obtain ⟨locations, -, -, truthful⟩ :=
    differences_are_truthful a b left.normal.ordered right.normal.ordered
  obtain ⟨l, -, own⟩ := exists_of_mem_forall₂ truthful.flip there
  exact own.fits left right

section

variable {depth : Nat} {side : Option Canonical} (fits : ∀ c, side = some c → c.Fits depth)

include fits

theorem yields_side (name : String) :
    Yields (.optional Canonical.contentDecoder) depth (member? name (side.map Canonical.toJson)) none
      (present side) := by
  cases side with
  | none => rfl
  | some c =>
    by_cases null : c = .null
    · subst null
      rfl
    · have other : c.toJson ≠ .null := fun same => null (Canonical.toJson_injective c .null same)
      have kept : present (some c) = some c := present_eq_self_iff.mpr fun same => null (Option.some.inj same)
      rw [kept]
      exact Decoder.optional_outline_eq_ok_iff.mpr
        (.inr ⟨other, c, rfl, Canonical.contentDecoder_toJson (fits c rfl)⟩)

theorem ordered_side (name : String) :
    ∀ pair ∈ member? name (side.map Canonical.toJson), pair.2.Ordered := by
  intro pair there
  obtain ⟨j, value, rfl⟩ := mem_member?.mp there
  obtain ⟨c, given, rfl⟩ := Option.map_eq_some_iff.mp value
  exact Canonical.ordered_toJson c (fits c given).normal

theorem nesting_side_le (name : String) :
    ∀ pair ∈ member? name (side.map Canonical.toJson), pair.2.nesting ≤ depth := by
  intro pair there
  obtain ⟨j, value, rfl⟩ := mem_member?.mp there
  obtain ⟨c, given, rfl⟩ := Option.map_eq_some_iff.mp value
  exact (fits c given).shallow

end

/-- What is written of a difference: its fields in their order, without a side that is absent. -/
def listed (d : Difference) : List (String × Canonical) :=
  ("path", .string d.path) :: (d.a.map fun a => ("a", a)).toList ++ (d.b.map fun b => ("b", b)).toList ++
    [("reason", .string d.reason.name)]

def pairs (d : Difference) : List (String × Json) :=
  ("path", .string d.path) :: member? "a" (d.a.map Canonical.toJson) ++
    member? "b" (d.b.map Canonical.toJson) ++ [("reason", .string d.reason.name)]

section

variable (d : Difference)

theorem toMembers_listed : Canonical.toMembers d.listed = d.pairs := by
  obtain ⟨path, _ | a, _ | b, reason⟩ := d <;> rfl

theorem keys_pairs_sublist : (Entries.keys d.pairs).Sublist ["path", "a", "b", "reason"] := by
  have last : ["reason"].Sublist ["reason"] := .refl _
  simp only [pairs, Entries.keys, List.map_append, List.map_cons]
  exact (((keys_member?_sublist "a" _).append (keys_member?_sublist "b" _)).append last).cons_cons "path"

theorem nodup_pairs : (Entries.keys d.pairs).Nodup := .sublist d.keys_pairs_sublist (by decide)

theorem under_pairs : under ["path"] d.pairs = [("path", .string d.path)] ∧
    under ["a"] d.pairs = member? "a" (d.a.map Canonical.toJson) ∧
    under ["b"] d.pairs = member? "b" (d.b.map Canonical.toJson) ∧
    under ["reason"] d.pairs = [("reason", .string d.reason.name)] := by
  and_intros <;> simp [pairs, Entries.under_append, Entries.under_cons, under_member?]

theorem toJson_eq : d.toJson = .ofMembers d.pairs := by
  apply congrArg Json.object
  symm
  apply Entries.ofList_eq_of_perm d.nodup_pairs
  exact List.perm_append_comm.cons ("path", Json.string d.path)

end

section

variable {d : Difference} {depth : Nat} (fits : d.Fits depth)

include fits

theorem ordered_pairs : ∀ pair ∈ d.pairs, pair.2.Ordered := by
  simp only [pairs, List.cons_append, List.forall_mem_cons, List.forall_mem_append]
  exact ⟨trivial, ⟨ordered_side fits.a "a", ordered_side fits.b "b"⟩, trivial, nofun⟩

theorem nesting_toJson_le : d.toJson.nesting ≤ depth + 1 := by
  rw [toJson_eq]
  apply nesting_ofMembers_le
  simp only [pairs, List.cons_append, List.forall_mem_cons, List.forall_mem_append]
  exact ⟨Nat.zero_le _, ⟨nesting_side_le fits.a "a", nesting_side_le fits.b "b"⟩, Nat.zero_le _, nofun⟩

theorem decoderOf_toJson : decoderOf Canonical.contentDecoder (depth + 1) d.toJson.outline = .ok d.reread := by
  have spelled : ∀ r : Reason, Reason.decoder depth (Json.string r.name).outline = .ok r := by
    intro r
    cases r <;> cases depth <;> rfl
  obtain ⟨path, a, b, reason⟩ := d.under_pairs
  rw [toJson_eq]
  refine decode_ofMembers orderly ?_ (ordered_ofMembers (ordered_pairs fits)) ?_ ?_
  · exact fun pair there => d.keys_pairs_sublist.subset (List.mem_map_of_mem there)
  · apply gather_eq_ok_iff.mpr
    simp only [Entries.under_ofList, path, a, b, reason, ofList_member?]
    refine ⟨?_, yields_side fits.a "a", yields_side fits.b "b", spelled d.reason⟩
    exact Decoder.string_outline_eq_ok_iff.mpr rfl
  · simp only [Entries.under_ofList, fields, List.forall_mem_cons]
    refine ⟨fun _ => ?_, nofun, nofun, fun _ => ?_, by simp⟩
    · exact path ▸ List.cons_ne_nil _ _
    · exact reason ▸ List.cons_ne_nil _ _

theorem rendering_serialized (double : Double → Bytes) :
    Rendering d.toJson (Canonical.serialized double (.object d.listed)) := by
  have rendering := rendering_ofMembers d.nodup_pairs (ordered_pairs fits)
  have same : Canonical.toJson (.object d.listed) = .object d.pairs := congrArg Json.object d.toMembers_listed
  rwa [Canonical.serialized_eq_ofChars, ← Utf8.encode_ofList, ← Canonical.chars_toJson, same, toJson_eq]

end

theorem read_rendering {d : Difference} (fits : d.Fits (maxDepth - 1)) {text : Bytes}
    (rendering : Rendering d.toJson text) (plain : Plain text) : Json.read decoder text = .ok d.reread := by
  have ordered : d.toJson.Ordered := by
    rw [toJson_eq]
    exact ordered_ofMembers (ordered_pairs fits)
  have read := rendering.read_eq_ok respects_decoderOf (nesting_toJson_le fits) ordered (decoderOf_toJson fits)
  exact follows_decoder.read_eq_ok plain read

/-- No object in the sides begins with the key of numbers. -/
def PlainSides (d : Difference) : Prop := ∀ c, d.a = some c ∨ d.b = some c → c.toJson.outline.isPlain = true

theorem plain_serialized {d : Difference} (sides : d.PlainSides) (double : Double → Bytes) :
    Plain (Canonical.serialized double (.object d.listed)) := by
  have same : Canonical.toJson (.object d.listed) = .object d.pairs := congrArg Json.object d.toMembers_listed
  have found := Outline.ofBytes_chars (.object d.pairs)
  rw [← same, Canonical.chars_toJson, ← Canonical.serialized_eq_ofChars double, same] at found
  rw [Plain, found]
  apply isPlain_object
  · simp [pairs, Entries.keys]
    decide
  · simp only [pairs, List.cons_append, List.forall_mem_cons, List.forall_mem_append]
    have plain : ∀ name side, (∀ c, side = some c → c.toJson.outline.isPlain = true) →
        ∀ pair ∈ member? name (side.map Canonical.toJson), pair.2.outline.isPlain = true := by
      intro name side each pair there
      obtain ⟨j, value, rfl⟩ := mem_member?.mp there
      obtain ⟨c, given, rfl⟩ := Option.map_eq_some_iff.mp value
      exact each c given
    exact ⟨rfl, ⟨plain "a" d.a fun c given => sides c (.inl given),
      plain "b" d.b fun c given => sides c (.inr given)⟩, rfl, List.forall_mem_nil _⟩

/-- Every difference of two values is read back from what a serializer writes for it, and from every
other plain text of it, with a side that is null as absent; so it is the same exactly if no side is null. What
a serializer writes is plain if the sides are. -/
theorem differences_survive_storage (x y : Json) (left : (Canonical.ofJson x).toJson.nesting ≤ 126)
    (right : (Canonical.ofJson y).toJson.nesting ≤ 126) :
    ∀ d ∈ between (.ofJson x) (.ofJson y),
      (∀ double, Rendering d.toJson (Canonical.serialized double (.object d.listed)) ∧
        (d.PlainSides → Plain (Canonical.serialized double (.object d.listed)))) ∧
      ∀ text, Rendering d.toJson text → Plain text →
        Json.read decoder text = .ok ⟨d.path, d.a.filter (· ≠ .null), d.b.filter (· ≠ .null), d.reason⟩ ∧
        (Json.read decoder text = .ok d ↔ d.a ≠ some .null ∧ d.b ≠ some .null) := by
  intro d there
  have fits : d.Fits (maxDepth - 1) :=
    fits_of_mem_between ⟨Canonical.normal_ofJson x, left⟩ ⟨Canonical.normal_ofJson y, right⟩ there
  refine ⟨fun double => ⟨rendering_serialized fits double, fun sides => plain_serialized sides double⟩, ?_⟩
  intro text rendering plain
  have read := read_rendering fits rendering plain
  refine ⟨read, ?_⟩
  rw [read, Except.ok.injEq, reread_eq_self_iff]

theorem differences_survive_storage_null :
    let x : Json := .object [("a", .null), ("b", .array [.bool true])]
    let y : Json := .object [("a", .string ""), ("b", .array [.bool false])]
    let d : Difference := ⟨"a", some .null, some (.string ""), .typeMismatch⟩
    let e : Difference := ⟨"b[0]", some (.bool true), some (.bool false), .valueMismatch⟩
    between (.ofJson x) (.ofJson y) = [d, e] ∧
    ∀ double,
      Json.read decoder (Canonical.serialized double (.object d.listed)) = .ok { d with a := none } ∧
      Json.read decoder (Canonical.serialized double (.object e.listed)) = .ok e := by
  intro x y d e
  have found : between (.ofJson x) (.ofJson y) = [d, e] := by decide
  have survive := differences_survive_storage x y (by decide) (by decide)
  obtain ⟨writtenD, readD⟩ := survive d (found ▸ List.mem_cons_self)
  obtain ⟨writtenE, readE⟩ := survive e (found ▸ List.mem_cons_of_mem _ List.mem_cons_self)
  have sidesD : d.PlainSides := by rintro c (⟨⟨⟩⟩ | ⟨⟨⟩⟩) <;> rfl
  have sidesE : e.PlainSides := by rintro c (⟨⟨⟩⟩ | ⟨⟨⟩⟩) <;> rfl
  refine ⟨found, fun double => ?_⟩
  obtain ⟨textD, plainD⟩ := writtenD double
  obtain ⟨textE, plainE⟩ := writtenE double
  exact ⟨(readD _ textD (plainD sidesD)).1, (readE _ textE (plainE sidesE)).2.mpr ⟨by decide, by decide⟩⟩

/-- A side in which the key of numbers comes first once the keys are in order. -/
theorem differences_survive_storage_unread :
    let inner : Json := .object [("$serde_json::private::Number", .string "1"), ("zz", .ofInt 1)]
    let x : Json := .object [("k", inner)]
    let y : Json := .object []
    let d : Difference := ⟨"k", some (.ofJson inner), none, .missingInB⟩
    (Canonical.ofJson x).toJson.nesting ≤ 126 ∧ (Canonical.ofJson y).toJson.nesting ≤ 126 ∧
      between (.ofJson x) (.ofJson y) = [d] ∧ d.a ≠ some .null ∧
      ∀ double, Json.read decoder (Canonical.serialized double (.object d.listed)) = .error .malformed := by
  intro inner x y d
  refine ⟨by decide, by decide, by decide, by decide, fun double => ?_⟩
  rw [Canonical.serialized_eq_ofChars]
  decide +kernel

end Difference
end Attest
