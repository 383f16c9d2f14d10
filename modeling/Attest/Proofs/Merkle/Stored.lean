import Attest.Merkle.Proof
import Attest.Proofs.Hash.Digest
import Attest.Proofs.Json.Written

namespace Attest.Merkle

open Json Json.Record
open Entries (under)
open Utf8 (encode)

theorem Side.ofMarker?_eq_some_iff {marker : Nat} {side : Side} :
    ofMarker? marker = some side ↔ marker = side.marker := by
  match marker with
  | 0 => cases side <;> simp [ofMarker?, Side.marker]
  | 1 => cases side <;> simp [ofMarker?, Side.marker]
  | n + 2 => cases side <;> simp [ofMarker?, Side.marker]

theorem Side.exists_marker_iff {marker : Nat} :
    (∃ side : Side, marker = side.marker) ↔ marker = 0 ∨ marker = 1 := by
  constructor
  · rintro ⟨side, rfl⟩
    cases side with
    | left => exact .inl rfl
    | right => exact .inr rfl
  · rintro (rfl | rfl)
    · exact ⟨.left, rfl⟩
    · exact ⟨.right, rfl⟩

namespace Proof

theorem sideOf_eq_ok_iff {marker : Nat} {side : Side} : sideOf marker = .ok side ↔ marker = side.marker := by
  rw [← Side.ofMarker?_eq_some_iff, sideOf]
  cases Side.ofMarker? marker <;> simp

theorem digestOf_eq_ok_iff {text : String} {d : Digest} : digestOf text = .ok d ↔ text.toLower = d.hex := by
  rw [digestOf, mapError_eq_ok, Digest.ofHex_eq_ok_iff]

theorem stepOf_eq_ok_iff {hash : String} {marker : Nat} {s : Step} :
    stepOf hash marker = .ok s ↔ hash.toLower = s.sibling.hex ∧ marker = s.side.marker := by
  rw [stepOf]
  simp only [bind_eq_ok, sideOf_eq_ok_iff, digestOf_eq_ok_iff]
  constructor
  · rintro ⟨side, marked, sibling, spelled, done⟩
    cases done
    exact ⟨spelled, marked⟩
  · rintro ⟨spelled, marked⟩
    exact ⟨s.side, marked, s.sibling, spelled, rfl⟩

def pathOf (hashes : List String) (markers : List Nat) : Except Error (List Step) :=
  (hashes.zip markers).mapM fun (hash, marker) => stepOf hash marker

theorem pathOf_eq_ok_iff {hashes : List String} {markers : List Nat} (even : hashes.length = markers.length)
    {path : List Step} : pathOf hashes markers = .ok path ↔
      hashes.map String.toLower = path.map (fun s => s.sibling.hex) ∧
        markers = path.map fun s => s.side.marker := by
  rw [pathOf, mapM_eq_ok_iff]
  induction hashes generalizing markers path with
  | nil =>
    obtain rfl := List.length_eq_zero_iff.mp even.symm
    cases path <;> simp
  | cons hash hashes ih =>
    obtain ⟨marker, markers, rfl⟩ := List.exists_cons_of_length_eq_add_one even.symm
    cases path with
    | nil => simp
    | cons s path =>
      rw [List.zip_cons_cons, List.forall₂_cons, stepOf_eq_ok_iff, ih (Nat.succ.inj even)]
      simp only [List.map_cons, List.cons.injEq]
      exact and_and_and_comm

namespace Stored

def lowered (s : Stored) : Stored :=
  { s with leafHash := s.leafHash.toLower, hashes := s.hashes.map String.toLower }

/-- As many markers as hashes, on either side, and nothing but hashes. -/
structure Legible (s : Stored) : Prop where
  even : s.hashes.length = s.markers.length
  sides : ∀ marker ∈ s.markers, marker = 0 ∨ marker = 1
  leaf : Digest.IsText s.leafHash
  path : ∀ hash ∈ s.hashes, Digest.IsText hash

end Stored

theorem ofStored_of_even {s : Stored} (even : s.hashes.length = s.markers.length) :
    ofStored s = do
      let path ← pathOf s.hashes s.markers
      let leaf ← digestOf s.leafHash
      return ⟨s.index, leaf, path⟩ :=
  if_neg (not_not.mpr even)

theorem ofStored_eq_ok_iff {s : Stored} {p : Proof} : ofStored s = .ok p ↔ s.lowered = p.toStored := by
  obtain ⟨index, leafHash, hashes, markers⟩ := s
  obtain ⟨place, leaf, path⟩ := p
  rw [Stored.lowered, toStored, Stored.mk.injEq]
  by_cases even : hashes.length = markers.length
  · rw [ofStored_of_even even, ← pathOf_eq_ok_iff even, ← digestOf_eq_ok_iff]
    simp only [bind_eq_ok]
    constructor
    · rintro ⟨_, steps, _, node, done⟩
      cases done
      exact ⟨rfl, node, steps⟩
    · rintro ⟨rfl, node, steps⟩
      exact ⟨path, steps, leaf, node, rfl⟩
  · rw [ofStored, if_pos even]
    constructor
    · exact nofun
    · rintro ⟨-, -, hashed, marked⟩
      have steps := congrArg List.length hashed
      have others := congrArg List.length marked
      rw [List.length_map, List.length_map] at steps
      rw [List.length_map] at others
      exact absurd (steps.trans others.symm) even

theorem exists_pathOf_iff {hashes : List String} {markers : List Nat} (even : hashes.length = markers.length) :
    (∃ path, pathOf hashes markers = .ok path) ↔
      (∀ marker ∈ markers, marker = 0 ∨ marker = 1) ∧ ∀ hash ∈ hashes, Digest.IsText hash := by
  have step (hash : String) (marker : Nat) : (∃ s, stepOf hash marker = .ok s) ↔
      Digest.IsText hash ∧ (marker = 0 ∨ marker = 1) := by
    simp only [stepOf_eq_ok_iff, ← Digest.exists_ofHex_iff, ← Side.exists_marker_iff, Digest.ofHex_eq_ok_iff]
    constructor
    · rintro ⟨s, spelled, marked⟩
      exact ⟨⟨s.sibling, spelled⟩, s.side, marked⟩
    · rintro ⟨⟨sibling, spelled⟩, side, marked⟩
      exact ⟨⟨sibling, side⟩, spelled, marked⟩
  rw [show (∃ path, pathOf hashes markers = .ok path) ↔ _ from exists_mapM_iff]
  simp only [Prod.forall, step]
  constructor
  · intro each
    constructor
    · intro marker there
      rw [← List.map_snd_zip (Nat.le_of_eq even.symm)] at there
      obtain ⟨⟨hash, _⟩, inside, rfl⟩ := List.mem_map.mp there
      exact (each _ _ inside).2
    · intro hash there
      rw [← List.map_fst_zip (Nat.le_of_eq even)] at there
      obtain ⟨⟨_, marker⟩, inside, rfl⟩ := List.mem_map.mp there
      exact (each _ _ inside).1
  · rintro ⟨sides, path⟩ hash marker inside
    obtain ⟨hashed, marked⟩ := List.of_mem_zip inside
    exact ⟨path hash hashed, sides marker marked⟩

theorem exists_ofStored_iff {s : Stored} : (∃ p, ofStored s = .ok p) ↔ s.Legible := by
  by_cases even : s.hashes.length = s.markers.length
  · have steps := exists_pathOf_iff even
    rw [ofStored_of_even even]
    simp only [bind_eq_ok]
    constructor
    · rintro ⟨p, path, made, leaf, node, -⟩
      obtain ⟨sides, texts⟩ := steps.mp ⟨path, made⟩
      exact ⟨even, sides, Digest.exists_ofHex_iff.mp ⟨leaf, mapError_eq_ok.mp node⟩, texts⟩
    · rintro ⟨-, sides, text, texts⟩
      obtain ⟨path, made⟩ := steps.mpr ⟨sides, texts⟩
      obtain ⟨leaf, node⟩ := Digest.exists_ofHex_iff.mpr text
      exact ⟨⟨s.index, leaf, path⟩, path, made, leaf, mapError_eq_ok.mpr node, rfl⟩
  · rw [ofStored, if_pos even]
    constructor
    · rintro ⟨_, done⟩
      cases done
    · exact fun legible => absurd legible.even even

theorem lowered_toStored (p : Proof) : p.toStored.lowered = p.toStored := by
  rw [Stored.lowered, toStored, Stored.mk.injEq]
  refine ⟨rfl, p.leaf.toLower_hex, ?_, rfl⟩
  rw [List.map_map]
  exact List.map_congr_left fun s _ => s.sibling.toLower_hex

theorem ofStored_toStored (p : Proof) : ofStored p.toStored = .ok p :=
  ofStored_eq_ok_iff.mpr p.lowered_toStored

namespace Stored

def listed (s : Stored) : List (String × Json) := [
  ("index", .ofInt s.index), ("leaf_hash", .string s.leafHash),
  ("proof_path", .ofStrings s.hashes), ("proof_index", .array (s.markers.map fun n : Nat => .ofInt n))]

structure Fits (s : Stored) : Prop where
  index : s.index < 2 ^ 64
  markers : ∀ marker ∈ s.markers, marker < 2 ^ 8

theorem orderly : Orderly fields := by
  refine ⟨by decide, ?_⟩
  simp only [fields, List.pairwise_cons, List.forall_mem_cons, List.not_mem_nil, false_imp_iff,
    implies_true, List.Pairwise.nil, and_true]
  and_intros <;> exact Field.commutes (by intros; rfl)

theorem gather_eq_ok_iff {depth : Nat} {members : List (String × Json)} {s : Stored} :
    gather fields depth (outlineOfMembers members) ⟨0, "", [], []⟩ = .ok s ↔
      Yields Decoder.size depth (under ["index"] members) 0 s.index ∧
      Yields Decoder.string depth (under ["leaf_hash"] members) "" s.leafHash ∧
      Yields (.list .string) depth (under ["proof_path"] members) [] s.hashes ∧
      Yields (.list (.nat 255)) depth (under ["proof_index"] members) [] s.markers := by
  constructor
  · intro read
    obtain ⟨_, index, read⟩ := (gather_field Stored.index).mp read
    obtain ⟨_, leafHash, read⟩ := (gather_field Stored.leafHash).mp read
    obtain ⟨_, hashes, read⟩ := (gather_field Stored.hashes).mp read
    obtain ⟨_, markers, read⟩ := (gather_field Stored.markers).mp read
    cases read
    exact ⟨index, leafHash, hashes, markers⟩
  · rintro ⟨index, leafHash, hashes, markers⟩
    refine (gather_field Stored.index).mpr ⟨_, index, ?_⟩
    refine (gather_field Stored.leafHash).mpr ⟨_, leafHash, ?_⟩
    refine (gather_field Stored.hashes).mpr ⟨_, hashes, ?_⟩
    exact (gather_field Stored.markers).mpr ⟨_, markers, rfl⟩

theorem keys_listed (s : Stored) : Entries.keys s.listed = fields.map Field.name := rfl

theorem nodup_listed (s : Stored) : (Entries.keys s.listed).Nodup := by
  rw [keys_listed]
  decide

theorem ordered_listed (s : Stored) : ∀ pair ∈ s.listed, pair.2.Ordered := by
  simp only [listed, List.forall_mem_cons, List.not_mem_nil, false_imp_iff, implies_true, and_true]
  refine ⟨trivial, trivial, ordered_ofStrings s.hashes, ?_⟩
  exact orderedItems_iff.mpr (List.forall_mem_map.mpr fun _ _ => trivial)

theorem nesting_toJson_le (s : Stored) : s.toJson.nesting ≤ 2 := by
  apply nesting_ofMembers_le
  simp only [List.forall_mem_cons, List.not_mem_nil, false_imp_iff, implies_true, and_true]
  refine ⟨Nat.zero_le 1, Nat.zero_le 1, nesting_ofStrings_le s.hashes, ?_⟩
  exact nesting_array_le (List.forall_mem_map.mpr fun _ _ => Nat.zero_le 0)

theorem decoder_toJson {s : Stored} (fits : s.Fits) {depth : Nat} :
    decoder (depth + 2) s.toJson.outline = .ok s := by
  have named : ∀ pair ∈ s.listed, pair.1 ∈ fields.map Field.name := fun pair there =>
    s.keys_listed ▸ List.mem_map_of_mem there
  refine decode_ofMembers orderly named (ordered_ofMembers s.ordered_listed) ?_ ?_
  · apply gather_eq_ok_iff.mpr
    simp only [Entries.under_ofList]
    refine ⟨?_, ?_, ?_, ?_⟩
    · exact Decoder.nat_outline_ofInt (Nat.le_pred_of_lt fits.index)
    · exact Decoder.string_outline_eq_ok_iff.mpr rfl
    · exact Decoder.list_outline_ofStrings s.hashes
    · exact Decoder.list_outline_map fun marker there =>
        Decoder.nat_outline_ofInt (Nat.le_pred_of_lt (fits.markers marker there))
  · simp only [Entries.under_ofList, fields, List.forall_mem_cons]
    refine ⟨fun _ => ?_, fun _ => ?_, fun _ => ?_, fun _ => ?_, by simp⟩ <;> exact List.cons_ne_nil _ _

theorem respects_decoder : Decoder.Respects id id decoder := by
  have text := Decoder.respects_string rewriting_id
  have texts := Decoder.respects_list rewriting_id text
  have numbers := Decoder.respects_list rewriting_id (Decoder.respects_nat 255)
  rw [List.map_id_fun] at texts numbers
  refine respects_decode rewriting_id orderly ?_ rfl
  simp only [fields, List.forall_mem_cons, List.not_mem_nil, false_imp_iff, implies_true, and_true]
  refine ⟨?_, ?_, ?_, ?_⟩
  · exact Field.respects (Decoder.respects_nat _) (by intros; rfl)
  · exact Field.respects text (by intros; rfl)
  · exact Field.respects texts (by intros; rfl)
  · exact Field.respects numbers (by intros; rfl)

end Stored

theorem fits_toStored {p : Proof} (small : p.index < 2 ^ 64) : p.toStored.Fits := by
  refine ⟨small, List.forall_mem_map.mpr fun s _ => ?_⟩
  cases s.side <;> decide

theorem decoder_toJson {p : Proof} (small : p.index < 2 ^ 64) {depth : Nat} :
    decoder (depth + 2) p.toJson.outline = .ok p :=
  bind_eq_ok.mpr ⟨p.toStored, Stored.decoder_toJson (fits_toStored small),
    mapError_eq_ok.mpr p.ofStored_toStored⟩

theorem respects_decoder : Decoder.Respects id id decoder := by
  intro depth o o' p rewritten read
  obtain ⟨s, stored, made⟩ := bind_eq_ok.mp read
  exact bind_eq_ok.mpr ⟨s, Stored.respects_decoder rewritten stored, made⟩

theorem read_rendering {p : Proof} (small : p.index < 2 ^ 64) {text : Bytes}
    (rendering : Rendering p.toJson text) : Json.read decoder text = .ok p := by
  have shallow : p.toJson.nesting ≤ maxDepth := Nat.le_trans p.toStored.nesting_toJson_le (by decide)
  have ordered : p.toJson.Ordered := ordered_ofMembers p.toStored.ordered_listed
  exact rendering.read_eq_ok respects_decoder shallow ordered (decoder_toJson small)

/-- Proofs survive their storage, as a record and as a text. What is read is exactly what can have been
stored, with digits of either case, and verifies against the same roots. -/
theorem proofs_survive_storage :
    (∀ p : Proof, ofStored p.toStored = .ok p) ∧
    (∀ p : Proof, p.index < 2 ^ 64 →
      Rendering p.toJson (encode (object p.toStored.listed).text) ∧
      ∀ text, Rendering p.toJson text → Json.read decoder text = .ok p) ∧
    (∀ s : Stored, (∃ p, ofStored s = .ok p) ↔ s.Legible) ∧
    (∀ s p, ofStored s = .ok p → p.toStored = s.lowered) ∧
    ∀ (s : Stored) (p : Proof), s.lowered = p.toStored → ∃ q, ofStored s = .ok q ∧
      (∀ root, q.verify root = p.verify root) ∧ ∀ root, q.verifyHex root = p.verifyHex root := by
  refine ⟨ofStored_toStored, fun p small => ⟨?_, fun text => read_rendering small⟩,
    fun s => exists_ofStored_iff, fun s p made => (ofStored_eq_ok_iff.mp made).symm, fun s p same => ?_⟩
  · exact rendering_ofMembers p.toStored.nodup_listed p.toStored.ordered_listed
  · exact ⟨p, ofStored_eq_ok_iff.mpr same, fun _ => rfl, fun _ => rfl⟩

theorem proofs_survive_storage_capitals :
    let p : Proof := ⟨2, .filled 0xab, [⟨.filled 0xcd, .right⟩, ⟨.filled 0, .left⟩]⟩
    let s : Stored := { p.toStored with leafHash := p.leaf.hex.toUpper }
    s ≠ p.toStored ∧ s.lowered = p.toStored ∧ s.Legible ∧
    Json.read decoder (encode (object p.toStored.listed).text) = .ok p ∧
    ∃ q, ofStored s = .ok q ∧ q.toStored = s.lowered ∧ (∀ root, q.verify root = p.verify root) ∧
      ∀ root, q.verifyHex root = p.verifyHex root := by
  intro p s
  obtain ⟨-, texts, accepted, restored, verified⟩ := proofs_survive_storage
  obtain ⟨rendering, read⟩ := texts p (by decide)
  have same : s.lowered = p.toStored := by decide +kernel
  obtain ⟨q, made, roots⟩ := verified s p same
  exact ⟨by decide +kernel, same, (accepted s).mp ⟨q, made⟩, read _ rendering, q, made, restored s q made,
    roots⟩

end Proof
end Attest.Merkle
