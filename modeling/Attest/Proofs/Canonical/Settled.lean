import Attest.Hash.Digest
import Attest.Proofs.Canonical.Encoding
import Attest.Proofs.Json.Plain
import Attest.Proofs.Json.Rewriting

namespace Attest.Json

theorem canonicalBytes_congr {j k : Json} (same : Canonical.ofJson j = Canonical.ofJson k) :
    j.canonicalBytes = k.canonicalBytes := by
  rw [canonicalBytes, canonicalText, same, canonicalBytes, canonicalText]

def settled (j : Json) : Json := (Canonical.ofJson j).toJson

theorem canonicalText_settled (j : Json) : j.settled.canonicalText = j.canonicalText := by
  rw [canonicalText, settled, Canonical.ofJson_toJson_ofJson, canonicalText]

theorem canonicalBytes_settled (j : Json) : j.settled.canonicalBytes = j.canonicalBytes := by
  rw [canonicalBytes, canonicalText_settled, canonicalBytes]

theorem digest_settled (j : Json) : j.settled.digest = j.digest := by
  rw [digest, canonicalBytes_settled, digest]

theorem ofBytes_canonicalBytes (j : Json) :
    Outline.ofBytes j.canonicalBytes = (j.settled.outline, true) := by
  rw [← Outline.ofBytes_chars, settled, Canonical.chars_toJson, ← Utf8.encode_ofList]
  rfl

theorem ofItems_eq_map (items : List Json) : Canonical.ofItems items = items.map Canonical.ofJson := by
  induction items with
  | nil => rfl
  | cons item items ih => rw [Canonical.ofItems, ih, List.map_cons]

theorem toItems_eq_map (items : List Canonical) : Canonical.toItems items = items.map Canonical.toJson := by
  induction items with
  | nil => rfl
  | cons item items ih => rw [Canonical.toItems, ih, List.map_cons]

theorem ofMembers_eq_mapValues (members : List (String × Json)) :
    Canonical.ofMembers members = Entries.mapValues Canonical.ofJson members := by
  induction members with
  | nil => rfl
  | cons member members ih =>
    rw [Canonical.ofMembers, ih]
    rfl

theorem toMembers_eq_mapValues (members : List (String × Canonical)) :
    Canonical.toMembers members = Entries.mapValues Canonical.toJson members := by
  induction members with
  | nil => rfl
  | cons member members ih =>
    rw [Canonical.toMembers, ih]
    rfl

theorem settled_object_eq (members : List (String × Json)) :
    (object members).settled = .object (Entries.mapValues settled (Entries.ofList members)) := by
  rw [settled, Canonical.ofJson, ofMembers_eq_mapValues, Entries.ofList_mapValues, Canonical.toJson,
    toMembers_eq_mapValues]
  simp only [Entries.mapValues, List.map_map]
  rfl

theorem settled_object {members : List (String × Json)} (ascending : Entries.Ascending members) :
    (object members).settled = .object (Entries.mapValues settled members) := by
  rw [settled_object_eq, Entries.ofList_of_ascending ascending]

theorem settled_array (items : List Json) : (array items).settled = .array (items.map settled) := by
  rw [settled, Canonical.ofJson, Canonical.toJson, ofItems_eq_map, toItems_eq_map, List.map_map]
  rfl

theorem settled_number (l : Literal) : (number l).settled = (Canonical.ofLiteral l).toJson := rfl

section

variable {p : List String → Bool} (same : ∀ keys keys', (∀ key, key ∈ keys ↔ key ∈ keys') → p keys = p keys')

include same

theorem allKeys_settled_of_nesting {depth : Nat} {j : Json} (shallow : j.nesting ≤ depth)
    (holds : j.allKeys p = true) : j.settled.allKeys p = true := by
  induction depth generalizing j with
  | zero =>
    cases j with
    | number l =>
      rw [settled_number]
      rcases Canonical.ofLiteral_cases l with form | ⟨_, form⟩ | ⟨_, form⟩ <;> rw [form] <;> rfl
    | array | object => cases shallow
    | _ => rfl
  | succ depth ih =>
    cases j with
    | number l =>
      rw [settled_number]
      rcases Canonical.ofLiteral_cases l with form | ⟨_, form⟩ | ⟨_, form⟩ <;> rw [form] <;> rfl
    | array items =>
      have low := nestingOfItems_le_iff.mp (Nat.le_of_succ_le_succ shallow)
      have each := allKeysOfItems_iff.mp holds
      rw [settled_array]
      apply allKeysOfItems_iff.mpr
      exact List.forall_mem_map.mpr fun item there => ih (low item there) (each item there)
    | object members =>
      have low := nestingOfMembers_le_iff.mp (Nat.le_of_succ_le_succ shallow)
      obtain ⟨here, within⟩ := Bool.and_eq_true_iff.mp holds
      have each := allKeysOfMembers_iff.mp within
      rw [settled_object_eq]
      apply Bool.and_eq_true_iff.mpr
      constructor
      · rw [Entries.keys_mapValues, ← here]
        exact same _ _ fun _ => Entries.mem_keys_ofList
      · apply allKeysOfMembers_iff.mpr
        refine List.forall_mem_map.mpr fun member there => ?_
        have listed := Entries.mem_of_mem_ofList there
        exact ih (low member listed) (each member listed)
    | _ => rfl

theorem allKeys_settled {j : Json} (holds : j.allKeys p = true) : j.settled.allKeys p = true :=
  allKeys_settled_of_nesting same (Nat.le_refl j.nesting) holds

end

theorem lacks_settled {key : String} {j : Json} (lacks : j.lacks key = true) : j.settled.lacks key = true :=
  allKeys_settled (fun keys keys' same => by simp [lacking, same]) lacks

theorem isAccompanied_settled {j : Json} (beside : j.isAccompanied = true) : j.settled.isAccompanied = true := by
  refine allKeys_settled (fun keys keys' same => ?_) beside
  have empty : keys.isEmpty = keys'.isEmpty := by
    rw [Bool.eq_iff_iff, List.isEmpty_iff, List.isEmpty_iff, List.eq_nil_iff_forall_not_mem,
      List.eq_nil_iff_forall_not_mem]
    simp only [same]
  rw [accompanied, accompanied, empty, Bool.eq_iff_iff]
  simp only [Bool.or_eq_true, List.any_eq_true, same]

theorem rewriting_settled : Rewriting settled :=
  ⟨rfl, fun _ => rfl, fun _ => rfl, settled_array, fun _ => settled_object⟩

theorem ofJson_ofMembers (members : List (String × Json)) :
    Canonical.ofJson (ofMembers members) =
      .object (Entries.ofList (Entries.mapValues Canonical.ofJson members)) := by
  have ascending := (Entries.ascending_ofList members).mapValues Canonical.ofJson
  rw [ofMembers, Canonical.ofJson, ofMembers_eq_mapValues, Entries.ofList_of_ascending ascending,
    Entries.ofList_mapValues]

theorem eq_object_of_ofJson {j : Json} {entries : List (String × Canonical)}
    (same : Canonical.ofJson j = .object entries) : ∃ members, j = .object members := by
  cases j with
  | object members => exact ⟨members, rfl⟩
  | number l =>
    rw [Canonical.ofJson] at same
    rcases Canonical.ofLiteral_cases l with form | ⟨_, form⟩ | ⟨_, form⟩ <;> cases form.symm.trans same
  | _ => cases same

section

variable {members pairs : List (String × Json)} (ascending : Entries.Ascending members)
  (distinct : (Entries.keys pairs).Nodup)
  (same : Canonical.ofJson (.object members) = Canonical.ofJson (.ofMembers pairs))

include ascending distinct same

theorem perm_of_ofJson :
    (Entries.mapValues Canonical.ofJson members).Perm (Entries.mapValues Canonical.ofJson pairs) := by
  have kept := Entries.ofList_of_ascending (ascending.mapValues Canonical.ofJson)
  rw [ofJson_ofMembers, Canonical.ofJson, ofMembers_eq_mapValues, kept] at same
  rw [Canonical.object.inj same]
  apply Entries.perm_ofList
  rwa [Entries.keys_mapValues]

theorem mem_keys_iff_of_ofJson (key : String) : key ∈ Entries.keys members ↔ key ∈ Entries.keys pairs := by
  have perm := (perm_of_ofJson ascending distinct same).map Prod.fst
  have keys := Entries.keys_mapValues Canonical.ofJson
  have left : _ = Entries.keys members := keys members
  have right : _ = Entries.keys pairs := keys pairs
  rw [← left, ← right]
  exact perm.mem_iff

theorem ofJson_eq_of_mem {key : String} {j k : Json} (left : (key, j) ∈ members)
    (right : (key, k) ∈ pairs) : Canonical.ofJson j = Canonical.ofJson k := by
  have perm := perm_of_ofJson ascending distinct same
  have nodup : (Entries.keys (Entries.mapValues Canonical.ofJson pairs)).Nodup := by
    rwa [Entries.keys_mapValues]
  have here : (key, Canonical.ofJson j) ∈ Entries.mapValues Canonical.ofJson pairs :=
    perm.mem_iff.mp (List.mem_map_of_mem left)
  have there : (key, Canonical.ofJson k) ∈ Entries.mapValues Canonical.ofJson pairs :=
    List.mem_map_of_mem right
  exact (Prod.mk.inj (List.inj_on_of_nodup_map nodup here there rfl)).2

end

theorem exists_of_ofJson_array {items others : List Json}
    (same : Canonical.ofJson (.array items) = Canonical.ofJson (.array others)) {item : Json}
    (there : item ∈ items) : ∃ other ∈ others, Canonical.ofJson item = Canonical.ofJson other := by
  rw [Canonical.ofJson, Canonical.ofJson, ofItems_eq_map, ofItems_eq_map, Canonical.array.injEq] at same
  have inside : Canonical.ofJson item ∈ items.map Canonical.ofJson := List.mem_map_of_mem there
  rw [same] at inside
  obtain ⟨other, among, equal⟩ := List.mem_map.mp inside
  exact ⟨other, among, equal.symm⟩

theorem ofJson_mapValues_settled (members : List (String × Json)) :
    Canonical.ofJson (.object (Entries.mapValues settled members)) = Canonical.ofJson (.object members) := by
  have same : ∀ j, Canonical.ofJson (settled j) = Canonical.ofJson j := Canonical.ofJson_toJson_ofJson
  rw [Canonical.ofJson, Canonical.ofJson, ofMembers_eq_mapValues, ofMembers_eq_mapValues]
  simp only [Entries.mapValues, List.map_map, Function.comp_def, same]

end Attest.Json

namespace Attest.Canonical

theorem read_canonicalBytes (v : Json) (shallow : v.nesting ≤ Json.maxDepth)
    (plain : v.settled.outline.isPlain = true) :
    Json.read Json.Decoder.value v.canonicalBytes = .ok v.settled := by
  have read := Json.read_text v.settled ((nesting_ofJson_le v).trans shallow)
    (ordered_toJson _ (normal_ofJson v)) plain
  rw [Json.settled, text_toJson] at read
  exact read

/-- Reading the canonical text and bringing what was read into canonical form undoes the writing, so
the text is its own canonical text. -/
theorem canonical_text_is_fixed (v : Json) (shallow : v.nesting ≤ Json.maxDepth)
    (lacks : v.lacks Json.Decoder.numberKey = true) :
    ∃ w, Json.read Json.Decoder.value v.canonicalBytes = .ok w ∧ ofJson w = ofJson v ∧
      w.canonicalText = v.canonicalText := by
  have settled := ofJson_toJson_ofJson v
  have plain := Json.isPlain_of_lacks _ (Json.lacks_settled lacks)
  exact ⟨_, read_canonicalBytes v shallow plain, settled, congrArg text settled⟩

theorem canonical_text_is_fixed_mixed :
    let large : Json := .number ⟨true, 15, [], some ⟨false, 2, [1]⟩⟩
    let small : Json := .number ⟨false, 0, [0, 0, 3, 0], some ⟨true, 5, []⟩⟩
    let v : Json := .object [("z", .array [large, small, .array []]), ("a\n", .string "\u0001\"")]
    v.nesting ≤ Json.maxDepth ∧ v.lacks Json.Decoder.numberKey = true ∧
      ∃ w, Json.read Json.Decoder.value v.canonicalBytes = .ok w ∧ ofJson w = ofJson v ∧
        w.canonicalText = v.canonicalText := by
  intro large small v
  have shallow : v.nesting ≤ Json.maxDepth := by decide
  have lacks : v.lacks Json.Decoder.numberKey = true := by decide
  exact ⟨shallow, lacks, canonical_text_is_fixed v shallow lacks⟩

end Attest.Canonical
