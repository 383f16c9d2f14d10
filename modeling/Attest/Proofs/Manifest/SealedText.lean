import Attest.Proofs.Manifest.Sealing
import Attest.Proofs.Manifest.Written

namespace Attest

open Json (Rendering Yields member? tidy)
open Entries (under)

def Metadata.listed (m : Metadata) : Json := .object [
  ("id", .string m.id), ("version", .string m.version), ("name", .string m.name),
  ("description", .string m.description)]

def Edge.listed (e : Edge) : Json := .object [("from", .string e.source), ("to", .string e.target)]

def Graph.listed (g : Graph) : Json := .object
  [("nodes", .array (g.nodes.map fun n => .object n.pairs)), ("edges", .array (g.edges.map Edge.listed))]

/-- What is written for a manifest, the members of each part in the order of its fields. -/
def Manifest.listed (m : Manifest) : Json := .object <|
  [("metadata", m.metadata.listed)] ++ member? "specVersion" (m.specVersion.map .string) ++
    [("declaredTools", .ofStrings m.tools), ("declaredPermissions", .ofStrings m.permissions),
      ("executionGraph", m.graph.listed), ("deterministic", .bool m.deterministic)] ++
    member? "signatureHash" (m.signature.map .string)

variable {depth : Nat}

theorem Node.tidy_pairs {n : Node} (fits : n.Fits depth) : (Json.object n.pairs).tidy = n.toJson := by
  have same : Entries.mapValues tidy n.pairs = n.pairs := by
    refine (List.map_congr_left fun pair there => ?_).trans (List.map_id _)
    rcases mem_pairs there with ⟨_, text⟩ | ⟨inputs, given, value⟩
    · simp [text, tidy, Prod.ext_iff]
    · have ordered := (fits inputs given).1
      simp [value, Json.tidy_of_ordered ordered, Prod.ext_iff]
  rw [Json.tidy_object, same, toJson_eq]

theorem Graph.tidy_listed {g : Graph} (fits : g.Fits depth) : g.listed.tidy = g.toJson := by
  have nodes : (g.nodes.map fun n => Json.object n.pairs).map tidy = g.nodes.map Node.toJson := by
    rw [List.map_map]
    exact List.map_congr_left fun n listed => Node.tidy_pairs (fits n listed)
  have edges : (g.edges.map Edge.listed).map tidy = g.edges.map Edge.toJson := by
    rw [List.map_map]
    exact List.map_congr_left fun _ _ => rfl
  rw [listed, Json.tidy_object]
  simp only [Entries.mapValues, List.map_cons, List.map_nil, tidy, Json.tidyItems_eq_map, nodes, edges]
  rfl

theorem Manifest.tidy_listed {m : Manifest} (fits : m.graph.Fits depth) : m.listed.tidy = m.toJson := by
  have metadata : m.metadata.listed.tidy = m.metadata.toJson := rfl
  have tools : ∀ texts, (Json.ofStrings texts).tidy = Json.ofStrings texts :=
    fun texts => Json.tidy_of_ordered (Json.ordered_ofStrings texts)
  have graph := Graph.tidy_listed fits
  obtain ⟨_, specVersion, _, _, _, _, signature⟩ := m
  rw [listed, Json.tidy_object]
  cases specVersion <;> cases signature <;>
    simp only [Entries.mapValues, List.map_append, List.map_cons, List.map_nil, metadata, graph, tools,
      member?, Option.map_some, Option.map_none, Option.toList_some, Option.toList_none] <;> rfl

theorem Node.distinct_pairs {n : Node} (fits : n.Fits depth) : (Json.object n.pairs).outline.Distinct := by
  refine Json.distinct_object (n.keys_pairs.nodup (by decide)) fun pair there => ?_
  rcases mem_pairs there with ⟨_, text⟩ | ⟨inputs, given, value⟩
  · rw [text]
    trivial
  · rw [value]
    exact Json.distinct_outline _ (fits inputs given).1

theorem Graph.distinct_listed {g : Graph} (fits : g.Fits depth) : g.listed.outline.Distinct := by
  refine Json.distinct_object (by show ["nodes", "edges"].Nodup; decide) ?_
  simp only [List.forall_mem_cons, List.not_mem_nil, false_imp_iff, implies_true, and_true]
  refine ⟨Json.distinct_array ?_, Json.distinct_array ?_⟩
  · exact List.forall_mem_map.mpr fun n listed => Node.distinct_pairs (fits n listed)
  · refine List.forall_mem_map.mpr fun e _ => ?_
    refine Json.distinct_object (by show ["from", "to"].Nodup; decide) ?_
    simp [Json.outline, Json.Outline.Distinct]

theorem Manifest.distinct_listed {m : Manifest} (fits : m.graph.Fits depth) :
    m.listed.outline.Distinct := by
  have metadata : m.metadata.listed.outline.Distinct := by
    refine Json.distinct_object (by show ["id", "version", "name", "description"].Nodup; decide) ?_
    simp [Json.outline, Json.Outline.Distinct]
  have texts : ∀ texts, (Json.ofStrings texts).outline.Distinct :=
    fun texts => Json.distinct_outline _ (Json.ordered_ofStrings texts)
  have nodup := m.keys_pairs.nodup (by decide)
  refine Json.distinct_object (by simpa [pairs, content, Entries.keys] using nodup) ?_
  simp only [List.mem_append, List.mem_cons, List.not_mem_nil, or_false, Json.mem_member?,
    Option.map_eq_some_iff]
  rintro _ (((rfl | ⟨_, ⟨s, -, rfl⟩, rfl⟩) | rfl | rfl | rfl | rfl) | ⟨_, ⟨s, -, rfl⟩, rfl⟩)
  · exact metadata
  · trivial
  · exact texts _
  · exact texts _
  · exact Graph.distinct_listed fits
  · trivial
  · trivial

theorem Manifest.isPlain_listed {m : Manifest} (plain : m.graph.listed.outline.isPlain = true) :
    m.listed.outline.isPlain = true := by
  refine Json.isPlain_object (by simp [Entries.keys, Json.Decoder.numberKey]) ?_
  simp only [List.mem_append, List.mem_cons, List.not_mem_nil, or_false, Json.mem_member?,
    Option.map_eq_some_iff]
  rintro _ (((rfl | ⟨_, ⟨s, -, rfl⟩, rfl⟩) | rfl | rfl | rfl | rfl) | ⟨_, ⟨s, -, rfl⟩, rfl⟩)
  · exact Json.isPlain_object (by simp [Entries.keys, Json.Decoder.numberKey])
      (by simp [Json.outline, Json.Outline.isPlain])
  · rfl
  · exact Json.isPlain_ofStrings _
  · exact Json.isPlain_ofStrings _
  · exact plain
  · rfl
  · rfl

namespace Signature

variable {members : List (String × Json)}

theorem claimed?_of_yields {signature : Option String} (once : (under keys members).length ≤ 1)
    (yields : Yields (.optional .string) depth (under keys members) none signature) :
    claimed? (.object members) = signature := by
  have first : key ∈ keys := List.mem_cons_self
  have second : "signature_hash" ∈ keys := List.mem_cons_of_mem _ List.mem_cons_self
  simp only [claimed?, keys, List.findSome?_cons, List.findSome?_nil, Json.get?]
  rw [← Entries.get?_under first, ← Entries.get?_under second]
  cases found : under keys members with
  | nil =>
    rw [found] at yields
    exact yields.symm
  | cons member more =>
    obtain ⟨k, j⟩ := member
    have spelled : k ∈ keys := (Entries.mem_under.mp (found ▸ List.mem_cons_self)).2
    rw [found] at once yields
    obtain rfl := List.length_eq_zero_iff.mp (Nat.le_zero.mp (Nat.le_of_succ_le_succ once))
    obtain rfl := Json.Decoder.optionalString_outline_eq_ok_iff.mp yields
    rcases List.mem_cons.mp spelled with rfl | later
    · cases signature <;> rfl
    · obtain rfl := List.mem_singleton.mp later
      cases signature <;> rfl

end Signature

namespace Manifest

open Signature (signed)

theorem signed_pairs (m : Manifest) : signed m.pairs = m.content := by
  obtain ⟨_, _ | _, _, _, _, _, _ | _⟩ := m <;> rfl

theorem basis_toJson (m : Manifest) : Signature.basis m.toJson = .ofMembers m.content := by
  rw [toJson_eq, ← signed_pairs, Json.ofMembers, Signature.basis_object, signed, signed,
    Entries.erase_ofList, Entries.erase_ofList, Json.ofMembers]

theorem signatureHash_eq (m : Manifest) : m.signatureHash = (Json.ofMembers m.content).digest := by
  rw [signatureHash, Signature.compute, basis_toJson]

theorem signatureHash_resigned (m : Manifest) (signature : Option String) :
    ({ m with signature } : Manifest).signatureHash = m.signatureHash := by
  rw [signatureHash_eq, signatureHash_eq]
  rfl

theorem verifySignature_sealed (m : Manifest) : m.sealed.verifySignature = .ok () := by
  have same : m.sealed.signatureHash = m.signatureHash := m.signatureHash_resigned _
  rw [verifySignature, same]
  exact Signature.check_hex m.signatureHash

theorem claimed?_toJson (m : Manifest) : Signature.claimed? m.toJson = m.signature := by
  have own : under Signature.keys (Entries.ofList m.pairs) =
      Json.member? "signatureHash" (m.signature.map .string) := by
    obtain ⟨-, -, -, -, -, -, signature⟩ := m.under_pairs
    rw [Entries.under_ofList, Signature.keys, Signature.key, signature, Json.ofList_member?]
  have once : (under Signature.keys (Entries.ofList m.pairs)).length ≤ 1 := by
    rw [own]
    cases m.signature <;> simp [Json.member?]
  have yields : Yields (.optional .string) 0 (under Signature.keys (Entries.ofList m.pairs)) none
      m.signature := by
    rw [own]
    exact Json.yields_optionalString _
  rw [toJson_eq]
  exact Signature.claimed?_of_yields once yields

theorem verify_toJson (m : Manifest) : Signature.verify m.toJson = m.verifySignature := by
  rw [Signature.verify, claimed?_toJson, verifySignature, signatureHash]

section

variable {m : Manifest} {bytes text : Bytes}

section

variable (fits : m.graph.Fits Node.inputDepth) (rendering : Rendering m.toJson text)

include fits rendering

theorem content_of_rendering : ∃ o, Json.Outline.ofBytes text = (o, true) ∧
    decoder .content Json.maxDepth o = .ok m ∧ Json.Decoder.content Json.maxDepth o = .ok m.toJson := by
  have shallow := nesting_toJson_le fits
  have ordered := ordered_toJson fits
  obtain ⟨o, outlined, distinct, content⟩ := rendering.read shallow
  have written := Json.Decoder.content_outline m.toJson shallow ordered
  have moved := respects_decoder Json.rewriting_id ⟨⟨_, written, content⟩, distinct⟩ (decoder_toJson fits)
  rw [rewrite_id] at moved
  exact ⟨o, outlined, moved, content⟩

theorem ofBytes_of_rendering (plain : Json.Plain text) :
    ofBytes text = .ok m ∧ Signature.read text = .ok m.toJson := by
  obtain ⟨o, outlined, typed, raw⟩ := content_of_rendering fits rendering
  have plain : o.isPlain = true := by rwa [Json.Plain, outlined] at plain
  rw [← decoder_eq_ok_iff plain] at typed
  rw [← Json.Decoder.value_of_isPlain plain] at raw
  exact ⟨mapError_eq_ok.mpr (Json.read_eq_ok_iff.mpr ⟨o, outlined, typed⟩),
    mapError_eq_ok.mpr (Json.read_eq_ok_iff.mpr ⟨o, outlined, raw⟩)⟩

theorem eq_of_rendering (same : m.rewrite Json.collapsed = m) {n : Manifest} (again : ofBytes text = .ok n) :
    n = m := by
  obtain ⟨o, outlined, typed, -⟩ := content_of_rendering fits rendering
  obtain ⟨_, outlined', decoded⟩ := Json.read_eq_ok_iff.mp (mapError_eq_ok.mp again)
  obtain ⟨rfl, -⟩ := Prod.mk.inj (outlined.symm.trans outlined')
  obtain ⟨_, found, rfl⟩ := exists_content_of_decoder decoded
  rwa [Except.ok.inj (found.symm.trans typed)]

end

theorem rendering_listed (fits : m.graph.Fits Node.inputDepth) : Rendering m.toJson (Utf8.encode m.listed.text) := by
  have rendering := Json.rendering_text (distinct_listed fits)
  rwa [tidy_listed fits] at rendering

theorem rendering_listed_pretty (fits : m.graph.Fits Node.inputDepth) :
    Rendering m.toJson (Utf8.encode m.listed.pretty) := by
  have rendering := Json.rendering_pretty (distinct_listed fits)
  rwa [tidy_listed fits] at rendering

theorem fits_of_ofBytes (parsed : ofBytes bytes = .ok m) : m.graph.Fits Node.inputDepth := by
  obtain ⟨_, -, decoded⟩ := Json.read_eq_ok_iff.mp (mapError_eq_ok.mp parsed)
  exact fits_of_decoder decoded

/-- Every plain text of a manifest has the signature hash of the manifest, and every plain text of the
sealed manifest holds, as it stands and as the manifest that is read from it; what is written for a
manifest is such a text, on one line or on several. What is read from any text of the sealed manifest is
that manifest. The signature that was there before has no part in that. -/
theorem typed_signature_holds (parsed : ofBytes bytes = .ok m) :
    (∀ text, Rendering m.toJson text → Json.Plain text →
      Signature.computeBytes text = .ok m.signatureHash) ∧
    (∀ text, Rendering m.sealed.toJson text →
      (Json.Plain text → Signature.verifyBytes text = .ok () ∧ ofBytes text = .ok m.sealed) ∧
      ∀ n, ofBytes text = .ok n → n = m.sealed ∧ n.verifySignature = .ok ()) ∧
    (∀ n : Manifest, n = m ∨ n = m.sealed → Rendering n.toJson (Utf8.encode n.listed.text) ∧
      Rendering n.toJson (Utf8.encode n.listed.pretty) ∧
      (m.graph.listed.outline.isPlain = true →
        Json.Plain (Utf8.encode n.listed.text) ∧ Json.Plain (Utf8.encode n.listed.pretty))) ∧
    ∀ signature, ({ m with signature } : Manifest).signatureHash = m.signatureHash ∧
      ({ m with signature } : Manifest).sealed = m.sealed := by
  have fits := fits_of_ofBytes parsed
  refine ⟨?_, ?_, ?_, ?_⟩
  · intro text rendering plain
    obtain ⟨-, raw⟩ := ofBytes_of_rendering fits rendering plain
    rw [Signature.computeBytes, raw]
    rfl
  · intro text rendering
    have holds := m.verifySignature_sealed
    constructor
    · intro plain
      obtain ⟨again, raw⟩ := ofBytes_of_rendering (m := m.sealed) fits rendering plain
      refine ⟨?_, again⟩
      rw [Signature.verifyBytes, raw]
      exact (verify_toJson m.sealed).trans holds
    · intro n again
      have same : m.sealed.rewrite Json.collapsed = m.sealed :=
        congrArg (fun n : Manifest => { n with signature := m.sealed.signature })
          (rewrite_collapsed (accompanied_of_ofBytes parsed))
      obtain rfl := eq_of_rendering (m := m.sealed) fits rendering same again
      exact ⟨rfl, holds⟩
  · rintro n (rfl | rfl)
    · refine ⟨rendering_listed fits, rendering_listed_pretty fits, fun plain => ?_⟩
      exact ⟨Json.plain_text (isPlain_listed plain), Json.plain_pretty (isPlain_listed plain)⟩
    · refine ⟨rendering_listed (m := m.sealed) fits, rendering_listed_pretty (m := m.sealed) fits, fun plain => ?_⟩
      have plain := isPlain_listed (m := m.sealed) plain
      exact ⟨Json.plain_text plain, Json.plain_pretty plain⟩
  · intro signature
    have same := m.signatureHash_resigned signature
    refine ⟨same, ?_⟩
    rw [sealed, same, sealed]

/-- A manifest with another spelling of a key, left-out parts and a signature that does not hold. -/
theorem typed_signature_holds_indented :
    let bytes := Utf8.encode ("\x7b\"signature_hash\": \"00\", \"spec_version\": \"1.0\", " ++
      "\"executionGraph\": \x7b\"nodes\": [\x7b\"inputs\": \x7b\"n\": [1e400]\x7d, \"id\": \"a\"\x7d]\x7d\x7d")
    ∃ m, ofBytes bytes = .ok m ∧ Signature.computeBytes (Utf8.encode m.listed.text) = .ok m.signatureHash ∧
      Signature.verifyBytes (Utf8.encode m.sealed.listed.pretty) = .ok () ∧
      ofBytes (Utf8.encode m.sealed.listed.pretty) = .ok m.sealed := by
  intro bytes
  have found : (fun m : Manifest => m.graph.listed.outline.isPlain) <$> ofBytes bytes = .ok true := by
    decide +kernel
  obtain ⟨m, parsed, plain⟩ := map_eq_ok.mp found
  obtain ⟨computed, holds, written, -⟩ := typed_signature_holds parsed
  obtain ⟨text, -, plainOwn⟩ := written m (.inl rfl)
  obtain ⟨-, pretty, plainSealed⟩ := written m.sealed (.inr rfl)
  obtain ⟨verified, again⟩ := (holds _ pretty).1 (plainSealed plain).2
  exact ⟨m, parsed, computed _ text (plainOwn plain).1, verified, again⟩

/-- Inputs in which the key of numbers comes first where they are written. -/
theorem typed_signature_holds_unread :
    let bytes := Utf8.encode ("\x7b\"executionGraph\":\x7b\"nodes\":[\x7b\"id\":\"a\",\"inputs\":\x7b\"k\":" ++
      "\x7b\"zz\":1,\"$serde_json::private::Number\":\"1\"\x7d\x7d\x7d]\x7d\x7d")
    ∃ m, ofBytes bytes = .ok m ∧ Rendering m.toJson (Utf8.encode m.listed.text) ∧
      Signature.computeBytes (Utf8.encode m.listed.text) = .error (.unreadable .malformed) := by
  intro bytes
  have found : (fun m : Manifest => decide
      (Signature.computeBytes (Utf8.encode m.listed.text) = .error (.unreadable .malformed))) <$> ofBytes bytes =
        .ok true := by decide +kernel
  obtain ⟨m, parsed, unread⟩ := map_eq_ok.mp found
  exact ⟨m, parsed, rendering_listed (fits_of_ofBytes parsed), of_decide_eq_true unread⟩

end

end Manifest
end Attest
