import Attest.Proofs.Manifest.SealedReport
import Attest.Proofs.Manifest.SealedText

namespace Attest.Manifest

open Json (settled)

variable {m : Manifest}

theorem content_of_canonicalBytes (fits : m.graph.Fits Node.inputDepth) :
    decoder .content Json.maxDepth m.toJson.settled.outline = .ok (m.rewrite settled) := by
  have shallow : m.toJson.settled.nesting ≤ Json.maxDepth :=
    (Canonical.nesting_ofJson_le _).trans (nesting_toJson_le fits)
  have ordered : m.toJson.settled.Ordered := Canonical.ordered_toJson _ (Canonical.normal_ofJson _)
  have before := Json.Decoder.content_outline m.toJson (nesting_toJson_le fits) (ordered_toJson fits)
  have after := Json.Decoder.content_outline m.toJson.settled shallow ordered
  exact respects_decoder Json.rewriting_settled ⟨⟨_, before, after⟩, Json.distinct_outline _ ordered⟩
    (decoder_toJson fits)

theorem ofBytes_canonicalBytes (fits : m.graph.Fits Node.inputDepth) (plain : Json.Plain m.canonicalBytes) :
    ofBytes m.canonicalBytes = .ok (m.rewrite settled) := by
  have decoded := content_of_canonicalBytes fits
  have outlined := Json.ofBytes_canonicalBytes m.toJson
  have plain : m.toJson.settled.outline.isPlain = true := by rwa [Json.Plain, canonicalBytes, outlined] at plain
  rw [← decoder_eq_ok_iff plain] at decoded
  exact mapError_eq_ok.mpr (Json.read_eq_ok_iff.mpr ⟨_, outlined, decoded⟩)

theorem eq_of_canonicalBytes {bytes : Bytes} (parsed : ofBytes bytes = .ok m) {stored : Manifest}
    (again : ofBytes m.canonicalBytes = .ok stored) : stored = m.rewrite settled := by
  obtain ⟨_, outlined, decoded⟩ := Json.read_eq_ok_iff.mp (mapError_eq_ok.mp again)
  obtain ⟨rfl, -⟩ := Prod.mk.inj ((Json.ofBytes_canonicalBytes m.toJson).symm.trans outlined)
  obtain ⟨_, found, rfl⟩ := exists_content_of_decoder decoded
  rw [Except.ok.inj (found.symm.trans (content_of_canonicalBytes (fits_of_ofBytes parsed)))]
  exact rewrite_settled_collapsed (accompanied_of_ofBytes parsed)

theorem ofJson_content_rewrite_settled (m : Manifest) :
    Entries.mapValues Canonical.ofJson (m.rewrite settled).content =
      Entries.mapValues Canonical.ofJson m.content := by
  have graph := m.graph.ofJson_rewrite_settled
  simp only [content, rewrite, Entries.mapValues, List.map_append, List.map_cons, graph]

theorem canonicalBytes_rewrite_settled (m : Manifest) :
    (m.rewrite settled).canonicalBytes = m.canonicalBytes := by
  apply Json.canonicalBytes_congr
  have content := m.ofJson_content_rewrite_settled
  simp only [Entries.mapValues] at content
  simp only [toJson_eq, pairs, Json.ofJson_ofMembers, Entries.mapValues, List.map_append, content]
  rfl

theorem signatureHash_rewrite_settled (m : Manifest) :
    (m.rewrite settled).signatureHash = m.signatureHash := by
  have same : Canonical.ofJson (.ofMembers (m.rewrite settled).content) =
      Canonical.ofJson (.ofMembers m.content) := by
    rw [Json.ofJson_ofMembers, ofJson_content_rewrite_settled, Json.ofJson_ofMembers]
  rw [signatureHash_eq, signatureHash_eq, Json.digest, Json.digest, Json.canonicalBytes_congr same]

/-- A manifest that was read can be written in canonical form, and is read back from there if no object in
it begins with the key of numbers. Whenever it is read back, its inputs are settled; it has the same canonical
form again, the same signature hash and the same integrity, and the checks report the same on it under all
rules. -/
theorem kept_in_canonical_form {bytes : Bytes} (parsed : ofBytes bytes = .ok m) :
    m.toJson.convertedBytes = .ok m.canonicalBytes ∧
    (Json.Plain m.canonicalBytes → ∃ stored, ofBytes m.canonicalBytes = .ok stored) ∧
    ∀ stored, ofBytes m.canonicalBytes = .ok stored → stored = m.rewrite settled ∧
      stored.canonicalBytes = m.canonicalBytes ∧
      stored.signatureHash = m.signatureHash ∧
      stored.integrity = m.integrity ∧
      ∀ rules, Lint.manifest rules stored = Lint.manifest rules m := by
  refine ⟨m.toJson.convertedBytes_eq, ?_, ?_⟩
  · exact fun plain => ⟨_, ofBytes_canonicalBytes (fits_of_ofBytes parsed) plain⟩
  · intro stored again
    obtain rfl := eq_of_canonicalBytes parsed again
    refine ⟨rfl, ?_, ?_, ?_, ?_⟩
    · exact m.canonicalBytes_rewrite_settled
    · exact m.signatureHash_rewrite_settled
    · exact m.integrity_rewrite_settled m.signature
    · exact fun rules => Lint.manifest_rewrite_settled rules m m.signature

/-- Other spellings of keys, null for what is absent, a record written as an array, and inputs that are kept as
text, as null and in another spelling. -/
theorem kept_in_canonical_form_respelled :
    let bytes := Utf8.encode ("\x7b \"spec_version\": null, \"declared_tools\": [\"t\"], " ++
      "\"signature_hash\": \"00\", \"metadata\": [\"p\", \"1\"], " ++
      "\"execution_graph\": \x7b\"nodes\": [\x7b\"tool\": null, \"id\": \"a\", " ++
      "\"inputs\": \x7b\"n\": 1e400, \"k\": 98765432109876543210, \"x\": 1.50\x7d\x7d]\x7d\x7d")
    ∃ m stored, ofBytes bytes = .ok m ∧ ofBytes m.canonicalBytes = .ok stored ∧ stored ≠ m ∧
      stored.canonicalBytes = m.canonicalBytes ∧ stored.signatureHash = m.signatureHash ∧
      stored.integrity = m.integrity ∧ ∀ rules, Lint.manifest rules stored = Lint.manifest rules m := by
  intro bytes
  have found : (fun m => decide (m.rewrite settled ≠ m ∧ Json.Plain m.canonicalBytes)) <$> ofBytes bytes =
      .ok true := by decide +kernel
  obtain ⟨m, parsed, both⟩ := map_eq_ok.mp found
  obtain ⟨differs, plain⟩ := of_decide_eq_true both
  obtain ⟨-, accepted, same⟩ := kept_in_canonical_form parsed
  obtain ⟨stored, again⟩ := accepted plain
  obtain ⟨rewritten, kept, signature, integrity, report⟩ := same stored again
  refine ⟨m, stored, parsed, again, ?_, kept, signature, integrity, report⟩
  rw [rewritten]
  exact differs

/-- Inputs in which the key of numbers comes first once they are written. -/
theorem kept_in_canonical_form_unread :
    let bytes := Utf8.encode ("\x7b\"executionGraph\":\x7b\"nodes\":[\x7b\"id\":\"a\",\"inputs\":\x7b\"k\":" ++
      "\x7b\"zz\":1,\"$serde_json::private::Number\":\"1\"\x7d\x7d\x7d]\x7d\x7d")
    ∃ m, ofBytes bytes = .ok m ∧ ofBytes m.canonicalBytes = .error (.unreadable .malformed) := by
  intro bytes
  have found : (fun m : Manifest => decide (ofBytes m.canonicalBytes = .error (.unreadable .malformed))) <$>
      ofBytes bytes = .ok true := by decide +kernel
  obtain ⟨m, parsed, unread⟩ := map_eq_ok.mp found
  exact ⟨m, parsed, of_decide_eq_true unread⟩

end Attest.Manifest
