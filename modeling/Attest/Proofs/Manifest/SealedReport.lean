import Attest.Proofs.Manifest.Report
import Attest.Proofs.Manifest.Sealing
import Attest.Proofs.Manifest.Written

namespace Attest

open Json (settled)
open Json.Record (Field decode_outline_eq_ok_iff)
open Entries (under)

namespace Graph

variable (f : Json → Json) (g : Graph)

theorem ids_rewrite : (g.rewrite f).ids = g.ids := by
  simp only [ids, rewrite, List.map_map]
  rfl

theorem visit_rewrite (depth : Nat) (above : List String) (id : String) (visited : List String) :
    (g.rewrite f).visit depth above id visited = g.visit depth above id visited := by
  induction depth generalizing above id visited with
  | zero => rfl
  | succ depth ih =>
    have below : (g.rewrite f).visit depth (id :: above) = g.visit depth (id :: above) :=
      funext fun child => funext (ih (id :: above) child)
    rw [visit, visit, below]
    rfl

theorem hasCycle_rewrite (depth : Nat) : (g.rewrite f).hasCycle depth = g.hasCycle depth := by
  have below : (g.rewrite f).visit depth [] = g.visit depth [] :=
    funext fun id => funext (visit_rewrite f g depth [] id)
  rw [hasCycle, visitAll, ids_rewrite, below, hasCycle, visitAll]

end Graph

theorem Node.ofJson_rewrite_settled (n : Node) :
    Canonical.ofJson (n.rewrite settled).toJson = Canonical.ofJson n.toJson := by
  obtain ⟨id, kind, tool, action, inputs⟩ := n
  cases inputs with
  | none => rfl
  | some inputs =>
    have same := Json.ofJson_mapValues_settled inputs.entries
    simp only [rewrite, toJson, Option.map_some, Json.ofJson_ofMembers, Json.member?,
      Option.toList_some, Entries.mapValues, List.map_append, List.map_cons, List.map_nil]
    simp only [Entries.mapValues] at same
    rw [same]

theorem Graph.ofJson_rewrite_settled (g : Graph) :
    Canonical.ofJson (g.rewrite settled).toJson = Canonical.ofJson g.toJson := by
  have nodes : Canonical.ofJson (.array ((g.rewrite settled).nodes.map Node.toJson)) =
      Canonical.ofJson (.array (g.nodes.map Node.toJson)) := by
    simp only [rewrite, Canonical.ofJson, Json.ofItems_eq_map, List.map_map, Function.comp_def,
      Node.ofJson_rewrite_settled]
  simp only [toJson, Json.ofJson_ofMembers, Entries.mapValues, List.map_cons, List.map_nil, nodes]
  rfl

theorem Graph.canonicalBytes_rewrite_settled (g : Graph) :
    (g.rewrite settled).canonicalBytes = g.canonicalBytes :=
  Json.canonicalBytes_congr g.ofJson_rewrite_settled

theorem Manifest.integrity_rewrite_settled (m : Manifest) (signature : Option String) :
    ({ m.rewrite settled with signature } : Manifest).integrity = m.integrity := by
  rw [integrity, integrity]
  exact congrArg (Integrity.withGraph m) m.graph.canonicalBytes_rewrite_settled

namespace Signature

def signedAs (hash : String) (members : List (String × Json)) : List (String × Json) :=
  Entries.insert key (.string hash) (signed members)

section

variable {members : List (String × Json)} (hash : String) (ascending : Entries.Ascending members)

include ascending

theorem under_signedAs : under keys (signedAs hash members) = [(key, .string hash)] := by
  have spelled : key ∈ keys := List.mem_cons_self
  rw [signedAs, Entries.under_insert_of_mem _ (ascending_signed ascending) spelled, under_keys_signed]
  rfl

theorem under_signedAs_of_content {spellings : List String} (others : ∀ key ∈ keys, key ∉ spellings) :
    under spellings (signedAs hash members) = under spellings members := by
  have other := others key List.mem_cons_self
  rw [signedAs, Entries.under_insert_of_not_mem _ (ascending_signed ascending) other, under_signed others]

end

end Signature

namespace Manifest

open Signature (signedAs)

theorem rewrite_settled_collapsed {m : Manifest}
    (beside : ∀ n ∈ m.graph.nodes, n.Holds fun entries => ∀ entry ∈ entries, entry.2.isAccompanied = true) :
    (m.rewrite settled).rewrite Json.collapsed = m.rewrite settled := by
  apply rewrite_collapsed
  intro _ rewritten _ settledInputs _ inside
  obtain ⟨n, listed, rfl⟩ := List.mem_map.mp rewritten
  obtain ⟨inputs, given, rfl⟩ := Option.map_eq_some_iff.mp settledInputs
  obtain ⟨entry, there, rfl⟩ := List.mem_map.mp inside
  exact Json.isAccompanied_settled (beside n listed inputs given entry there)

theorem decoder_signedAs {depth : Nat} {entries : List (String × Json)} {m : Manifest}
    (ordered : (Json.object entries).Ordered)
    (read : decoder .content (depth + 1) (Json.object entries).outline = .ok m) (hash : String) :
    decoder .content (depth + 1) (Json.object (signedAs hash entries)).outline =
      .ok { m with signature := some hash } := by
  have ⟨ascending, _⟩ := ordered
  have content : ∀ spellings, (∀ key ∈ Signature.keys, key ∉ spellings) →
      under spellings (signedAs hash entries) = under spellings entries :=
    fun spellings others => Signature.under_signedAs_of_content hash ascending others
  have signature := Signature.under_signedAs hash ascending
  obtain ⟨once, gathered, -⟩ := (decode_outline_eq_ok_iff orderly).mp read
  apply (decode_outline_eq_ok_iff orderly).mpr
  refine ⟨?_, ?_, by simp [fields, Field.optional]⟩
  · -- The keys of a signature are the spellings of one field and of no other.
    have apart : ∀ fld ∈ fields .content, fld.spellings = Signature.keys ∨
        ∀ key ∈ Signature.keys, key ∉ fld.spellings := by decide
    intro fld known
    rw [fld.own_eq_under]
    rcases apart fld known with same | others
    · rw [same, signature]
      exact Nat.le_refl 1
    · rw [content _ others]
      exact once fld known
  · rw [gather_eq_ok_iff] at gathered ⊢
    obtain ⟨metadata, specVersion, tools, permissions, graph, deterministic, -⟩ := gathered
    refine ⟨?_, ?_, ?_, ?_, ?_, ?_, ?_⟩
    · rwa [content _ (by decide)]
    · rwa [content _ (by decide)]
    · rwa [content _ (by decide)]
    · rwa [content _ (by decide)]
    · rwa [content _ (by decide)]
    · rwa [content _ (by decide)]
    · rw [← Signature.key, ← Signature.keys, signature]
      rfl

end Manifest

namespace Signature

variable {bytes text : Bytes} {m : Manifest}

theorem exists_of_sealedBytes (sealed : sealedBytes bytes = .ok text) : ∃ members,
    read bytes = .ok (.object members) ∧ text = sealedText members := by
  obtain ⟨document, found, done⟩ := bind_eq_ok.mp sealed
  cases document with
  | object members => exact ⟨members, found, (Except.ok.inj done).symm⟩
  | _ => cases done

/-- What stands in the sealed bytes is the manifest with a hash, its inputs written canonically. -/
theorem content_of_sealedBytes (plain : Json.Plain bytes) (parsed : Manifest.ofBytes bytes = .ok m)
    (sealed : sealedBytes bytes = .ok text) : ∃ hash o, Json.Outline.ofBytes text = (o, true) ∧
      Manifest.decoder .content Json.maxDepth o = .ok { m.rewrite settled with signature := some hash } := by
  obtain ⟨members, found, rfl⟩ := exists_of_sealedBytes sealed
  obtain ⟨shallow, ascending, -⟩ := accepted_of_read found
  have ordered : (Json.object members).settled.Ordered :=
    Canonical.ordered_toJson _ (Canonical.normal_ofJson _)
  have moved := Manifest.decoder_of_read Json.rewriting_settled plain parsed (mapError_eq_ok.mp found)
    ((Canonical.nesting_ofJson_le _).trans shallow) ordered
  rw [Json.settled_object ascending] at ordered moved
  -- Settling commutes with signing, so the sealed text holds the settled members and the hash.
  have same : (Json.object (sealedMembers members)).settled =
      .object (signedAs (compute (.object members)).hex (Entries.mapValues settled members)) := by
    rw [settled_sealed ascending, sealedMembers, ← Entries.insert_mapValues, ← signed_mapValues]
    rfl
  refine ⟨(compute (.object members)).hex, _, Json.ofBytes_canonicalBytes _, ?_⟩
  rw [same]
  exact Manifest.decoder_signedAs ordered moved _

theorem ofBytes_sealedBytes (plain : Json.Plain bytes) (parsed : Manifest.ofBytes bytes = .ok m)
    (sealed : sealedBytes bytes = .ok text) : ∃ hash,
      (∀ n, Manifest.ofBytes text = .ok n → n = { m.rewrite settled with signature := some hash }) ∧
      (Json.Plain text → Manifest.ofBytes text = .ok { m.rewrite settled with signature := some hash }) := by
  obtain ⟨hash, o, outlined, inside⟩ := content_of_sealedBytes plain parsed sealed
  refine ⟨hash, fun n again => ?_, fun plain => ?_⟩
  · obtain ⟨_, outlined', decoded⟩ := Json.read_eq_ok_iff.mp (mapError_eq_ok.mp again)
    obtain ⟨rfl, -⟩ := Prod.mk.inj (outlined.symm.trans outlined')
    obtain ⟨_, found, rfl⟩ := Manifest.exists_content_of_decoder decoded
    rw [Except.ok.inj (found.symm.trans inside)]
    have same := Manifest.rewrite_settled_collapsed (Manifest.accompanied_of_ofBytes parsed)
    exact congrArg (fun n : Manifest => { n with signature := some hash }) same
  · have plain : o.isPlain = true := by rwa [Json.Plain, outlined] at plain
    rw [← Manifest.decoder_eq_ok_iff plain] at inside
    exact mapError_eq_ok.mpr (Json.read_eq_ok_iff.mpr ⟨o, outlined, inside⟩)

end Signature

namespace Lint

theorem graphErrors_rewrite (rules : LintRules) (f : Json → Json) (g : Graph) :
    graphErrors rules (g.rewrite f) = graphErrors rules g := by
  rw [graphErrors, g.ids_rewrite, g.hasCycle_rewrite, graphErrors]
  rfl

theorem sizeWarnings_rewrite (rules : LintRules) (f : Json → Json) (g : Graph) :
    sizeWarnings rules (g.rewrite f) = sizeWarnings rules g := by
  rw [sizeWarnings, Graph.rewrite, List.length_map, sizeWarnings]

theorem manifest_rewrite_settled (rules : LintRules) (m : Manifest) (signature : Option String) :
    manifest rules { m.rewrite settled with signature } = manifest rules m := by
  have bytes := m.graph.canonicalBytes_rewrite_settled
  have errors : errors rules { m.rewrite settled with signature } = errors rules m := by
    rw [Lint.errors, Lint.errors]
    exact congrArg _ (graphErrors_rewrite rules settled m.graph)
  have warnings : warnings rules { m.rewrite settled with signature } = warnings rules m := by
    rw [Lint.warnings, Lint.warnings]
    exact congrArg _ (sizeWarnings_rewrite rules settled m.graph)
  have integrity := m.integrity_rewrite_settled signature
  simp only [manifest_eq, errors, warnings, integrity, Manifest.address]
  simp only [Manifest.rewrite, bytes]

/-- Sealing a pack does not change the report on it, if what is sealed is read at all; it is, if no object
in it begins with the key of numbers. -/
theorem report_of_sealed_bytes (rules : LintRules) {bytes text : Bytes} {m : Manifest}
    (plain : Json.Plain bytes) (parsed : Manifest.ofBytes bytes = .ok m)
    (sealed : Signature.sealedBytes bytes = .ok text) :
    (∀ n, Manifest.ofBytes text = .ok n → Lint.bytes rules text = Lint.bytes rules bytes) ∧
    (Json.Plain text → ∃ n, Manifest.ofBytes text = .ok n) := by
  obtain ⟨hash, only, accepted⟩ := Signature.ofBytes_sealedBytes plain parsed sealed
  refine ⟨fun n again => ?_, fun plain => ⟨_, accepted plain⟩⟩
  obtain rfl := only n again
  rw [bytes_of_ofBytes again, bytes_of_ofBytes parsed]
  exact manifest_rewrite_settled rules m (some hash)

/-- Other spellings of keys, an unknown key that comes twice, and numbers that are written as text or
as null once they are sealed. -/
theorem report_of_sealed_bytes_respelled :
    let bytes := Utf8.encode ("\x7b \"x\": 1, \"declared_tools\": [\"t\"], \"x\": 2, \"signature_hash\": null, " ++
      "\"execution_graph\": \x7b\"nodes\": [\x7b\"inputs\": \x7b\"n\": 1e400, \"k\": 98765432109876543210\x7d, " ++
      "\"id\": \"a\"\x7d]\x7d\x7d")
    ∃ m text, Json.Plain bytes ∧ Manifest.ofBytes bytes = .ok m ∧ Signature.sealedBytes bytes = .ok text ∧
      Lint.bytes .default text = Lint.bytes .default bytes := by
  intro bytes
  have plain : Json.Plain bytes := by decide +kernel
  obtain ⟨m, parsed⟩ := exists_of_isOk (show (Manifest.ofBytes bytes).isOk = true by decide +kernel)
  obtain ⟨text, sealed⟩ :=
    exists_of_isOk (show (Signature.sealedBytes bytes).isOk = true by decide +kernel)
  have found : (Json.lacks Json.Decoder.numberKey) <$> Signature.read bytes = .ok true := by decide +kernel
  obtain ⟨_, raw, lacks⟩ := map_eq_ok.mp found
  obtain ⟨members, raw', rfl⟩ := Signature.exists_of_sealedBytes sealed
  obtain rfl := Except.ok.inj (raw.symm.trans raw')
  obtain ⟨same, accepted⟩ := report_of_sealed_bytes .default plain parsed sealed
  obtain ⟨n, again⟩ := accepted (Signature.plain_sealedText lacks)
  exact ⟨m, _, plain, parsed, sealed, same n again⟩

/-- Inputs that spell a number, which is what is sealed in their place. -/
theorem report_of_sealed_bytes_number :
    let bytes := Utf8.encode ("\x7b\"executionGraph\":\x7b\"nodes\":[\x7b\"id\":\"a\"," ++
      "\"inputs\":\x7b\"$serde_json::private::Number\":\"1\"\x7d\x7d]\x7d\x7d")
    ∃ m text, Manifest.ofBytes bytes = .ok m ∧ Signature.sealedBytes bytes = .ok text ∧
      Lint.bytes .default text ≠ Lint.bytes .default bytes := by
  intro bytes
  let node : Json := .object [("id", .string "a"), ("inputs", .ofInt 1)]
  let members : List (String × Json) := [("executionGraph", .object [("nodes", .array [node])])]
  obtain ⟨m, parsed⟩ := exists_of_isOk (show (Manifest.ofBytes bytes).isOk = true by decide +kernel)
  have found : Signature.read bytes = .ok (.object members) := by decide +kernel
  have sealed : Signature.sealedBytes bytes = .ok (Signature.sealedText members) := by
    rw [Signature.sealedBytes, found]
    rfl
  have fault : Json.read (Manifest.decoder .value) (Signature.sealedText members) = .error .malformed := by
    rw [Json.read, Signature.sealedText, Json.ofBytes_canonicalBytes]
    decide +kernel
  exact ⟨m, _, parsed, sealed, bytes_ne_of_refused parsed fault .default⟩

end Lint
end Attest
