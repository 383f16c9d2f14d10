import Attest.Proofs.Manifest.SealedText
import Attest.Proofs.Manifest.SignedContent

namespace Attest

open Json Json.Record
open Entries (under mapValues)

/-- All keys of `always` are there, no other keys than these and those of `sometimes`, and no nulls. -/
structure Json.Record.Spelled (always sometimes : List String) (members : List (String × Json)) : Prop where
  complete : ∀ key ∈ always, key ∈ Entries.keys members
  known : ∀ member ∈ members, member.1 ∈ always ++ sometimes
  present : ∀ member ∈ members, member.2 ≠ .null

def Metadata.SpelledOut (j : Json) : Prop :=
  ∃ members, j = .object members ∧ Spelled ["id", "version", "name", "description"] [] members

def Edge.SpelledOut (j : Json) : Prop :=
  ∃ members, j = .object members ∧ Spelled ["from", "to"] [] members

def Node.SpelledOut (j : Json) : Prop :=
  ∃ members, j = .object members ∧ Spelled ["id", "type"] ["tool", "action", "inputs"] members

def Graph.SpelledOut (j : Json) : Prop :=
  ∃ members, j = .object members ∧ Spelled ["nodes", "edges"] [] members ∧
    (∀ items, ("nodes", .array items) ∈ members → ∀ item ∈ items, Node.SpelledOut item) ∧
    ∀ items, ("edges", .array items) ∈ members → ∀ item ∈ items, Edge.SpelledOut item

/-- Every part of a manifest is there under the name that is written, and nothing else. -/
def Manifest.SpelledOut (members : List (String × Json)) : Prop :=
  Spelled ["metadata", "declaredTools", "declaredPermissions", "executionGraph", "deterministic"]
      ["specVersion"] members ∧
    (∀ j, ("metadata", j) ∈ members → Metadata.SpelledOut j) ∧
    ∀ j, ("executionGraph", j) ∈ members → Graph.SpelledOut j

section

variable {depth : Nat} {j : Json}

theorem Metadata.eq_toJson {m : Metadata} (ordered : j.Ordered) (spelled : SpelledOut j)
    (read : decoder depth j.outline = .ok m) : j = m.toJson := by
  obtain ⟨members, rfl, complete, known, -⟩ := spelled
  obtain ⟨ascending, -⟩ := ordered
  obtain ⟨_, -, gathered⟩ := gathered_of_decode orderly read
  obtain ⟨id, version, name, description⟩ := gather_eq_ok_iff.mp gathered
  apply congrArg Json.object
  refine Entries.eq_ofList_of_under ascending ?_ known (by simp) ?_
  · show ["id", "version", "name", "description"].Nodup
    decide
  · simp only [List.append_nil, List.forall_mem_cons, List.not_mem_nil, false_imp_iff, implies_true,
      and_true]
    refine ⟨?_, ?_, ?_, ?_⟩
    · exact under_of_yields_string ascending (complete _ (by simp)) id
    · exact under_of_yields_string ascending (complete _ (by simp)) version
    · exact under_of_yields_string ascending (complete _ (by simp)) name
    · exact under_of_yields_string ascending (complete _ (by simp)) description

theorem Edge.eq_toJson {e : Edge} (ordered : j.Ordered) (spelled : SpelledOut j)
    (read : decoder depth j.outline = .ok e) : j = e.toJson := by
  obtain ⟨members, rfl, complete, known, -⟩ := spelled
  obtain ⟨ascending, -⟩ := ordered
  obtain ⟨_, -, gathered⟩ := gathered_of_decode orderly read
  obtain ⟨source, target⟩ := gather_eq_ok_iff.mp gathered
  apply congrArg Json.object
  refine Entries.eq_ofList_of_under ascending ?_ known (by simp) ?_
  · show ["from", "to"].Nodup
    decide
  · simp only [List.append_nil, List.forall_mem_cons, List.not_mem_nil, false_imp_iff, implies_true,
      and_true]
    refine ⟨?_, ?_⟩
    · exact under_of_yields_string ascending (complete _ (by simp)) source
    · exact under_of_yields_string ascending (complete _ (by simp)) target

theorem Node.eq_toJson {n : Node} (ordered : j.Ordered) (spelled : SpelledOut j)
    (read : decoder .content depth j.outline = .ok n) : j = n.toJson := by
  obtain ⟨members, rfl, complete, known, present⟩ := spelled
  obtain ⟨ascending, inside⟩ := ordered
  obtain ⟨_, -, gathered⟩ := gathered_of_decode orderly read
  obtain ⟨id, kind, tool, action, inputs⟩ := gather_eq_ok_iff.mp gathered
  obtain ⟨id', kind', tool', action', inputs'⟩ := n.under_pairs
  rw [toJson_eq]
  apply congrArg Json.object
  refine Entries.eq_ofList_of_under ascending (n.keys_pairs.nodup (by decide)) known ?_ ?_
  · exact fun pair there => n.keys_pairs.subset (List.mem_map_of_mem there)
  · simp only [List.cons_append, List.nil_append, List.forall_mem_cons, List.not_mem_nil, false_imp_iff,
      implies_true, and_true]
    rw [id', kind', tool', action', inputs']
    refine ⟨?_, ?_, ?_, ?_, ?_⟩
    · exact under_of_yields_string ascending (complete _ (by simp)) id
    · exact under_of_yields_string ascending (complete _ (by simp)) kind
    · exact under_of_yields_optionalString ascending present tool
    · exact under_of_yields_optionalString ascending present action
    · refine under_of_yields_optional ascending present inputs fun j entries there read => ?_
      have ordered : j.Ordered := orderedMembers_iff.mp inside _ there
      exact ((Decoder.entries_outline_eq_ok_iff ordered).mp read).1

theorem Graph.eq_toJson {g : Graph} (ordered : j.Ordered) (spelled : SpelledOut j)
    (read : decoder .content depth j.outline = .ok g) : j = g.toJson := by
  obtain ⟨members, rfl, ⟨complete, known, -⟩, spelledNodes, spelledEdges⟩ := spelled
  obtain ⟨ascending, inside⟩ := ordered
  obtain ⟨_, -, gathered⟩ := gathered_of_decode orderly read
  obtain ⟨nodes, edges⟩ := gather_eq_ok_iff.mp gathered
  apply congrArg Json.object
  refine Entries.eq_ofList_of_under ascending ?_ known (by simp) ?_
  · show ["nodes", "edges"].Nodup
    decide
  · simp only [List.append_nil, List.forall_mem_cons, List.not_mem_nil, false_imp_iff, implies_true,
      and_true]
    constructor
    · refine under_of_yields (w := fun nodes : List Node => .array (nodes.map Node.toJson)) ascending
        (complete _ (by simp)) nodes fun j there read => ?_
      refine Decoder.eq_array_of_list ?_ read
      rintro items rfl item listed _ _ read
      have ordered := orderedItems_iff.mp (orderedMembers_iff.mp inside _ there) item listed
      exact Node.eq_toJson ordered (spelledNodes items there item listed) read
    · refine under_of_yields (w := fun edges : List Edge => .array (edges.map Edge.toJson)) ascending
        (complete _ (by simp)) edges fun j there read => ?_
      refine Decoder.eq_array_of_list ?_ read
      rintro items rfl item listed _ _ read
      have ordered := orderedItems_iff.mp (orderedMembers_iff.mp inside _ there) item listed
      exact Edge.eq_toJson ordered (spelledEdges items there item listed) read

namespace Manifest

variable {members : List (String × Json)} {m : Manifest}

open Signature (signed)

theorem named_content {key : String} (there : key ∈ Entries.keys m.content) :
    key ∈ ["metadata", "declaredTools", "declaredPermissions", "executionGraph", "deterministic",
      "specVersion"] := by
  have reordered : ["metadata", "specVersion", "declaredTools", "declaredPermissions", "executionGraph",
    "deterministic"] ⊆ ["metadata", "declaredTools", "declaredPermissions", "executionGraph",
    "deterministic", "specVersion"] := by decide
  exact reordered (m.keys_content.subset there)

theorem under_signed_name (spelled : SpelledOut (signed members)) {name other : String}
    (unsigned : ∀ key ∈ Signature.keys, key ∉ [name, other])
    (absent : other ∉ ["metadata", "declaredTools", "declaredPermissions", "executionGraph",
      "deterministic", "specVersion"]) : under [name, other] members = under [name] (signed members) := by
  rw [← Signature.under_signed unsigned]
  apply Entries.under_congr
  intro member there
  have known := spelled.1.known member there
  constructor
  · intro spelled
    rcases List.mem_cons.mp spelled with same | later
    · exact List.mem_singleton.mpr same
    · exact absurd (List.mem_singleton.mp later ▸ known) absent
  · exact List.mem_cons.mpr ∘ .inl ∘ List.mem_singleton.mp

theorem signed_eq_content (ordered : (Json.object members).Ordered) (spelled : SpelledOut (signed members))
    (read : decoder .content depth (Json.object members).outline = .ok m) :
    signed members = Entries.ofList m.content := by
  obtain ⟨ascending, inside⟩ := ordered
  have ascending' := Signature.ascending_signed ascending
  have ordered : ∀ {name j}, (name, j) ∈ signed members → j.Ordered :=
    fun there => orderedMembers_iff.mp inside _ (Signature.mem_of_mem_signed there)
  obtain ⟨_, -, gathered⟩ := gathered_of_decode orderly read
  obtain ⟨metadata, specVersion, tools, permissions, graph, deterministic, -⟩ :=
    gather_eq_ok_iff.mp gathered
  rw [← Signature.under_signed (by decide)] at metadata deterministic
  rw [under_signed_name spelled (by decide) (by decide)] at specVersion tools permissions graph
  obtain ⟨metadata', specVersion', tools', permissions', graph', deterministic'⟩ := m.under_content
  obtain ⟨⟨complete, known, present⟩, spelledMetadata, spelledGraph⟩ := spelled
  refine Entries.eq_ofList_of_under ascending' (m.keys_content.nodup (by decide)) known ?_ ?_
  · exact fun pair there => named_content (List.mem_map_of_mem there)
  · simp only [List.cons_append, List.nil_append, List.forall_mem_cons, List.not_mem_nil, false_imp_iff,
      implies_true, and_true]
    rw [metadata', specVersion', tools', permissions', graph', deterministic']
    refine ⟨?_, ?_, ?_, ?_, ?_, ?_⟩
    · exact under_of_yields ascending' (complete _ (by simp)) metadata fun j there read =>
        Metadata.eq_toJson (ordered there) (spelledMetadata j there) read
    · exact under_of_yields ascending' (complete _ (by simp)) tools fun _ _ =>
        Decoder.eq_ofStrings_of_list
    · exact under_of_yields ascending' (complete _ (by simp)) permissions fun _ _ =>
        Decoder.eq_ofStrings_of_list
    · exact under_of_yields ascending' (complete _ (by simp)) graph fun j there read =>
        Graph.eq_toJson (ordered there) (spelledGraph j there) read
    · exact under_of_yields ascending' (complete _ (by simp)) deterministic fun _ _ =>
        Decoder.bool_outline_eq_ok_iff.mp
    · exact under_of_yields_optionalString ascending' present specVersion

end Manifest

end

section

variable {j : Json}

theorem Json.Record.spelled_of_ofJson {always sometimes : List String} {members pairs : List (String × Json)}
    (ascending : Entries.Ascending members) (distinct : (Entries.keys pairs).Nodup)
    (same : Canonical.ofJson (.object members) = Canonical.ofJson (.ofMembers pairs))
    (complete : ∀ key ∈ always, key ∈ Entries.keys pairs)
    (known : ∀ key ∈ Entries.keys pairs, key ∈ always ++ sometimes)
    (present : ∀ pair ∈ pairs, Canonical.ofJson pair.2 ≠ .null) : Spelled always sometimes members := by
  have keys := mem_keys_iff_of_ofJson ascending distinct same
  refine ⟨fun key there => (keys key).mpr (complete key there), ?_, ?_⟩
  · exact fun member there => known _ ((keys _).mp (List.mem_map_of_mem there))
  · rintro ⟨key, value⟩ there null
    obtain ⟨⟨_, k⟩, inside, rfl⟩ := List.mem_map.mp ((keys key).mp (List.mem_map_of_mem there))
    apply present _ inside
    have equal := ofJson_eq_of_mem ascending distinct same there inside
    rw [← equal, show value = .null from null]
    rfl

theorem Metadata.spelledOut_of_ofJson {m : Metadata} (ordered : j.Ordered)
    (same : Canonical.ofJson j = Canonical.ofJson m.toJson) : SpelledOut j := by
  obtain ⟨members, rfl⟩ := eq_object_of_ofJson (same.trans (ofJson_ofMembers _))
  refine ⟨members, rfl, spelled_of_ofJson ordered.1 ?_ same ?_ ?_ ?_⟩
  · show ["id", "version", "name", "description"].Nodup
    decide
  · exact fun _ there => there
  · exact fun _ there => there
  · simp [Canonical.ofJson]

theorem Edge.spelledOut_of_ofJson {e : Edge} (ordered : j.Ordered)
    (same : Canonical.ofJson j = Canonical.ofJson e.toJson) : SpelledOut j := by
  obtain ⟨members, rfl⟩ := eq_object_of_ofJson (same.trans (ofJson_ofMembers _))
  refine ⟨members, rfl, spelled_of_ofJson ordered.1 ?_ same ?_ ?_ ?_⟩
  · show ["from", "to"].Nodup
    decide
  · exact fun _ there => there
  · exact fun _ there => there
  · simp [Canonical.ofJson]

theorem Node.spelledOut_of_ofJson {n : Node} (ordered : j.Ordered)
    (same : Canonical.ofJson j = Canonical.ofJson n.toJson) : SpelledOut j := by
  rw [toJson_eq] at same
  obtain ⟨members, rfl⟩ := eq_object_of_ofJson (same.trans (ofJson_ofMembers _))
  refine ⟨members, rfl, spelled_of_ofJson ordered.1 (n.keys_pairs.nodup (by decide)) same ?_ ?_ ?_⟩
  · simp [pairs, Entries.keys]
  · exact fun key there => n.keys_pairs.subset there
  · intro pair there
    rcases mem_pairs there with ⟨_, text⟩ | ⟨_, -, value⟩
    · simp [text, Canonical.ofJson]
    · simp [value, Canonical.ofJson]

theorem Graph.spelledOut_of_ofJson {g : Graph} (ordered : j.Ordered)
    (same : Canonical.ofJson j = Canonical.ofJson g.toJson) : SpelledOut j := by
  obtain ⟨members, rfl⟩ := eq_object_of_ofJson (same.trans (ofJson_ofMembers _))
  obtain ⟨ascending, inside⟩ := ordered
  have distinct : (Entries.keys [("nodes", Json.array (g.nodes.map Node.toJson)),
      ("edges", .array (g.edges.map Edge.toJson))]).Nodup := by
    show ["nodes", "edges"].Nodup
    decide
  refine ⟨members, rfl, spelled_of_ofJson ascending distinct same ?_ ?_ ?_, ?_, ?_⟩
  · exact fun _ there => there
  · exact fun _ there => there
  · simp [Canonical.ofJson]
  · intro items there item listed
    have equal := ofJson_eq_of_mem ascending distinct same there List.mem_cons_self
    obtain ⟨_, among, again⟩ := exists_of_ofJson_array equal listed
    obtain ⟨n, -, rfl⟩ := List.mem_map.mp among
    have ordered := orderedItems_iff.mp (orderedMembers_iff.mp inside _ there) item listed
    exact Node.spelledOut_of_ofJson ordered again
  · intro items there item listed
    have equal := ofJson_eq_of_mem ascending distinct same there
      (List.mem_cons_of_mem _ List.mem_cons_self)
    obtain ⟨_, among, again⟩ := exists_of_ofJson_array equal listed
    obtain ⟨e, -, rfl⟩ := List.mem_map.mp among
    have ordered := orderedItems_iff.mp (orderedMembers_iff.mp inside _ there) item listed
    exact Edge.spelledOut_of_ofJson ordered again

theorem Manifest.spelledOut_of_ofJson {m : Manifest} {members : List (String × Json)}
    (ordered : (Json.object members).Ordered)
    (same : Canonical.ofJson (.object members) = Canonical.ofJson (.ofMembers m.content)) :
    SpelledOut members := by
  obtain ⟨ascending, inside⟩ := ordered
  have distinct := m.keys_content.nodup (by decide)
  obtain ⟨metadata, -, -, -, graph, -⟩ := m.under_content
  have hasMetadata : ("metadata", m.metadata.toJson) ∈ m.content :=
    (Entries.mem_under.mp (metadata ▸ List.mem_cons_self)).1
  have hasGraph : ("executionGraph", m.graph.toJson) ∈ m.content :=
    (Entries.mem_under.mp (graph ▸ List.mem_cons_self)).1
  refine ⟨spelled_of_ofJson ascending distinct same ?_ ?_ ?_, ?_, ?_⟩
  · simp [content, Entries.keys]
  · exact fun _ => named_content
  · intro pair there
    have listed : pair ∈ m.pairs := List.mem_append_left _ there
    rcases mem_pairs listed with value | ⟨_, value⟩ | ⟨_, value⟩ | value | ⟨_, value⟩ <;>
      simp [value, Canonical.ofJson, Metadata.toJson, Graph.toJson, ofMembers, ofStrings]
  · exact fun j there => Metadata.spelledOut_of_ofJson (orderedMembers_iff.mp inside _ there)
      (ofJson_eq_of_mem ascending distinct same there hasMetadata)
  · exact fun j there => Graph.spelledOut_of_ofJson (orderedMembers_iff.mp inside _ there)
      (ofJson_eq_of_mem ascending distinct same there hasGraph)

end

namespace Manifest

open Signature (signed)

section

variable {members : List (String × Json)} {m : Manifest} {bytes : Bytes}

theorem basis_agrees_iff {depth : Nat} (ordered : (Json.object members).Ordered)
    (read : decoder .content depth (Json.object members).outline = .ok m) :
    Canonical.ofJson (Signature.basis (.object members)) = Canonical.ofJson (Signature.basis m.toJson) ↔
      SpelledOut (signed members) := by
  rw [Signature.basis_object, basis_toJson]
  constructor
  · exact spelledOut_of_ofJson (Signature.ordered_signed ordered)
  · intro spelled
    rw [signed_eq_content ordered spelled read]
    rfl

theorem claimed?_of_decoder {depth : Nat}
    (read : decoder .content depth (Json.object members).outline = .ok m) :
    Signature.claimed? (.object members) = m.signature := by
  obtain ⟨_, once, gathered⟩ := gathered_of_decode orderly read
  obtain ⟨-, -, -, -, -, -, signature⟩ := gather_eq_ok_iff.mp gathered
  have single : (under Signature.keys members).length ≤ 1 := by
    simp only [fields, List.forall_mem_cons] at once
    obtain ⟨-, -, -, -, -, -, single, -⟩ := once
    exact single
  exact Signature.claimed?_of_yields single signature

/-- Of documents in which no object begins with the key of numbers: the two bases of one that is spelled out
agree, and so do its signature hashes and what becomes of its signature. For every other document the hashes
differ, and not both ways of checking a signature succeed, unless the two canonical texts collide. -/
theorem typed_signature_agrees_iff_spelled_out (plain : Plain bytes) (parsed : ofBytes bytes = .ok m)
    (found : Signature.read bytes = .ok (.object members)) :
    (SpelledOut (signed members) →
      Signature.computeBytes bytes = .ok m.signatureHash ∧
        Signature.verifyBytes bytes = m.verifySignature) ∧
    (¬ SpelledOut (signed members) →
      (Signature.computeBytes bytes ≠ .ok m.signatureHash ∧
        (Signature.verifyBytes bytes = .ok () → m.verifySignature ≠ .ok ())) ∨
      Collision [(Signature.basis (.object members)).canonicalBytes,
        (Signature.basis m.toJson).canonicalBytes]) := by
  obtain ⟨shallow, ordered⟩ := Signature.accepted_of_read found
  have read := decoder_of_read rewriting_id plain parsed (mapError_eq_ok.mp found) shallow ordered
  rw [rewrite_id] at read
  have agrees := basis_agrees_iff ordered read
  have claims := claimed?_of_decoder read
  have computed : Signature.computeBytes bytes = .ok (Signature.compute (.object members)) := by
    rw [Signature.computeBytes, found]
    rfl
  rw [computed, Signature.verifyBytes_of_read found, Signature.verify, claims, verifySignature]
  constructor
  · intro spelled
    have same : Signature.compute (.object members) = m.signatureHash :=
      congrArg Canonical.digest (agrees.mpr spelled)
    rw [same]
    exact ⟨rfl, rfl⟩
  · intro unspelled
    by_cases same : Signature.compute (.object members) = m.signatureHash
    · exact .inr ((Signature.content_of_compute same).resolve_left (unspelled ∘ agrees.mp))
    · refine .inl ⟨fun equal => same (Except.ok.inj equal), ?_⟩
      cases m.signature with
      | none =>
        intro holds
        cases holds
      | some claimed =>
        -- One claim cannot be the text of two hashes.
        exact fun holds also => same (Signature.eq_of_checks holds also rfl)

theorem spelledOut_toJson (fits : m.graph.Fits Node.inputDepth) : SpelledOut (signed (Entries.ofList m.pairs)) := by
  have written := m.basis_toJson
  rw [toJson_eq, Json.ofMembers, Signature.basis_object] at written
  have ordered := Signature.ordered_signed (ordered_toJson fits)
  exact spelledOut_of_ofJson ordered (congrArg Canonical.ofJson written)

theorem typed_signature_agrees_written :
    let m : Manifest := ⟨⟨"p", "1", "P", ""⟩, some "1.0", ["t"], [], ⟨[⟨"a", "step", some "t", none, none⟩], []⟩,
      true, some "00"⟩
    let bytes := Utf8.encode m.toJson.text
    Plain bytes ∧ ofBytes bytes = .ok m ∧ Signature.read bytes = .ok (.object (Entries.ofList m.pairs)) ∧
      SpelledOut (signed (Entries.ofList m.pairs)) ∧
      Signature.computeBytes bytes = .ok m.signatureHash ∧
      Signature.verifyBytes bytes = m.verifySignature := by
  intro m bytes
  have fits : m.graph.Fits Node.inputDepth := by simp [Graph.Fits, Node.Fits, m]
  have rendering : Rendering m.toJson bytes := by
    have text := rendering_text (distinct_outline _ (ordered_toJson fits))
    rwa [tidy_of_ordered (ordered_toJson fits)] at text
  have plain : Plain bytes := by decide +kernel
  obtain ⟨parsed, found⟩ := ofBytes_of_rendering fits rendering plain
  have spelled := spelledOut_toJson fits
  exact ⟨plain, parsed, found, spelled, (typed_signature_agrees_iff_spelled_out plain parsed found).1 spelled⟩

/-- A document with nothing but the signature that sealing gave it: it holds as it stands, and not as the
manifest that is read from it, whose hash is that of the parts filled in. -/
theorem typed_signature_differs_sealed :
    let hash := "44136fa355b3678a1146ad16f7e8649e94fb4fc21fe77e8310c060f61caaff8a"
    let bytes := Utf8.encode (Json.object [("signatureHash", .string hash)]).text
    let m : Manifest := { empty with signature := some hash }
    ofBytes bytes = .ok m ∧ Signature.computeBytes bytes ≠ .ok m.signatureHash ∧
      Signature.verifyBytes bytes = .ok () ∧ m.verifySignature ≠ .ok () := by
  intro hash bytes m
  let document : Json := .object [("signatureHash", .string hash)]
  have ordered : document.Ordered :=
    ⟨show List.Pairwise (· < ·) ["signatureHash"] by decide, trivial, trivial⟩
  have found : Signature.read bytes = .ok document :=
    mapError_eq_ok.mpr (read_text document (by decide) ordered (by decide))
  have parsed : ofBytes bytes = .ok m := by decide +kernel
  have raw : (Signature.compute document).hex = hash := by decide +kernel
  have typed : m.signatureHash.hex ≠ hash := by decide +kernel
  have differ : Signature.compute document ≠ m.signatureHash :=
    fun same => typed (congrArg Digest.hex same.symm |>.trans raw)
  have holds : Signature.check hash (Signature.compute document) = .ok () := by
    have own := Signature.check_hex (Signature.compute document)
    rwa [raw] at own
  refine ⟨parsed, ?_, ?_, ?_⟩
  · rw [Signature.computeBytes, found]
    exact fun equal => differ (Except.ok.inj equal)
  · rw [Signature.verifyBytes_of_read found]
    exact holds
  · exact fun also => differ (Signature.eq_of_checks holds also rfl)

end

end Manifest
end Attest
