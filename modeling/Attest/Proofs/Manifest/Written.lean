import Attest.Proofs.Json.Written
import Attest.Proofs.Manifest.Reading

namespace Attest

open Json Json.Record
open Entries (under)

section

variable {any : Decoder Json} {depth : Nat} {members : List (String × Json)}

theorem Metadata.gather_eq_ok_iff {m : Metadata} :
    gather fields depth (outlineOfMembers members) empty = .ok m ↔
      Yields Decoder.string depth (under ["id"] members) "" m.id ∧
      Yields Decoder.string depth (under ["version"] members) "" m.version ∧
      Yields Decoder.string depth (under ["name"] members) "" m.name ∧
      Yields Decoder.string depth (under ["description"] members) "" m.description := by
  constructor
  · intro read
    obtain ⟨_, id, read⟩ := (gather_field Metadata.id).mp read
    obtain ⟨_, version, read⟩ := (gather_field Metadata.version).mp read
    obtain ⟨_, name, read⟩ := (gather_field Metadata.name).mp read
    obtain ⟨_, description, read⟩ := (gather_field Metadata.description).mp read
    cases read
    exact ⟨id, version, name, description⟩
  · rintro ⟨id, version, name, description⟩
    refine (gather_field Metadata.id).mpr ⟨_, id, ?_⟩
    refine (gather_field Metadata.version).mpr ⟨_, version, ?_⟩
    refine (gather_field Metadata.name).mpr ⟨_, name, ?_⟩
    exact (gather_field Metadata.description).mpr ⟨_, description, rfl⟩

theorem Edge.gather_eq_ok_iff {e : Edge} :
    gather fields depth (outlineOfMembers members) ⟨"", ""⟩ = .ok e ↔
      Yields Decoder.string depth (under ["from"] members) "" e.source ∧
      Yields Decoder.string depth (under ["to"] members) "" e.target := by
  constructor
  · intro read
    obtain ⟨_, source, read⟩ := (gather_field Edge.source).mp read
    obtain ⟨_, target, read⟩ := (gather_field Edge.target).mp read
    cases read
    exact ⟨source, target⟩
  · rintro ⟨source, target⟩
    refine (gather_field Edge.source).mpr ⟨_, source, ?_⟩
    exact (gather_field Edge.target).mpr ⟨_, target, rfl⟩

def Node.entries? (n : Node) : Option (List (String × Json)) := n.inputs.map KeyMap.entries

theorem Node.gather_eq_ok_iff {n : Node} :
    gather (fields any) depth (outlineOfMembers members) (plain "" "") = .ok n ↔
      Yields Decoder.string depth (under ["id"] members) "" n.id ∧
      Yields Decoder.string depth (under ["type"] members) "" n.kind ∧
      Yields (.optional .string) depth (under ["tool"] members) none n.tool ∧
      Yields (.optional .string) depth (under ["action"] members) none n.action ∧
      Yields (.optional (.entries any)) depth (under ["inputs"] members) none n.entries? := by
  have restore : ∀ n : Node, { n with inputs := n.entries?.map KeyMap.mk } = n := by
    rintro ⟨id, kind, tool, action, _ | inputs⟩ <;> rfl
  constructor
  · intro read
    obtain ⟨_, id, read⟩ := (gather_field Node.id).mp read
    obtain ⟨_, kind, read⟩ := (gather_field Node.kind).mp read
    obtain ⟨_, tool, read⟩ := (gather_field Node.tool).mp read
    obtain ⟨_, action, read⟩ := (gather_field Node.action).mp read
    obtain ⟨entries, inputs, read⟩ := (gather_field Node.entries? restore).mp read
    cases read
    refine ⟨id, kind, tool, action, ?_⟩
    cases entries <;> exact inputs
  · rintro ⟨id, kind, tool, action, inputs⟩
    refine (gather_field Node.id).mpr ⟨_, id, ?_⟩
    refine (gather_field Node.kind).mpr ⟨_, kind, ?_⟩
    refine (gather_field Node.tool).mpr ⟨_, tool, ?_⟩
    refine (gather_field Node.action).mpr ⟨_, action, ?_⟩
    exact (gather_field Node.entries? restore).mpr ⟨_, inputs, congrArg Except.ok (restore n)⟩

theorem Graph.gather_eq_ok_iff {g : Graph} :
    gather (fields any) depth (outlineOfMembers members) empty = .ok g ↔
      Yields (.list (Node.decoder any)) depth (under ["nodes"] members) [] g.nodes ∧
      Yields (.list Edge.decoder) depth (under ["edges"] members) [] g.edges := by
  constructor
  · intro read
    obtain ⟨_, nodes, read⟩ := (gather_field Graph.nodes).mp read
    obtain ⟨_, edges, read⟩ := (gather_field Graph.edges).mp read
    cases read
    exact ⟨nodes, edges⟩
  · rintro ⟨nodes, edges⟩
    refine (gather_field Graph.nodes).mpr ⟨_, nodes, ?_⟩
    exact (gather_field Graph.edges).mpr ⟨_, edges, rfl⟩

theorem Manifest.gather_eq_ok_iff {m : Manifest} :
    gather (fields any) depth (outlineOfMembers members) empty = .ok m ↔
      Yields Metadata.decoder depth (under ["metadata"] members) .empty m.metadata ∧
      Yields (.optional .string) depth (under ["specVersion", "spec_version"] members) none m.specVersion ∧
      Yields (.list .string) depth (under ["declaredTools", "declared_tools"] members) [] m.tools ∧
      Yields (.list .string) depth (under ["declaredPermissions", "declared_permissions"] members) []
        m.permissions ∧
      Yields (Graph.decoder any) depth (under ["executionGraph", "execution_graph"] members) .empty m.graph ∧
      Yields Decoder.bool depth (under ["deterministic"] members) false m.deterministic ∧
      Yields (.optional .string) depth (under ["signatureHash", "signature_hash"] members) none
        m.signature := by
  constructor
  · intro read
    obtain ⟨_, metadata, read⟩ := (gather_field Manifest.metadata).mp read
    obtain ⟨_, specVersion, read⟩ := (gather_field Manifest.specVersion).mp read
    obtain ⟨_, tools, read⟩ := (gather_field Manifest.tools).mp read
    obtain ⟨_, permissions, read⟩ := (gather_field Manifest.permissions).mp read
    obtain ⟨_, graph, read⟩ := (gather_field Manifest.graph).mp read
    obtain ⟨_, deterministic, read⟩ := (gather_field Manifest.deterministic).mp read
    obtain ⟨_, signature, read⟩ := (gather_field Manifest.signature).mp read
    cases read
    exact ⟨metadata, specVersion, tools, permissions, graph, deterministic, signature⟩
  · rintro ⟨metadata, specVersion, tools, permissions, graph, deterministic, signature⟩
    refine (gather_field Manifest.metadata).mpr ⟨_, metadata, ?_⟩
    refine (gather_field Manifest.specVersion).mpr ⟨_, specVersion, ?_⟩
    refine (gather_field Manifest.tools).mpr ⟨_, tools, ?_⟩
    refine (gather_field Manifest.permissions).mpr ⟨_, permissions, ?_⟩
    refine (gather_field Manifest.graph).mpr ⟨_, graph, ?_⟩
    refine (gather_field Manifest.deterministic).mpr ⟨_, deterministic, ?_⟩
    exact (gather_field Manifest.signature).mpr ⟨_, signature, rfl⟩

end

/-- A node stands in the manifest, the graph and the list of nodes; its inputs have what is left of the
containers that a text may nest. -/
def Node.inputDepth : Nat := maxDepth - 4

/-- The inputs are in order and have no more than `depth` containers inside one another. -/
def Node.Fits (depth : Nat) (n : Node) : Prop :=
  ∀ inputs, n.inputs = some inputs →
    (Json.object inputs.entries).Ordered ∧ (Json.object inputs.entries).nesting ≤ depth

def Graph.Fits (depth : Nat) (g : Graph) : Prop := ∀ n ∈ g.nodes, n.Fits depth

def Node.pairs (n : Node) : List (String × Json) :=
  [("id", .string n.id), ("type", .string n.kind)] ++ member? "tool" (n.tool.map .string) ++
    member? "action" (n.action.map .string) ++ member? "inputs" (n.entries?.map .object)

section

variable {depth : Nat}

theorem Metadata.ordered_toJson (m : Metadata) : m.toJson.Ordered :=
  ordered_ofMembers (by simp [Json.Ordered])

theorem Metadata.nesting_toJson_le (m : Metadata) : m.toJson.nesting ≤ 1 :=
  nesting_ofMembers_le (by simp [Json.nesting])

theorem Metadata.decoder_toJson (m : Metadata) : decoder (depth + 1) m.toJson.outline = .ok m := by
  refine decode_ofMembers orderly (by simp [fields, Field.optional]) m.ordered_toJson ?_
    (by simp [fields, Field.optional])
  apply gather_eq_ok_iff.mpr
  simp only [Entries.under_ofList]
  and_intros <;> exact Decoder.string_outline_eq_ok_iff.mpr rfl

theorem Edge.ordered_toJson (e : Edge) : e.toJson.Ordered :=
  ordered_ofMembers (by simp [Json.Ordered])

theorem Edge.nesting_toJson_le (e : Edge) : e.toJson.nesting ≤ 1 :=
  nesting_ofMembers_le (by simp [Json.nesting])

theorem Edge.decoder_toJson (e : Edge) : decoder (depth + 1) e.toJson.outline = .ok e := by
  refine decode_ofMembers orderly (by simp [fields, Field.mandatory]) e.ordered_toJson ?_ ?_
  · apply gather_eq_ok_iff.mpr
    simp only [Entries.under_ofList]
    and_intros <;> exact Decoder.string_outline_eq_ok_iff.mpr rfl
  · simp only [Entries.under_ofList, fields, List.forall_mem_cons]
    refine ⟨fun _ => ?_, fun _ => ?_, by simp⟩
    · exact List.cons_ne_nil _ _
    · exact List.cons_ne_nil _ _

theorem Node.toJson_eq (n : Node) : n.toJson = .ofMembers n.pairs := by
  obtain ⟨id, kind, tool, action, _ | inputs⟩ := n <;> rfl

theorem Node.keys_pairs (n : Node) :
    (Entries.keys n.pairs).Sublist ["id", "type", "tool", "action", "inputs"] := by
  have plain : ["id", "type"].Sublist ["id", "type"] := .refl _
  simp only [pairs, Entries.keys, List.map_append]
  exact ((plain.append (keys_member?_sublist _ _)).append (keys_member?_sublist _ _)).append
    (keys_member?_sublist _ _)

theorem Node.under_pairs (n : Node) :
    under ["id"] n.pairs = [("id", .string n.id)] ∧ under ["type"] n.pairs = [("type", .string n.kind)] ∧
      under ["tool"] n.pairs = member? "tool" (n.tool.map .string) ∧
      under ["action"] n.pairs = member? "action" (n.action.map .string) ∧
      under ["inputs"] n.pairs = member? "inputs" (n.entries?.map .object) := by
  and_intros <;> simp [pairs, Entries.under_append, Entries.under_cons, under_member?]

theorem Node.mem_pairs {n : Node} {pair : String × Json} (there : pair ∈ n.pairs) :
    (∃ s, pair.2 = .string s) ∨ ∃ inputs, n.inputs = some inputs ∧ pair.2 = .object inputs.entries := by
  simp only [pairs, List.mem_append, List.mem_cons, List.not_mem_nil, or_false, mem_member?,
    Option.map_eq_some_iff, entries?] at there
  rcases there with (((rfl | rfl) | ⟨_, ⟨_, -, rfl⟩, rfl⟩) | ⟨_, ⟨_, -, rfl⟩, rfl⟩) |
    ⟨_, ⟨_, ⟨inputs, given, rfl⟩, rfl⟩, rfl⟩
  · exact .inl ⟨_, rfl⟩
  · exact .inl ⟨_, rfl⟩
  · exact .inl ⟨_, rfl⟩
  · exact .inl ⟨_, rfl⟩
  · exact .inr ⟨inputs, given, rfl⟩

theorem Node.ordered_toJson {n : Node} (fits : n.Fits depth) : n.toJson.Ordered := by
  rw [toJson_eq]
  apply ordered_ofMembers
  intro pair there
  rcases mem_pairs there with ⟨_, text⟩ | ⟨inputs, given, value⟩
  · rw [text]
    trivial
  · rw [value]
    exact (fits inputs given).1

theorem Node.nesting_toJson_le {n : Node} (fits : n.Fits depth) : n.toJson.nesting ≤ depth + 1 := by
  rw [toJson_eq]
  apply nesting_ofMembers_le
  intro pair there
  rcases mem_pairs there with ⟨_, text⟩ | ⟨inputs, given, value⟩
  · rw [text]
    exact Nat.zero_le depth
  · rw [value]
    exact (fits inputs given).2

theorem Node.decoder_toJson {n : Node} (fits : n.Fits depth) :
    decoder .content (depth + 1) n.toJson.outline = .ok n := by
  have ordered := ordered_toJson fits
  obtain ⟨id, kind, tool, action, inputs⟩ := n.under_pairs
  rw [toJson_eq] at ordered ⊢
  refine decode_ofMembers orderly ?_ ordered ?_ ?_
  · exact fun pair there => n.keys_pairs.subset (List.mem_map_of_mem there)
  · apply gather_eq_ok_iff.mpr
    simp only [Entries.under_ofList, id, kind, tool, action, inputs, ofList_member?]
    refine ⟨?_, ?_, ?_, ?_, ?_⟩
    · exact Decoder.string_outline_eq_ok_iff.mpr rfl
    · exact Decoder.string_outline_eq_ok_iff.mpr rfl
    · exact yields_optionalString _
    · exact yields_optionalString _
    · refine yields_optional (by simp) fun entries there => ?_
      obtain ⟨inputs, given, rfl⟩ := Option.map_eq_some_iff.mp there
      obtain ⟨inside, shallow⟩ := fits inputs given
      exact (Decoder.entries_outline_eq_ok_iff inside).mpr ⟨rfl, shallow⟩
  · have named : Entries.ofList (under ["id"] n.pairs) ≠ [] := by
      rw [id]
      exact List.cons_ne_nil _ _
    simpa [fields, Field.mandatory, Field.optional, Entries.under_ofList] using named

theorem Graph.ordered_toJson {g : Graph} (fits : g.Fits depth) : g.toJson.Ordered := by
  apply ordered_ofMembers
  simp only [List.forall_mem_cons, List.not_mem_nil, false_imp_iff, implies_true, and_true]
  constructor
  · apply orderedItems_iff.mpr
    intro item there
    obtain ⟨n, listed, rfl⟩ := List.mem_map.mp there
    exact Node.ordered_toJson (fits n listed)
  · apply orderedItems_iff.mpr
    intro item there
    obtain ⟨e, -, rfl⟩ := List.mem_map.mp there
    exact e.ordered_toJson

theorem Graph.nesting_toJson_le {g : Graph} (fits : g.Fits depth) : g.toJson.nesting ≤ depth + 3 := by
  apply nesting_ofMembers_le
  simp only [List.forall_mem_cons, List.not_mem_nil, false_imp_iff, implies_true, and_true]
  constructor
  · apply nesting_array_le
    intro item there
    obtain ⟨n, listed, rfl⟩ := List.mem_map.mp there
    exact Node.nesting_toJson_le (fits n listed)
  · apply nesting_array_le
    intro item there
    obtain ⟨e, -, rfl⟩ := List.mem_map.mp there
    exact e.nesting_toJson_le.trans (Nat.succ_le_succ (Nat.zero_le depth))

theorem Graph.decoder_toJson {g : Graph} (fits : g.Fits depth) :
    decoder .content (depth + 3) g.toJson.outline = .ok g := by
  refine decode_ofMembers orderly (by simp [fields, Field.optional]) (ordered_toJson fits) ?_
    (by simp [fields, Field.optional])
  apply gather_eq_ok_iff.mpr
  simp only [Entries.under_ofList]
  constructor
  · exact Decoder.list_outline_map fun n listed => Node.decoder_toJson (fits n listed)
  · exact Decoder.list_outline_map fun e _ => e.decoder_toJson

namespace Manifest

def content (m : Manifest) : List (String × Json) :=
  [("metadata", m.metadata.toJson)] ++ member? "specVersion" (m.specVersion.map .string) ++
    [("declaredTools", .ofStrings m.tools), ("declaredPermissions", .ofStrings m.permissions),
      ("executionGraph", m.graph.toJson), ("deterministic", .bool m.deterministic)]

def pairs (m : Manifest) : List (String × Json) :=
  m.content ++ member? "signatureHash" (m.signature.map .string)

theorem toJson_eq (m : Manifest) : m.toJson = .ofMembers m.pairs := rfl

theorem keys_content (m : Manifest) : (Entries.keys m.content).Sublist
    ["metadata", "specVersion", "declaredTools", "declaredPermissions", "executionGraph",
      "deterministic"] := by
  have version := keys_member?_sublist "specVersion" (m.specVersion.map .string)
  simp only [content, Entries.keys, List.map_append]
  exact ((List.Sublist.refl ["metadata"]).append version).append (List.Sublist.refl _)

theorem under_content (m : Manifest) :
    under ["metadata"] m.content = [("metadata", m.metadata.toJson)] ∧
      under ["specVersion"] m.content = member? "specVersion" (m.specVersion.map .string) ∧
      under ["declaredTools"] m.content = [("declaredTools", .ofStrings m.tools)] ∧
      under ["declaredPermissions"] m.content = [("declaredPermissions", .ofStrings m.permissions)] ∧
      under ["executionGraph"] m.content = [("executionGraph", m.graph.toJson)] ∧
      under ["deterministic"] m.content = [("deterministic", .bool m.deterministic)] := by
  and_intros <;> simp [content, Entries.under_append, Entries.under_cons, under_member?]

theorem keys_pairs (m : Manifest) : (Entries.keys m.pairs).Sublist
    ["metadata", "specVersion", "declaredTools", "declaredPermissions", "executionGraph",
      "deterministic", "signatureHash"] := by
  simp only [pairs, Entries.keys, List.map_append]
  exact m.keys_content.append (keys_member?_sublist _ _)

theorem under_pairs (m : Manifest) :
    under ["metadata"] m.pairs = [("metadata", m.metadata.toJson)] ∧
      under ["specVersion", "spec_version"] m.pairs = member? "specVersion" (m.specVersion.map .string) ∧
      under ["declaredTools", "declared_tools"] m.pairs = [("declaredTools", .ofStrings m.tools)] ∧
      under ["declaredPermissions", "declared_permissions"] m.pairs =
        [("declaredPermissions", .ofStrings m.permissions)] ∧
      under ["executionGraph", "execution_graph"] m.pairs = [("executionGraph", m.graph.toJson)] ∧
      under ["deterministic"] m.pairs = [("deterministic", .bool m.deterministic)] ∧
      under ["signatureHash", "signature_hash"] m.pairs =
        member? "signatureHash" (m.signature.map .string) := by
  and_intros <;> simp [pairs, content, Entries.under_append, Entries.under_cons, under_member?]

theorem mem_pairs {m : Manifest} {pair : String × Json} (there : pair ∈ m.pairs) :
    pair.2 = m.metadata.toJson ∨ (∃ s, pair.2 = .string s) ∨ (∃ texts, pair.2 = .ofStrings texts) ∨
      pair.2 = m.graph.toJson ∨ ∃ b, pair.2 = .bool b := by
  simp only [pairs, content, List.mem_append, List.mem_cons, List.not_mem_nil, or_false, mem_member?,
    Option.map_eq_some_iff] at there
  rcases there with ((rfl | ⟨_, ⟨s, -, rfl⟩, rfl⟩) | rfl | rfl | rfl | rfl) | ⟨_, ⟨s, -, rfl⟩, rfl⟩
  · exact .inl rfl
  · exact .inr (.inl ⟨s, rfl⟩)
  · exact .inr (.inr (.inl ⟨_, rfl⟩))
  · exact .inr (.inr (.inl ⟨_, rfl⟩))
  · exact .inr (.inr (.inr (.inl rfl)))
  · exact .inr (.inr (.inr (.inr ⟨_, rfl⟩)))
  · exact .inr (.inl ⟨s, rfl⟩)

variable {m : Manifest} (fits : m.graph.Fits depth)

include fits

theorem ordered_toJson : m.toJson.Ordered := by
  apply ordered_ofMembers
  intro pair there
  rcases mem_pairs there with value | ⟨_, value⟩ | ⟨_, value⟩ | value | ⟨_, value⟩ <;> rw [value]
  · exact m.metadata.ordered_toJson
  · trivial
  · exact ordered_ofStrings _
  · exact Graph.ordered_toJson fits
  · trivial

theorem nesting_toJson_le : m.toJson.nesting ≤ depth + 4 := by
  apply nesting_ofMembers_le
  intro pair there
  rcases mem_pairs there with value | ⟨_, value⟩ | ⟨_, value⟩ | value | ⟨_, value⟩ <;> rw [value]
  · exact m.metadata.nesting_toJson_le.trans (by omega)
  · exact Nat.zero_le _
  · exact (nesting_ofStrings_le _).trans (by omega)
  · exact Graph.nesting_toJson_le fits
  · exact Nat.zero_le _

theorem decoder_toJson : decoder .content (depth + 4) m.toJson.outline = .ok m := by
  obtain ⟨metadata, specVersion, tools, permissions, graph, deterministic, signature⟩ := m.under_pairs
  have ordered := ordered_toJson fits
  rw [toJson_eq] at ordered ⊢
  refine decode_ofMembers orderly ?_ ordered ?_ (by simp [fields, Field.optional])
  · exact fun pair there => m.keys_pairs.subset (List.mem_map_of_mem there)
  · apply gather_eq_ok_iff.mpr
    simp only [Entries.under_ofList, metadata, specVersion, tools, permissions, graph, deterministic,
      signature, ofList_member?]
    refine ⟨?_, ?_, ?_, ?_, ?_, ?_, ?_⟩
    · exact m.metadata.decoder_toJson
    · exact yields_optionalString _
    · exact Decoder.list_outline_ofStrings _
    · exact Decoder.list_outline_ofStrings _
    · exact Graph.decoder_toJson fits
    · exact Decoder.bool_outline_eq_ok_iff.mpr rfl
    · exact yields_optionalString _

end Manifest

section

variable {any : Decoder Json} {o : Outline} {p : List (String × Json) → Prop}

theorem Node.holds_of_decoder (each : ∀ o entries, Decoder.entries any depth o = .ok entries → p entries)
    {n : Node} (read : decoder any (depth + 1) o = .ok n) : n.Holds p := by
  have blank : (plain "" "").Holds p := nofun
  refine decode_keeps blank ?_ read
  simp only [fields, List.forall_mem_cons, List.not_mem_nil, false_imp_iff, implies_true, and_true]
  refine ⟨?_, ?_, ?_, ?_, ?_⟩
  · exact Field.keeps fun _ _ _ _ holds => holds
  · exact Field.keeps fun _ _ _ _ holds => holds
  · exact Field.keeps fun _ _ _ _ holds => holds
  · exact Field.keeps fun _ _ _ _ holds => holds
  · refine Field.keeps fun o entries? read n _ inputs given => ?_
    obtain ⟨entries, rfl, rfl⟩ := Option.map_eq_some_iff.mp given
    exact each o entries (Decoder.of_optional read)

variable (each : ∀ o entries, Decoder.entries any depth o = .ok entries → p entries)

include each

theorem Graph.holds_of_decoder {g : Graph} (read : decoder any (depth + 3) o = .ok g) :
    ∀ n ∈ g.nodes, n.Holds p := by
  have blank : ∀ n ∈ empty.nodes, n.Holds p := nofun
  refine decode_keeps (P := fun g : Graph => ∀ n ∈ g.nodes, n.Holds p) blank ?_ read
  simp only [fields, List.forall_mem_cons, List.not_mem_nil, false_imp_iff, implies_true, and_true]
  refine ⟨?_, ?_⟩
  · refine Field.keeps fun o nodes read g _ n listed => ?_
    obtain ⟨_, inside⟩ := Decoder.exists_of_mem_list read listed
    exact Node.holds_of_decoder each inside
  · exact Field.keeps fun _ _ _ _ holds => holds

theorem Manifest.holds_of_decoder {m : Manifest} (read : decoder any (depth + 4) o = .ok m) :
    ∀ n ∈ m.graph.nodes, n.Holds p := by
  have blank : ∀ n ∈ Graph.empty.nodes, n.Holds p := nofun
  refine decode_keeps (P := fun m : Manifest => ∀ n ∈ m.graph.nodes, n.Holds p) blank ?_ read
  simp only [fields, List.forall_mem_cons, List.not_mem_nil, false_imp_iff, implies_true, and_true]
  refine ⟨?_, ?_, ?_, ?_, ?_, ?_, ?_⟩
  · exact Field.keeps fun _ _ _ _ holds => holds
  · exact Field.keeps fun _ _ _ _ holds => holds
  · exact Field.keeps fun _ _ _ _ holds => holds
  · exact Field.keeps fun _ _ _ _ holds => holds
  · exact Field.keeps fun _ _ read _ _ => Graph.holds_of_decoder each read
  · exact Field.keeps fun _ _ _ _ holds => holds
  · exact Field.keeps fun _ _ _ _ holds => holds

end

theorem Manifest.fits_of_decoder {o : Outline} {m : Manifest} (read : decoder .value (depth + 4) o = .ok m) :
    m.graph.Fits depth :=
  holds_of_decoder (fun _ _ inputs => (Decoder.accepted_entries inputs).symm) read

theorem Manifest.accompanied_of_decoder {o : Outline} {m : Manifest}
    (read : decoder .value (depth + 4) o = .ok m) :
    ∀ n ∈ m.graph.nodes, n.Holds fun entries => ∀ entry ∈ entries, entry.2.isAccompanied = true :=
  holds_of_decoder (fun _ _ inputs => Decoder.isAccompanied_of_entries inputs) read

theorem Manifest.accompanied_of_ofBytes {bytes : Bytes} {m : Manifest} (parsed : ofBytes bytes = .ok m) :
    ∀ n ∈ m.graph.nodes, n.Holds fun entries => ∀ entry ∈ entries, entry.2.isAccompanied = true := by
  obtain ⟨_, -, decoded⟩ := read_eq_ok_iff.mp (mapError_eq_ok.mp parsed)
  exact accompanied_of_decoder decoded

theorem Manifest.rewrite_collapsed {m : Manifest}
    (beside : ∀ n ∈ m.graph.nodes, n.Holds fun entries => ∀ entry ∈ entries, entry.2.isAccompanied = true) :
    m.rewrite collapsed = m := by
  refine rewrite_eq_self fun n listed inputs given => ?_
  refine (List.map_congr_left fun entry there => ?_).trans (List.map_id _)
  exact Prod.ext rfl (collapsed_of_isAccompanied entry.2 (beside n listed inputs given entry there))

/-- The document that the raw reader finds is read as the same manifest, in a rewriting as well. -/
theorem Manifest.decoder_of_read {f : Json → Json} (rewriting : Rewriting f) {bytes : Bytes} {m : Manifest}
    {document : Json} (plain : Plain bytes) (parsed : ofBytes bytes = .ok m)
    (found : Json.read Decoder.value bytes = .ok document) (shallow : (f document).nesting ≤ maxDepth)
    (ordered : (f document).Ordered) :
    decoder .content maxDepth (f document).outline = .ok (m.rewrite f) := by
  obtain ⟨o, outlined, decoded⟩ := read_eq_ok_iff.mp (mapError_eq_ok.mp parsed)
  obtain ⟨_, outlined', value⟩ := read_eq_ok_iff.mp found
  obtain ⟨rfl, -⟩ := Prod.mk.inj (outlined.symm.trans outlined')
  have plain : o.isPlain = true := by rwa [Plain, outlined] at plain
  rw [Decoder.value_of_isPlain plain] at value
  rw [decoder_eq_ok_iff plain] at decoded
  have again := Decoder.content_outline _ shallow ordered
  exact respects_decoder rewriting ⟨⟨_, value, again⟩, distinct_outline _ ordered⟩ decoded

end

end Attest
