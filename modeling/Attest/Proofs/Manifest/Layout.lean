import Attest.Proofs.Json.Steady
import Attest.Proofs.Manifest.Reading
import Attest.Proofs.Manifest.Report

namespace Attest

open Json Json.Decoder Json.Record

def Metadata.form : Form := .record [
  (["id"], .free), (["version"], .free), (["name"], .free), (["description"], .free)]

def Node.form : Form := .record [
  (["id"], .free), (["type"], .free), (["tool"], .free), (["action"], .free), (["inputs"], .free)]

def Edge.form : Form := .record [(["from"], .free), (["to"], .free)]

def Graph.form : Form := .record [(["nodes"], .list Node.form), (["edges"], .list Edge.form)]

def Manifest.form : Form := .record [
  (["metadata"], Metadata.form), (["specVersion", "spec_version"], .free),
  (["declaredTools", "declared_tools"], .list .free),
  (["declaredPermissions", "declared_permissions"], .list .free),
  (["executionGraph", "execution_graph"], Graph.form), (["deterministic"], .free),
  (["signatureHash", "signature_hash"], .free)]

theorem Metadata.steady_decoder : Steady form decoder := by
  apply steady_decode _ orderly
  refine .cons ⟨rfl, ?_⟩ (.cons ⟨rfl, ?_⟩ (.cons ⟨rfl, ?_⟩ (.cons ⟨rfl, ?_⟩ .nil))) <;>
    exact Field.steady steady_string

theorem Node.steady_decoder : Steady form (decoder .content) := by
  apply steady_decode _ orderly
  refine .cons ⟨rfl, ?_⟩ (.cons ⟨rfl, ?_⟩ (.cons ⟨rfl, ?_⟩ (.cons ⟨rfl, ?_⟩ (.cons ⟨rfl, ?_⟩ .nil))))
  · exact Field.steady steady_string
  · exact Field.steady steady_string
  · exact Field.steady steady_string.optional
  · exact Field.steady steady_string.optional
  · exact Field.steady steady_entries.optional

theorem Edge.steady_decoder : Steady form decoder := by
  apply steady_decode _ orderly
  refine .cons ⟨rfl, ?_⟩ (.cons ⟨rfl, ?_⟩ .nil) <;> exact Field.steady steady_string

theorem Graph.steady_decoder : Steady form (decoder .content) := by
  apply steady_decode _ orderly
  refine .cons ⟨rfl, ?_⟩ (.cons ⟨rfl, ?_⟩ .nil)
  · exact Field.steady Node.steady_decoder.list
  · exact Field.steady Edge.steady_decoder.list

theorem Manifest.steady_decoder : Steady form (decoder .content) := by
  apply steady_decode _ orderly
  refine .cons ⟨rfl, ?_⟩ (.cons ⟨rfl, ?_⟩ (.cons ⟨rfl, ?_⟩ (.cons ⟨rfl, ?_⟩ (.cons ⟨rfl, ?_⟩
    (.cons ⟨rfl, ?_⟩ (.cons ⟨rfl, ?_⟩ .nil))))))
  · exact Field.steady Metadata.steady_decoder
  · exact Field.steady steady_string.optional
  · exact Field.steady steady_string.list
  · exact Field.steady steady_string.list
  · exact Field.steady Graph.steady_decoder
  · exact Field.steady steady_bool
  · exact Field.steady steady_string.optional

namespace Lint

/-- The manifests that are read from two documents are the same, and so are the reports, if the documents
differ in what does not count; the second one is read as well, if no object in it begins with the key of
numbers. -/
theorem report_ignores_layout (rules : LintRules) {text : Bytes} {m : Manifest}
    (parsed : Manifest.ofBytes text = .ok m) :
    ∃ o, Outline.Writes o text ∧ ∀ o' text', Outline.Alike Manifest.form o o' → o'.Writes text' →
      (∀ m', Manifest.ofBytes text' = .ok m' → m' = m ∧ bytes rules text' = bytes rules text) ∧
      (o'.isPlain = true → ∃ m', Manifest.ofBytes text' = .ok m') := by
  obtain ⟨o, found, inside⟩ := read_eq_ok_iff.mp (mapError_eq_ok.mp parsed)
  refine ⟨o, Outline.ofBytes_eq_iff_writes.mp found, fun o' text' alike writes => ?_⟩
  have found' := Outline.ofBytes_eq_iff_writes.mpr writes
  obtain ⟨n, content, rewritten⟩ := Manifest.exists_content_of_decoder inside
  have moved := (Manifest.steady_decoder.eq_ok_iff alike).mp content
  constructor
  · intro m' again
    obtain ⟨_, found'', inside'⟩ := read_eq_ok_iff.mp (mapError_eq_ok.mp again)
    obtain ⟨rfl, -⟩ := Prod.mk.inj (found'.symm.trans found'')
    obtain ⟨n', content', rewritten'⟩ := Manifest.exists_content_of_decoder inside'
    obtain rfl := Except.ok.inj (content'.symm.trans moved)
    obtain rfl := rewritten'.symm.trans rewritten
    exact ⟨rfl, by rw [bytes_of_ofBytes again, bytes_of_ofBytes parsed]⟩
  · intro plain
    rw [← Manifest.decoder_eq_ok_iff plain] at moved
    exact ⟨n, mapError_eq_ok.mpr (read_eq_ok_iff.mpr ⟨o', found', moved⟩)⟩

/-- Keys in their other spelling, members exchanged at three levels, and two members that no one asks for,
one of which holds a string without a text. -/
theorem report_ignores_layout_respelled :
    let text := Utf8.encode ("\x7b\"specVersion\":\"1.0\",\"executionGraph\":\x7b\"nodes\":[\x7b\"id\":\"a\"," ++
      "\"inputs\":\x7b\"x\":1,\"y\":\"é\"\x7d\x7d],\"edges\":[]\x7d\x7d")
    let other := Utf8.encode ("\x7b \"execution_graph\": \x7b\"edges\":[ ],\"nodes\":[\x7b\"extra\":[\"\\ud800\"]," ++
      "\"inputs\":\x7b\"y\":\"\\u00e9\",\"x\":1\x7d,\"id\":\"a\"\x7d]\x7d,\n\"spec_version\":\"1\\u002e0\",\"\":\x7b\x7d\x7d")
    ∃ m, Manifest.ofBytes text = .ok m ∧ Manifest.ofBytes other = .ok m ∧
      bytes .default other = bytes .default text := by
  intro text other
  let x : Option String × Outline := (some "x", .number ⟨false, 1, [], none⟩)
  let y : Option String × Outline := (some "y", .string (some "é"))
  let id : Option String × Outline := (some "id", .string (some "a"))
  let edges : Option String × Outline := (some "edges", .array [])
  let extra : Outline := .array [.string none]
  let version : Outline := .string (some "1.0")
  let node : Outline := .object [id, (some "inputs", .object [x, y])]
  let node' : Outline := .object [(some "extra", extra), (some "inputs", .object [y, x]), id]
  let graph : Outline := .object [(some "nodes", .array [node]), edges]
  let graph' : Outline := .object [edges, (some "nodes", .array [node'])]
  let first : Outline := .object [(some "specVersion", version), (some "executionGraph", graph)]
  let last : Outline :=
    .object [(some "execution_graph", graph'), (some "spec_version", version), (some "", .object [])]
  have nodes : Outline.Alike Node.form node node' := by
    have inputs : Outline.Alike .free (.object [x, y]) (.object [y, x]) :=
      .rel _ _ (.reorder (by decide) (.swap ..))
    have inside : Outline.Alike Node.form node (.object [id, (some "inputs", .object [y, x])]) :=
      @Outline.Alike.member Node.form [id] [] (some "inputs") _ _ inputs
    refine inside.trans _ _ _ (.trans _ (.object [(some "inputs", .object [y, x]), id]) _ (.rel _ _ ?_) (.rel _ _ ?_))
    · exact .reorder (by decide) (.swap ..)
    · exact @Outline.Change.extra _ [] _ "extra" extra (by decide) rfl
  have graphs : Outline.Alike Graph.form graph graph' := by
    have inside : Outline.Alike Graph.form graph (.object [(some "nodes", .array [node']), edges]) :=
      @Outline.Alike.member Graph.form [] [edges] (some "nodes") _ _ (@Outline.Alike.item _ [] [] _ _ nodes)
    exact inside.trans _ _ _ (.rel _ _ (.reorder (by decide) (.swap ..)))
  have alike : Outline.Alike Manifest.form first last := by
    have inside : Outline.Alike Manifest.form first
        (.object [(some "specVersion", version), (some "executionGraph", graph')]) :=
      @Outline.Alike.member Manifest.form [(some "specVersion", version)] [] (some "executionGraph") _ _ graphs
    have spelled : Outline.Change Manifest.form
        (.object [(some "specVersion", version), (some "executionGraph", graph')])
        (.object [(some "spec_version", version), (some "executionGraph", graph')]) :=
      @Outline.Change.respell _ _ [] _ _ _ _ (.tail _ (.head _)) (by decide) (by decide)
    have spelled' : Outline.Change Manifest.form
        (.object [(some "spec_version", version), (some "executionGraph", graph')])
        (.object [(some "spec_version", version), (some "execution_graph", graph')]) :=
      @Outline.Change.respell _ _ [(some "spec_version", version)] [] _ _ _
        (.tail _ (.tail _ (.tail _ (.tail _ (.head _))))) (by decide) (by decide)
    have moved : Outline.Change Manifest.form
        (.object [(some "spec_version", version), (some "execution_graph", graph')])
        (.object [(some "execution_graph", graph'), (some "spec_version", version)]) :=
      .reorder (by decide) (.swap ..)
    have added : Outline.Change Manifest.form
        (.object [(some "execution_graph", graph'), (some "spec_version", version)]) last :=
      @Outline.Change.extra _ [(some "execution_graph", graph'), (some "spec_version", version)] [] "" _
        (by decide) rfl
    exact inside.trans _ _ _ (.trans _ _ _ (.rel _ _ spelled) (.trans _ _ _ (.rel _ _ spelled')
      (.trans _ _ _ (.rel _ _ moved) (.rel _ _ added))))
  have writesFirst : first.Writes text :=
    Outline.ofBytes_eq_iff_writes.mp (Outline.ofBytes_of_scan (by decide) (by decide +kernel))
  have writesLast : last.Writes other :=
    Outline.ofBytes_eq_iff_writes.mp (Outline.ofBytes_of_scan (by decide) (by decide +kernel))
  obtain ⟨m, parsed⟩ := exists_of_isOk (show (Manifest.ofBytes text).isOk = true by decide +kernel)
  obtain ⟨o, writes, same⟩ := report_ignores_layout .default parsed
  rw [writes.unique writesFirst] at same
  obtain ⟨only, accepted⟩ := same last other alike writesLast
  obtain ⟨m', again⟩ := accepted (by decide)
  obtain ⟨rfl, reports⟩ := only m' again
  exact ⟨_, parsed, again, reports⟩

/-- With the key of numbers moved to the front among the inputs, the manifest is no longer read. -/
theorem report_ignores_layout_moved :
    let number : Option String × Outline := (some "$serde_json::private::Number", .string (some "1"))
    let last : Option String × Outline := (some "zz", .number ⟨false, 1, [], none⟩)
    let document (inner : Outline) : Outline := .object [(some "executionGraph", .object [(some "nodes",
      .array [.object [(some "id", .string (some "a")), (some "inputs", .object [(some "k", inner)])]])])]
    let text := Utf8.encode ("\x7b\"executionGraph\":\x7b\"nodes\":[\x7b\"id\":\"a\",\"inputs\":\x7b\"k\":" ++
      "\x7b\"zz\":1,\"$serde_json::private::Number\":\"1\"\x7d\x7d\x7d]\x7d\x7d")
    let other := Utf8.encode ("\x7b\"executionGraph\":\x7b\"nodes\":[\x7b\"id\":\"a\",\"inputs\":\x7b\"k\":" ++
      "\x7b\"$serde_json::private::Number\":\"1\",\"zz\":1\x7d\x7d\x7d]\x7d\x7d")
    (document (.object [last, number])).Writes text ∧ (document (.object [number, last])).Writes other ∧
      Outline.Alike Manifest.form (document (.object [last, number])) (document (.object [number, last])) ∧
      (Manifest.ofBytes text).isOk = true ∧ bytes .default other ≠ bytes .default text := by
  intro number last document text other
  have inner : Outline.Alike .free (.object [last, number]) (.object [number, last]) :=
    .rel _ _ (.reorder (by decide) (.swap ..))
  have inputs : Outline.Alike .free (.object [(some "k", .object [last, number])])
      (.object [(some "k", .object [number, last])]) :=
    @Outline.Alike.member .free [] [] (some "k") _ _ inner
  have node := @Outline.Alike.member Node.form [(some "id", .string (some "a"))] [] (some "inputs") _ _ inputs
  have nodes := @Outline.Alike.item (.list Node.form) [] [] _ _ node
  have graph := @Outline.Alike.member Graph.form [] [] (some "nodes") _ _ nodes
  have alike := @Outline.Alike.member Manifest.form [] [] (some "executionGraph") _ _ graph
  obtain ⟨m, parsed⟩ := exists_of_isOk (show (Manifest.ofBytes text).isOk = true by decide +kernel)
  have fault : Json.read (Manifest.decoder .value) other = .error .malformed := by decide +kernel
  refine ⟨?_, ?_, alike, by rw [parsed]; rfl, bytes_ne_of_refused parsed fault .default⟩
  · exact Outline.ofBytes_eq_iff_writes.mp (Outline.ofBytes_of_scan (by decide) (by decide +kernel))
  · exact Outline.ofBytes_eq_iff_writes.mp (Outline.ofBytes_of_scan (by decide) (by decide +kernel))

end Lint
end Attest
