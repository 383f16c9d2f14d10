import Attest.Manifest.Template
import Attest.Proofs.Manifest.Validity
import Attest.Proofs.Text.Quote

namespace Attest.ManifestTemplate

open Attest.Graph

theorem nodeId_injective : Function.Injective nodeId := by
  intro n m same
  have digits : Nat.toDigits 10 n = Nat.toDigits 10 m := by simpa [nodeId] using congrArg String.toList same
  exact toDigits_inj (by decide) (by decide) digits

variable (t : ManifestTemplate)

theorem ids_graph : t.graph.ids = (List.range t.nodeKinds.length).map nodeId := by
  apply List.ext_getElem
  · simp [graph, ids]
  · intro i _ _
    simp [graph, ids, Node.plain]

theorem nodup_ids : t.graph.ids.Nodup := by
  rw [ids_graph]
  exact List.Nodup.map nodeId_injective List.nodup_range

theorem nodeId_mem_ids {n : Nat} (inside : n < t.nodeKinds.length) : nodeId n ∈ t.graph.ids := by
  rw [ids_graph]
  exact List.mem_map_of_mem (List.mem_range.mpr inside)

theorem mem_edges {e : Edge} : e ∈ t.graph.edges ↔
    2 ≤ t.nodeKinds.length ∧ ∃ pair ∈ t.pairs, edge? t.nodeKinds.length pair = some e := by
  rw [graph]
  dsimp only
  split
  · constructor
    · intro member
      cases member
    · rintro ⟨several, -⟩
      omega
  · rw [List.mem_filterMap]
    exact (and_iff_right (by omega)).symm

theorem upward_of_mem {e : Edge} (member : e ∈ t.graph.edges) :
    ∃ a b, a < b ∧ b < t.nodeKinds.length ∧ e = ⟨nodeId a, nodeId b⟩ := by
  obtain ⟨several, pair, -, made⟩ := t.mem_edges.mp member
  have first := Nat.mod_lt pair.1 (by omega : 0 < t.nodeKinds.length)
  have second := Nat.mod_lt pair.2 (by omega : 0 < t.nodeKinds.length)
  unfold edge? at made
  dsimp only at made
  split at made
  · cases made
  · cases made
    exact ⟨_, _, by omega, by omega, rfl⟩

theorem closed_graph : ∀ e ∈ t.graph.edges, e.source ∈ t.graph.ids ∧ e.target ∈ t.graph.ids := by
  intro e member
  obtain ⟨a, b, less, inside, rfl⟩ := t.upward_of_mem member
  exact ⟨t.nodeId_mem_ids (less.trans inside), t.nodeId_mem_ids inside⟩

theorem upward_of_reaches {first last : String} (reaches : Relation.TransGen t.graph.Adjacent first last) :
    ∃ a b, a < b ∧ first = nodeId a ∧ last = nodeId b := by
  induction reaches with
  | single edge =>
    obtain ⟨a, b, less, -, same⟩ := t.upward_of_mem edge
    cases same
    exact ⟨a, b, less, rfl, rfl⟩
  | tail _ edge ih =>
    obtain ⟨a, b, less, rfl, rfl⟩ := ih
    obtain ⟨c, d, more, -, same⟩ := t.upward_of_mem edge
    injection same with here there
    obtain rfl := nodeId_injective here
    exact ⟨a, d, less.trans more, rfl, there⟩

theorem acyclic_graph : t.graph.Acyclic := by
  intro id cycle
  obtain ⟨a, b, less, first, last⟩ := t.upward_of_reaches cycle
  exact absurd (nodeId_injective (first.symm.trans last)) less.ne

theorem errors_eq_nil {rules : LintRules} (named : ∀ tool ∈ t.tools, tool.length ≤ rules.toolNameLimit)
    (few : t.nodeKinds.length ≤ rules.depthLimit + 1) : Lint.errors rules t.manifest = [] := by
  have nodes : t.graph.nodes.length ≤ rules.depthLimit + 1 := by
    rw [graph]
    exact (List.length_mapIdx ..).trans_le few
  have through := hasCycle_eq_false_of_acyclic t.acyclic_graph (t.acyclic_graph.shallow t.closed_graph nodes)
  have version : Lint.versionErrors t.manifest = [] := Lint.versionErrors_eq_nil_iff.mpr ⟨"1.0", rfl, by decide⟩
  have tools : Lint.toolErrors rules t.manifest = [] := Lint.toolErrors_eq_nil_iff.mpr named
  have graph : Lint.graphErrors rules t.manifest.graph = [] :=
    Lint.graphErrors_eq_nil_iff.mpr ⟨t.nodup_ids, t.closed_graph, through⟩
  rw [Lint.errors, version, tools, graph]
  rfl

def chain (count : Nat) : ManifestTemplate :=
  ⟨"", "", [], [], List.replicate count "Action", (List.range (count - 1)).map fun i => (i, i + 1), true⟩

theorem edge?_next {count i : Nat} (inside : i + 1 < count) :
    edge? count (i, i + 1) = some ⟨nodeId i, nodeId (i + 1)⟩ := by
  unfold edge?
  rw [Nat.mod_eq_of_lt inside, Nat.mod_eq_of_lt (by omega), if_neg (by omega), Nat.min_eq_left (by omega),
    Nat.max_eq_right (by omega)]

theorem adjacent_chain {count i : Nat} {next : String} (inside : i + 1 < count) :
    (chain count).graph.Adjacent (nodeId i) next ↔ next = nodeId (i + 1) := by
  have length : (chain count).nodeKinds.length = count := List.length_replicate
  rw [Adjacent, mem_edges, length]
  constructor
  · rintro ⟨-, pair, listed, made⟩
    obtain ⟨j, member, rfl⟩ := List.mem_map.mp listed
    have before := List.mem_range.mp member
    rw [edge?_next (by omega)] at made
    injection made with same
    injection same with here there
    rw [← there, nodeId_injective here]
  · rintro rfl
    refine ⟨by omega, (i, i + 1), ?_, edge?_next inside⟩
    exact List.mem_map_of_mem (List.mem_range.mpr (by omega))

theorem successors_chain {count i : Nat} (inside : i + 1 < count) :
    ∃ rest, (chain count).graph.successors (nodeId i) = nodeId (i + 1) :: rest := by
  have next : nodeId (i + 1) ∈ (chain count).graph.successors (nodeId i) :=
    mem_successors.mpr ((adjacent_chain inside).mpr rfl)
  cases children : (chain count).graph.successors (nodeId i) with
  | nil => rw [children] at next; cases next
  | cons child rest =>
    have first : child ∈ (chain count).graph.successors (nodeId i) := by
      rw [children]
      exact List.mem_cons_self
    rw [(adjacent_chain inside).mp (mem_successors.mp first)]
    exact ⟨rest, rfl⟩

theorem enterBelow_chain {count depth i : Nat} (long : i + depth < count) {path visited : List String}
    (ahead : ∀ k, i < k → nodeId k ∉ path ∧ nodeId k ∉ visited) :
    (chain count).graph.enterBelow path depth (nodeId i) visited = none := by
  induction depth generalizing i path visited with
  | zero => rfl
  | succ depth ih =>
    have other {j k : Nat} (less : j < k) : nodeId k ≠ nodeId j := nodeId_injective.ne less.ne'
    have off {k : Nat} (further : i < k) : nodeId k ∉ nodeId i :: path :=
      List.not_mem_cons_of_ne_of_not_mem (other further) (ahead k further).1
    have unseen := (ahead (i + 1) (Nat.lt_succ_self i)).2
    have later (k : Nat) (further : i + 1 < k) : nodeId k ∉ nodeId i :: path ∧ nodeId k ∉ nodeId (i + 1) :: visited :=
      ⟨off (by omega), List.not_mem_cons_of_ne_of_not_mem (other further) (ahead k (by omega)).2⟩
    obtain ⟨rest, children⟩ := successors_chain (by omega : i + 1 < count)
    rw [enterBelow, visit_eq, children, List.foldlM_cons, follow, if_neg (off (Nat.lt_succ_self i)),
      if_neg unseen, ih (by omega) later]
    rfl

theorem hasCycle_chain {count depth : Nat} (long : depth + 1 < count) :
    (chain count).graph.hasCycle depth = true := by
  have ahead (k : Nat) (further : 0 < k) : nodeId k ∉ ([] : List String) ∧ nodeId k ∉ [nodeId 0] :=
    ⟨List.not_mem_nil, List.not_mem_cons_of_ne_of_not_mem (nodeId_injective.ne further.ne') List.not_mem_nil⟩
  have deep : (chain count).graph.enterBelow [] (depth + 1) (nodeId 0) [nodeId 0] = none :=
    enterBelow_chain (by omega) ahead
  obtain ⟨more, rfl⟩ : ∃ more, count = more + 1 := ⟨count - 1, by omega⟩
  have listed : (chain (more + 1)).graph.ids = nodeId 0 :: ((List.range more).map Nat.succ).map nodeId := by
    rw [ids_graph, chain, List.length_replicate, List.range_succ_eq_map, List.map_cons]
  rw [enterBelow] at deep
  rw [hasCycle, visitAll, listed, List.foldlM_cons, follow, if_neg List.not_mem_nil, if_neg List.not_mem_nil, deep]
  rfl

theorem cyclic_mem_errors_chain {rules : LintRules} {count : Nat} (long : rules.depthLimit + 1 < count) :
    Lint.Error.cyclic ∈ Lint.errors rules (chain count).manifest := by
  have stopped : (chain count).manifest.graph.hasCycle rules.depthLimit = true := hasCycle_chain long
  apply List.mem_append_right
  rw [Lint.graphErrors, if_pos stopped]
  exact List.mem_append_right _ (List.mem_singleton_self _)

/-- A manifest from a template has a graph in order, whatever the template says. If its tool names and its graph
are not too large, the checks find no error, and one node more is too many where all of them are on one path. -/
theorem template_is_well_formed :
    (∀ t : ManifestTemplate, t.manifest.graph.ids.Nodup ∧
      (∀ e ∈ t.manifest.graph.edges, e.source ∈ t.manifest.graph.ids ∧ e.target ∈ t.manifest.graph.ids ∧
        e.source ≠ e.target) ∧
      t.manifest.graph.Acyclic ∧
      ((∀ tool ∈ t.tools, tool.length ≤ 128) → t.nodeKinds.length ≤ 1001 →
        (Lint.manifest .default t.manifest).errors = [] ∧ (Lint.manifest .default t.manifest).valid = true)) ∧
    ∀ count, 1001 < count → Lint.Error.cyclic ∈ (Lint.manifest .default (chain count).manifest).errors := by
  refine ⟨fun t => ⟨t.nodup_ids, ?_, t.acyclic_graph, ?_⟩, ?_⟩
  · intro e member
    have closed := t.closed_graph e member
    obtain ⟨a, b, less, -, rfl⟩ := t.upward_of_mem member
    exact ⟨closed.1, closed.2, fun same => less.ne (nodeId_injective same)⟩
  · intro named few
    have none : Lint.errors .default t.manifest = [] := t.errors_eq_nil named few
    exact ⟨none, List.isEmpty_iff.mpr none⟩
  · intro count long
    show Lint.Error.cyclic ∈ Lint.errors .default _
    exact cyclic_mem_errors_chain long

/-- The longest tool name and the longest path that pass, and a pair out of range that is turned round. -/
theorem template_is_well_formed_longest :
    let t : ManifestTemplate :=
      { chain 1001 with tools := [String.ofList (List.replicate 128 'x')], pairs := (1000, 2002) :: (chain 1001).pairs }
    (∀ tool ∈ t.tools, tool.length ≤ 128) ∧ t.nodeKinds.length ≤ 1001 ∧ ⟨nodeId 0, nodeId 1000⟩ ∈ t.graph.edges ∧
      (Lint.manifest .default t.manifest).valid = true ∧
      Lint.Error.cyclic ∈ (Lint.manifest .default (chain 1002).manifest).errors := by
  intro t
  have named : ∀ tool ∈ t.tools, tool.length ≤ 128 := by
    intro tool member
    rw [List.mem_singleton.mp member, String.length_ofList, List.length_replicate]
  have count : t.nodeKinds.length = 1001 := List.length_replicate
  have backwards : ⟨nodeId 0, nodeId 1000⟩ ∈ t.graph.edges := by
    rw [mem_edges, count]
    exact ⟨by decide, (1000, 2002), List.mem_cons_self, rfl⟩
  obtain ⟨passes, stops⟩ := template_is_well_formed
  obtain ⟨-, -, -, clean⟩ := passes t
  exact ⟨named, count.le, backwards, (clean named count.le).2, stops 1002 (by decide)⟩

end Attest.ManifestTemplate
