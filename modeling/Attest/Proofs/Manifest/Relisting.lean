import Mathlib.Order.Extension.Linear
import Attest.Proofs.Manifest.Validity

namespace Attest.Graph

variable {g h : Graph}

/-- The same nodes and the same edges, in other orders. -/
structure Relisted (g h : Graph) : Prop where
  nodes : g.nodes.Perm h.nodes
  edges : g.edges.Perm h.edges

/-- There is no cycle to be found, but a path that is too long if the search walks down all of it. -/
structure LimitDecides (g : Graph) (depth : Nat) : Prop where
  loopless : ¬ g.Looped
  deep : ¬ g.ShallowFromIds depth

def Closed (g : Graph) : Prop := ∀ e ∈ g.edges, e.source ∈ g.ids ∧ e.target ∈ g.ids

namespace Relisted

theorem refl (g : Graph) : g.Relisted g := ⟨.refl _, .refl _⟩

variable (relisted : g.Relisted h)

include relisted

theorem ids : g.ids.Perm h.ids := relisted.nodes.map Node.id

theorem adjacent : g.Adjacent = h.Adjacent := by
  ext a b
  exact relisted.edges.mem_iff

theorem looped : g.Looped ↔ h.Looped := by
  unfold Looped
  simp only [relisted.adjacent, relisted.ids.mem_iff]

theorem shallowFromIds (depth : Nat) : g.ShallowFromIds depth ↔ h.ShallowFromIds depth := by
  unfold ShallowFromIds
  simp only [relisted.adjacent, relisted.ids.mem_iff]

theorem closed : g.Closed ↔ h.Closed := by
  unfold Closed
  simp only [relisted.edges.mem_iff, relisted.ids.mem_iff]

/-- Unless it is the limit that decides, the search gives up exactly on a graph with a cycle to be found. -/
theorem hasCycle_iff {depth : Nat} (sure : ¬ g.LimitDecides depth) :
    h.hasCycle depth = true ↔ g.Looped := by
  by_cases looped : g.Looped
  · exact iff_of_true (hasCycle_eq_true_of_looped depth (relisted.looped.mp looped)) looped
  · have shallow : g.ShallowFromIds depth := by
      by_contra deep
      exact sure ⟨looped, deep⟩
    have through : h.hasCycle depth = false :=
      hasCycle_eq_false_of_shallow (relisted.looped.not.mp looped) ((relisted.shallowFromIds depth).mp shallow)
    rw [through]
    exact iff_of_false Bool.false_ne_true looped

end Relisted

section

variable {enter : String → List String → Option (List String)} {path visited : List String}

theorem foldlM_follow_visited {children : List String}
    (behind : ∀ child ∈ children, child ∉ path ∧ child ∈ visited) :
    children.foldlM (follow enter path) visited = some visited := by
  induction children with
  | nil => rfl
  | cons child children ih =>
    obtain ⟨off, seen⟩ := behind child List.mem_cons_self
    have first : follow enter path visited child = some visited := by
      rw [follow, if_neg off, if_pos seen]
    rw [List.foldlM_cons, first]
    exact ih fun other later => behind other (List.mem_cons_of_mem _ later)

end

theorem isSome_foldlM_of_ordered (irreflexive : ∀ id, ¬ g.Adjacent id id) (depth : Nat)
    {ids visited : List String} (ordered : ids.Pairwise fun a b => ¬ g.Adjacent a b)
    (known : ∀ id ∈ ids, ∀ next, g.Adjacent id next → next ∈ visited ∨ next ∈ ids) :
    (ids.foldlM (follow (g.visit depth []) []) visited).isSome = true := by
  -- On the ids still to be entered; every edge from them leads to one of them or to one visited before.
  induction ids generalizing visited with
  | nil => rfl
  | cons id ids ih =>
    obtain ⟨first, ordered⟩ := List.pairwise_cons.mp ordered
    have behind : ∀ next, g.Adjacent id next → next ∉ [id] ∧ next ∈ id :: visited := by
      intro next edge
      have other : next ≠ id := by
        rintro rfl
        exact irreflexive next edge
      refine ⟨List.mem_singleton.not.mpr other, List.mem_cons_of_mem _ ?_⟩
      rcases known id List.mem_cons_self next edge with seen | ahead
      · exact seen
      · exact absurd edge (first next (List.mem_of_ne_of_mem other ahead))
    have after : ∀ grown : List String, id ∈ grown → visited ⊆ grown →
        (ids.foldlM (follow (g.visit depth []) []) grown).isSome = true := by
      intro grown here kept
      apply ih ordered
      intro other later next edge
      rcases known other (List.mem_cons_of_mem _ later) next edge with there | ahead
      · exact .inl (kept there)
      · rcases List.mem_cons.mp ahead with rfl | ahead
        · exact .inl here
        · exact .inr ahead
    rw [List.foldlM_cons, follow, if_neg List.not_mem_nil]
    by_cases seen : id ∈ visited
    · rw [if_pos seen]
      exact after visited seen (List.Subset.refl _)
    · have through : g.visit depth [] id (id :: visited) = some (id :: visited) := by
        rw [visit_eq]
        exact foldlM_follow_visited fun next there => behind next (mem_successors.mp there)
      rw [if_neg seen, through]
      exact after (id :: visited) List.mem_cons_self (List.subset_cons_self _ _)

theorem hasCycle_eq_false_of_ordered (depth : Nat) (acyclic : g.Acyclic) (closed : g.Closed)
    (ordered : g.ids.Pairwise fun a b => ¬ g.Adjacent a b) : g.hasCycle depth = false := by
  have through : (g.visitAll depth).isSome = true := by
    apply isSome_foldlM_of_ordered (fun id edge => acyclic id (.single edge)) depth ordered
    intro id _ next edge
    exact .inr (closed _ edge).2
  rw [hasCycle, ← Option.not_isSome, through]
  rfl

theorem Acyclic.isPartialOrder (acyclic : g.Acyclic) :
    IsPartialOrder String (Relation.ReflTransGen g.Adjacent) where
  refl _ := .refl
  trans _ _ _ reaches further := reaches.trans further
  antisymm a b reaches back := by
    rcases Relation.reflTransGen_iff_eq_or_transGen.mp reaches with same | cycle
    · exact same.symm
    · exact absurd (cycle.trans_left back) (acyclic a)

theorem Acyclic.exists_ordered (acyclic : g.Acyclic) :
    ∃ h, g.Relisted h ∧ h.ids.Pairwise fun a b => ¬ h.Adjacent a b := by
  classical
  have := acyclic.isPartialOrder
  obtain ⟨below, linear, further⟩ := extend_partialOrder (Relation.ReflTransGen g.Adjacent)
  have transitive (a b c : Node) (first : decide (below b.id a.id) = true)
      (second : decide (below c.id b.id) = true) : decide (below c.id a.id) = true := by
    rw [decide_eq_true_eq] at *
    exact trans_of below second first
  have total (a b : Node) : (decide (below b.id a.id) || decide (below a.id b.id)) = true := by
    rw [Bool.or_eq_true, decide_eq_true_eq, decide_eq_true_eq]
    exact total_of below b.id a.id
  have sorted := List.pairwise_mergeSort transitive total g.nodes
  refine ⟨⟨_, g.edges⟩, ⟨(List.mergeSort_perm g.nodes _).symm, .refl _⟩, List.pairwise_map.mpr (sorted.imp ?_)⟩
  intro a b after edge
  have same : a.id = b.id := antisymm_of below (further _ _ (.single edge)) (of_decide_eq_true after)
  rw [same] at edge
  exact acyclic b.id (.single edge)

def Leading (g : Graph) (path : List String) : Prop :=
  path.IsChain fun a b => (g.successors a).head? = some b

theorem exists_leading (nodes : List Node) {path : List String} (walk : path.IsChain g.Adjacent)
    (distinct : path.Nodup) : ∃ edges, g.edges.Perm edges ∧ Leading ⟨nodes, edges⟩ path := by
  -- The edge from the first id is moved to the front, which the successors of the others do not notice.
  induction path with
  | nil => exact ⟨g.edges, .refl _, .nil⟩
  | cons a path ih =>
    cases path with
    | nil => exact ⟨g.edges, .refl _, .singleton a⟩
    | cons b path =>
      obtain ⟨edge, walk⟩ := List.isChain_cons_cons.mp walk
      obtain ⟨other, distinct⟩ := List.nodup_cons.mp distinct
      obtain ⟨edges, moved, leads⟩ := ih walk distinct
      obtain ⟨front, behind, rfl⟩ := List.append_of_mem (moved.mem_iff.mp edge)
      refine ⟨⟨a, b⟩ :: (front ++ behind), moved.trans List.perm_middle, .cons_cons ?_ ?_⟩
      · simp [successors]
      · apply leads.imp_of_mem_imp
        intro c d here _ first
        have apart : a ≠ c := fun same => other (same ▸ here)
        simpa [successors, apart] using first

/-- The search goes down a leading path, as long as it meets nothing there that it has visited. -/
theorem enterBelow_eq_none_of_leading (depth : Nat) {path visited below : List String} {child : String}
    (leads : g.Leading (child :: below)) (distinct : (child :: below).Nodup)
    (fresh : ∀ id ∈ below, id ∉ path ∧ id ∉ visited) (long : depth ≤ below.length) :
    g.enterBelow path depth child visited = none := by
  induction depth generalizing path visited below child with
  | zero => rfl
  | succ depth ih =>
    cases below with
    | nil => cases long
    | cons next below =>
      obtain ⟨first, leads⟩ := List.isChain_cons_cons.mp leads
      obtain ⟨others, successors⟩ := List.head?_eq_some_iff.mp first
      obtain ⟨once, distinct⟩ := List.nodup_cons.mp distinct
      have apart : ∀ id ∈ next :: below, id ∉ child :: path := by
        intro id there
        rw [List.mem_cons, not_or]
        exact ⟨ne_of_mem_of_not_mem there once, (fresh id there).1⟩
      have deeper : g.enterBelow (child :: path) depth next (next :: visited) = none := by
        apply ih leads distinct _ (Nat.le_of_succ_le_succ long)
        intro id there
        have later := List.mem_cons_of_mem next there
        refine ⟨apart id later, ?_⟩
        rw [List.mem_cons, not_or]
        exact ⟨ne_of_mem_of_not_mem there (List.nodup_cons.mp distinct).1, (fresh id later).2⟩
      rw [enterBelow, visit_eq, successors, List.foldlM_cons, follow, if_neg (apart next List.mem_cons_self),
        if_neg (fresh next List.mem_cons_self).2, deeper]
      rfl

theorem hasCycle_eq_true_of_leading {depth : Nat} {root : String} {below : List String}
    (front : g.ids.head? = some root) (leads : g.Leading (root :: below)) (distinct : (root :: below).Nodup)
    (long : depth < below.length) : g.hasCycle depth = true := by
  obtain ⟨others, ids⟩ := List.head?_eq_some_iff.mp front
  have stopped : g.enterBelow [] (depth + 1) root [root] = none := by
    apply enterBelow_eq_none_of_leading (depth + 1) leads distinct _ long
    intro id there
    refine ⟨List.not_mem_nil, ?_⟩
    rw [List.mem_singleton]
    exact ne_of_mem_of_not_mem there (List.nodup_cons.mp distinct).1
  rw [enterBelow] at stopped
  rw [hasCycle, visitAll, ids, List.foldlM_cons, follow, if_neg List.not_mem_nil, if_neg List.not_mem_nil,
    stopped]
  rfl

namespace LimitDecides

variable {depth : Nat}

theorem acyclic (decides : g.LimitDecides depth) (closed : g.Closed) : g.Acyclic :=
  acyclic_of_not_looped (fun e there => (closed e there).1) decides.loopless

theorem exists_through (decides : g.LimitDecides depth) (closed : g.Closed) :
    ∃ h, g.Relisted h ∧ h.hasCycle depth = false := by
  have acyclic := decides.acyclic closed
  obtain ⟨h, relisted, ordered⟩ := acyclic.exists_ordered
  refine ⟨h, relisted, hasCycle_eq_false_of_ordered depth ?_ (relisted.closed.mp closed) ordered⟩
  rw [Acyclic, ← relisted.adjacent]
  exact acyclic

theorem exists_stopped (decides : g.LimitDecides depth) (closed : g.Closed) :
    ∃ h, g.Relisted h ∧ h.hasCycle depth = true := by
  have long := decides.deep
  simp only [ShallowFromIds, not_forall, not_le] at long
  obtain ⟨root, listed, below, walk, long⟩ := long
  have distinct := (decides.acyclic closed).nodup_path walk
  obtain ⟨node, there, rfl⟩ := List.mem_map.mp listed
  obtain ⟨front, behind, nodes⟩ := List.append_of_mem there
  obtain ⟨edges, moved, leads⟩ := exists_leading (node :: (front ++ behind)) walk distinct
  refine ⟨_, ⟨?_, moved⟩, hasCycle_eq_true_of_leading rfl leads distinct long⟩
  rw [nodes]
  exact List.perm_middle

end LimitDecides

end Attest.Graph

namespace Attest.Lint

open Attest.Graph

def orderlyErrors (rules : LintRules) (m : Manifest) : List Error :=
  versionErrors m ++ toolErrors rules m ++
    ((repeated [] m.graph.ids).map .duplicateNode ++ m.graph.edges.flatMap (danglingEnds m.graph.ids))

section

variable {rules : LintRules} {m : Manifest} {h : Graph}

theorem errors_eq_orderly : errors rules m =
    orderlyErrors rules m ++ if m.graph.hasCycle rules.depthLimit then [.cyclic] else [] := by
  simp only [errors, graphErrors, orderlyErrors, List.append_assoc]

theorem cyclic_not_mem_orderlyErrors : Error.cyclic ∉ orderlyErrors rules m := by
  simp [orderlyErrors, versionErrors, toolErrors, danglingEnds]

theorem cyclic_mem_errors_iff : .cyclic ∈ errors rules m ↔ m.graph.hasCycle rules.depthLimit = true := by
  rw [errors_eq_orderly, List.mem_append, or_iff_right cyclic_not_mem_orderlyErrors]
  simp

theorem exists_other_error_iff : (∃ e ∈ errors rules m, e ≠ .cyclic) ↔ orderlyErrors rules m ≠ [] := by
  rw [errors_eq_orderly]
  constructor
  · rintro ⟨e, there, other⟩ none
    rw [none, List.nil_append] at there
    split at there
    · exact other (List.mem_singleton.mp there)
    · cases there
  · intro some
    obtain ⟨e, there⟩ := List.exists_mem_of_ne_nil _ some
    exact ⟨e, List.mem_append_left _ there, ne_of_mem_of_not_mem there cyclic_not_mem_orderlyErrors⟩

theorem orderlyErrors_eq_nil_iff : orderlyErrors rules m = [] ↔
    versionErrors m = [] ∧ toolErrors rules m = [] ∧ m.graph.ids.Nodup ∧ m.graph.Closed := by
  simp only [orderlyErrors, List.append_eq_nil_iff, List.map_eq_nil_iff, repeated_eq_nil_iff,
    List.flatMap_eq_nil_iff, danglingEnds_eq_nil_iff, Closed]
  simp [and_assoc]

theorem orderlyErrors_relisted (relisted : m.graph.Relisted h) :
    orderlyErrors rules { m with graph := h } = [] ↔ orderlyErrors rules m = [] := by
  rw [orderlyErrors_eq_nil_iff, orderlyErrors_eq_nil_iff, relisted.closed, relisted.ids.nodup_iff]
  rfl

theorem valid_iff_orderly : (manifest rules m).valid = true ↔
    orderlyErrors rules m = [] ∧ m.graph.hasCycle rules.depthLimit = false := by
  rw [valid_iff_errors_eq_nil, graphErrors_eq_nil_iff, orderlyErrors_eq_nil_iff, Closed]
  simp only [and_assoc]

theorem valid_relisted_iff (relisted : m.graph.Relisted h) :
    (manifest rules { m with graph := h }).valid = true ↔
      orderlyErrors rules m = [] ∧ h.hasCycle rules.depthLimit = false := by
  rw [valid_iff_orderly, orderlyErrors_relisted relisted]

theorem valid_relisted (sure : ¬ m.graph.LimitDecides rules.depthLimit ∨ orderlyErrors rules m ≠ [])
    (relisted : m.graph.Relisted h) :
    (manifest rules { m with graph := h }).valid = (manifest rules m).valid := by
  rw [Bool.eq_iff_iff, valid_relisted_iff relisted, valid_iff_orderly]
  rcases sure with sure | other
  · have same : h.hasCycle rules.depthLimit = m.graph.hasCycle rules.depthLimit := by
      rw [Bool.eq_iff_iff, relisted.hasCycle_iff sure, (Relisted.refl m.graph).hasCycle_iff sure]
    rw [same]
  · exact iff_of_false (fun valid => other valid.1) (fun valid => other valid.1)

theorem exists_verdicts (decides : m.graph.LimitDecides rules.depthLimit)
    (orderly : orderlyErrors rules m = []) :
    (∃ h, m.graph.Relisted h ∧ (manifest rules { m with graph := h }).valid = true) ∧
      ∃ h, m.graph.Relisted h ∧ (manifest rules { m with graph := h }).valid = false := by
  have closed := (orderlyErrors_eq_nil_iff.mp orderly).2.2.2
  constructor
  · obtain ⟨h, relisted, through⟩ := decides.exists_through closed
    exact ⟨h, relisted, (valid_relisted_iff relisted).mpr ⟨orderly, through⟩⟩
  · obtain ⟨h, relisted, stopped⟩ := decides.exists_stopped closed
    refine ⟨h, relisted, ?_⟩
    rw [← Bool.not_eq_true, valid_relisted_iff relisted, stopped]
    simp

end

/-- Unless it is the limit that decides, the order of nodes and edges does not change whether a cycle is
reported. If it is, then with all ends of edges listed there is an order for either answer; and whether
the manifest is valid depends on the order unless it has other errors. -/
theorem verdict_of_relisting (rules : LintRules) (m : Manifest) :
    (¬ m.graph.LimitDecides rules.depthLimit → ∀ h, m.graph.Relisted h →
      (.cyclic ∈ (manifest rules { m with graph := h }).errors ↔ m.graph.Looped)) ∧
    (m.graph.LimitDecides rules.depthLimit → m.graph.Closed →
      (∃ h, m.graph.Relisted h ∧ .cyclic ∈ (manifest rules { m with graph := h }).errors) ∧
        ∃ h, m.graph.Relisted h ∧ .cyclic ∉ (manifest rules { m with graph := h }).errors) ∧
    ((∀ h, m.graph.Relisted h → (manifest rules { m with graph := h }).valid = (manifest rules m).valid) ↔
      ¬ m.graph.LimitDecides rules.depthLimit ∨ ∃ e ∈ (manifest rules m).errors, e ≠ .cyclic) := by
  have reported (h : Graph) : .cyclic ∈ (manifest rules { m with graph := h }).errors ↔
      h.hasCycle rules.depthLimit = true := cyclic_mem_errors_iff
  have others : (∃ e ∈ (manifest rules m).errors, e ≠ .cyclic) ↔ orderlyErrors rules m ≠ [] :=
    exists_other_error_iff
  rw [others]
  refine ⟨?_, ?_, ?_, ?_⟩
  · intro sure h relisted
    rw [reported, relisted.hasCycle_iff sure]
  · intro decides closed
    obtain ⟨h, relisted, stopped⟩ := decides.exists_stopped closed
    obtain ⟨k, relistedToo, through⟩ := decides.exists_through closed
    refine ⟨⟨h, relisted, (reported h).mpr stopped⟩, k, relistedToo, ?_⟩
    rw [reported, through]
    exact Bool.false_ne_true
  · intro same
    by_contra neither
    obtain ⟨decides, orderly⟩ := not_or.mp neither
    obtain ⟨⟨h, relisted, valid⟩, k, relistedToo, invalid⟩ :=
      exists_verdicts (not_not.mp decides) (not_not.mp orderly)
    rw [same h relisted, ← same k relistedToo, invalid] at valid
    cases valid
  · intro sure h
    exact valid_relisted sure

def chain : Manifest := { Manifest.empty with
  specVersion := some "1.0"
  graph := ⟨[.plain "a" "", .plain "b" "", .plain "c" ""], [⟨"a", "b"⟩, ⟨"b", "c"⟩]⟩ }

/-- A limit that the chain is too long for, and one that it keeps. -/
theorem verdict_of_relisting_chain :
    let within (depth : Nat) : LintRules := { LintRules.default with depthLimit := depth }
    (chain.graph.LimitDecides 1 ∧ chain.graph.Closed ∧
      (∃ h, chain.graph.Relisted h ∧ .cyclic ∈ (manifest (within 1) { chain with graph := h }).errors) ∧
      ∃ h, chain.graph.Relisted h ∧ .cyclic ∉ (manifest (within 1) { chain with graph := h }).errors) ∧
    (¬ chain.graph.LimitDecides 2 ∧
      ∀ h, chain.graph.Relisted h → (manifest (within 2) { chain with graph := h }).valid = true) := by
  intro within
  have forward {x y : String} (edge : chain.graph.Adjacent x y) : x = "a" ∧ y = "b" ∨ x = "b" ∧ y = "c" := by
    simpa [Adjacent, chain] using edge
  have loopless : ¬ chain.graph.Looped := by
    intro looped
    exact absurd (hasCycle_eq_true_of_looped 2 looped) (by decide)
  have decides : chain.graph.LimitDecides 1 := by
    refine ⟨loopless, fun shallow => ?_⟩
    have walk : ["a", "b", "c"].IsChain chain.graph.Adjacent := by simp [Adjacent, chain]
    exact absurd (shallow "a" (by decide) ["b", "c"] walk) (by decide)
  have closed : chain.graph.Closed := by
    unfold Closed
    decide
  have sure : ¬ chain.graph.LimitDecides 2 := by
    rintro ⟨-, deep⟩
    apply deep
    intro root _ below walk
    rcases below with _ | ⟨b, _ | ⟨c, _ | ⟨d, below⟩⟩⟩
    any_goals simp
    -- No edge leads to the first id, and none from the last.
    obtain ⟨first, second, third, -⟩ : chain.graph.Adjacent root b ∧ chain.graph.Adjacent b c ∧
        chain.graph.Adjacent c d ∧ (d :: below).IsChain chain.graph.Adjacent := by
      simpa using walk
    rcases forward second with ⟨rfl, -⟩ | ⟨-, rfl⟩
    · exact absurd (forward first) (by simp)
    · exact absurd (forward third) (by simp)
  obtain ⟨-, either, -⟩ := verdict_of_relisting (within 1) chain
  obtain ⟨-, -, same⟩ := verdict_of_relisting (within 2) chain
  refine ⟨⟨decides, closed, either decides closed⟩, sure, fun h relisted => ?_⟩
  rw [same.mpr (.inl sure) h relisted]
  decide

/-- From the first id on, the search walks down all of the chain; from the last one on, never more than
one edge. -/
theorem verdict_depends_on_order :
    let rules : LintRules := { LintRules.default with depthLimit := 1 }
    let last : Graph := ⟨[.plain "c" "", .plain "b" "", .plain "a" ""], chain.graph.edges⟩
    chain.graph.Relisted last ∧
      ((manifest rules chain).valid = false ∧ .cyclic ∈ (manifest rules chain).errors) ∧
      (manifest rules { chain with graph := last }).valid = true ∧
        .cyclic ∉ (manifest rules { chain with graph := last }).errors := by
  intro rules last
  exact ⟨⟨List.reverse_perm last.nodes, .refl _⟩, by decide, by decide⟩

end Attest.Lint
