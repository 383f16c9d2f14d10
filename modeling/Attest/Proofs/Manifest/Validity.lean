import Attest.Manifest.Lint
import Attest.Proofs.Manifest.Loop

namespace Attest.Lint

open Attest.Graph

structure WellFormed (rules : LintRules) (m : Manifest) : Prop where
  versioned : ∃ version, m.specVersion = some version ∧ version ≠ ""
  named : ∀ tool ∈ m.tools, tool.length ≤ rules.toolNameLimit
  distinct : m.graph.ids.Nodup
  closed : ∀ e ∈ m.graph.edges, e.source ∈ m.graph.ids ∧ e.target ∈ m.graph.ids
  acyclic : m.graph.Acyclic

section

variable {rules : LintRules} {m : Manifest}

theorem versionErrors_eq_nil_iff :
    versionErrors m = [] ↔ ∃ version, m.specVersion = some version ∧ version ≠ "" := by
  unfold versionErrors
  cases m.specVersion with
  | none => simp
  | some version => by_cases empty : version = "" <;> simp [empty]

theorem toolErrors_eq_nil_iff :
    toolErrors rules m = [] ↔ ∀ tool ∈ m.tools, tool.length ≤ rules.toolNameLimit := by
  simp [toolErrors, List.filter_eq_nil_iff]

theorem repeated_eq_nil_iff {seen ids : List String} :
    repeated seen ids = [] ↔ ids.Nodup ∧ ∀ id ∈ ids, id ∉ seen := by
  induction ids generalizing seen with
  | nil => simp [repeated]
  | cons id ids ih =>
    rw [repeated, List.nodup_cons]
    split
    · rename_i again
      simp [again]
    · rename_i fresh
      rw [ih]
      constructor
      · rintro ⟨distinct, apart⟩
        refine ⟨⟨fun member => apart id member List.mem_cons_self, distinct⟩, ?_⟩
        rintro other (_ | ⟨_, member⟩)
        · exact fresh
        · exact fun before => apart other member (List.mem_cons_of_mem _ before)
      · rintro ⟨⟨once, distinct⟩, apart⟩
        refine ⟨distinct, fun other member before => ?_⟩
        rcases List.mem_cons.mp before with rfl | before
        · exact once member
        · exact apart other (List.mem_cons_of_mem _ member) before

theorem danglingEnds_eq_nil_iff {ids : List String} {e : Edge} :
    danglingEnds ids e = [] ↔ e.source ∈ ids ∧ e.target ∈ ids := by
  simp [danglingEnds, List.filter_eq_nil_iff]

theorem graphErrors_eq_nil_iff {g : Graph} : graphErrors rules g = [] ↔
    g.ids.Nodup ∧ (∀ e ∈ g.edges, e.source ∈ g.ids ∧ e.target ∈ g.ids) ∧
      g.hasCycle rules.depthLimit = false := by
  simp only [graphErrors, List.append_eq_nil_iff, List.map_eq_nil_iff, repeated_eq_nil_iff,
    List.flatMap_eq_nil_iff, danglingEnds_eq_nil_iff]
  simp [and_assoc]

theorem valid_iff_errors_eq_nil : (manifest rules m).valid = true ↔
    versionErrors m = [] ∧ toolErrors rules m = [] ∧ graphErrors rules m.graph = [] := by
  simp [manifest, errors, List.append_eq_nil_iff]

end

/-- A valid manifest is well formed, however deep the search may go. A well-formed one is valid if the
search may go as deep as its paths do, whatever the warnings are. And the search ends, as a loop too. -/
theorem valid_exactly_well_formed (rules : LintRules) (m : Manifest) :
    ((manifest rules m).valid = true → WellFormed rules m) ∧
      (WellFormed rules m → m.graph.Shallow rules.depthLimit → (manifest rules m).valid = true) ∧
      ∀ (g : Graph) (depth : Nat), (Search.start g).EndsWith g depth (g.hasCycle depth) := by
  simp only [valid_iff_errors_eq_nil, versionErrors_eq_nil_iff, toolErrors_eq_nil_iff,
    graphErrors_eq_nil_iff]
  refine ⟨?_, ?_, Search.endsWith_hasCycle⟩
  · rintro ⟨versioned, named, distinct, closed, through⟩
    have acyclic := acyclic_of_hasCycle_eq_false (fun e member => (closed e member).1) through
    exact ⟨versioned, named, distinct, closed, acyclic⟩
  · rintro ⟨versioned, named, distinct, closed, acyclic⟩ shallow
    exact ⟨versioned, named, distinct, closed, hasCycle_eq_false_of_acyclic acyclic shallow⟩

/-- Two ways from the first node to the last, one of them listed twice, and a limit that the longer one
just keeps. -/
theorem valid_exactly_well_formed_shortcut :
    let g : Graph := ⟨[.plain "a" "", .plain "b" "", .plain "c" ""],
      [⟨"a", "b"⟩, ⟨"b", "c"⟩, ⟨"a", "c"⟩, ⟨"a", "c"⟩]⟩
    let m : Manifest := { Manifest.empty with specVersion := some "2.0", tools := ["éé"], graph := g }
    let rules : LintRules := { LintRules.default with toolNameLimit := 2, depthLimit := 2 }
    WellFormed rules m ∧ g.Shallow 2 ∧ (manifest rules m).valid = true := by
  intro g m rules
  have forward : ∀ a b, g.Adjacent a b → (a = "a" ∧ (b = "b" ∨ b = "c")) ∨ (a = "b" ∧ b = "c") := by
    intro a b edge
    simp only [Adjacent, g, List.mem_cons, Edge.mk.injEq, List.not_mem_nil, or_false] at edge
    rcases edge with ⟨rfl, rfl⟩ | ⟨rfl, rfl⟩ | ⟨rfl, rfl⟩ | ⟨rfl, rfl⟩ <;> decide
  have shallow : g.Shallow 2 := by
    intro path walk
    rcases path with _ | ⟨a, _ | ⟨b, _ | ⟨c, _ | ⟨d, path⟩⟩⟩⟩
    any_goals simp
    obtain ⟨first, second, third, -⟩ :
        g.Adjacent a b ∧ g.Adjacent b c ∧ g.Adjacent c d ∧ (d :: path).IsChain g.Adjacent := by
      simpa using walk
    -- The second id is the middle one, so the third one has no successor.
    rcases forward a b first with ⟨-, rfl | rfl⟩ | ⟨-, rfl⟩
    · rcases forward _ c second with ⟨wrong, -⟩ | ⟨-, rfl⟩
      · exact absurd wrong (by decide)
      · exact absurd (forward _ d third) (by simp)
    · exact absurd (forward _ c second) (by simp)
    · exact absurd (forward _ c second) (by simp)
  obtain ⟨sound, complete, -⟩ := valid_exactly_well_formed rules m
  have wellFormed : WellFormed rules m := sound (by decide)
  exact ⟨wellFormed, shallow, complete wellFormed shallow⟩

end Attest.Lint
