import Mathlib.Order.Monotone.Defs
import Attest.Proofs.Manifest.Relisting

namespace Attest.Graph.Search

variable {g : Graph} {limit low high : Nat} {s t : Search}

theorem advance_of_le (le : low ≤ high) (s : Search) :
    s.advance g low = .inl true ∨ s.advance g high = s.advance g low := by
  cases s with
  | mk roots frames visited onStack =>
    cases frames with
    | nil => right; cases roots <;> rfl
    | cons frame below =>
      cases here : (g.successors frame.id)[frame.next]? with
      | none => right; simp only [advance, here]
      | some child =>
        simp only [advance, here]
        by_cases back : child ∈ onStack
        · left; rw [if_pos back]
        · by_cases seen : child ∈ visited
          · right; simp only [if_neg back, if_pos seen]
          · by_cases deep : low < (⟨frame.id, frame.next + 1⟩ :: below : List Frame).length
            · left; rw [if_neg back, if_neg seen, if_pos deep]
            · have shallow : ¬ high < (⟨frame.id, frame.next + 1⟩ :: below : List Frame).length := by omega
              right; simp only [if_neg back, if_neg seen, if_neg deep, if_neg shallow]

theorem advance_inr_of_le (le : low ≤ high) (step : s.advance g low = .inr t) :
    s.advance g high = .inr t := by
  rcases advance_of_le le s with stopped | same
  · cases stopped.symm.trans step
  · exact same.trans step

theorem Reaches.of_le (le : low ≤ high) (reaches : Reaches g low s t) : Reaches g high s t :=
  Relation.ReflTransGen.mono (fun _ _ step => advance_inr_of_le le step) _ _ reaches

theorem EndsWith.false_of_le (le : low ≤ high) (ends : EndsWith g low s false) : EndsWith g high s false := by
  rcases ends with ⟨last, reaches, final⟩
  refine ⟨last, reaches.of_le le, ?_⟩
  rcases advance_of_le le last with stopped | same
  · cases stopped.symm.trans final
  · exact same.trans final

theorem Reaches.eq_of_final {answer : Bool} (final : s.advance g limit = .inl answer)
    (reaches : Reaches g limit s t) : t = s := by
  apply (Relation.reflTransGen_iff_eq _).mp reaches
  intro next step
  cases final.symm.trans step

theorem EndsWith.unique {a b : Bool} (first : EndsWith g limit s a) (second : EndsWith g limit s b) : a = b := by
  rcases first with ⟨last, reaches, final⟩
  rcases second with ⟨other, otherReaches, otherFinal⟩
  have functional : Relator.RightUnique fun s t : Search => s.advance g limit = .inr t := by
    intro s t u step otherStep
    exact Sum.inr.inj (step.symm.trans otherStep)
  have same : last = other := by
    rcases Relation.ReflTransGen.total_of_right_unique functional reaches otherReaches with further | back
    · exact (Reaches.eq_of_final final further).symm
    · exact Reaches.eq_of_final otherFinal back
  rw [same] at final
  exact Sum.inl.inj (final.symm.trans otherFinal)

theorem endsWith_start_iff {answer : Bool} : (start g).EndsWith g limit answer ↔ g.hasCycle limit = answer := by
  constructor
  · exact (endsWith_hasCycle g limit).unique
  · rintro rfl
    exact endsWith_hasCycle g limit

end Attest.Graph.Search

namespace Attest.Graph

theorem hasCycle_antitone (g : Graph) : Antitone g.hasCycle := by
  intro low high le stopped
  by_contra through
  have lower : (Search.start g).EndsWith g low false :=
    Search.endsWith_start_iff.mpr (Bool.eq_false_of_not_eq_true through)
  cases stopped.symm.trans (Search.endsWith_start_iff.mp (lower.false_of_le le))

end Attest.Graph

namespace Attest.Lint

open Attest.Graph

/-- The same rules, but for limits none of which is lower. -/
structure Relaxed (strict lenient : LintRules) : Prop where
  toolName : strict.toolNameLimit ≤ lenient.toolNameLimit
  nodes : strict.nodeLimit ≤ lenient.nodeLimit
  depth : strict.depthLimit ≤ lenient.depthLimit
  specMajor : lenient.specMajor = strict.specMajor
  systemPermission : lenient.systemPermission = strict.systemPermission
  proofLeaf : lenient.proofLeaf = strict.proofLeaf

namespace Relaxed

variable {strict lenient : LintRules} (relaxed : Relaxed strict lenient)

include relaxed

theorem toolErrors (m : Manifest) : (toolErrors lenient m).Sublist (toolErrors strict m) := by
  apply List.Sublist.map
  apply List.monotone_filter_right
  intro tool long
  have bound := relaxed.toolName
  simp only [decide_eq_true_eq] at long ⊢
  omega

theorem graphErrors (g : Graph) : (graphErrors lenient g).Sublist (graphErrors strict g) := by
  apply List.Sublist.append (List.Sublist.refl _)
  by_cases stopped : g.hasCycle lenient.depthLimit = true
  · have earlier : g.hasCycle strict.depthLimit = true := hasCycle_antitone g relaxed.depth stopped
    rw [if_pos stopped, if_pos earlier]
  · rw [if_neg stopped]
    exact List.nil_sublist _

theorem errors (m : Manifest) : (errors lenient m).Sublist (errors strict m) :=
  ((List.Sublist.refl _).append (relaxed.toolErrors m)).append (relaxed.graphErrors m.graph)

end Relaxed

/-- Under higher limits no error is added, so that a valid manifest stays valid; and the pack is known by
the same hash and the same integrity. The search gives up less often, as the loop does. -/
theorem relaxing_never_invalidates (m : Manifest) {strict lenient : LintRules}
    (relaxed : Relaxed strict lenient) :
    (manifest lenient m).errors.Sublist (manifest strict m).errors ∧
    ((manifest strict m).valid = true → (manifest lenient m).valid = true) ∧
    (∀ g : Graph, Antitone g.hasCycle ∧
      ∀ depth answer, (Search.start g).EndsWith g depth answer ↔ g.hasCycle depth = answer) ∧
    (manifest lenient m).hash = (manifest strict m).hash ∧
    (manifest lenient m).root = (manifest strict m).root ∧
    (manifest lenient m).integrity = (manifest strict m).integrity ∧
    (manifest lenient m).proof = (manifest strict m).proof := by
  have fewer := relaxed.errors m
  refine ⟨fewer, ?_, ?_, rfl, rfl, rfl, ?_⟩
  · intro valid
    have none : errors strict m = [] := List.isEmpty_iff.mp valid
    rw [none] at fewer
    exact List.isEmpty_iff.mpr (List.sublist_nil.mp fewer)
  · intro g
    exact ⟨hasCycle_antitone g, fun depth answer => Search.endsWith_start_iff⟩
  · simp only [manifest, relaxed.proofLeaf]

/-- Limits that the manifest just keeps, and higher ones. With one edge at most, the chain is too long. -/
theorem relaxing_never_invalidates_chain :
    let strict : LintRules := { LintRules.default with toolNameLimit := 2, nodeLimit := 2, depthLimit := 2 }
    let lenient : LintRules := { strict with nodeLimit := 3, depthLimit := 7 }
    let m : Manifest := { chain with tools := ["éé"] }
    Relaxed strict lenient ∧ (manifest strict m).valid = true ∧ (manifest lenient m).valid = true ∧
      m.graph.hasCycle 7 = false ∧ m.graph.hasCycle 1 = true := by
  intro strict lenient m
  have relaxed : Relaxed strict lenient := ⟨by decide, by decide, by decide, rfl, rfl, rfl⟩
  have valid : (manifest strict m).valid = true := by decide
  rcases relaxing_never_invalidates m relaxed with ⟨-, kept, search, -⟩
  have through : m.graph.hasCycle 2 = false := by decide
  have deeper := (search m.graph).1 (show 2 ≤ 7 by decide)
  rw [through] at deeper
  exact ⟨relaxed, valid, kept valid, Bool.eq_false_of_le_false deeper, by decide⟩

end Attest.Lint
