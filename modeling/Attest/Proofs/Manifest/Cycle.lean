import Mathlib.Data.List.Chain
import Mathlib.Data.List.Nodup
import Mathlib.Data.List.Perm.Subperm
import Mathlib.Logic.Relation
import Attest.Manifest.Graph

namespace Attest.Graph

variable {g : Graph}

def Adjacent (g : Graph) (a b : String) : Prop := ⟨a, b⟩ ∈ g.edges

def Acyclic (g : Graph) : Prop := ∀ id, ¬ Relation.TransGen g.Adjacent id id

def Shallow (g : Graph) (depth : Nat) : Prop :=
  ∀ path : List String, path.IsChain g.Adjacent → path.length ≤ depth + 1

def Looped (g : Graph) : Prop :=
  ∃ root ∈ g.ids, ∃ id, Relation.ReflTransGen g.Adjacent root id ∧ Relation.TransGen g.Adjacent id id

def ShallowFromIds (g : Graph) (depth : Nat) : Prop :=
  ∀ root ∈ g.ids, ∀ below : List String, (root :: below).IsChain g.Adjacent → below.length ≤ depth

theorem mem_successors {a b : String} : b ∈ g.successors a ↔ g.Adjacent a b := by
  simp only [successors, List.mem_map, List.mem_filter, decide_eq_true_eq, Adjacent]
  constructor
  · rintro ⟨⟨source, target⟩, ⟨member, rfl⟩, rfl⟩
    exact member
  · intro member
    exact ⟨⟨a, b⟩, ⟨member, rfl⟩, rfl⟩

def Ends (g : Graph) (id : String) : Prop := Acc (fun b a => g.Adjacent a b) id

theorem Ends.not_on_cycle {id : String} (ends : g.Ends id) : ¬ Relation.TransGen g.Adjacent id id := by
  induction ends with
  | intro id _ ih =>
    intro cycle
    obtain ⟨next, edge, back⟩ := Relation.TransGen.head'_iff.mp cycle
    exact ih next edge (Relation.TransGen.tail' back edge)

theorem Ends.of_reaches {id last : String} (ends : g.Ends id)
    (reaches : Relation.ReflTransGen g.Adjacent id last) : g.Ends last := by
  induction reaches with
  | refl => exact ends
  | tail _ edge ih => exact ih.inv edge

/-- How the search goes on below an id, if it may go `depth` edges deep there. -/
def enterBelow (g : Graph) (path : List String) : (depth : Nat) →
    (child : String) → (visited : List String) → Option (List String)
  | 0 => fun _ _ => none
  | depth + 1 => g.visit depth path

theorem visit_eq (depth : Nat) (above : List String) (id : String) (visited : List String) :
    g.visit depth above id visited =
      (g.successors id).foldlM (follow (g.enterBelow (id :: above) depth) (id :: above)) visited := by
  cases depth <;> rfl

def Settled (g : Graph) (path visited : List String) : Prop := ∀ id ∈ visited, id ∉ path → g.Ends id

section

variable {enter : String → List String → Option (List String)} {path : List String}

theorem settled_foldlM
    (kept : ∀ child visited final, enter child (child :: visited) = some final →
      g.Settled path visited → child :: visited ⊆ final ∧ g.Settled path final)
    {children visited final : List String}
    (through : children.foldlM (follow enter path) visited = some final)
    (settled : g.Settled path visited) :
    visited ⊆ final ∧ g.Settled path final ∧ ∀ child ∈ children, child ∈ final ∧ child ∉ path := by
  induction children generalizing visited with
  | nil =>
    obtain rfl := Option.some.inj through
    exact ⟨List.Subset.refl _, settled, by simp⟩
  | cons child children ih =>
    simp only [List.foldlM_cons, Option.bind_eq_bind, Option.bind_eq_some_iff] at through
    obtain ⟨between, first, rest⟩ := through
    unfold follow at first
    split at first
    · cases first
    · rename_i offPath
      split at first
      · rename_i seen
        obtain rfl := Option.some.inj first
        obtain ⟨grown, done, others⟩ := ih rest settled
        refine ⟨grown, done, ?_⟩
        rintro id (_ | ⟨_, member⟩)
        · exact ⟨grown seen, offPath⟩
        · exact others id member
      · obtain ⟨entered, settledBetween⟩ := kept child visited between first settled
        obtain ⟨grown, done, others⟩ := ih rest settledBetween
        refine ⟨fun id member => grown (entered (List.mem_cons_of_mem _ member)), done, ?_⟩
        rintro id (_ | ⟨_, member⟩)
        · exact ⟨grown (entered List.mem_cons_self), offPath⟩
        · exact others id member

theorem stopped_foldlM {children visited : List String}
    (stopped : children.foldlM (follow enter path) visited = none) :
    ∃ child ∈ children, child ∈ path ∨ ∃ seen, enter child (child :: seen) = none := by
  induction children generalizing visited with
  | nil => cases stopped
  | cons child children ih =>
    simp only [List.foldlM_cons, Option.bind_eq_bind] at stopped
    cases first : follow enter path visited child with
    | some between =>
      rw [first] at stopped
      obtain ⟨id, member, reason⟩ := ih stopped
      exact ⟨id, List.mem_cons_of_mem _ member, reason⟩
    | none =>
      refine ⟨child, List.mem_cons_self, ?_⟩
      unfold follow at first
      split at first
      · rename_i back
        exact .inl back
      · split at first
        · cases first
        · exact .inr ⟨visited, first⟩

end

theorem settled_enterBelow (depth : Nat) (path : List String) : ∀ child visited final,
    g.enterBelow path depth child (child :: visited) = some final → g.Settled path visited →
      child :: visited ⊆ final ∧ g.Settled path final := by
  induction depth generalizing path with
  | zero =>
    intro child visited final through
    cases through
  | succ depth ih =>
    intro child visited final through settled
    have entered : g.Settled (child :: path) (child :: visited) := by
      rintro id (_ | ⟨_, member⟩) off
      · exact absurd List.mem_cons_self off
      · exact settled id member fun onPath => off (List.mem_cons_of_mem _ onPath)
    rw [enterBelow, visit_eq] at through
    obtain ⟨grown, done, below⟩ := settled_foldlM (ih (child :: path)) through entered
    refine ⟨grown, fun id member off => ?_⟩
    by_cases left : id = child
    · -- The child is left: walks end from all its successors.
      subst left
      apply Acc.intro
      intro next edge
      obtain ⟨there, leftToo⟩ := below next (mem_successors.mpr edge)
      exact done next there leftToo
    · exact done id member (by simp [left, off])

theorem ends_of_visitAll {depth : Nat} {visited : List String} (through : g.visitAll depth = some visited)
    {id : String} (listed : id ∈ g.ids) : g.Ends id := by
  have none : g.Settled [] [] := fun _ member => nomatch member
  obtain ⟨-, done, all⟩ := settled_foldlM (settled_enterBelow (depth + 1) []) through none
  obtain ⟨there, left⟩ := all id listed
  exact done id there left

theorem reaches_of_mem_path {path : List String} {last id : String}
    (walk : (last :: path).IsChain fun a b => g.Adjacent b a) (member : id ∈ last :: path) :
    Relation.ReflTransGen g.Adjacent id last := by
  apply walk.induction (fun id => Relation.ReflTransGen g.Adjacent id last) _ ?_ ?_ id member
  · intro a b edge reaches
    exact .head edge reaches
  · intro _
    exact .refl

/-- What stops the search below an id: a cycle that is reached from there, or a path that goes on for
as many edges as the search may go deep. -/
theorem stopped_enterBelow (depth : Nat) {path : List String} {child : String} {visited : List String}
    (stopped : g.enterBelow path depth child visited = none)
    (walk : (child :: path).IsChain fun a b => g.Adjacent b a) :
    (∃ id, Relation.ReflTransGen g.Adjacent child id ∧ Relation.TransGen g.Adjacent id id) ∨
      ∃ below : List String, (child :: below).IsChain g.Adjacent ∧ below.length = depth := by
  induction depth generalizing path child visited with
  | zero => exact .inr ⟨[], .singleton child, rfl⟩
  | succ depth ih =>
    rw [enterBelow, visit_eq] at stopped
    obtain ⟨next, member, reason⟩ := stopped_foldlM stopped
    have edge : g.Adjacent child next := mem_successors.mp member
    rcases reason with back | ⟨seen, stopped⟩
    · exact .inl ⟨child, .refl, .head' edge (reaches_of_mem_path walk back)⟩
    · rcases ih stopped (walk.cons_cons edge) with ⟨id, reaches, cycle⟩ | ⟨below, further, length⟩
      · exact .inl ⟨id, .head edge reaches, cycle⟩
      · exact .inr ⟨next :: below, further.cons_cons edge, congrArg Nat.succ length⟩

theorem stopped_visitAll {depth : Nat} (stopped : g.visitAll depth = none) :
    g.Looped ∨ ¬ g.ShallowFromIds depth := by
  obtain ⟨root, listed, back | ⟨seen, stopped⟩⟩ := stopped_foldlM stopped
  · cases back
  · rcases stopped_enterBelow (depth + 1) stopped (.singleton root) with cycle | ⟨below, walk, length⟩
    · exact .inl ⟨root, listed, cycle⟩
    · refine .inr fun shallow => ?_
      have bound := shallow root listed below walk
      omega

theorem hasCycle_eq_true_of_looped (depth : Nat) (looped : g.Looped) : g.hasCycle depth = true := by
  obtain ⟨root, listed, id, reaches, cycle⟩ := looped
  unfold hasCycle
  cases found : g.visitAll depth with
  | none => rfl
  | some visited => exact absurd cycle ((ends_of_visitAll found listed).of_reaches reaches).not_on_cycle

theorem hasCycle_eq_false_of_shallow {depth : Nat} (loopless : ¬ g.Looped) (shallow : g.ShallowFromIds depth) :
    g.hasCycle depth = false := by
  unfold hasCycle
  cases found : g.visitAll depth with
  | some visited => rfl
  | none => rcases stopped_visitAll found with looped | deep <;> contradiction

theorem acyclic_of_not_looped (closed : ∀ e ∈ g.edges, e.source ∈ g.ids) (loopless : ¬ g.Looped) :
    g.Acyclic := by
  intro id cycle
  obtain ⟨next, edge, -⟩ := Relation.TransGen.head'_iff.mp cycle
  exact loopless ⟨id, closed _ edge, id, .refl, cycle⟩

theorem acyclic_of_hasCycle_eq_false {depth : Nat} (closed : ∀ e ∈ g.edges, e.source ∈ g.ids)
    (through : g.hasCycle depth = false) : g.Acyclic := by
  apply acyclic_of_not_looped closed
  intro looped
  cases through.symm.trans (hasCycle_eq_true_of_looped depth looped)

theorem Acyclic.not_looped (acyclic : g.Acyclic) : ¬ g.Looped :=
  fun ⟨_, _, id, _, cycle⟩ => acyclic id cycle

theorem Shallow.fromIds {depth : Nat} (shallow : g.Shallow depth) : g.ShallowFromIds depth :=
  fun root _ below walk => Nat.le_of_succ_le_succ (shallow (root :: below) walk)

theorem hasCycle_eq_false_of_acyclic {depth : Nat} (acyclic : g.Acyclic) (shallow : g.Shallow depth) :
    g.hasCycle depth = false :=
  hasCycle_eq_false_of_shallow acyclic.not_looped shallow.fromIds

theorem Acyclic.nodup_path (acyclic : g.Acyclic) {path : List String} (walk : path.IsChain g.Adjacent) :
    path.Nodup := by
  have further : path.IsChain (Relation.TransGen g.Adjacent) := walk.imp fun _ _ => .single
  apply further.pairwise.imp
  rintro a b reaches rfl
  exact acyclic a reaches

theorem mem_ids_of_walk (closed : ∀ e ∈ g.edges, e.target ∈ g.ids) {first : String} {path : List String}
    (walk : (first :: path).IsChain g.Adjacent) : path ⊆ g.ids := by
  induction path generalizing first with
  | nil => exact List.nil_subset _
  | cons next path ih =>
    obtain ⟨edge, rest⟩ := List.isChain_cons_cons.mp walk
    exact List.cons_subset.mpr ⟨closed _ edge, ih rest⟩

theorem Acyclic.shallow (acyclic : g.Acyclic)
    (closed : ∀ e ∈ g.edges, e.source ∈ g.ids ∧ e.target ∈ g.ids) {depth : Nat}
    (few : g.nodes.length ≤ depth + 1) : g.Shallow depth := by
  intro path walk
  match path with
  | [] => exact Nat.zero_le _
  | [_] => exact Nat.succ_le_succ (Nat.zero_le _)
  | first :: next :: path =>
    obtain ⟨edge, -⟩ := List.isChain_cons_cons.mp walk
    have listed : first :: next :: path ⊆ g.ids :=
      List.cons_subset.mpr ⟨(closed _ edge).1, mem_ids_of_walk (fun e member => (closed e member).2) walk⟩
    calc (first :: next :: path).length ≤ g.ids.length :=
          (List.subperm_of_subset (acyclic.nodup_path walk) listed).length_le
      _ = g.nodes.length := List.length_map _
      _ ≤ depth + 1 := few

end Attest.Graph
