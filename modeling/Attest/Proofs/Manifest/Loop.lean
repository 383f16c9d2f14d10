import Attest.Proofs.Manifest.Cycle

namespace Attest.Graph

structure Frame where
  id : String
  next : Nat

structure Search where
  roots : List String
  frames : List Frame
  visited : List String
  onStack : List String

namespace Search

def advance (g : Graph) (limit : Nat) : Search → Bool ⊕ Search
  | ⟨[], [], _, _⟩ => .inl false
  | ⟨root :: roots, [], visited, onStack⟩ =>
    if root ∈ visited then .inr ⟨roots, [], visited, onStack⟩
    else .inr ⟨roots, [⟨root, 0⟩], root :: visited, root :: onStack⟩
  | ⟨roots, ⟨id, next⟩ :: below, visited, onStack⟩ =>
    match (g.successors id)[next]? with
    | none => .inr ⟨roots, below, visited, onStack.erase id⟩
    | some child =>
      let looked := ⟨id, next + 1⟩ :: below
      if child ∈ onStack then .inl true
      else if child ∈ visited then .inr ⟨roots, looked, visited, onStack⟩
      else if limit < looked.length then .inl true
      else .inr ⟨roots, ⟨child, 0⟩ :: looked, child :: visited, child :: onStack⟩

def start (g : Graph) : Search := ⟨g.ids, [], [], []⟩

def Reaches (g : Graph) (limit : Nat) : Search → Search → Prop :=
  Relation.ReflTransGen fun s t => s.advance g limit = .inr t

def EndsWith (g : Graph) (limit : Nat) (s : Search) (answer : Bool) : Prop :=
  ∃ last, Reaches g limit s last ∧ last.advance g limit = .inl answer

variable {g : Graph} {limit : Nat}

theorem EndsWith.step {s t : Search} {answer : Bool} (step : s.advance g limit = .inr t)
    (ends : EndsWith g limit t answer) : EndsWith g limit s answer := by
  obtain ⟨last, reaches, final⟩ := ends
  exact ⟨last, .head step reaches, final⟩

theorem EndsWith.trans {s t : Search} {answer : Bool} (reaches : Reaches g limit s t)
    (ends : EndsWith g limit t answer) : EndsWith g limit s answer := by
  obtain ⟨last, more, final⟩ := ends
  exact ⟨last, reaches.trans more, final⟩

def holding (roots : List String) (frames : List Frame) (visited : List String) : Search :=
  ⟨roots, frames, visited, frames.map Frame.id⟩

/-- What the recursive search gives is what the loop comes to: with the frames `below` left on the
stack or, where the search gives up, in a cycle that is reported. -/
def Follows (g : Graph) (limit : Nat) (s : Search) (roots : List String) (below : List Frame) :
    Option (List String) → Prop
  | some final => Reaches g limit s (holding roots below final)
  | none => EndsWith g limit s true

theorem Follows.step {s t : Search} {roots : List String} {below : List Frame}
    {result : Option (List String)} (step : s.advance g limit = .inr t)
    (follows : Follows g limit t roots below result) : Follows g limit s roots below result := by
  cases result with
  | some final => exact .head step follows
  | none => exact EndsWith.step step follows

theorem Follows.bind {s : Search} {roots : List String} {above below : List Frame}
    {result : Option (List String)} {more : List String → Option (List String)}
    (follows : Follows g limit s roots above result)
    (rest : ∀ visited, Follows g limit (holding roots above visited) roots below (more visited)) :
    Follows g limit s roots below (result.bind more) := by
  cases result with
  | none => exact follows
  | some visited =>
    have after := rest visited
    rw [Option.bind_some]
    cases last : more visited with
    | some final =>
      rw [last] at after
      exact follows.trans after
    | none =>
      rw [last] at after
      exact EndsWith.trans follows after

section

variable (roots : List String) (below : List Frame) (visited : List String) {id child : String}
  {next : Nat}

theorem advance_leave (done : (g.successors id)[next]? = none) :
    (holding roots (⟨id, next⟩ :: below) visited).advance g limit =
      .inr (holding roots below visited) := by
  simp [holding, advance, done]

theorem advance_back (here : (g.successors id)[next]? = some child)
    (back : child ∈ id :: below.map Frame.id) :
    (holding roots (⟨id, next⟩ :: below) visited).advance g limit = .inl true := by
  simp only [holding, advance, List.map_cons, here, if_pos back]

theorem advance_seen (here : (g.successors id)[next]? = some child)
    (fresh : child ∉ id :: below.map Frame.id) (seen : child ∈ visited) :
    (holding roots (⟨id, next⟩ :: below) visited).advance g limit =
      .inr (holding roots (⟨id, next + 1⟩ :: below) visited) := by
  simp only [holding, advance, List.map_cons, here, if_neg fresh, if_pos seen]

theorem advance_deep (here : (g.successors id)[next]? = some child)
    (fresh : child ∉ id :: below.map Frame.id) (unseen : child ∉ visited)
    (deep : limit < below.length + 1) :
    (holding roots (⟨id, next⟩ :: below) visited).advance g limit = .inl true := by
  simp only [holding, advance, List.map_cons, here, if_neg fresh, if_neg unseen, List.length_cons,
    if_pos deep]

theorem advance_enter (here : (g.successors id)[next]? = some child)
    (fresh : child ∉ id :: below.map Frame.id) (unseen : child ∉ visited)
    (shallow : ¬ limit < below.length + 1) :
    (holding roots (⟨id, next⟩ :: below) visited).advance g limit =
      .inr (holding roots (⟨child, 0⟩ :: ⟨id, next + 1⟩ :: below) (child :: visited)) := by
  simp only [holding, advance, List.map_cons, here, if_neg fresh, if_neg unseen, List.length_cons,
    if_neg shallow]

end

/-- From the cursor on, the successors of the last frame are followed one after the other; then the
frame is left. -/
theorem follows_successors {roots : List String} {id : String} {below : List Frame}
    {enter : String → List String → Option (List String)}
    (entered : ∀ child next visited, (g.successors id)[next]? = some child →
      child ∉ id :: below.map Frame.id → child ∉ visited →
        Follows g limit (holding roots (⟨id, next⟩ :: below) visited) roots (⟨id, next + 1⟩ :: below)
          (enter child (child :: visited)))
    (children : List String) {next : Nat} (ahead : (g.successors id).drop next = children)
    (visited : List String) :
    Follows g limit (holding roots (⟨id, next⟩ :: below) visited) roots below
      (children.foldlM (follow enter (id :: below.map Frame.id)) visited) := by
  -- On the successors ahead of the cursor; the frames below stay as they are.
  induction children generalizing next visited with
  | nil =>
    have done : (g.successors id)[next]? = none :=
      List.getElem?_eq_none (List.drop_eq_nil_iff.mp ahead)
    exact .single (advance_leave roots below visited done)
  | cons child children ih =>
    have here : (g.successors id)[next]? = some child := by
      rw [← List.head?_drop, ahead, List.head?_cons]
    have behind : (g.successors id).drop (next + 1) = children := by
      rw [← List.tail_drop, ahead, List.tail_cons]
    rw [List.foldlM_cons]
    unfold follow
    by_cases back : child ∈ id :: below.map Frame.id
    · rw [if_pos back]
      exact ⟨_, .refl, advance_back roots below visited here back⟩
    · rw [if_neg back]
      by_cases seen : child ∈ visited
      · rw [if_pos seen]
        exact .step (advance_seen roots below visited here back seen) (ih behind visited)
      · rw [if_neg seen]
        exact (entered child next visited here back seen).bind (ih behind)

theorem follows_enterBelow (depth : Nat) {roots : List String} {id child : String}
    {below : List Frame} {next : Nat} {visited : List String} (left : depth + below.length = limit)
    (here : (g.successors id)[next]? = some child) (fresh : child ∉ id :: below.map Frame.id)
    (unseen : child ∉ visited) :
    Follows g limit (holding roots (⟨id, next⟩ :: below) visited) roots (⟨id, next + 1⟩ :: below)
      (g.enterBelow (id :: below.map Frame.id) depth child (child :: visited)) := by
  induction depth generalizing id child below next visited with
  | zero => exact ⟨_, .refl, advance_deep roots below visited here fresh unseen (by omega)⟩
  | succ depth ih =>
    apply Follows.step (advance_enter roots below visited here fresh unseen (by omega))
    rw [enterBelow, visit_eq]
    apply follows_successors _ _ (List.drop_zero ..)
    intro child next visited here fresh unseen
    apply ih _ here fresh unseen
    simp only [List.length_cons]
    omega

theorem follows_root (roots : List String) (root : String) (visited : List String) :
    Follows g limit (holding roots [⟨root, 0⟩] visited) roots [] (g.visit limit [] root visited) := by
  rw [visit_eq]
  apply follows_successors _ _ (List.drop_zero ..)
  intro child next visited here fresh unseen
  exact follows_enterBelow limit rfl here fresh unseen

theorem endsWith_roots (roots visited : List String) :
    EndsWith g limit (holding roots [] visited)
      (roots.foldlM (follow (g.visit limit []) []) visited).isNone := by
  induction roots generalizing visited with
  | nil => exact ⟨_, .refl, rfl⟩
  | cons root roots ih =>
    rw [List.foldlM_cons]
    unfold follow
    rw [if_neg List.not_mem_nil]
    by_cases seen : root ∈ visited
    · have skip : (holding (root :: roots) [] visited).advance g limit = .inr (holding roots [] visited) := by
        simp [holding, advance, seen]
      rw [if_pos seen]
      exact (ih visited).step skip
    · have enter : (holding (root :: roots) [] visited).advance g limit =
          .inr (holding roots [⟨root, 0⟩] (root :: visited)) := by
        simp [holding, advance, seen]
      rw [if_neg seen]
      apply EndsWith.step enter
      have below : Follows g limit _ roots [] _ := follows_root roots root (root :: visited)
      cases found : g.visit limit [] root (root :: visited) with
      | none =>
        rw [found] at below
        exact below
      | some after =>
        rw [found] at below
        exact (ih after).trans below

theorem endsWith_hasCycle (g : Graph) (limit : Nat) : EndsWith g limit (start g) (g.hasCycle limit) :=
  endsWith_roots g.ids []

end Search
end Attest.Graph
