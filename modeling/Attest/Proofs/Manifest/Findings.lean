import Attest.Proofs.Account
import Attest.Proofs.Manifest.Passes
import Attest.Proofs.Manifest.Report

namespace Attest.Lint

/-- What of a manifest is looked at. -/
inductive Place where
  | version
  | permission (i : Nat)
  | tool (i : Nat)
  | size
  | node (i : Nat)
  | endpoint (edge side : Nat)
  | paths

namespace Place

def stage : Place → Nat
  | version => 0
  | permission _ => 1
  | tool _ => 2
  | size => 3
  | node _ => 4
  | endpoint _ _ => 5
  | paths => 6

def position : Place → List Nat
  | permission i | tool i | node i => [i]
  | endpoint edge side => [edge, side]
  | version | size | paths => []

/-- One stage after the other, and in each of them from the front of the list. -/
def Before (p q : Place) : Prop := p.stage < q.stage ∨ p.stage = q.stage ∧ p.position < q.position

theorem Before.asymm (p q : Place) (before : p.Before q) : ¬ q.Before p := by
  rintro (lower | ⟨same, less⟩)
  · rcases before with higher | ⟨same, -⟩ <;> omega
  · rcases before with higher | ⟨-, more⟩
    · omega
    · exact lt_asymm less more

end Place
end Attest.Lint

namespace Attest.Accounts

open Lint

variable {ε : Type} {found : Place → ε → Prop} {entries more : List ε} {k : Nat}

theorem first_stage (here : Accounts Place.Before (fun p e => p.stage = 0 ∧ found p e) entries) :
    Accounts Place.Before (fun p e => p.stage < 1 ∧ found p e) entries := by
  apply here.congr
  intro p e
  rw [Nat.lt_one_iff]

theorem next_stage (front : Accounts Place.Before (fun p e => p.stage < k ∧ found p e) entries)
    (here : Accounts Place.Before (fun p e => p.stage = k ∧ found p e) more) :
    Accounts Place.Before (fun p e => p.stage < k + 1 ∧ found p e) (entries ++ more) := by
  apply (front.append here ?_).congr
  · intro p e
    rw [← or_and_right, Nat.lt_succ_iff_lt_or_eq]
  · rintro p _ q _ ⟨lower, -⟩ ⟨rfl, -⟩
    exact .inl lower

theorem skip_stage (front : Accounts Place.Before (fun p e => p.stage < k ∧ found p e) entries)
    (none : ∀ p e, found p e → p.stage ≠ k) :
    Accounts Place.Before (fun p e => p.stage < k + 1 ∧ found p e) entries := by
  apply front.congr
  intro p e
  apply and_congr_left
  intro there
  rw [Nat.lt_succ_iff_lt_or_eq, or_iff_left (none p e there)]

end Attest.Accounts

namespace Attest.Lint

inductive Faulty (rules : LintRules) (m : Manifest) : Place → Error → Prop
  | version (absent : m.specVersion = none ∨ m.specVersion = some "") : Faulty rules m .version .missingVersion
  | tool {i : Nat} {tool : String} (there : m.tools[i]? = some tool)
    (long : rules.toolNameLimit < tool.length) : Faulty rules m (.tool i) (.longToolName tool)
  | node {i j : Nat} {id : String} (here : m.graph.ids[i]? = some id) (earlier : j < i)
    (there : m.graph.ids[j]? = some id) : Faulty rules m (.node i) (.duplicateNode id)
  | endpoint {i side : Nat} {e : Edge} {id : String} (there : m.graph.edges[i]? = some e)
    (ends : [e.source, e.target][side]? = some id) (unknown : id ∉ m.graph.ids) :
    Faulty rules m (.endpoint i side) (.unknownNode e id)
  | paths (gaveUp : m.graph.hasCycle rules.depthLimit = true) : Faulty rules m .paths .cyclic

inductive Notable (rules : LintRules) (m : Manifest) : Place → Warning → Prop
  | version {version : String} (there : m.specVersion = some version) (some : version ≠ "")
    (other : ¬ rules.specMajor.toList <+: version.toList) :
    Notable rules m .version (.unsupportedVersion version rules.specMajor)
  | permission {i : Nat} {permission : String} (there : m.permissions[i]? = some permission)
    (system : rules.systemPermission.toList <+: permission.toList) :
    Notable rules m (.permission i) (.systemPermission permission)
  | size (large : rules.nodeLimit < m.graph.nodes.length) : Notable rules m .size (.largeGraph rules.nodeLimit)

section

variable (rules : LintRules) (m : Manifest)

theorem beginsWith_iff {start text : String} : beginsWith start text = true ↔ start.toList <+: text.toList :=
  List.isPrefixOf_iff_prefix

theorem accounts_versionErrors :
    Accounts Place.Before (fun p e => p.stage = 0 ∧ Faulty rules m p e) (versionErrors m) := by
  unfold versionErrors
  apply (Accounts.single (m.specVersion.getD "" = "") Place.version Error.missingVersion).congr
  intro p e
  have absent : m.specVersion.getD "" = "" ↔ m.specVersion = none ∨ m.specVersion = some "" := by
    cases m.specVersion <;> simp
  constructor
  · rintro ⟨none, rfl, rfl⟩
    exact ⟨rfl, .version (absent.mp none)⟩
  · rintro ⟨stage, faulty⟩
    cases faulty with
    | version none => exact ⟨absent.mpr none, rfl, rfl⟩
    | _ => cases stage

theorem accounts_toolErrors :
    Accounts Place.Before (fun p e => p.stage = 2 ∧ Faulty rules m p e) (toolErrors rules m) := by
  apply ((Accounts.filter _ m.tools).map Place.tool Error.longToolName ?_).congr
  · intro p e
    constructor
    · rintro ⟨i, tool, ⟨there, long⟩, rfl, rfl⟩
      exact ⟨rfl, .tool there (of_decide_eq_true long)⟩
    · rintro ⟨stage, faulty⟩
      cases faulty with
      | tool there long => exact ⟨_, _, ⟨there, decide_eq_true long⟩, rfl, rfl⟩
      | _ => cases stage
  · intro i j before
    exact .inr ⟨rfl, .rel before⟩

theorem repeated_congr {seen others : List String} (same : ∀ id, id ∈ seen ↔ id ∈ others) (ids : List String) :
    repeated seen ids = repeated others ids := by
  induction ids generalizing seen others with
  | nil => rfl
  | cons id ids ih =>
    have grown : ∀ name, name ∈ id :: seen ↔ name ∈ id :: others := by
      intro name
      rw [List.mem_cons, List.mem_cons, same]
    simp only [repeated, same, ih same, ih grown]

theorem repeated_cons (seen : List String) (id : String) (ids : List String) :
    repeated seen (id :: ids) = (if id ∈ seen then [id] else []) ++ repeated (id :: seen) ids := by
  rw [repeated]
  by_cases again : id ∈ seen
  · have same : ∀ name, name ∈ seen ↔ name ∈ id :: seen := by
      intro name
      rw [List.mem_cons, or_iff_right_of_imp]
      rintro rfl
      exact again
    rw [if_pos again, if_pos again, repeated_congr same, List.singleton_append]
  · rw [if_neg again, if_neg again, List.nil_append]

theorem accounts_repeated {seen front : List String} (known : ∀ id, id ∈ seen ↔ id ∈ front) (ids : List String) :
    Accounts (fun i j : Nat => i < j)
      (fun i id => front.length ≤ i ∧ (front ++ ids)[i]? = some id ∧ ∃ j < i, (front ++ ids)[j]? = some id)
      (repeated seen ids) := by
  induction ids generalizing seen front with
  | nil =>
    apply Accounts.nil
    rintro i id ⟨behind, here, -⟩
    rw [List.append_nil, List.getElem?_eq_none behind] at here
    cases here
  | cons id ids ih =>
    have grown : ∀ name, name ∈ id :: seen ↔ name ∈ front ++ [id] := by
      intro name
      rw [List.mem_cons, known, List.mem_append, List.mem_singleton, or_comm]
    have later := ih grown
    rw [List.append_assoc, List.singleton_append, List.length_append, List.length_singleton] at later
    rw [repeated_cons]
    apply (Accounts.append (.single (id ∈ seen) front.length id) later ?_).congr
    · intro i name
      have here : (front ++ id :: ids)[front.length]? = some id := by simp
      have again : id ∈ seen ↔ ∃ j < front.length, (front ++ id :: ids)[j]? = some id := by
        rw [known, List.mem_iff_getElem?]
        constructor
        · rintro ⟨j, there⟩
          have inside := (List.getElem?_eq_some_iff.mp there).1
          exact ⟨j, inside, by rw [List.getElem?_append_left inside, there]⟩
        · rintro ⟨j, inside, there⟩
          exact ⟨j, by rw [← there, List.getElem?_append_left inside]⟩
      constructor
      · rintro (⟨repeats, rfl, rfl⟩ | ⟨behind, found⟩)
        · exact ⟨Nat.le_refl _, here, again.mp repeats⟩
        · exact ⟨Nat.le_of_succ_le behind, found⟩
      · rintro ⟨behind, there, earlier⟩
        rcases Nat.eq_or_lt_of_le behind with rfl | behind
        · obtain rfl := Option.some.inj (here.symm.trans there)
          exact .inl ⟨again.mpr earlier, rfl, rfl⟩
        · exact .inr ⟨behind, there, earlier⟩
    · rintro i _ j _ ⟨-, rfl, -⟩ ⟨behind, -⟩
      exact behind

theorem accounts_duplicates :
    Accounts Place.Before (fun p e => p.stage = 4 ∧ Faulty rules m p e)
      ((repeated [] m.graph.ids).map .duplicateNode) := by
  have none : ∀ id : String, id ∈ ([] : List String) ↔ id ∈ ([] : List String) := fun _ => .rfl
  have listed := accounts_repeated none m.graph.ids
  apply (listed.map Place.node Error.duplicateNode ?_).congr
  · intro p e
    constructor
    · rintro ⟨i, id, ⟨-, here, j, earlier, there⟩, rfl, rfl⟩
      exact ⟨rfl, .node here earlier there⟩
    · rintro ⟨stage, faulty⟩
      cases faulty with
      | node here earlier there => exact ⟨_, _, ⟨Nat.zero_le _, here, _, earlier, there⟩, rfl, rfl⟩
      | _ => cases stage
  · intro i j before
    exact .inr ⟨rfl, .rel before⟩

theorem accounts_danglingEnds (i : Nat) (e : Edge) :
    Accounts Place.Before
      (fun p error => ∃ side id, ([e.source, e.target][side]? = some id ∧ id ∉ m.graph.ids) ∧
        .endpoint i side = p ∧ .unknownNode e id = error)
      (danglingEnds m.graph.ids e) := by
  apply ((Accounts.filter _ _).map (Place.endpoint i) (Error.unknownNode e) ?_).congr
  · intro p error
    simp only [decide_eq_true_eq]
  · intro side other before
    exact .inr ⟨rfl, .cons (.rel before)⟩

theorem accounts_dangling :
    Accounts Place.Before (fun p e => p.stage = 5 ∧ Faulty rules m p e)
      (m.graph.edges.flatMap (danglingEnds m.graph.ids)) := by
  apply (Accounts.flatMap (fun i e _ => accounts_danglingEnds m i e) ?_).congr
  · intro p error
    constructor
    · rintro ⟨i, e, there, side, id, ⟨ends, unknown⟩, rfl, rfl⟩
      exact ⟨rfl, .endpoint there ends unknown⟩
    · rintro ⟨stage, faulty⟩
      cases faulty with
      | endpoint there ends unknown => exact ⟨_, _, there, _, _, ⟨ends, unknown⟩, rfl, rfl⟩
      | _ => cases stage
  · rintro i j e f _ _ _ _ before ⟨side, id, -, rfl, -⟩ ⟨other, name, -, rfl, -⟩
    exact .inr ⟨rfl, .rel before⟩

theorem accounts_cyclic :
    Accounts Place.Before (fun p e => p.stage = 6 ∧ Faulty rules m p e)
      (if m.graph.hasCycle rules.depthLimit then [.cyclic] else []) := by
  apply (Accounts.single (m.graph.hasCycle rules.depthLimit = true) Place.paths Error.cyclic).congr
  intro p e
  constructor
  · rintro ⟨gaveUp, rfl, rfl⟩
    exact ⟨rfl, .paths gaveUp⟩
  · rintro ⟨stage, faulty⟩
    cases faulty with
    | paths gaveUp => exact ⟨gaveUp, rfl, rfl⟩
    | _ => cases stage

theorem accounts_versionWarnings :
    Accounts Place.Before (fun p w => p.stage = 0 ∧ Notable rules m p w) (versionWarnings rules m) := by
  cases given : m.specVersion with
  | none =>
    have none : versionWarnings rules m = [] := by simp [versionWarnings, given]
    rw [none]
    apply Accounts.nil
    rintro p w ⟨stage, notable⟩
    cases notable with
    | version there => cases given.symm.trans there
    | _ => cases stage
  | some version =>
    have parts : versionWarnings rules m = if version ≠ "" ∧ ¬ beginsWith rules.specMajor version = true
        then [.unsupportedVersion version rules.specMajor] else [] := by
      simp only [versionWarnings, given, Option.getD_some]
      by_cases quiet : version = "" ∨ beginsWith rules.specMajor version = true
      · rw [if_pos quiet, if_neg (by tauto)]
      · rw [if_neg quiet, if_pos (not_or.mp quiet)]
    rw [parts]
    apply (Accounts.single (version ≠ "" ∧ ¬ beginsWith rules.specMajor version = true) Place.version _).congr
    intro p w
    constructor
    · rintro ⟨⟨some, other⟩, rfl, rfl⟩
      exact ⟨rfl, .version given some (beginsWith_iff.not.mp other)⟩
    · rintro ⟨stage, notable⟩
      cases notable with
      | version there some other =>
        cases given.symm.trans there
        exact ⟨⟨some, beginsWith_iff.not.mpr other⟩, rfl, rfl⟩
      | _ => cases stage

theorem accounts_permissionWarnings :
    Accounts Place.Before (fun p w => p.stage = 1 ∧ Notable rules m p w) (permissionWarnings rules m) := by
  apply ((Accounts.filter _ m.permissions).map Place.permission Warning.systemPermission ?_).congr
  · intro p w
    constructor
    · rintro ⟨i, permission, ⟨there, system⟩, rfl, rfl⟩
      exact ⟨rfl, .permission there (beginsWith_iff.mp system)⟩
    · rintro ⟨stage, notable⟩
      cases notable with
      | permission there system => exact ⟨_, _, ⟨there, beginsWith_iff.mpr system⟩, rfl, rfl⟩
      | _ => cases stage
  · intro i j before
    exact .inr ⟨rfl, .rel before⟩

theorem accounts_sizeWarnings :
    Accounts Place.Before (fun p w => p.stage = 3 ∧ Notable rules m p w) (sizeWarnings rules m.graph) := by
  unfold sizeWarnings
  apply (Accounts.single (rules.nodeLimit < m.graph.nodes.length) Place.size _).congr
  intro p w
  constructor
  · rintro ⟨large, rfl, rfl⟩
    exact ⟨rfl, .size large⟩
  · rintro ⟨stage, notable⟩
    cases notable with
    | size large => exact ⟨large, rfl, rfl⟩
    | _ => cases stage

theorem Faulty.stage_mem {p : Place} {e : Error} (faulty : Faulty rules m p e) : p.stage ∈ [0, 2, 4, 5, 6] := by
  cases faulty <;> simp [Place.stage]

theorem Notable.stage_mem {p : Place} {w : Warning} (notable : Notable rules m p w) : p.stage ∈ [0, 1, 3] := by
  cases notable <;> simp [Place.stage]

theorem accounts_errors : Accounts Place.Before (Faulty rules m) (errors rules m) := by
  have past : ∀ k ∉ [0, 2, 4, 5, 6], ∀ p e, Faulty rules m p e → p.stage ≠ k := by
    intro k none p e faulty
    exact ne_of_mem_of_not_mem faulty.stage_mem none
  have version := Accounts.first_stage (accounts_versionErrors rules m)
  have tools := (version.skip_stage (past 1 (by decide))).next_stage (accounts_toolErrors rules m)
  have ids := (tools.skip_stage (past 3 (by decide))).next_stage (accounts_duplicates rules m)
  have all := (ids.next_stage (accounts_dangling rules m)).next_stage (accounts_cyclic rules m)
  have last : ∀ k ∈ [0, 2, 4, 5, 6], k < 7 := by decide
  rw [errors, graphErrors, ← List.append_assoc, ← List.append_assoc]
  apply all.congr
  intro p e
  exact and_iff_right_of_imp fun faulty => last _ faulty.stage_mem

theorem accounts_warnings : Accounts Place.Before (Notable rules m) (warnings rules m) := by
  have past : ∀ p w, Notable rules m p w → p.stage ≠ 2 := by
    intro p w notable
    exact ne_of_mem_of_not_mem notable.stage_mem (by decide)
  have version := Accounts.first_stage (accounts_versionWarnings rules m)
  have permissions := version.next_stage (accounts_permissionWarnings rules m)
  have all := (permissions.skip_stage past).next_stage (accounts_sizeWarnings rules m)
  have last : ∀ k ∈ [0, 1, 3], k < 4 := by decide
  apply all.congr
  intro p w
  exact and_iff_right_of_imp fun notable => last _ notable.stage_mem

/-- Each of the two lists is the one account of what there is to find; and the loops of the checks, in
which the two grow side by side, write out these lists. -/
theorem every_finding_is_reported :
    (∀ es, Accounts Place.Before (Faulty rules m) es ↔ es = (manifest rules m).errors) ∧
      (∀ ws, Accounts Place.Before (Notable rules m) ws ↔ ws = (manifest rules m).warnings) ∧
      draft rules m =
        ⟨(manifest rules m).errors.map Error.message, (manifest rules m).warnings.map Warning.message⟩ := by
  rw [manifest_eq]
  refine ⟨fun es => ?_, fun ws => ?_, draft_eq rules m⟩
  · exact (accounts_errors rules m).iff_eq Place.Before.asymm
  · exact (accounts_warnings rules m).iff_eq Place.Before.asymm

end

end Attest.Lint
