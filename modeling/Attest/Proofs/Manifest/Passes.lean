import Attest.Manifest.Lint

namespace Attest.Lint

structure Draft where
  errors : List String
  warnings : List String

namespace Draft

def fail (d : Draft) (e : Error) : Draft := { d with errors := d.errors ++ [e.message] }

def warn (d : Draft) (w : Warning) : Draft := { d with warnings := d.warnings ++ [w.message] }

def checkVersion (rules : LintRules) (version : Option String) (d : Draft) : Draft :=
  match version with
  | none | some "" => d.fail .missingVersion
  | some version =>
    if beginsWith rules.specMajor version then d else d.warn (.unsupportedVersion version rules.specMajor)

def checkPermission (rules : LintRules) (d : Draft) (permission : String) : Draft :=
  if beginsWith rules.systemPermission permission then d.warn (.systemPermission permission) else d

def checkTool (rules : LintRules) (d : Draft) (tool : String) : Draft :=
  if rules.toolNameLimit < tool.length then d.fail (.longToolName tool) else d

def checkSize (rules : LintRules) (g : Graph) (d : Draft) : Draft :=
  if rules.nodeLimit < g.nodes.length then d.warn (.largeGraph rules.nodeLimit) else d

theorem foldl_fail (d : Draft) (es : List Error) :
    es.foldl fail d = { d with errors := d.errors ++ es.map Error.message } := by
  induction es generalizing d with
  | nil => simp
  | cons e es ih => simp [ih, fail]

theorem foldl_warn (d : Draft) (ws : List Warning) :
    ws.foldl warn d = { d with warnings := d.warnings ++ ws.map Warning.message } := by
  induction ws generalizing d with
  | nil => simp
  | cons w ws ih => simp [ih, warn]

end Draft

/-- What the loops over the nodes and the edges of a graph pass on: the ids listed so far, and texts. -/
structure Census where
  ids : List String
  errors : List String

namespace Census

def fail (c : Census) (e : Error) : Census := { c with errors := c.errors ++ [e.message] }

def enter (c : Census) (n : Node) : Census :=
  if n.id ∈ c.ids then c.fail (.duplicateNode n.id) else { c with ids := n.id :: c.ids }

def checkEnd (e : Edge) (c : Census) (id : String) : Census :=
  if id ∉ c.ids then c.fail (.unknownNode e id) else c

def checkEdge (c : Census) (e : Edge) : Census := [e.source, e.target].foldl (checkEnd e) c

variable (c : Census)

theorem mem_enter (n : Node) (id : String) : id ∈ (c.enter n).ids ↔ id ∈ c.ids ∨ id = n.id := by
  unfold enter
  split
  · rename_i again
    apply (or_iff_left_of_imp ?_).symm
    rintro rfl
    exact again
  · rw [List.mem_cons, or_comm]

theorem mem_foldl_enter (nodes : List Node) (id : String) :
    id ∈ (nodes.foldl enter c).ids ↔ id ∈ c.ids ∨ id ∈ nodes.map Node.id := by
  induction nodes generalizing c with
  | nil => simp
  | cons n nodes ih => rw [List.foldl_cons, ih, mem_enter, List.map_cons, List.mem_cons, or_assoc]

theorem foldl_enter_errors (nodes : List Node) : (nodes.foldl enter c).errors =
    c.errors ++ ((repeated c.ids (nodes.map Node.id)).map Error.duplicateNode).map Error.message := by
  induction nodes generalizing c with
  | nil => simp [repeated]
  | cons n nodes ih =>
    rw [List.foldl_cons, ih, List.map_cons, repeated]
    by_cases again : n.id ∈ c.ids
    · simp [enter, fail, again]
    · simp [enter, again]

theorem checkEdge_eq (e : Edge) :
    c.checkEdge e = { c with errors := c.errors ++ (danglingEnds c.ids e).map Error.message } := by
  have check (c : Census) (ends : List String) : ends.foldl (checkEnd e) c =
      { c with errors :=
          c.errors ++ ((ends.filter fun id => id ∉ c.ids).map (.unknownNode e)).map Error.message } := by
    induction ends generalizing c with
    | nil => simp
    | cons id ends ih =>
      rw [List.foldl_cons, ih]
      by_cases known : id ∈ c.ids <;> simp [checkEnd, known, fail]
  exact check c [e.source, e.target]

theorem foldl_checkEdge (edges : List Edge) :
    (edges.foldl checkEdge c).errors =
      c.errors ++ (edges.flatMap (danglingEnds c.ids)).map Error.message := by
  induction edges generalizing c with
  | nil => simp
  | cons e edges ih => simp [ih, checkEdge_eq]

end Census

/-- The texts for the ids that are listed twice, and then for the ends of edges that are not listed. -/
def referenceTexts (g : Graph) : List String :=
  (g.edges.foldl Census.checkEdge (g.nodes.foldl Census.enter ⟨[], []⟩)).errors

def draft (rules : LintRules) (m : Manifest) : Draft :=
  let d := Draft.checkVersion rules m.specVersion ⟨[], []⟩
  let d := m.permissions.foldl (Draft.checkPermission rules) d
  let d := m.tools.foldl (Draft.checkTool rules) d
  let d := d.checkSize rules m.graph
  let d := { d with errors := d.errors ++ referenceTexts m.graph }
  if m.graph.hasCycle rules.depthLimit then d.fail .cyclic else d

theorem danglingEnds_congr {ids others : List String} (same : ∀ id, id ∈ ids ↔ id ∈ others) (e : Edge) :
    danglingEnds ids e = danglingEnds others e := by
  simp only [danglingEnds, same]

theorem referenceTexts_eq (g : Graph) : referenceTexts g =
    ((repeated [] g.ids).map Error.duplicateNode ++
      g.edges.flatMap (danglingEnds g.ids)).map Error.message := by
  have listed : danglingEnds (g.nodes.foldl Census.enter ⟨[], []⟩).ids = danglingEnds g.ids := by
    funext e
    apply danglingEnds_congr
    intro id
    rw [Census.mem_foldl_enter, or_iff_right List.not_mem_nil]
    rfl
  rw [referenceTexts, Census.foldl_checkEdge, Census.foldl_enter_errors, listed, List.nil_append,
    List.map_append]
  rfl

section

variable (rules : LintRules) (m : Manifest) (d : Draft)

theorem checkVersion_eq : d.checkVersion rules m.specVersion =
    (versionWarnings rules m).foldl Draft.warn ((versionErrors m).foldl Draft.fail d) := by
  unfold Draft.checkVersion versionWarnings versionErrors
  split
  · rename_i absent
    simp [absent]
  · rename_i empty
    simp [empty]
  · rename_i version other given
    have filled : version ≠ "" := other
    by_cases own : beginsWith rules.specMajor version = true <;> simp [given, filled, own]

theorem foldl_checkPermission : m.permissions.foldl (Draft.checkPermission rules) d =
    (permissionWarnings rules m).foldl Draft.warn d := by
  rw [permissionWarnings, List.foldl_map, List.foldl_filter]
  rfl

theorem foldl_checkTool :
    m.tools.foldl (Draft.checkTool rules) d = (toolErrors rules m).foldl Draft.fail d := by
  rw [toolErrors, List.foldl_map, List.foldl_filter]
  simp only [decide_eq_true_eq]
  rfl

theorem checkSize_eq : d.checkSize rules m.graph = (sizeWarnings rules m.graph).foldl Draft.warn d := by
  unfold Draft.checkSize sizeWarnings
  split <;> rfl

theorem draft_eq :
    draft rules m = ⟨(errors rules m).map Error.message, (warnings rules m).map Warning.message⟩ := by
  have paths : ∀ d : Draft, (if m.graph.hasCycle rules.depthLimit then d.fail .cyclic else d) =
      (if m.graph.hasCycle rules.depthLimit then [Error.cyclic] else []).foldl Draft.fail d := by
    intro d
    split <;> rfl
  simp only [draft, checkVersion_eq, foldl_checkPermission, foldl_checkTool, checkSize_eq, referenceTexts_eq,
    paths, Draft.foldl_fail, Draft.foldl_warn, errors, graphErrors, warnings, List.map_append,
    List.append_assoc, List.nil_append]

end

end Attest.Lint
