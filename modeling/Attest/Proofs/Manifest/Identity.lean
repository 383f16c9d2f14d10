import Attest.Manifest.Integrity
import Attest.Proofs.Canonical.Encoding
import Attest.Proofs.Merkle.Root
import Attest.Proofs.Text.Quote

namespace Attest

def Metadata.label (m : Metadata) : String := s!"{m.id}:{m.version}:{m.name}"

def Metadata.colons (s : String) : Nat := s.toList.count ':'

theorem Metadata.toList_label (m : Metadata) :
    m.label.toList = m.id.toList ++ ':' :: (m.version.toList ++ ':' :: m.name.toList) := by
  simp [label, toString]

theorem Metadata.parts_of_label {m n : Metadata} (same : m.label = n.label)
    (ids : colons m.id = colons n.id) (versions : colons m.version = colons n.version) :
    m.id = n.id ∧ m.version = n.version ∧ m.name = n.name := by
  have chars := congrArg String.toList same
  rw [toList_label, toList_label] at chars
  obtain ⟨id, rest⟩ := append_cons_inj_of_count ids chars
  obtain ⟨version, name⟩ := append_cons_inj_of_count versions rest
  exact ⟨String.toList_injective id, String.toList_injective version, String.toList_injective name⟩

theorem Canonical.ofItems_string (items : List String) :
    ofItems (items.map .string) = items.map .string := by
  induction items with
  | nil => rfl
  | cons s items ih => rw [List.map_cons, ofItems, ih, ofJson, List.map_cons]

theorem Json.canonicalBytes_ofStrings_inj {items others : List String}
    (same : (ofStrings items).canonicalBytes = (ofStrings others).canonicalBytes) : items = others := by
  have arrays := Canonical.text_injective (Utf8.encode_injective same)
  rw [ofStrings, ofStrings, Canonical.ofJson, Canonical.ofJson, Canonical.ofItems_string,
    Canonical.ofItems_string, Canonical.array.injEq] at arrays
  apply List.map_injective_iff.mpr _ arrays
  intro s t equal
  exact Canonical.string.inj equal

namespace Manifest

def contents (m : Manifest) : List Bytes := Integrity.leaves m m.graph.canonicalBytes

theorem leaves_tree (m : Manifest) : m.integrity.tree.leaves = m.contents.map Digest.hash := rfl

theorem length_contents (m : Manifest) : m.contents.length = Integrity.leafCount := rfl

theorem leafCount_tree (m : Manifest) : m.integrity.tree.leafCount = Integrity.leafCount := rfl

/-- What is hashed for the address: the leaves, then the nodes of the tree, level by level. -/
def hashed (m : Manifest) : List Bytes := m.contents ++ m.integrity.tree.inputs

structure SameContent (m n : Manifest) : Prop where
  label : m.metadata.label = n.metadata.label
  tools : m.tools = n.tools
  permissions : m.permissions = n.permissions
  graph : m.graph.canonicalBytes = n.graph.canonicalBytes
  deterministic : m.deterministic = n.deterministic

variable {m n : Manifest}

theorem contents_eq_iff : m.contents = n.contents ↔ SameContent m n := by
  constructor
  · intro same
    simp only [contents, Integrity.leaves, List.cons.injEq, and_true] at same
    obtain ⟨label, tools, permissions, graph, deterministic⟩ := same
    have flags := Utf8.encode_injective deterministic
    refine ⟨Utf8.encode_injective label, Json.canonicalBytes_ofStrings_inj tools,
      Json.canonicalBytes_ofStrings_inj permissions, graph, ?_⟩
    cases left : m.deterministic <;> cases right : n.deterministic <;> simp [left, right] at flags ⊢
  · intro same
    have label : s!"{m.metadata.id}:{m.metadata.version}:{m.metadata.name}" =
        s!"{n.metadata.id}:{n.metadata.version}:{n.metadata.name}" := same.label
    rw [contents, contents, Integrity.leaves, Integrity.leaves, label, same.tools, same.permissions,
      same.graph, same.deterministic]

theorem SameContent.leaves_eq (same : SameContent m n) :
    m.integrity.tree.leaves = n.integrity.tree.leaves := by
  rw [leaves_tree, leaves_tree, contents_eq_iff.mpr same]

theorem SameContent.hashed_eq (same : SameContent m n) : m.hashed = n.hashed := by
  rw [hashed, hashed, Merkle.Tree.inputs, Merkle.Tree.inputs, same.leaves_eq, contents_eq_iff.mpr same]

theorem SameContent.address_eq (same : SameContent m n) : m.address = n.address := by
  have left := m.integrity.tree.apex?_levels
  have right := n.integrity.tree.apex?_levels
  rw [same.leaves_eq] at left
  exact Option.some.inj (left.symm.trans right)

theorem contents_bound (same : m.address = n.address) :
    m.contents = n.contents ∨ CollisionAt m.hashed n.hashed := by
  have count : m.contents.length = n.contents.length := by rw [length_contents, length_contents]
  exact Merkle.Tree.contents_bound m.leaves_tree n.leaves_tree count same

/-- Packs with one address have one content, unless two inputs at one place of the two trees collide.
The text that names them is the same, and so is each part of it if the colons in the parts are as many. -/
theorem address_binds_content (m n : Manifest) (same : m.address = n.address) :
    (SameContent m n ∧
      (Metadata.colons m.metadata.id = Metadata.colons n.metadata.id →
        Metadata.colons m.metadata.version = Metadata.colons n.metadata.version →
          m.metadata.id = n.metadata.id ∧ m.metadata.version = n.metadata.version ∧
            m.metadata.name = n.metadata.name)) ∨
      CollisionAt m.hashed n.hashed := by
  rcases contents_bound same with contents | collision
  · have content := contents_eq_iff.mp contents
    exact .inl ⟨content, Metadata.parts_of_label content.label⟩
  · exact .inr collision

theorem address_binds_content_described :
    let m : Manifest := { empty with metadata := ⟨"a", "1", "b", "first"⟩, tools := ["x", "y"] }
    let n : Manifest := { empty with metadata := ⟨"a", "1", "b", "second"⟩, tools := ["x", "y"] }
    m ≠ n ∧ m.address = n.address ∧
      ((SameContent m n ∧
        (Metadata.colons "a" = Metadata.colons "a" → Metadata.colons "1" = Metadata.colons "1" →
          "a" = "a" ∧ "1" = "1" ∧ "b" = "b")) ∨
        CollisionAt m.hashed n.hashed) := by
  intro m n
  have content : SameContent m n := ⟨rfl, rfl, rfl, rfl, rfl⟩
  exact ⟨by decide, content.address_eq, address_binds_content m n content.address_eq⟩

/-- A colon may be moved from the id to the version: the two packs hash the same inputs. -/
theorem address_leaves_colons_open :
    let m : Manifest := { empty with metadata := ⟨"a:b", "c", "", ""⟩ }
    let n : Manifest := { empty with metadata := ⟨"a", "b:c", "", ""⟩ }
    m.address = n.address ∧ m.metadata.id ≠ n.metadata.id ∧
      m.metadata.version ≠ n.metadata.version ∧ ¬ CollisionAt m.hashed n.hashed := by
  intro m n
  have content : SameContent m n := ⟨by decide, rfl, rfl, rfl, rfl⟩
  refine ⟨content.address_eq, by decide, by decide, ?_⟩
  rw [content.hashed_eq]
  exact not_collisionAt_self n.hashed

end Manifest
end Attest
