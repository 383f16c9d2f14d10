import Attest.Notary
import Attest.Proofs.Manifest.Verification
import Attest.Proofs.Store

namespace Attest

namespace Lint

theorem root_recheckLeaf (i : Integrity) (r : Report) (leaf : Nat) : (recheckLeaf i r leaf).root = r.root := by
  unfold recheckLeaf
  split
  · split <;> rfl
  · rfl

theorem root_recheck (r : Report) : (recheck r).root = r.root := by
  have all (i : Integrity) (places : List Nat) : (places.foldl (recheckLeaf i) r).root = r.root := by
    induction places generalizing r with
    | nil => rfl
    | cons leaf places ih => rw [List.foldl_cons, ih, root_recheckLeaf]
  unfold recheck
  split
  · exact all _ _
  · rfl

end Lint

namespace Notary

inductive PackFault where
  | unwritten (fault : Json.ConversionFault)
  | merkle (error : Merkle.Error)
  | root (fault : Digest.Fault)
deriving DecidableEq, Repr

def packLeaves (m : Manifest) : Except Json.ConversionFault (List Bytes) := do
  let graph ← m.graph.toJson.convertedBytes
  Integrity.writtenLeaves m graph

def rootOf (answer : Except Merkle.Error String) : Except PackFault Digest := do
  let text ← answer.mapError .merkle
  (Digest.ofHex text).mapError .root

/-- Keeps a pack step by step: its leaves are written and stored, and its root is read from the answer. -/
def keepPack (n : Notary) (m : Manifest) : Except PackFault Digest × Notary :=
  match packLeaves m with
  | .error fault => (.error (.unwritten fault), n)
  | .ok leaves =>
    let (answer, store) := n.store.answer (.putAll leaves)
    (rootOf answer, { n with store })

theorem packLeaves_eq (m : Manifest) : packLeaves m = .ok m.contents := by
  apply bind_eq_ok.mpr
  exact ⟨_, m.graph.toJson.convertedBytes_eq, Integrity.writtenLeaves_eq m _⟩

theorem answer_contents (s : Store) (m : Manifest) :
    s.putAll m.contents = .ok (m.address, s.run [.putAll m.contents]) ∧
      s.answer (.putAll m.contents) = (.ok m.address.hex, s.run [.putAll m.contents]) := by
  have grown : Merkle.Tree.ofContents m.contents = .ok m.integrity.tree :=
    Merkle.Tree.ofContents_eq_grow (by simp [Manifest.contents, Integrity.leaves])
  have after : s.run [.putAll m.contents] = m.contents.foldl Store.put s := s.answer_snd (.putAll _)
  have done : s.putAll m.contents = .ok (m.address, m.contents.foldl Store.put s) := by
    rw [Store.putAll, grown]
    rfl
  refine ⟨by rw [done, after], ?_⟩
  rw [Store.answer, done, after]

theorem keepPack_eq (n : Notary) (m : Manifest) :
    n.keepPack m = (.ok m.address, { n with store := n.store.run [.putAll m.contents] }) := by
  have root : rootOf (.ok m.address.hex) = .ok m.address := by
    apply bind_eq_ok.mpr
    exact ⟨_, rfl, mapError_eq_ok.mpr m.address.ofHex_hex⟩
  rw [keepPack, packLeaves_eq]
  simp only [(answer_contents n.store m).2, root]

theorem storePack_eq (n : Notary) (m : Manifest) :
    n.storePack m = .ok (m.address, { n with store := n.store.run [.putAll m.contents] }) := by
  apply bind_eq_ok.mpr
  exact ⟨_, mapError_eq_ok.mpr (answer_contents n.store m).1, rfl⟩

section

variable {m : Manifest} {i : Nat} {leaf : Bytes}

/-- Under the address of a leaf stands what is accepted as this leaf, whatever was stored before. -/
theorem kept_leaf (calls : List Store.Call) (there : m.contents[i]? = some leaf) :
    ∃ data, ((Store.empty.run calls).run [.putAll m.contents]).get? (Store.address leaf) = some data ∧
      m.integrity.verify i data = true ∧
      (data = leaf ∨ Collision (Store.stored calls ++ m.contents)) := by
  -- What was stored first under this address may be another content, but one with the digest of the leaf.
  have member : leaf ∈ Store.stored calls ++ m.contents :=
    List.mem_append_right _ (List.mem_of_getElem? there)
  have added : Store.stored [.putAll m.contents] = m.contents := List.append_nil _
  rcases Store.exists_firstAt member with ⟨data, found⟩
  have named := (Store.of_firstAt found).2
  refine ⟨data, ?_, ?_, ?_⟩
  · rw [Store.get?_run, Store.get?_run_empty, added, ← Store.firstAt_append, found]
  · exact (m.verify_iff i data).mpr ⟨leaf, there, Digest.hex_injective named⟩
  · rcases Store.firstAt_address member with first | collision
    · exact .inl (Option.some.inj (found.symm.trans first))
    · exact .inr collision

end

/-- The checks under any rules, the integrity, the address, and a notary that keeps the pack all give one
root. After the pack is kept, in a store with any history, the notary gives for the address of each of the five
leaves what the integrity accepts there: the leaf itself, unless two contents collide. -/
theorem every_route_gives_the_root {document : Bytes} {m : Manifest}
    (parsed : Manifest.ofBytes document = .ok m) (policy : Policy) (calls : List Store.Call) :
    let n : Notary := ⟨policy, Store.empty.run calls⟩
    ∃ graph leaves pack after,
      m.graph.toJson.convertedBytes = .ok graph ∧
      Integrity.writtenLeaves m graph = .ok leaves ∧ leaves.length = 5 ∧
      (∀ rules, (Lint.bytes rules document).root = some pack.root ∧
        (Lint.bytesWithProofs rules document).root = some pack.root) ∧
      Integrity.build m graph = .ok pack ∧ m.findIntegrity = .ok pack ∧ m.findAddress = .ok pack.root ∧
      n.keepPack m = (.ok pack.root, after) ∧ n.storePack m = .ok (pack.root, after) ∧
      ∀ i leaf, leaves[i]? = some leaf → pack.verify i leaf = true ∧
        ∃ data, after.get (Store.address leaf) = .ok data ∧ pack.verify i data = true ∧
          (data = leaf ∨ Collision (Store.stored calls ++ leaves)) := by
  intro n
  have checked (rules : LintRules) : (Lint.bytes rules document).root = some m.address := by
    rw [Lint.bytes_of_ofBytes parsed, Lint.manifest_eq]
  refine ⟨m.graph.canonicalBytes, m.contents, m.integrity, _, m.graph.toJson.convertedBytes_eq,
    Integrity.writtenLeaves_eq m _, m.length_contents, ?_, Integrity.build_eq m _, m.findIntegrity_eq,
    m.findAddress_eq, n.keepPack_eq m, n.storePack_eq m, ?_⟩
  · intro rules
    exact ⟨checked rules, (Lint.root_recheck _).trans (checked rules)⟩
  · intro i leaf there
    rcases kept_leaf calls there with ⟨data, found, accepted, same⟩
    refine ⟨(m.verify_iff i leaf).mpr ⟨leaf, there, rfl⟩, data, ?_, accepted, same⟩
    rw [get, found]

/-- Two leaves of the pack are alike, and their content was stored before. -/
theorem every_route_gives_the_root_stored_before :
    let document := Utf8.encode ("\x7b\"metadata\": \x7b\"id\": \"p\", \"version\": \"1\"\x7d, " ++
      "\"declaredTools\": [\"t\"], \"declaredPermissions\": [\"t\"], \"deterministic\": true\x7d")
    let calls : List Store.Call := [.put (Utf8.encode "[\"t\"]"), .putAll []]
    let n : Notary := ⟨.default, Store.empty.run calls⟩
    ∃ m pack after, Manifest.ofBytes document = .ok m ∧ m.findIntegrity = .ok pack ∧
      (Lint.bytes .default document).root = some pack.root ∧ n.keepPack m = (.ok pack.root, after) ∧
      after.get (Store.address (Utf8.encode "[\"t\"]")) = .ok (Utf8.encode "[\"t\"]") ∧
      pack.verify 2 (Utf8.encode "[\"t\"]") = true := by
  intro document calls n
  have contents : (Manifest.ofBytes document).map Manifest.contents =
      .ok (["p:1:", "[\"t\"]", "[\"t\"]", "\x7b\"edges\":[],\"nodes\":[]\x7d", "true"].map Utf8.encode) := by
    decide +kernel
  obtain ⟨m, parsed, five⟩ := map_eq_ok.mp contents
  rcases every_route_gives_the_root parsed .default calls with
    ⟨graph, leaves, pack, after, written, wrote, -, checked, -, found, -, kept, -, each⟩
  have own : leaves = m.contents := by
    rw [m.graph.toJson.convertedBytes_eq] at written
    obtain rfl := Except.ok.inj written
    rw [Integrity.writtenLeaves_eq] at wrote
    exact (Except.ok.inj wrote).symm
  rw [five] at own
  subst own
  rcases each 2 _ rfl with ⟨accepted, data, retrieved, -, same⟩
  have itself := same.resolve_right (by decide +kernel)
  rw [itself] at retrieved
  exact ⟨m, pack, after, parsed, found, (checked .default).1, kept, retrieved, accepted⟩

end Notary
end Attest
