import Attest.Proofs.Manifest.Registry
import Attest.Proofs.Order

namespace Attest.Registry

open Lint (Report)

/-- The entries are in order, and each report is valid and stands under its own hash. -/
structure Sound (registry : Registry) : Prop where
  ascending : Entries.Ascending registry.reports.entries
  own : ∀ entry ∈ registry.reports.entries, ∃ id, Accepts id entry.2 ∧ entry.1 = id.hex

section

variable {registry : Registry} {reports : List Report} {r : Report} {id : Digest} {cid : String}

theorem register_eq_some_iff : (registry.register r).1 = some id ↔ Accepts id r := by
  constructor
  · exact accepts_of_register
  · intro accepts
    rw [register_of_accepts accepts]

theorem register_of_refused (refused : (registry.register r).1 = none) : (registry.register r).2 = registry := by
  unfold register at refused ⊢
  split at refused
  · cases refused
  · rfl

theorem Sound.empty : Sound .empty := ⟨.nil, fun _ none => nomatch none⟩

theorem Sound.register (sound : Sound registry) (r : Report) : Sound (registry.register r).2 := by
  cases answer : (registry.register r).1 with
  | none =>
    rw [register_of_refused answer]
    exact sound
  | some id =>
    have accepts := accepts_of_register answer
    rw [register_of_accepts accepts]
    refine ⟨sound.ascending.insert, ?_⟩
    intro entry member
    rcases Entries.mem_of_mem_insert member with rfl | there
    · exact ⟨id, accepts, rfl⟩
    · exact sound.own entry there

theorem mem_ids_iff : cid ∈ registry.ids ↔ ∃ r, registry.get? cid = some r := Entries.mem_keys_iff

theorem size_eq (registry : Registry) : registry.size = registry.ids.length := (List.length_map _).symm

theorem own_of_get? (sound : Sound registry) (found : registry.get? cid = some r) :
    ∃ id, Accepts id r ∧ cid = id.hex :=
  sound.own (cid, r) ((Entries.get?_eq_some_iff sound.ascending).mp found)

theorem sortTexts_of_held (sound : Sound registry) {cids : List String} (distinct : cids.Nodup)
    (held : ∀ cid, cid ∈ cids ↔ ∃ r, registry.get? cid = some r) :
    sortTexts cids = registry.ids ∧ cids.length = registry.size := by
  have members (cid : String) : cid ∈ cids ↔ cid ∈ registry.ids := (held cid).trans mem_ids_iff.symm
  rw [size_eq]
  exact sortTexts_eq distinct sound.ascending members

theorem sound_run (reports : List Report) : Sound (empty.run reports) :=
  List.foldlRecOn (motive := Sound) reports (fun registry r => (registry.register r).2) .empty
    fun _ sound r _ => sound.register r

theorem get?_run_empty : (empty.run reports).get? id.hex = latest id reports := by
  rw [get?_run]
  exact Option.or_none

theorem latest_eq_some_iff : latest id reports = some r ↔
    ∃ before after, reports = before ++ r :: after ∧ Accepts id r ∧ ∀ x ∈ after, ¬ Accepts id x := by
  constructor
  · intro last
    rcases List.getLast?_eq_some_iff.mp last with ⟨earlier, accepted⟩
    rcases List.filter_eq_append_iff.mp accepted with ⟨front, back, rfl, -, one⟩
    rcases List.filter_eq_cons_iff.mp one with ⟨refused, after, rfl, -, key, rest⟩
    refine ⟨front ++ refused, after, (List.append_assoc ..).symm, ?_, ?_⟩
    · exact key?_eq_some_iff.mp (of_decide_eq_true key)
    · intro x member accepts
      have kept := decide_eq_true (key?_eq_some_iff.mpr accepts)
      exact List.filter_eq_nil_iff.mp rest x member kept
  · intro told
    rcases told with ⟨before, after, rfl, accepts, others⟩
    exact latest_append_cons before accepts others

theorem get?_run_eq_some_iff : (empty.run reports).get? cid = some r ↔
    ∃ id, cid = id.hex ∧ latest id reports = some r := by
  constructor
  · intro found
    rcases own_of_get? (sound_run reports) found with ⟨id, -, rfl⟩
    exact ⟨id, rfl, get?_run_empty.symm.trans found⟩
  · intro told
    rcases told with ⟨id, rfl, last⟩
    exact get?_run_empty.trans last

theorem mem_ids_run_iff : cid ∈ (empty.run reports).ids ↔ ∃ r ∈ reports, ∃ id, Accepts id r ∧ cid = id.hex := by
  rw [mem_ids_iff]
  constructor
  · intro found
    rcases found with ⟨r, found⟩
    rcases get?_run_eq_some_iff.mp found with ⟨id, same, last⟩
    rcases latest_eq_some_iff.mp last with ⟨before, after, rfl, accepts, -⟩
    exact ⟨r, by simp, id, accepts, same⟩
  · intro told
    rcases told with ⟨r, member, id, accepts, rfl⟩
    rw [get?_run_empty]
    apply Option.ne_none_iff_exists'.mp
    intro none
    exact latest_eq_none_iff.mp none r member accepts

end

/-- What is seen of a registry behind these registrations. -/
structure Seen (reports : List Report) (registry : Registry) : Prop where
  found : ∀ cid r, registry.get? cid = some r ↔ ∃ id before after, cid = id.hex ∧
    reports = before ++ r :: after ∧ Accepts id r ∧ ∀ x ∈ after, ¬ Accepts id x
  absent : ∀ cid, registry.get? cid = none ↔ ∀ r ∈ reports, ∀ id, Accepts id r → cid ≠ id.hex
  own : ∀ cid r, registry.get? cid = some r → r.valid = true ∧ r.hash.map Digest.hex = some cid
  ascending : registry.ids.Pairwise (· < ·)
  listed : ∀ cid, cid ∈ registry.ids ↔ ∃ r ∈ reports, ∃ id, Accepts id r ∧ cid = id.hex
  lower : ∀ cid ∈ registry.ids, cid.toList.map Char.toLower = cid.toList
  size : registry.size = registry.ids.length
  isEmpty_iff : registry.isEmpty = true ↔ registry.ids = []
  sorted : ∀ cids : List String, cids.Nodup → (∀ cid, cid ∈ cids ↔ ∃ r, registry.get? cid = some r) →
    sortTexts cids = registry.ids ∧ cids.length = registry.size

theorem seen_run (reports : List Report) : Seen reports (empty.run reports) := by
  have sound := sound_run reports
  constructor
  case ascending => exact sound.ascending
  case listed => exact fun cid => mem_ids_run_iff
  case size => exact (empty.run reports).size_eq
  case isEmpty_iff => exact List.isEmpty_iff.trans List.map_eq_nil_iff.symm
  case found =>
    intro cid r
    rw [get?_run_eq_some_iff]
    simp only [latest_eq_some_iff, exists_and_left]
  case absent =>
    intro cid
    have none : (empty.run reports).get? cid = none ↔ cid ∉ (empty.run reports).ids := by
      rw [mem_ids_iff, ← Option.isSome_iff_exists, Option.not_isSome_iff_eq_none]
    rw [none, mem_ids_run_iff]
    simp only [not_exists, not_and, ne_eq]
  case own =>
    intro cid r found
    rcases own_of_get? sound found with ⟨id, ⟨valid, hash⟩, rfl⟩
    exact ⟨valid, by rw [hash]; rfl⟩
  case lower =>
    intro cid member
    rcases mem_ids_run_iff.mp member with ⟨_, _, id, _, rfl⟩
    exact Hex.map_toLower_encode id.bytes
  case sorted => exact fun cids distinct held => sortTexts_of_held sound distinct held

/-- After any registrations, what is seen of the registry is told by the accepted reports. The next report is
accepted exactly if it is valid and has a hash, and is answered by this hash; if it is refused, the registry
stays as it is. -/
theorem holds_latest_accepted (reports : List Report) :
    Seen reports (empty.run reports) ∧
    ∀ r, (∀ id, ((empty.run reports).register r).1 = some id ↔ r.valid = true ∧ r.hash = some id) ∧
      (((empty.run reports).register r).1 = none → ((empty.run reports).register r).2 = empty.run reports) := by
  constructor
  · exact seen_run reports
  · intro r
    exact ⟨fun id => register_eq_some_iff, register_of_refused⟩

/-- Two packs with one hash, and between them an invalid report and one without a hash. -/
theorem holds_latest_accepted_bare :
    let second := Lint.manifest .default (bare "b")
    let reports := [Lint.manifest .default (bare "a"), Lint.manifest .default Manifest.empty,
      { second with hash := none }, second]
    let id := Digest.hash Graph.empty.canonicalBytes
    let registry := empty.run reports
    registry.get? id.hex = some second ∧ registry.ids = [id.hex] ∧ registry.size = 1 ∧
      (registry.register { second with hash := none }).1 = none ∧
      (registry.register { second with hash := none }).2 = registry := by
  intro second reports id registry
  rcases holds_latest_accepted reports with ⟨seen, next⟩
  have found : registry.get? id.hex = some second := by
    apply (seen.found id.hex second).mpr
    exact ⟨id, reports.take 3, [], rfl, rfl, accepts_bare "b", nofun⟩
  have invalid : (Lint.manifest .default Manifest.empty).valid = false := by
    rw [Lint.manifest_eq]
    rfl
  have one : ∀ r ∈ reports, ∀ other, Accepts other r → other = id := by
    intro r member other accepts
    simp only [reports, List.mem_cons, List.not_mem_nil, or_false] at member
    rcases member with rfl | rfl | rfl | rfl
    · exact Option.some.inj (accepts.2.symm.trans (accepts_bare "a").2)
    · cases invalid.symm.trans accepts.1
    · cases accepts.2
    · exact Option.some.inj (accepts.2.symm.trans (accepts_bare "b").2)
  have held (cid : String) : cid ∈ [id.hex] ↔ ∃ r, registry.get? cid = some r := by
    rw [List.mem_singleton]
    constructor
    · intro same
      exact ⟨second, same ▸ found⟩
    · intro there
      rcases there with ⟨r, there⟩
      rcases (seen.found cid r).mp there with ⟨other, before, after, same, split, accepts, -⟩
      have member : r ∈ reports := split ▸ List.mem_append_right before List.mem_cons_self
      rw [same, one r member other accepts]
  have refused : (registry.register { second with hash := none }).1 = none := by
    apply Option.eq_none_iff_forall_ne_some.mpr
    intro other accepted
    cases (((next _).1 other).mp accepted).2
  have alone : sortTexts [id.hex] = [id.hex] := sort_onText_eq (.refl _) (List.pairwise_singleton _ _)
  rcases seen.sorted [id.hex] (List.nodup_singleton _) held with ⟨ids, size⟩
  exact ⟨found, ids.symm.trans alone, size.symm, refused, (next _).2 refused⟩

end Attest.Registry
