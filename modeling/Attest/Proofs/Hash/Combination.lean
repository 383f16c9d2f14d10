import Attest.Proofs.Hash.Order

namespace Attest.Digest

def joined (ds : List Digest) : Bytes := Utf8.encode (":".intercalate (ds.map hex))

theorem colon_not_mem_hex (d : Digest) : ':' ∉ d.hex.toList := by
  intro there
  exact absurd (d.isText_hex.2 ':' there) (by decide)

theorem toList_hex_ne_nil (d : Digest) : d.hex.toList ≠ [] := by
  intro none
  have length := d.isText_hex.1
  rw [← String.length_toList, none] at length
  cases length

theorem toList_joined (ds : List Digest) :
    (":".intercalate (ds.map hex)).toList = [':'].intercalate (ds.map fun d => d.hex.toList) := by
  rw [String.toList_intercalate, List.map_map]
  rfl

theorem splitOn_joined {ds : List Digest} (some : ds ≠ []) :
    ([':'].intercalate (ds.map fun d => d.hex.toList)).splitOn ':' = ds.map fun d => d.hex.toList := by
  apply List.splitOn_intercalate
  · intro text there
    obtain ⟨d, -, rfl⟩ := List.mem_map.mp there
    exact d.colon_not_mem_hex
  · rwa [ne_eq, List.map_eq_nil_iff]

theorem eq_nil_of_joined {ds : List Digest} (empty : [':'].intercalate (ds.map fun d => d.hex.toList) = []) :
    ds = [] := by
  by_contra some
  have parts := splitOn_joined some
  rw [empty, List.splitOn_nil] at parts
  have blank : [] ∈ ds.map fun d => d.hex.toList := parts ▸ List.mem_singleton_self []
  obtain ⟨d, -, none⟩ := List.mem_map.mp blank
  exact d.toList_hex_ne_nil none

theorem joined_injective : Function.Injective joined := by
  intro ds es same
  have texts := congrArg String.toList (Utf8.encode_injective same)
  rw [toList_joined, toList_joined] at texts
  by_cases none : ds = []
  · subst none
    exact (eq_nil_of_joined texts.symm).symm
  · by_cases noneOther : es = []
    · subst noneOther
      exact eq_nil_of_joined texts
    · have parts := congrArg (List.splitOn ':') texts
      rw [splitOn_joined none, splitOn_joined noneOther] at parts
      have chars : Function.Injective fun d : Digest => d.hex.toList :=
        fun d e spelled => hex_injective (String.toList_inj.mp spelled)
      exact List.map_injective_iff.mpr chars parts

theorem combine_eq_iff {ds es : List Digest} :
    combine ds = combine es ↔ ds = es ∨ Collision [joined ds, joined es] := by
  have hashed (ds : List Digest) : combine ds = hash (joined ds) := rfl
  rw [hashed, hashed, hash_eq_iff, joined_injective.eq_iff]

/-- Two lists have one digest only if they are the same, and sorted first they have one exactly if each is the
other in some order; or else the two texts that were hashed collide. -/
theorem combination_binds_list (ds es : List Digest) :
    (combine ds = combine es ↔ ds = es ∨ Collision [joined ds, joined es]) ∧
    (combine (sort ds) = combine (sort es) ↔ ds.Perm es ∨ Collision [joined (sort ds), joined (sort es)]) := by
  constructor
  · exact combine_eq_iff
  · rw [combine_eq_iff, sort_eq_iff]

end Attest.Digest
