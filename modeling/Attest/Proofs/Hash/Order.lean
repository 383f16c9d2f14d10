import Attest.Proofs.Hash.Digest
import Attest.Proofs.Order
import Attest.Proofs.Store
import Mathlib.Data.List.Dedup

namespace Attest.Digest

theorem bytes_le_iff {d e : Digest} : d.bytes ≤ e.bytes ↔ d.hex ≤ e.hex := by
  rw [← List.not_lt, ← String.not_lt, hex, hex, Hex.encode_lt_encode_iff]

theorem map_hex_sort (ds : List Digest) : (sort ds).map hex = sortTexts (ds.map hex) := by
  apply List.map_mergeSort
  intro d first e second
  show decide (d.bytes ≤ e.bytes) = (compare d.hex e.hex != .gt)
  rw [Bool.eq_iff_iff, decide_eq_true_eq, bytes_le_iff, compare_ne_gt_iff]

theorem sort_eq_iff {ds es : List Digest} : sort ds = sort es ↔ ds.Perm es := by
  rw [← (List.map_injective_iff.mpr hex_injective).eq_iff, map_hex_sort, map_hex_sort, sortTexts_eq_iff,
    List.map_perm_map_iff hex_injective]

/-- The addresses of a store are the texts of the digests that were stored, in the order of the digests. -/
theorem addresses_run (calls : List Store.Call) :
    (Store.empty.run calls).addresses = (sort ((Store.stored calls).map hash).dedup).map hex := by
  have coherent := Store.coherent_run calls
  have distinct : (((Store.stored calls).map hash).dedup.map hex).Nodup :=
    (List.nodup_dedup _).map hex_injective
  have members (a : String) :
      a ∈ ((Store.stored calls).map hash).dedup.map hex ↔ a ∈ (Store.empty.run calls).addresses := by
    rw [coherent.mem_addresses, List.mem_map]
    simp only [List.mem_dedup, List.mem_map]
    constructor
    · rintro ⟨-, ⟨data, there, rfl⟩, rfl⟩
      obtain ⟨kept, found⟩ := Store.exists_firstAt there
      exact ⟨kept, (Store.get?_run_empty calls _).trans found⟩
    · rintro ⟨data, found⟩
      rw [Store.get?_run_empty] at found
      obtain ⟨there, named⟩ := Store.of_firstAt found
      exact ⟨hash data, ⟨data, there, rfl⟩, named⟩
  rw [map_hex_sort]
  exact (sortTexts_eq distinct coherent.ascending members).1.symm

/-- A digest is read back from either of its texts. What is read as a digest is 64 digits of either case, and
they are its text in capitals or in small letters; with the algorithm before them they are read alike, and
nothing else is. The texts come in the order of the bytes, so both ways to sort give one list, and the
addresses of a store are in the order of the digests. -/
theorem texts_are_exact :
    (∀ d : Digest, ofHex d.hex = .ok d ∧ ofTagged d.tagged = .ok d) ∧
    (∀ s, (∃ d, ofHex s = .ok d) ↔ s.length = 64 ∧ ∀ c ∈ s.toList, Hex.IsDigit c) ∧
    (∀ s d, ofHex s = .ok d ↔ d.hex = s.toLower) ∧
    (∀ s, (∃ d, ofTagged s = .ok d) ↔
      ∃ digits, s = "sha256:" ++ digits ∧ digits.length = 64 ∧ ∀ c ∈ digits.toList, Hex.IsDigit c) ∧
    (∀ digits, ofTagged ("sha256:" ++ digits) = ofHex digits) ∧
    (∀ d e : Digest, d.bytes ≤ e.bytes ↔ d.hex ≤ e.hex) ∧
    (∀ ds, (sort ds).map hex = sortTexts (ds.map hex)) ∧
    ∀ calls, (Store.empty.run calls).addresses = (sort ((Store.stored calls).map hash).dedup).map hex := by
  refine ⟨fun d => ⟨d.ofHex_hex, ?_⟩, fun s => exists_ofHex_iff, fun s d => ?_, fun s => ?_, ofTagged_append,
    fun d e => bytes_le_iff, map_hex_sort, addresses_run⟩
  · exact (ofTagged_append d.hex).trans d.ofHex_hex
  · rw [ofHex_eq_ok_iff, eq_comm]
  · simp only [ofTagged_eq_ok_iff]
    constructor
    · rintro ⟨d, digits, spelled, read⟩
      exact ⟨digits, spelled, exists_ofHex_iff.mp ⟨d, read⟩⟩
    · rintro ⟨digits, spelled, text⟩
      obtain ⟨d, read⟩ := exists_ofHex_iff.mpr text
      exact ⟨d, digits, spelled, read⟩

end Attest.Digest
