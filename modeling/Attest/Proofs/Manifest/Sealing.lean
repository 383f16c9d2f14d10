import Attest.Manifest.Signature
import Attest.Proofs.Canonical.Settled
import Attest.Proofs.Json.Plain
import Attest.Proofs.Text.Hex

namespace Attest.Signature

open Json (settled)

def signed (members : List (String × Json)) : List (String × Json) :=
  Entries.erase "signature_hash" (Entries.erase key members)

theorem basis_object (members : List (String × Json)) :
    basis (.object members) = .object (signed members) := rfl

section

variable {members : List (String × Json)}

theorem ascending_signed (ascending : Entries.Ascending members) :
    Entries.Ascending (signed members) :=
  (ascending.erase key).erase "signature_hash"

theorem mem_of_mem_signed {member : String × Json} (there : member ∈ signed members) :
    member ∈ members :=
  Entries.mem_of_mem_erase (Entries.mem_of_mem_erase there)

theorem ordered_signed (ordered : (Json.object members).Ordered) :
    (Json.object (signed members)).Ordered := by
  obtain ⟨ascending, inside⟩ := ordered
  refine ⟨ascending_signed ascending, Json.orderedMembers_iff.mpr fun member there => ?_⟩
  exact Json.orderedMembers_iff.mp inside member (mem_of_mem_signed there)

theorem signed_mapValues (f : Json → Json) (members : List (String × Json)) :
    signed (Entries.mapValues f members) = Entries.mapValues f (signed members) := by
  rw [signed, Entries.erase_mapValues, Entries.erase_mapValues, signed]

theorem signed_insert_key (value : Json) (members : List (String × Json)) :
    signed (Entries.insert key value members) = signed members := by
  rw [signed, Entries.erase_insert_self, signed]

theorem signed_signed (members : List (String × Json)) : signed (signed members) = signed members := by
  unfold signed
  rw [Entries.erase_comm key "signature_hash", Entries.erase_erase_self, Entries.erase_erase_self]

theorem under_signed {spellings : List String} (others : ∀ key ∈ keys, key ∉ spellings)
    (members : List (String × Json)) :
    Entries.under spellings (signed members) = Entries.under spellings members := by
  obtain ⟨first, second⟩ := List.forall_mem_cons.mp others
  rw [signed, Entries.under_erase_of_not_mem (second _ List.mem_cons_self),
    Entries.under_erase_of_not_mem first]

theorem under_keys_signed (members : List (String × Json)) : Entries.under keys (signed members) = [] := by
  apply List.filter_eq_nil_iff.mpr
  intro member there spelled
  obtain ⟨there, second⟩ := List.mem_filter.mp there
  obtain ⟨-, first⟩ := List.mem_filter.mp there
  rcases List.mem_cons.mp (List.contains_iff_mem.mp spelled) with same | same
  · exact of_decide_eq_true first same
  · exact of_decide_eq_true second (List.mem_singleton.mp same)

def sealedMembers (members : List (String × Json)) : List (String × Json) :=
  Entries.insert key (compute (.object members)).toJson (signed members)

theorem sealed_object (members : List (String × Json)) :
    sealed (.object members) = .ok (.object (sealedMembers members)) := rfl

theorem ascending_sealedMembers (ascending : Entries.Ascending members) :
    Entries.Ascending (sealedMembers members) :=
  (ascending_signed ascending).insert

theorem nesting_sealedMembers_le {depth : Nat} (shallow : (Json.object members).nesting ≤ depth) :
    (Json.object (sealedMembers members)).nesting ≤ depth := by
  obtain ⟨depth, rfl⟩ : ∃ less, depth = less + 1 := ⟨depth - 1, by simp [Json.nesting] at shallow; omega⟩
  have inside := Json.nestingOfMembers_le_iff.mp (Nat.le_of_succ_le_succ shallow)
  apply Nat.succ_le_succ
  apply Json.nestingOfMembers_le_iff.mpr
  intro member there
  rcases Entries.mem_of_mem_insert there with rfl | there
  · exact Nat.zero_le _
  · exact inside member (mem_of_mem_signed there)

theorem settled_sealed (ascending : Entries.Ascending members) :
    (Json.object (sealedMembers members)).settled =
      .object (Entries.mapValues settled (sealedMembers members)) :=
  Json.settled_object (ascending_sealedMembers ascending)

theorem signed_settled_sealed (members : List (String × Json)) :
    signed (Entries.mapValues settled (sealedMembers members)) =
      Entries.mapValues settled (signed members) := by
  rw [signed_mapValues, sealedMembers, signed_insert_key, signed_signed]

theorem compute_settled_sealed (ascending : Entries.Ascending members) :
    compute (Json.object (sealedMembers members)).settled = compute (.object members) := by
  rw [settled_sealed ascending, compute, basis_object, signed_settled_sealed,
    ← Json.settled_object (ascending_signed ascending), Json.digest_settled, compute, basis_object]

theorem claimed?_settled_sealed (ascending : Entries.Ascending members) :
    claimed? (Json.object (sealedMembers members)).settled =
      some (compute (.object members)).hex := by
  have there := Entries.get?_insert_self key (compute (.object members)).toJson (signed members)
  rw [settled_sealed ascending]
  simp only [claimed?, keys, List.findSome?_cons, Json.get?, Entries.get?_mapValues, sealedMembers, there]
  rfl

theorem mem_of_mem_sealedMembers {entry : String × Json} (there : entry ∈ sealedMembers members) :
    entry = (key, (compute (.object members)).toJson) ∨ entry ∈ members :=
  (Entries.mem_of_mem_insert there).imp_right mem_of_mem_signed

theorem key_mem_sealedMembers (members : List (String × Json)) : key ∈ Entries.keys (sealedMembers members) := by
  apply Entries.mem_keys_iff.mpr
  exact ⟨_, Entries.get?_insert_self key _ _⟩

theorem lacks_sealedMembers (lacks : (Json.object members).lacks Json.Decoder.numberKey = true) :
    (Json.object (sealedMembers members)).lacks Json.Decoder.numberKey = true := by
  obtain ⟨here, within⟩ := Bool.and_eq_true_iff.mp lacks
  have each := Json.allKeysOfMembers_iff.mp within
  apply Bool.and_eq_true_iff.mpr
  constructor
  · rw [Json.lacking_iff] at here ⊢
    intro there
    obtain ⟨entry, inside, named⟩ := List.mem_map.mp there
    rcases mem_of_mem_sealedMembers inside with rfl | other
    · exact absurd (show key = Json.Decoder.numberKey from named) (by decide)
    · exact here (List.mem_map.mpr ⟨entry, other, named⟩)
  · apply Json.allKeysOfMembers_iff.mpr
    intro entry there
    rcases mem_of_mem_sealedMembers there with rfl | other
    · rfl
    · exact each entry other

theorem isAccompanied_sealedMembers (beside : (Json.object members).isAccompanied = true) :
    (Json.object (sealedMembers members)).isAccompanied = true := by
  obtain ⟨-, within⟩ := Bool.and_eq_true_iff.mp beside
  have each := Json.allKeysOfMembers_iff.mp within
  apply Bool.and_eq_true_iff.mpr
  constructor
  · exact Bool.or_eq_true_iff.mpr
      (.inr (List.any_eq_true.mpr ⟨key, key_mem_sealedMembers members, by decide⟩))
  · apply Json.allKeysOfMembers_iff.mpr
    intro entry there
    rcases mem_of_mem_sealedMembers there with rfl | other
    · rfl
    · exact each entry other

theorem accepted_of_read {bytes : Bytes} {document : Json} (found : read bytes = .ok document) :
    document.nesting ≤ Json.maxDepth ∧ document.Ordered := by
  cases inside : Json.read Json.Decoder.value bytes with
  | error fault =>
    rw [read, inside] at found
    cases found
  | ok j =>
    rw [read, inside] at found
    cases found
    exact Json.accepted_read inside

theorem isAccompanied_of_read {bytes : Bytes} {document : Json} (found : read bytes = .ok document) :
    document.isAccompanied = true := by
  obtain ⟨_, -, inside⟩ := Json.read_eq_ok_iff.mp (mapError_eq_ok.mp found)
  exact Json.Decoder.isAccompanied_of_value inside

theorem check_hex (d : Digest) : check d.hex d = .ok () := by
  have lower : d.hex.toList.map Char.toLower = d.hex.toList := Hex.map_toLower_encode d.bytes
  rw [check, if_pos lower]

theorem verify_settled_sealed (ascending : Entries.Ascending members) :
    verify (Json.object (sealedMembers members)).settled = .ok () := by
  rw [verify, claimed?_settled_sealed ascending, compute_settled_sealed ascending]
  exact check_hex _

theorem sealed_settled_sealed (ascending : Entries.Ascending members) :
    sealed (Json.object (sealedMembers members)).settled =
      .ok (Json.object (sealedMembers members)).settled := by
  have same := compute_settled_sealed ascending
  have inserted := Entries.insert_mapValues settled key (compute (.object members)).toJson
    (signed members)
  rw [settled_sealed ascending] at same ⊢
  rw [sealed_object]
  conv_lhs => rw [sealedMembers, same, signed_settled_sealed]
  exact congrArg (Except.ok ∘ Json.object) inserted

end

def sealedText (members : List (String × Json)) : Bytes := (Json.object (sealedMembers members)).canonicalBytes

theorem plain_sealedText {members : List (String × Json)}
    (lacks : (Json.object members).lacks Json.Decoder.numberKey = true) : Json.Plain (sealedText members) := by
  rw [Json.Plain, sealedText, Json.ofBytes_canonicalBytes]
  exact Json.isPlain_of_lacks _ (Json.lacks_settled (lacks_sealedMembers lacks))

section

variable {bytes : Bytes} {members : List (String × Json)} (found : read bytes = .ok (.object members))

include found

theorem read_sealedText (plain : Json.Plain (sealedText members)) :
    read (sealedText members) = .ok (Json.object (sealedMembers members)).settled := by
  obtain ⟨shallow, -⟩ := accepted_of_read found
  rw [Json.Plain, sealedText, Json.ofBytes_canonicalBytes] at plain
  rw [read, sealedText, Canonical.read_canonicalBytes _ (nesting_sealedMembers_le shallow) plain]
  rfl

/-- In a document that was read, the key of numbers never stands alone; so where it comes first, what is
sealed is not read again. -/
theorem read_sealedText_of_not_plain (unread : ¬ Json.Plain (sealedText members)) :
    ∃ fault, read (sealedText members) = .error (.unreadable fault) := by
  cases again : Json.read Json.Decoder.value (sealedText members) with
  | error fault =>
    refine ⟨fault, ?_⟩
    rw [read, again]
    rfl
  | ok j =>
    obtain ⟨_, outlined, inside⟩ := Json.read_eq_ok_iff.mp again
    rw [sealedText, Json.ofBytes_canonicalBytes] at outlined
    obtain ⟨rfl, -⟩ := Prod.mk.inj outlined
    have beside := Json.isAccompanied_settled (isAccompanied_sealedMembers (isAccompanied_of_read found))
    rw [Json.Plain, sealedText, Json.ofBytes_canonicalBytes] at unread
    exact absurd (Json.Decoder.isPlain_of_value_outline beside inside) unread

end

/-- The bytes of an object can be sealed. The sealed bytes verify, have the signature hash that the object
had, and are sealed already, unless an object in them begins with the key of numbers; then they are not
read at all. Bytes of anything else are refused. -/
theorem sealed_bytes_verify (bytes : Bytes) :
    (∀ members, read bytes = .ok (.object members) → ∃ text digest,
      sealedBytes bytes = .ok text ∧ computeBytes bytes = .ok digest ∧
      (Json.Plain text → verifyBytes text = .ok () ∧ computeBytes text = .ok digest ∧
        sealedBytes text = .ok text) ∧
      (¬ Json.Plain text → ∃ fault, verifyBytes text = .error (.unreadable fault) ∧
        computeBytes text = .error (.unreadable fault) ∧ sealedBytes text = .error (.unreadable fault)) ∧
      ((Json.object members).lacks Json.Decoder.numberKey = true → Json.Plain text)) ∧
    (∀ fault, Json.read Json.Decoder.value bytes = .error fault →
      sealedBytes bytes = .error (.unreadable fault)) ∧
    ∀ document, read bytes = .ok document → document.isObject = false →
      sealedBytes bytes = .error .notAnObject := by
  refine ⟨?_, ?_, ?_⟩
  · intro members found
    obtain ⟨-, ascending, -⟩ := accepted_of_read found
    refine ⟨sealedText members, compute (.object members), ?_, ?_, fun plain => ?_, fun unread => ?_,
      plain_sealedText⟩
    · rw [sealedBytes, found]
      rfl
    · rw [computeBytes, found]
      rfl
    · have back := read_sealedText found plain
      refine ⟨?_, ?_, ?_⟩
      · rw [verifyBytes, back]
        exact verify_settled_sealed ascending
      · rw [computeBytes, back]
        exact congrArg Except.ok (compute_settled_sealed ascending)
      · simp only [sealedBytes, back, bind, Except.bind, sealed_settled_sealed ascending, pure,
          Except.pure, Json.canonicalBytes_settled]
        rfl
    · obtain ⟨fault, back⟩ := read_sealedText_of_not_plain found unread
      refine ⟨fault, ?_, ?_, ?_⟩
      · rw [verifyBytes, back]
        rfl
      · rw [computeBytes, back]
        rfl
      · rw [sealedBytes, back]
        rfl
  · intro fault unreadable
    rw [sealedBytes, read, unreadable]
    rfl
  · intro document found other
    rw [sealedBytes, found]
    cases document with
    | object members => cases other
    | _ => rfl

/-- A document with a number that is spelled otherwise when it is written, and with a signature in each
spelling of its key. -/
theorem sealed_bytes_verify_resealed :
    let members : List (String × Json) := [("n", .number ⟨true, 0, [1, 0], some ⟨false, 2, [3]⟩⟩),
      ("signatureHash", .null), ("signature_hash", .string "00")]
    let bytes := Utf8.encode (Json.object members).text
    read bytes = .ok (.object members) ∧ ∃ text digest,
      sealedBytes bytes = .ok text ∧ verifyBytes text = .ok () ∧
      computeBytes bytes = .ok digest ∧ computeBytes text = .ok digest ∧
      sealedBytes text = .ok text := by
  intro members bytes
  have ascending : Entries.Ascending members := by
    unfold Entries.Ascending
    decide
  have found : read bytes = .ok (.object members) := by
    have back := Json.read_text (.object members) (by decide)
      ⟨ascending, trivial, trivial, trivial, trivial⟩ (by decide)
    rw [read, back]
    rfl
  obtain ⟨text, digest, sealed, computed, kept, -, plain⟩ := (sealed_bytes_verify bytes).1 members found
  obtain ⟨holds, same, again⟩ := kept (plain (by decide))
  exact ⟨found, text, digest, sealed, holds, computed, same, again⟩

/-- A document in which sealing moves the key of numbers to the front. -/
theorem sealed_bytes_verify_unread :
    let bytes := Utf8.encode "\x7b\"zz\":1,\"$serde_json::private::Number\":\"1\"\x7d"
    let members : List (String × Json) := [("$serde_json::private::Number", .string "1"), ("zz", .ofInt 1)]
    read bytes = .ok (.object members) ∧ ∃ text, sealedBytes bytes = .ok text ∧
      verifyBytes text = .error (.unreadable .malformed) ∧ sealedBytes text ≠ .ok text := by
  intro bytes members
  refine ⟨by decide +kernel, ?_⟩
  obtain ⟨text, sealed⟩ := exists_of_isOk (show (sealedBytes bytes).isOk = true by decide +kernel)
  refine ⟨text, sealed, ?_⟩
  have both : (sealedBytes bytes).map (fun text => (decide (verifyBytes text = .error (.unreadable .malformed)),
      (sealedBytes text).isOk)) = .ok (true, false) := by decide +kernel
  rw [sealed] at both
  obtain ⟨first, second⟩ := Prod.mk.inj (Except.ok.inj both)
  refine ⟨of_decide_eq_true first, fun again => ?_⟩
  rw [again] at second
  cases second

end Attest.Signature
