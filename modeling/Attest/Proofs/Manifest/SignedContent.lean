import Attest.Proofs.Manifest.Sealing

namespace Attest

namespace Signature

def SameClaim (claimed other : String) : Prop :=
  claimed.toList.map Char.toLower = other.toList.map Char.toLower

variable {claimed other : String} {document edited : Json}

theorem check_eq_ok_iff {d : Digest} :
    check claimed d = .ok () ↔ claimed.toList.map Char.toLower = d.hex.toList := by
  unfold check
  split
  · rename_i same
    exact ⟨fun _ => same, fun _ => rfl⟩
  · rename_i different
    exact ⟨nofun, fun same => absurd same different⟩

theorem check_of_not_ok {d : Digest} (fails : check claimed d ≠ .ok ()) :
    check claimed d = .error (.signatureMismatch claimed d.hex) := by
  unfold check at fails ⊢
  split
  · rename_i same
    exact absurd (if_pos same) fails
  · rfl

theorem eq_of_checks {d e : Digest} (left : check claimed d = .ok ()) (right : check other e = .ok ())
    (same : SameClaim claimed other) : d = e := by
  rw [check_eq_ok_iff] at left right
  apply Digest.hex_injective
  apply String.toList_injective
  exact left.symm.trans (same.trans right)

theorem verify_of_claimed (claims : claimed? document = some claimed) :
    verify document = check claimed (compute document) := by
  rw [verify, claims]

/-- What remains of a document once the two members that may hold its signature are erased. -/
def remainder : Json → Json
  | .object members => .object (signed members)
  | document => document

theorem basis_eq_remainder (document : Json) : basis document = remainder document := by
  cases document <;> rfl

theorem content_of_compute (same : compute document = compute edited) :
    Canonical.ofJson (remainder document) = Canonical.ofJson (remainder edited) ∨
      Collision [(remainder document).canonicalBytes, (remainder edited).canonicalBytes] := by
  rw [compute, compute, basis_eq_remainder, basis_eq_remainder] at same
  exact Canonical.eq_or_collision same

variable {bytes text : Bytes}

theorem verifyBytes_of_read (found : read bytes = .ok document) : verifyBytes bytes = verify document := by
  rw [verifyBytes, found]
  rfl

/-- Documents that hold under one hash have the same content up to its canonical form, and a document
with other content is refused under that hash, unless the two canonical texts collide. -/
theorem signed_content_is_bound (found : read bytes = .ok document) (again : read text = .ok edited)
    (claims : claimed? document = some claimed) (others : claimed? edited = some other)
    (same : SameClaim claimed other) (holds : verifyBytes bytes = .ok ()) :
    (verifyBytes text = .ok () →
      Canonical.ofJson (remainder document) = Canonical.ofJson (remainder edited) ∨
        Collision [(remainder document).canonicalBytes, (remainder edited).canonicalBytes]) ∧
    (Canonical.ofJson (remainder document) ≠ Canonical.ofJson (remainder edited) →
      verifyBytes text = .error (.signatureMismatch other (compute edited).hex) ∨
        Collision [(remainder document).canonicalBytes, (remainder edited).canonicalBytes]) := by
  rw [verifyBytes_of_read found, verify_of_claimed claims] at holds
  rw [verifyBytes_of_read again, verify_of_claimed others]
  have bound : check other (compute edited) = .ok () →
      Canonical.ofJson (remainder document) = Canonical.ofJson (remainder edited) ∨
        Collision [(remainder document).canonicalBytes, (remainder edited).canonicalBytes] :=
    fun also => content_of_compute (eq_of_checks holds also same)
  refine ⟨bound, fun differ => ?_⟩
  by_cases also : check other (compute edited) = .ok ()
  · exact .inr ((bound also).resolve_left differ)
  · exact .inl (check_of_not_ok also)

/-- A hash kept in other letters, under the other spelling of its key, while the content is edited. -/
theorem signed_content_is_bound_edited :
    let claimed := "5041BF1F713DF204784353E82F6A4A535931CB64F1F4B4A5AEAFFCB720918B22"
    let other := "5041bf1f713df204784353e82f6a4a535931cb64f1f4b4a5aeaffcb720918b22"
    let document : Json := .object [("signatureHash", .string claimed), ("x", .ofInt 1)]
    let edited : Json := .object [("signature_hash", .string other), ("x", .ofInt 2)]
    let bytes := Utf8.encode document.text
    let text := Utf8.encode edited.text
    read bytes = .ok document ∧ read text = .ok edited ∧ claimed? document = some claimed ∧
      claimed? edited = some other ∧ SameClaim claimed other ∧ verifyBytes bytes = .ok () ∧
      Canonical.ofJson (remainder document) ≠ Canonical.ofJson (remainder edited) ∧
      (verifyBytes text = .error (.signatureMismatch other (compute edited).hex) ∨
        Collision [(remainder document).canonicalBytes, (remainder edited).canonicalBytes]) := by
  intro claimed other document edited bytes text
  have ordered : document.Ordered ∧ edited.Ordered := by
    refine ⟨⟨?_, trivial, trivial, trivial⟩, ?_, trivial, trivial, trivial⟩ <;>
      exact show List.Pairwise (· < ·) _ by decide
  have found : read bytes = .ok document :=
    mapError_eq_ok.mpr (Json.read_text document (by decide) ordered.1 (by decide))
  have again : read text = .ok edited :=
    mapError_eq_ok.mpr (Json.read_text edited (by decide) ordered.2 (by decide))
  have same : SameClaim claimed other := by
    unfold SameClaim
    decide
  have holds : verifyBytes bytes = .ok () := by
    rw [verifyBytes_of_read found]
    decide +kernel
  have differ : Canonical.ofJson (remainder document) ≠ Canonical.ofJson (remainder edited) := by decide
  have bound := signed_content_is_bound found again rfl rfl same holds
  exact ⟨found, again, rfl, rfl, same, holds, differ, bound.2 differ⟩

end Signature
end Attest
