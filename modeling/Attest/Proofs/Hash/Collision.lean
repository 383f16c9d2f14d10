import Attest.Hash.Digest
import Attest.Proofs.Text.Hex

namespace Attest

/-- Two different ones among the inputs have the same digest. -/
def Collision (inputs : List Bytes) : Prop :=
  ∃ x ∈ inputs, ∃ y ∈ inputs, x ≠ y ∧ Digest.hash x = Digest.hash y

instance (inputs : List Bytes) : Decidable (Collision inputs) :=
  inferInstanceAs (Decidable (∃ x ∈ inputs, ∃ y ∈ inputs, x ≠ y ∧ Digest.hash x = Digest.hash y))

theorem Collision.mono {inputs more : List Bytes} (collision : Collision inputs)
    (subset : inputs ⊆ more) : Collision more := by
  obtain ⟨x, hx, y, hy, distinct, hashed⟩ := collision
  exact ⟨x, subset hx, y, subset hy, distinct, hashed⟩

theorem not_collision_singleton (x : Bytes) : ¬ Collision [x] := by
  rintro ⟨a, ha, b, hb, distinct, -⟩
  exact distinct ((List.mem_singleton.mp ha).trans (List.mem_singleton.mp hb).symm)

theorem eq_or_collision {x y : Bytes} (hashed : Digest.hash x = Digest.hash y) :
    x = y ∨ Collision [x, y] := by
  by_cases same : x = y
  · exact .inl same
  · exact .inr ⟨x, by simp, y, by simp, same, hashed⟩

theorem hash_eq_iff {x y : Bytes} : Digest.hash x = Digest.hash y ↔ x = y ∨ Collision [x, y] := by
  constructor
  · exact eq_or_collision
  · rintro (rfl | ⟨a, left, b, right, distinct, hashed⟩)
    · rfl
    · simp only [List.mem_cons, List.not_mem_nil, or_false] at left right
      rcases left with rfl | rfl <;> rcases right with rfl | rfl
      · exact absurd rfl distinct
      · exact hashed
      · exact hashed.symm
      · exact absurd rfl distinct

/-- Two computations hash different inputs at one place, with the same digest. -/
def CollisionAt (xs ys : List Bytes) : Prop :=
  ∃ (k : Nat) (x y : Bytes), xs[k]? = some x ∧ ys[k]? = some y ∧ x ≠ y ∧ Digest.hash x = Digest.hash y

theorem not_collisionAt_self (xs : List Bytes) : ¬ CollisionAt xs xs := by
  rintro ⟨k, x, y, left, right, distinct, -⟩
  exact distinct (Option.some.inj (left.symm.trans right))

namespace CollisionAt

variable {xs ys : List Bytes}

theorem cons (x y : Bytes) (collision : CollisionAt xs ys) : CollisionAt (x :: xs) (y :: ys) := by
  obtain ⟨k, a, b, left, right, distinct, hashed⟩ := collision
  exact ⟨k + 1, a, b, left, right, distinct, hashed⟩

theorem collision (collision : CollisionAt xs ys) : Collision (xs ++ ys) := by
  obtain ⟨k, x, y, left, right, distinct, hashed⟩ := collision
  have here : x ∈ xs ++ ys := List.mem_append_left _ (List.mem_of_getElem? left)
  have there : y ∈ xs ++ ys := List.mem_append_right _ (List.mem_of_getElem? right)
  exact ⟨x, here, y, there, distinct, hashed⟩

theorem append (more others : List Bytes) (collision : CollisionAt xs ys) :
    CollisionAt (xs ++ more) (ys ++ others) := by
  obtain ⟨k, a, b, left, right, distinct, hashed⟩ := collision
  refine ⟨k, a, b, ?_, ?_, distinct, hashed⟩
  · rw [List.getElem?_append_left (List.getElem?_eq_some_iff.mp left).1, left]
  · rw [List.getElem?_append_left (List.getElem?_eq_some_iff.mp right).1, right]

theorem prepend {before others : List Bytes} (lengths : before.length = others.length)
    (collision : CollisionAt xs ys) : CollisionAt (before ++ xs) (others ++ ys) := by
  induction before generalizing others with
  | nil =>
    obtain rfl := List.length_eq_zero_iff.mp lengths.symm
    exact collision
  | cons x before ih =>
    obtain ⟨y, rest, rfl⟩ := List.exists_cons_of_length_eq_add_one lengths.symm
    apply (ih (Nat.succ.inj lengths)).cons

end CollisionAt

theorem eq_or_collisionAt {xs ys : List Bytes} (hashed : xs.map Digest.hash = ys.map Digest.hash) :
    xs = ys ∨ CollisionAt xs ys := by
  induction xs generalizing ys with
  | nil => exact .inl (List.map_eq_nil_iff.mp hashed.symm).symm
  | cons x xs ih =>
    obtain ⟨y, ys, rfl, head, tail⟩ := List.map_eq_cons_iff.mp hashed.symm
    by_cases same : x = y
    · rcases ih tail.symm with equal | collision
      · exact .inl (by rw [same, equal])
      · exact .inr (collision.cons x y)
    · exact .inr ⟨0, x, y, rfl, rfl, same, head.symm⟩

def Digest.filled (b : UInt8) : Digest := ⟨List.replicate 32 b, List.length_replicate⟩

theorem Digest.ext_bytes {d e : Digest} (h : d.bytes = e.bytes) : d = e := by
  cases d
  cases e
  simpa using h

theorem Digest.ofHex_hex (d : Digest) : ofHex d.hex = .ok d := by
  rw [ofHex, hex, Hex.decode_encode]
  simp only [ofBytes?, d.length_bytes, dif_pos]

theorem Digest.hex_injective : Function.Injective hex :=
  fun _ _ same => ext_bytes (Hex.encode_injective same)

theorem Digest.append_inj {a b c d : Digest} (h : a.bytes ++ b.bytes = c.bytes ++ d.bytes) :
    a = c ∧ b = d := by
  have halves := List.append_inj h (by rw [a.length_bytes, c.length_bytes])
  exact ⟨ext_bytes halves.1, ext_bytes halves.2⟩

end Attest
