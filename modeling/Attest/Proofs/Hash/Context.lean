import Attest.Hash.Hasher

namespace Attest

namespace Sha256

theorem absorb_add (blocks more : Nat) (s : State) (bytes : Bytes) :
    s.absorb (blocks + more) bytes = (s.absorb blocks bytes).absorb more (bytes.drop (64 * blocks)) := by
  induction blocks generalizing s bytes with
  | zero => rw [Nat.zero_add, Nat.mul_zero, List.drop_zero, State.absorb]
  | succ blocks ih =>
    have tail : (bytes.drop 64).drop (64 * blocks) = bytes.drop (64 * (blocks + 1)) := by
      rw [List.drop_drop, Nat.mul_succ, Nat.add_comm]
    rw [Nat.add_right_comm, State.absorb, ih, State.absorb, tail]

theorem absorb_append (blocks : Nat) (s : State) {bytes : Bytes} (more : Bytes)
    (enough : 64 * blocks ≤ bytes.length) : s.absorb blocks (bytes ++ more) = s.absorb blocks bytes := by
  induction blocks generalizing s bytes with
  | zero => rfl
  | succ blocks ih =>
    have first : 64 ≤ bytes.length := by omega
    have rest : 64 * blocks ≤ (bytes.drop 64).length := by
      rw [List.length_drop]
      omega
    rw [State.absorb, State.absorb, List.take_append_of_le_length first,
      List.drop_append_of_le_length first, ih _ rest]

theorem absorb_pending (s : State) (message more : Bytes) :
    let blocks := message.length / 64
    let pending := message.drop (64 * blocks) ++ more
    (s.absorb blocks message).absorb (pending.length / 64) pending =
        s.absorb ((message ++ more).length / 64) (message ++ more) ∧
      pending.drop (64 * (pending.length / 64)) =
        (message ++ more).drop (64 * ((message ++ more).length / 64)) := by
  intro blocks pending
  have whole : 64 * blocks ≤ message.length := Nat.mul_div_le _ _
  have rest : pending = (message ++ more).drop (64 * blocks) :=
    (List.drop_append_of_le_length whole).symm
  have count : (message ++ more).length / 64 = blocks + pending.length / 64 := by
    rw [rest, List.length_drop, List.length_append]
    omega
  constructor
  · rw [count, absorb_add, absorb_append blocks s more whole, rest]
  · rw [rest, List.drop_drop, ← rest, ← Nat.mul_add, count]

namespace Context

def behind (message : Bytes) : Context where
  state := initial.absorb (message.length / 64) message
  pending := message.drop (64 * (message.length / 64))
  length := message.length

theorem feed_behind (message data : Bytes) : (behind message).feed data = behind (message ++ data) := by
  rcases absorb_pending initial message data with ⟨state, pending⟩
  rw [behind, behind, feed, Context.mk.injEq]
  exact ⟨state, pending, List.length_append.symm⟩

theorem finish_behind (message : Bytes) : (behind message).finish = hash message :=
  congrArg State.bytes (absorb_pending initial message (padding message.length)).1

end Context
end Sha256

namespace Hasher

def behind (message : Bytes) : Hasher := ⟨some (.behind message), message.length⟩

theorem new_eq_behind : new = behind [] := rfl

theorem update_behind (message data : Bytes) :
    (behind message).update data = .ok (behind (message ++ data)) := by
  have taken : (⟨some ((Sha256.Context.behind message).feed data), message.length + data.length⟩ : Hasher) =
      behind (message ++ data) := by
    rw [Sha256.Context.feed_behind, behind, List.length_append]
  exact congrArg Except.ok taken

theorem finish_behind (message : Bytes) :
    (behind message).finish = .ok (Digest.hash message, ⟨none, message.length⟩) := by
  have digest : (⟨(Sha256.Context.behind message).finish, Sha256.Context.length_finish _⟩ : Digest) =
      Digest.hash message := by
    simp only [Sha256.Context.finish_behind, Digest.hash]
  exact congrArg (fun d => Except.ok (d, (⟨none, message.length⟩ : Hasher))) digest

/-- What a counter of 64 bits shows to which the length of each piece was added. -/
def counter (pieces : List Bytes) : UInt64 := pieces.foldl (fun shown data => shown + .ofNat data.length) 0

theorem counter_eq_ofNat (pieces : List Bytes) : counter pieces = .ofNat pieces.flatten.length := by
  have shows : ∀ before : Nat, pieces.foldl (fun shown data => shown + .ofNat data.length) (UInt64.ofNat before) =
      .ofNat (before + pieces.flatten.length) := by
    induction pieces with
    | nil => exact fun before => rfl
    | cons data pieces ih =>
      intro before
      rw [List.foldl_cons, ← UInt64.ofNat_add, ih, List.flatten_cons, List.length_append, Nat.add_assoc]
  have whole := shows 0
  rwa [Nat.zero_add] at whole

theorem toNat_counter {pieces : List Bytes} (small : pieces.flatten.length < UInt64.size) :
    (counter pieces).toNat = pieces.flatten.length := by
  rw [counter_eq_ofNat, UInt64.toNat_ofNat', Nat.mod_eq_of_lt small]

end Hasher
end Attest
