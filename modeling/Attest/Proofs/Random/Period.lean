import Mathlib.Algebra.Ring.Periodic
import Mathlib.Dynamics.PeriodicPts.Lemmas
import Mathlib.Tactic.Ring
import Attest.Proofs.Random.Shuffle

namespace Attest.Random

inductive Call : Type 1 where
  | next
  | nextUnit
  | nextBelow (m : Nat)
  | pick {α : Type} (items : List α)
  | shuffle {α : Type} (items : List α)

namespace Call

def run : Call → Random → Random
  | .next, r => r.next.2
  | .nextUnit, r => r.nextUnit.2
  | .nextBelow m, r => (Random.nextBelow m r).2
  | .pick items, r => (Random.pick items r).2
  | .shuffle items, r => (Random.shuffle items r).2

def draws : Call → Nat
  | .shuffle items => items.length - 1
  | _ => 1

theorem run_eq (call : Call) (r : Random) : call.run r = r.after call.draws := by
  cases call with
  | next => rfl
  | nextUnit => rfl
  | nextBelow m => rfl
  | pick items => rfl
  | shuffle items => rw [run, shuffle_eq, draws]

end Call

theorem after_add (m n : Nat) (r : Random) : r.after (m + n) = (r.after m).after n := by
  rw [Nat.add_comm]
  exact Function.iterate_add_apply step n m r

theorem foldl_run (calls : List Call) (r : Random) :
    calls.foldl (fun r call => call.run r) r = r.after (calls.map Call.draws).sum := by
  induction calls generalizing r with
  | nil => rfl
  | cons call calls ih => rw [List.foldl_cons, ih, call.run_eq, List.map_cons, List.sum_cons, after_add]

theorem increment_odd : Odd increment.toNat := ⟨0x6D2B79F5 / 2, by decide⟩

theorem increment_coprime : Nat.Coprime (2 ^ 32) increment.toNat :=
  (Nat.coprime_two_left.mpr increment_odd).pow_left 32

theorem ext_state {r s : Random} (same : r.state.toNat = s.state.toNat) : r = s := by
  cases r
  cases s
  exact congrArg Random.mk (UInt32.toNat_inj.mp same)

theorem state_step (r : Random) : r.step.state.toNat = (r.state.toNat + increment.toNat) % 2 ^ 32 :=
  UInt32.toNat_add r.state increment

theorem state_after (n : Nat) (r : Random) :
    (r.after n).state.toNat = (r.state.toNat + increment.toNat * n) % 2 ^ 32 := by
  induction n generalizing r with
  | zero => exact (Nat.mod_eq_of_lt r.state.toNat_lt).symm
  | succ n ih =>
    rw [after_succ, ih, state_step, Nat.mod_add_mod, Nat.mul_succ, Nat.add_assoc, Nat.add_comm increment.toNat]

theorem after_eq_iff (r : Random) (i j : Nat) : r.after i = r.after j ↔ i ≡ j [MOD 2 ^ 32] := by
  constructor
  · intro same
    have states := congrArg (fun r : Random => r.state.toNat) same
    simp only [state_after] at states
    exact (Nat.ModEq.add_left_cancel' _ states).cancel_left_of_coprime increment_coprime
  · intro same
    apply ext_state
    rw [state_after, state_after]
    exact (same.mul_left _).add_left _

theorem exists_after (r s : Random) : ∃ n < 2 ^ 32, r.after n = s := by
  obtain ⟨inverse, -, whole⟩ := Nat.exists_mul_mod_eq_one_of_coprime increment_coprime.symm (by decide)
  have bound := r.state.toNat_lt
  let way := s.state.toNat + (2 ^ 32 - r.state.toNat)
  have lands : r.state.toNat + increment.toNat * (way * inverse % 2 ^ 32) ≡ s.state.toNat [MOD 2 ^ 32] :=
    calc r.state.toNat + increment.toNat * (way * inverse % 2 ^ 32)
        ≡ r.state.toNat + increment.toNat * (way * inverse) [MOD 2 ^ 32] :=
          ((Nat.mod_modEq _ _).mul_left _).add_left _
      _ = r.state.toNat + way * (increment.toNat * inverse) := by ring
      _ ≡ r.state.toNat + way * 1 [MOD 2 ^ 32] :=
          (Nat.ModEq.mul_left way (whole.trans (Nat.mod_eq_of_lt (by decide)).symm)).add_left _
      _ = s.state.toNat + 2 ^ 32 := by omega
      _ ≡ s.state.toNat [MOD 2 ^ 32] := Nat.add_modEq_right
  refine ⟨way * inverse % 2 ^ 32, Nat.mod_lt _ (by decide), ext_state ?_⟩
  rw [state_after, lands, Nat.mod_eq_of_lt s.state.toNat_lt]

theorem minimalPeriod_step (r : Random) : Function.minimalPeriod step r = 2 ^ 32 := by
  have returns (n : Nat) : Function.IsPeriodicPt step n r ↔ 2 ^ 32 ∣ n := by
    rw [← Nat.modEq_zero_iff_dvd, ← after_eq_iff r]
    rfl
  apply Nat.dvd_antisymm
  · exact ((returns _).mpr (dvd_refl _)).minimalPeriod_dvd
  · exact (returns _).mp (Function.isPeriodicPt_minimalPeriod step r)

/-- A sequence is periodic if it is met again when its items are left out from the first one on. -/
theorem periodic_iff_isPeriodicPt {β : Type} {items : Nat → β} {p : Nat} :
    Function.Periodic items p ↔ Function.IsPeriodicPt (fun items : Nat → β => items ∘ Nat.succ) p items := by
  have left (n : Nat) : (fun items : Nat → β => items ∘ Nat.succ)^[n] items = fun m => items (m + n) := by
    induction n with
    | zero => rfl
    | succ n ih =>
      rw [Function.iterate_succ_apply', ih]
      funext m
      exact congrArg items (Nat.succ_add_eq_add_succ m n)
  rw [Function.IsPeriodicPt, Function.IsFixedPt, left]
  exact funext_iff.symm

theorem periodic_draws (r : Random) : Function.Periodic (fun n => (r.after n).next.1) (2 ^ 32) := by
  intro n
  have same : r.after (n + 2 ^ 32) = r.after n := (after_eq_iff r _ _).mpr Nat.add_modEq_right
  dsimp only
  rw [same]

theorem not_periodic_draws_half (r : Random) : ¬ Function.Periodic (fun n => (r.after n).next.1) (2 ^ 31) := by
  intro half
  obtain ⟨n, -, zero⟩ := exists_after r ⟨0⟩
  have later : r.after (n + 2 ^ 31) = ⟨2 ^ 31⟩ := by
    apply ext_state
    rw [after_add, zero, state_after]
    decide
  have same := half n
  dsimp only at same
  rw [later, zero] at same
  exact absurd same (by decide)

theorem periodic_draws_iff (r : Random) (p : Nat) :
    Function.Periodic (fun n => (r.after n).next.1) p ↔ 2 ^ 32 ∣ p := by
  have half := mt periodic_iff_isPeriodicPt.mpr (not_periodic_draws_half r)
  have whole := periodic_iff_isPeriodicPt.mp (periodic_draws r)
  rw [periodic_iff_isPeriodicPt, Function.isPeriodicPt_iff_minimalPeriod_dvd,
    Function.minimalPeriod_eq_prime_pow half whole]

/-- The state counts the draws, whatever they were taken for. After as many of them as there are states, each
state has been met once, and neither states nor draws repeat before that. -/
theorem position_counts_draws (r : Random) :
    (∀ calls : List Call, (calls.foldl (fun r call => call.run r) r).state.toNat =
      (r.state.toNat + increment.toNat * (calls.map Call.draws).sum) % 2 ^ 32) ∧
    Odd increment.toNat ∧
    (∀ i j, r.after i = r.after j ↔ i ≡ j [MOD 2 ^ 32]) ∧
    (∀ s, ∃ n < 2 ^ 32, r.after n = s) ∧
    Function.minimalPeriod step r = 2 ^ 32 ∧
    ∀ p, Function.Periodic (fun n => (r.after n).next.1) p ↔ 2 ^ 32 ∣ p := by
  refine ⟨?_, increment_odd, after_eq_iff r, exists_after r, minimalPeriod_step r, periodic_draws_iff r⟩
  intro calls
  rw [foldl_run, state_after]

end Attest.Random
