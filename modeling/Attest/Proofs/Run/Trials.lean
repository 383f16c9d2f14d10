import Attest.Proofs.Hash.Collision
import Attest.Run.Trials
import Mathlib.Data.List.Basic

namespace Attest.Trials

variable {σ : Type}

def stateAfter (trial : Trial σ) (s : σ) : (n : Nat) → σ
  | 0 => s
  | n + 1 => (trial n (stateAfter trial s n)).2

/-- What a trial gives when those before it have been called in order. -/
def given (trial : Trial σ) (s : σ) (number : Nat) : Except String Digest :=
  (trial number (stateAfter trial s number)).1

def recorded (trial : Trial σ) : Trial (σ × List Nat) := fun number (s, calls) =>
  ((trial number s).1, (trial number s).2, calls ++ [number])

def Agrees (given : Nat → Except String Digest) (number : Nat) : Prop :=
  ∃ d, given 0 = .ok d ∧ given number = .ok d

inductive Breaks (given : Nat → Except String Digest) (number : Nat) : Error → Prop
  | failed {reason : String} (fails : given number = .error reason) : Breaks given number (.failed number reason)
  | drifted {expected actual : Digest} (first : given 0 = .ok expected) (here : given number = .ok actual)
    (other : actual ≠ expected) : Breaks given number (.drifted number expected actual)

inductive Ends (given : Nat → Except String Digest) (count : Nat) : Except Error Digest → (calls : Nat) → Prop
  | tooFew (few : count < 2) : Ends given count (.error (.tooFew count)) 0
  | agreed {d : Digest} (enough : 2 ≤ count) (all : ∀ number < count, given number = .ok d) :
    Ends given count (.ok d) count
  | broken {number : Nat} {e : Error} (enough : 2 ≤ count) (inside : number < count)
    (before : ∀ earlier < number, Agrees given earlier) (breaks : Breaks given number e) :
    Ends given count (.error e) (number + 1)

section

variable {given : Nat → Except String Digest} {count number other : Nat}

theorem Breaks.not_agrees {e : Error} (breaks : Breaks given number e) : ¬ Agrees given number := by
  rintro ⟨d, first, here⟩
  cases breaks with
  | failed fails => cases fails.symm.trans here
  | drifted expected actual other =>
    cases first.symm.trans expected
    cases here.symm.trans actual
    exact other rfl

theorem Breaks.unique {e f : Error} (breaks : Breaks given number e) (also : Breaks given number f) : e = f := by
  cases breaks with
  | failed fails =>
    cases also with
    | failed again =>
      cases fails.symm.trans again
      rfl
    | drifted _ here _ => cases fails.symm.trans here
  | drifted first here _ =>
    cases also with
    | failed fails => cases here.symm.trans fails
    | drifted first' here' _ =>
      cases first.symm.trans first'
      cases here.symm.trans here'
      rfl

theorem agrees_of_all {d : Digest} (all : ∀ number < count, given number = .ok d) (inside : number < count) :
    Agrees given number := ⟨d, all 0 (Nat.zero_lt_of_lt inside), all number inside⟩

theorem Ends.unique {result result' : Except Error Digest} {calls calls' : Nat}
    (ends : Ends given count result calls) (also : Ends given count result' calls') :
    result = result' ∧ calls = calls' := by
  cases ends with
  | tooFew few =>
    cases also with
    | tooFew => exact ⟨rfl, rfl⟩
    | agreed enough => omega
    | broken enough => omega
  | agreed enough all =>
    cases also with
    | tooFew few => omega
    | agreed _ all' =>
      have inside : 0 < count := by omega
      cases (all 0 inside).symm.trans (all' 0 inside)
      exact ⟨rfl, rfl⟩
    | broken _ inside _ breaks => exact absurd (agrees_of_all all inside) breaks.not_agrees
  | @broken number e enough inside before breaks =>
    cases also with
    | tooFew few => omega
    | agreed _ all => exact absurd (agrees_of_all all inside) breaks.not_agrees
    | @broken number' e' _ _ before' breaks' =>
      rcases Nat.lt_trichotomy number number' with earlier | rfl | later
      · exact absurd (before' number earlier) breaks.not_agrees
      · cases breaks.unique breaks'
        exact ⟨rfl, rfl⟩
      · exact absurd (before number' later) breaks'.not_agrees

theorem Ends.eq_ok_iff {result : Except Error Digest} {calls : Nat} (ends : Ends given count result calls)
    (d : Digest) : result = .ok d ↔ 2 ≤ count ∧ ∀ number < count, given number = .ok d := by
  constructor
  · rintro rfl
    cases ends with
    | agreed enough all => exact ⟨enough, all⟩
  · rintro ⟨enough, all⟩
    exact (ends.unique (.agreed enough all)).1

end

section

variable {trial : Trial σ} {s after : σ} {number : Nat}

theorem follow_failed {reason : String} (called : trial number s = (.error reason, after))
    (expected : Digest) (count : Nat) :
    follow trial expected (count + 1) number s = (.error (.failed number reason), after) := by
  simp only [follow, bind, StateT.bind, called]
  rfl

theorem follow_drifted {expected actual : Digest} (called : trial number s = (.ok actual, after))
    (other : actual ≠ expected) (count : Nat) :
    follow trial expected (count + 1) number s = (.error (.drifted number expected actual), after) := by
  simp only [follow, bind, StateT.bind, called, if_neg other]
  rfl

theorem follow_agreed {expected : Digest} (called : trial number s = (.ok expected, after)) (count : Nat) :
    follow trial expected (count + 1) number s = follow trial expected count (number + 1) after := by
  simp only [follow, bind, StateT.bind, called, if_true]

theorem run_failed {reason : String} (called : trial 0 s = (.error reason, after)) (count : Nat) :
    run trial (count + 2) s = (.error (.failed 0 reason), after) := by
  simp only [run, Nat.not_lt.mpr (Nat.le_add_left 2 count), if_false, bind, StateT.bind, called]
  rfl

theorem run_given {first : Digest} (called : trial 0 s = (.ok first, after)) (count : Nat) :
    run trial (count + 2) s = follow trial first (count + 1) 1 after := by
  simp only [run, Nat.not_lt.mpr (Nat.le_add_left 2 count), if_false, bind, StateT.bind, called]
  rfl

end

variable (trial : Trial σ)

theorem follow_ends {s : σ} {first : Digest} (count : Nat) {number : Nat} (some : 0 < number)
    (enough : 2 ≤ number + count) (before : ∀ earlier < number, given trial s earlier = .ok first) :
    ∃ calls, (follow trial first count number (stateAfter trial s number)).2 = stateAfter trial s calls ∧
      Ends (given trial s) (number + count)
        (follow trial first count number (stateAfter trial s number)).1 calls := by
  induction count generalizing number with
  | zero => exact ⟨number, rfl, .agreed enough before⟩
  | succ count ih =>
    have inside : number < number + (count + 1) := by omega
    have agreed : ∀ earlier < number, Agrees (given trial s) earlier := fun _ => agrees_of_all before
    rcases called : trial number (stateAfter trial s number) with ⟨reason | actual, after⟩
    · have fails : given trial s number = .error reason := congrArg Prod.fst called
      have state : after = stateAfter trial s (number + 1) := (congrArg Prod.snd called).symm
      rw [follow_failed called]
      exact ⟨number + 1, state, .broken enough inside agreed (.failed fails)⟩
    · have here : given trial s number = .ok actual := congrArg Prod.fst called
      have state : after = stateAfter trial s (number + 1) := (congrArg Prod.snd called).symm
      by_cases same : actual = first
      · subst same
        have more : ∀ earlier < number + 1, given trial s earlier = .ok actual := by
          intro earlier below
          rcases Nat.lt_succ_iff_lt_or_eq.mp below with earlier | rfl
          · exact before _ earlier
          · exact here
        have others : number + (count + 1) = number + 1 + count := by omega
        rw [follow_agreed called, state, others]
        exact ih (Nat.succ_pos number) (others ▸ enough) more
      · rw [follow_drifted called same]
        exact ⟨number + 1, state, .broken enough inside agreed (.drifted (before 0 some) here same)⟩

theorem run_ends (count : Nat) (s : σ) :
    ∃ calls, (run trial count s).2 = stateAfter trial s calls ∧
      Ends (given trial s) count (run trial count s).1 calls := by
  by_cases few : count < 2
  · rw [run, if_pos few]
    exact ⟨0, rfl, .tooFew few⟩
  · obtain ⟨count, rfl⟩ := Nat.exists_eq_add_of_le' (Nat.not_lt.mp few)
    have enough : 2 ≤ count + 2 := Nat.le_add_left 2 count
    rcases called : trial 0 s with ⟨reason | first, after⟩
    · have fails : given trial s 0 = .error reason := congrArg Prod.fst called
      have state : after = stateAfter trial s 1 := (congrArg Prod.snd called).symm
      rw [run_failed called]
      exact ⟨1, state, .broken enough (Nat.succ_pos _) nofun (.failed fails)⟩
    · have here : given trial s 0 = .ok first := congrArg Prod.fst called
      have state : after = stateAfter trial s 1 := (congrArg Prod.snd called).symm
      have before : ∀ earlier < 1, given trial s earlier = .ok first := by
        intro earlier below
        rwa [Nat.lt_one_iff.mp below]
      have others : count + 2 = 1 + (count + 1) := by omega
      rw [run_given called, state, others]
      exact follow_ends trial (count + 1) Nat.one_pos (others ▸ enough) before

theorem stateAfter_recorded (s : σ) (n : Nat) :
    stateAfter (recorded trial) (s, []) n = (stateAfter trial s n, List.range n) := by
  induction n with
  | zero => rfl
  | succ n ih =>
    rw [stateAfter, ih, List.range_succ]
    rfl

theorem given_recorded (s : σ) : given (recorded trial) (s, []) = given trial s := by
  funext number
  rw [given, stateAfter_recorded]
  rfl

/-- Trials are called in order on 0, 1, 2, … up to the first that breaks the agreement, or all of them; what
comes of them is told by what they give. -/
theorem trials_end_at_first_break (count : Nat) (s : σ) :
    ∃ calls, (run trial count s).2 = stateAfter trial s calls ∧
      run (recorded trial) count (s, []) =
        ((run trial count s).1, stateAfter trial s calls, List.range calls) ∧
      Ends (given trial s) count (run trial count s).1 calls ∧
      ∀ d, (run trial count s).1 = .ok d ↔ 2 ≤ count ∧ ∀ number < count, given trial s number = .ok d := by
  obtain ⟨calls, state, ends⟩ := run_ends trial count s
  obtain ⟨calls', state', ends'⟩ := run_ends (recorded trial) count (s, [])
  rw [given_recorded] at ends'
  rw [stateAfter_recorded] at state'
  -- The record does not change what is given, so both runs end alike.
  obtain ⟨result, rfl⟩ := ends'.unique ends
  exact ⟨calls', state, Prod.ext result state', ends, ends.eq_ok_iff⟩

/-- A counter that gives the same digest twice and then another one is not asked a fourth time. -/
example :
    let trial : Trial Nat := fun _ n => (.ok (.filled (if n < 12 then 0 else 1)), n + 1)
    run (recorded trial) 5 (10, []) = (.error (.drifted 2 (.filled 0) (.filled 1)), 13, [0, 1, 2]) := rfl

end Attest.Trials
