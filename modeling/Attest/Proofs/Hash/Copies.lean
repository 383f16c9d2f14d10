import Attest.Proofs.Hash.Context

namespace Attest.Hasher

inductive Request where
  | update (parts : List Bytes)
  | finish
deriving DecidableEq, Repr

inductive Answer where
  | taken
  | digest (d : Digest)
  | refused (error : Error)
deriving DecidableEq, Repr

def respond (h : Hasher) : Request → Answer × Hasher
  | .update parts =>
    match h.updateAll parts with
    | (.ok (), after) => (.taken, after)
    | (.error e, after) => (.refused e, after)
  | .finish =>
    match h.finish with
    | .ok (d, after) => (.digest d, after)
    | .error e => (.refused e, h)

/-- A call where there are several hashers, numbered in the order in which they were made. -/
inductive Call where
  | new
  | copy (original : Nat)
  | ask (k : Nat) (request : Request)
deriving DecidableEq, Repr

def step (hashers : List Hasher) : Call → List Hasher
  | .new => hashers ++ [new]
  | .copy k => hashers ++ hashers[k]?.toList
  | .ask k request => hashers.modify k fun h => (h.respond request).2

def run (calls : List Call) : List Hasher := calls.foldl step []

/-- What a hasher was asked for, and before that the one it is a copy of, in turn. -/
abbrev History := List Request

def remember (histories : List History) : Call → List History
  | .new => histories ++ [[]]
  | .copy k => histories ++ histories[k]?.toList
  | .ask k request => histories.modify k (· ++ [request])

def histories (calls : List Call) : List History := calls.foldl remember []

/-- What was taken: all parts up to the first `finish`. -/
def content : History → Bytes
  | [] => []
  | .update parts :: rest => parts.flatten ++ content rest
  | .finish :: _ => []

def taken : History → List Bytes
  | [] => []
  | .update parts :: rest => parts ++ taken rest
  | .finish :: _ => []

theorem flatten_taken (history : History) : (taken history).flatten = content history := by
  induction history with
  | nil => rfl
  | cons request history ih =>
    cases request with
    | update parts => rw [taken, List.flatten_append, ih, content]
    | finish => rfl

def spent (count : Nat) : Hasher := ⟨none, count⟩

def after (history : History) : Hasher := history.foldl (fun h request => (h.respond request).2) new

theorem updateAll_behind (message : Bytes) (parts : List Bytes) :
    (behind message).updateAll parts = (.ok (), behind (message ++ parts.flatten)) := by
  induction parts generalizing message with
  | nil => rw [updateAll, List.flatten_nil, List.append_nil]
  | cons data parts ih =>
    rw [updateAll, update_behind]
    show (behind (message ++ data)).updateAll parts = _
    rw [ih, List.flatten_cons, List.append_assoc]

theorem respond_update_behind (message : Bytes) (parts : List Bytes) :
    (behind message).respond (.update parts) = (.taken, behind (message ++ parts.flatten)) := by
  rw [respond, updateAll_behind]

theorem respond_finish_behind (message : Bytes) :
    (behind message).respond .finish = (.digest (Digest.hash message), spent message.length) := by
  rw [respond, finish_behind]
  rfl

theorem respond_update_spent (count : Nat) {parts : List Bytes} (some : parts ≠ []) :
    (spent count).respond (.update parts) = (.refused .updateAfterFinish, spent count) := by
  cases parts with
  | nil => exact absurd rfl some
  | cons data parts => rfl

theorem respond_finish_spent (count : Nat) :
    (spent count).respond .finish = (.refused .alreadyFinished, spent count) := rfl

theorem respond_spent (count : Nat) (request : Request) : ((spent count).respond request).2 = spent count := by
  cases request with
  | finish => rfl
  | update parts => cases parts <;> rfl

theorem foldl_respond_spent (count : Nat) (history : History) :
    history.foldl (fun h request => (h.respond request).2) (spent count) = spent count := by
  induction history with
  | nil => rfl
  | cons request history ih => rw [List.foldl_cons, respond_spent, ih]

theorem foldl_respond_behind (message : Bytes) (history : History) :
    history.foldl (fun h request => (h.respond request).2) (behind message) =
      if .finish ∈ history then spent (message ++ content history).length
      else behind (message ++ content history) := by
  induction history generalizing message with
  | nil => simp [content]
  | cons request history ih =>
    cases request with
    | update parts =>
      rw [List.foldl_cons, respond_update_behind, ih, content, ← List.append_assoc]
      simp
    | finish =>
      rw [List.foldl_cons, respond_finish_behind, foldl_respond_spent, content, List.append_nil,
        if_pos List.mem_cons_self]

theorem after_of_not_mem {history : History} (fresh : .finish ∉ history) :
    after history = behind (content history) := by
  rw [after, new_eq_behind, foldl_respond_behind, if_neg fresh, List.nil_append]

theorem after_of_mem {history : History} (finished : .finish ∈ history) :
    after history = spent (content history).length := by
  rw [after, new_eq_behind, foldl_respond_behind, if_pos finished, List.nil_append]

theorem count_after (history : History) : (after history).count = (content history).length := by
  by_cases finished : .finish ∈ history
  · rw [after_of_mem finished, spent]
  · rw [after_of_not_mem finished, behind]

theorem step_map_after (histories : List History) (call : Call) :
    step (histories.map after) call = (remember histories call).map after := by
  cases call with
  | new => rw [step, remember, List.map_append, List.map_singleton, after, List.foldl_nil]
  | copy k =>
    rw [step, remember, List.map_append, List.getElem?_map]
    cases histories[k]? <;> rfl
  | ask k request =>
    have extended : ∀ history, after (history ++ [request]) = ((after history).respond request).2 :=
      fun history => List.foldl_append
    apply List.ext_getElem?
    intro j
    rw [step, remember, List.getElem?_map, List.getElem?_modify, List.getElem?_modify, List.getElem?_map]
    cases histories[j]? with
    | none => rfl
    | some history =>
      by_cases same : k = j
      · simp [same, extended]
      · simp [same]

theorem run_eq_map_after (calls : List Call) : run calls = (histories calls).map after := by
  have steps : ∀ known : List History,
      calls.foldl step (known.map after) = (calls.foldl remember known).map after := by
    induction calls with
    | nil => exact fun known => rfl
    | cons call calls ih =>
      intro known
      rw [List.foldl_cons, step_map_after, ih, List.foldl_cons]
  exact steps []

theorem run_append (calls : List Call) (call : Call) : run (calls ++ [call]) = step (run calls) call :=
  List.foldl_append

theorem getElem?_step {hashers : List Hasher} {call : Call} {k : Nat} {h : Hasher}
    (there : hashers[k]? = some h) (other : ∀ request, call ≠ .ask k request) :
    (step hashers call)[k]? = some h := by
  have inside := (List.getElem?_eq_some_iff.mp there).1
  cases call with
  | new => rwa [step, List.getElem?_append_left inside]
  | copy original => rwa [step, List.getElem?_append_left inside]
  | ask j request =>
    have apart : j ≠ k := by
      rintro rfl
      exact other request rfl
    rwa [step, List.getElem?_modify_ne _ _ apart]

/-- What a hasher with this history answers. -/
structure Follows (h : Hasher) (history : History) : Prop where
  count : h.count = (content history).length
  taken : .finish ∉ history → ∀ parts, (h.respond (.update parts)).1 = .taken
  digest : .finish ∉ history → (h.respond .finish).1 = .digest (Digest.hash (content history))
  not_taken : .finish ∈ history → ∀ parts, parts ≠ [] →
    h.respond (.update parts) = (.refused .updateAfterFinish, h)
  no_digest : .finish ∈ history → h.respond .finish = (.refused .alreadyFinished, h)

theorem follows_after (history : History) : (after history).Follows history where
  count := count_after history
  taken fresh parts := by rw [after_of_not_mem fresh, respond_update_behind]
  digest fresh := by rw [after_of_not_mem fresh, respond_finish_behind]
  not_taken finished parts some := by rw [after_of_mem finished, respond_update_spent _ some]
  no_digest finished := by rw [after_of_mem finished, respond_finish_spent]

/-- A count of 64 bits is the same, as long as fewer bytes were taken than it can show. -/
theorem toNat_counter_taken {history : History} (small : (content history).length < UInt64.size) :
    (counter (taken history)).toNat = (after history).count := by
  rw [← flatten_taken] at small
  rw [toNat_counter small, flatten_taken, count_after]

/-- Whatever calls there were, each hasher answers as its history tells. A copy stands where its original
does, and a call on another hasher changes neither. -/
theorem told_by_history (calls : List Call) :
    (run calls).length = (histories calls).length ∧
    (∀ (k : Nat) (history : History), (histories calls)[k]? = some history →
      ∃ h : Hasher, (run calls)[k]? = some h ∧ h.Follows history) ∧
    ∀ (k : Nat) (h : Hasher), (run calls)[k]? = some h →
      (run (calls ++ [.copy k]))[(run calls).length]? = some h ∧
      ∀ call, (∀ request, call ≠ .ask k request) → (run (calls ++ [call]))[k]? = some h := by
  refine ⟨?_, ?_, ?_⟩
  · rw [run_eq_map_after, List.length_map]
  · intro k history known
    refine ⟨after history, ?_, follows_after history⟩
    rw [run_eq_map_after, List.getElem?_map, known, Option.map_some]
  · intro k h there
    constructor
    · rw [run_append, step, there, Option.toList_some, List.getElem?_concat_length]
    · intro call other
      rw [run_append]
      exact getElem?_step there other

/-- A copy that is asked when its original is spent already, and a copy of a spent one. -/
theorem told_by_history_copied :
    let calls : List Call := [.new, .ask 0 (.update [[97]]), .copy 0, .ask 0 (.update [[98], [99]]),
      .ask 0 .finish, .ask 0 (.update [[100]]), .copy 0]
    ∃ early late : Hasher, (run calls)[1]? = some early ∧ (run calls)[2]? = some late ∧
      early.count = 1 ∧ (early.respond .finish).1 = .digest (Digest.hash [97]) ∧
      late.count = 3 ∧ late.respond .finish = (.refused .alreadyFinished, late) := by
  intro calls
  rcases told_by_history calls with ⟨-, told, -⟩
  rcases told 1 _ rfl with ⟨early, second, fresh⟩
  rcases told 2 _ rfl with ⟨late, third, spent⟩
  exact ⟨early, late, second, third, fresh.count, fresh.digest (by decide), spent.count,
    spent.no_digest (by decide)⟩

/-- Nothing was asked of the copy yet, and its first `finish` gives no digest: its original was spent. -/
theorem first_finish_of_copy_refused :
    let calls : List Call := [.new, .ask 0 (.update [[97, 98, 99]]), .ask 0 .finish, .copy 0]
    (∀ request, .ask 1 request ∉ calls) ∧ ∃ h : Hasher, (run calls)[1]? = some h ∧
      (h.respond .finish).1 = .refused .alreadyFinished ∧
      (h.respond .finish).1 ≠ .digest (Digest.hash [97, 98, 99]) := by
  intro calls
  refine ⟨by simp [calls], spent 3, by decide +kernel, rfl, ?_⟩
  rw [respond_finish_spent]
  exact Answer.noConfusion

end Attest.Hasher
