import Mathlib.Data.List.Infix
import Attest.Hash.Source
import Attest.Proofs.Hash.Context

namespace Attest

theorem StreamRules.capacity_pos (rules : StreamRules) : 0 < rules.capacity :=
  Nat.lt_of_lt_of_le Nat.one_pos (Nat.le_max_right _ _)

namespace Stream

/-- How a source behaves, however often it is asked: it has nothing yet, or it has some bytes, again
and again, and then it ends or fails with a reason. -/
structure Behaviour where
  answers : List (Option Bytes)
  failure : Option String
deriving DecidableEq, Repr

namespace Behaviour

def content (b : Behaviour) : Bytes := b.answers.flatMap (·.getD [])

/-- A reader with room for `capacity` bytes gets what it has room for, and the rest the next times. -/
def served (capacity : Nat) : Option Bytes → List Poll
  | none => [.pending]
  | some chunk => (Source.split capacity chunk.length chunk).map .data

def deliveries (b : Behaviour) (capacity : Nat) : List Poll := b.answers.flatMap (served capacity)

def last (b : Behaviour) : Poll :=
  match b.failure with
  | some reason => .failed reason
  | none => .ended

def polls (b : Behaviour) (capacity : Nat) : List Poll := b.deliveries capacity ++ [b.last]

def hash (b : Behaviour) (rules : StreamRules) (cancelled : Nat → Bool) : Outcome :=
  follow cancelled 0 0 .new (b.polls rules.capacity)

end Behaviour

def received (polls : List Poll) : Bytes :=
  polls.flatMap fun
    | .data bytes => bytes
    | _ => []

def pieces (polls : List Poll) : List Bytes :=
  polls.flatMap fun
    | .data bytes => [bytes]
    | _ => []

theorem flatten_pieces (polls : List Poll) : (pieces polls).flatten = received polls := by
  induction polls with
  | nil => rfl
  | cons p polls ih =>
    rw [pieces, received, List.flatMap_cons, List.flatten_append, List.flatMap_cons, ← pieces, ← received, ih]
    cases p with
    | data bytes => simp
    | _ => rfl

def Delivers (p : Poll) : Prop := p = .pending ∨ ∃ bytes, p = .data bytes

section

variable {cancelled : Nat → Bool} {deliveries : List Poll}

theorem follow_delivery {check : Nat} (reads : Nat) (message : Bytes) {p : Poll} (rest : List Poll)
    (delivers : Delivers p) (passed : cancelled check = false) :
    ∃ more, follow cancelled check reads (.behind message) (p :: rest) =
      follow cancelled (check + 1) more (.behind (message ++ received [p])) rest := by
  rcases delivers with rfl | ⟨bytes, rfl⟩
  · refine ⟨reads, ?_⟩
    simp [follow, passed, received]
  · refine ⟨reads + 1, ?_⟩
    simp [follow, passed, received, Hasher.update_behind]

theorem follow_cancelled {check : Nat} (reads : Nat) (message : Bytes) (p : Poll) (rest : List Poll)
    (cancels : cancelled check = true) :
    (follow cancelled check reads (.behind message) (p :: rest)).result =
      .error (.cancelled message.length) := by
  simp [follow, cancels, Hasher.behind]

theorem follow_deliveries (delivers : ∀ p ∈ deliveries, Delivers p) {check : Nat}
    (passed : ∀ k < deliveries.length, cancelled (check + k) = false) (reads : Nat) (message : Bytes)
    (rest : List Poll) :
    ∃ more, follow cancelled check reads (.behind message) (deliveries ++ rest) =
      follow cancelled (check + deliveries.length) more (.behind (message ++ received deliveries)) rest := by
  induction deliveries generalizing check reads message with
  | nil => exact ⟨reads, by simp [received]⟩
  | cons p deliveries ih =>
    have first : cancelled check = false := passed 0 (Nat.succ_pos _)
    have later : ∀ k < deliveries.length, cancelled (check + 1 + k) = false := by
      intro k below
      have next := passed (k + 1) (Nat.succ_lt_succ below)
      rwa [← Nat.add_assoc, Nat.add_right_comm] at next
    have others : ∀ q ∈ deliveries, Delivers q := fun q member => delivers q (List.mem_cons_of_mem _ member)
    rcases follow_delivery reads message (deliveries ++ rest) (delivers p List.mem_cons_self) first with
      ⟨once, step⟩
    rcases ih others later once (message ++ received [p]) with ⟨more, steps⟩
    refine ⟨more, ?_⟩
    rw [List.cons_append, step, steps, List.append_assoc, List.length_cons, Nat.add_right_comm,
      Nat.add_assoc]
    simp [received]

end

theorem split_cons (capacity parts : Nat) (byte : UInt8) (chunk : Bytes) :
    Source.split capacity (parts + 1) (byte :: chunk) =
      (byte :: chunk).take capacity :: Source.split capacity parts ((byte :: chunk).drop capacity) := rfl

theorem split_bounded {capacity : Nat} (room : 0 < capacity) (parts : Nat) (chunk : Bytes) :
    ∀ part ∈ Source.split capacity parts chunk, part ≠ [] ∧ part.length ≤ capacity := by
  induction parts generalizing chunk with
  | zero => cases chunk <;> simp [Source.split]
  | succ parts ih =>
    cases chunk with
    | nil => simp [Source.split]
    | cons byte chunk =>
      intro part member
      rw [split_cons] at member
      rcases List.mem_cons.mp member with rfl | later
      · refine ⟨?_, List.length_take_le _ _⟩
        rw [← List.length_pos_iff, List.length_take, List.length_cons]
        omega
      · exact ih _ part later

theorem flatten_split {capacity : Nat} (room : 0 < capacity) (parts : Nat) {chunk : Bytes}
    (enough : chunk.length ≤ parts) : (Source.split capacity parts chunk).flatten = chunk := by
  induction parts generalizing chunk with
  | zero =>
    obtain rfl := List.length_eq_zero_iff.mp (Nat.le_zero.mp enough)
    rfl
  | succ parts ih =>
    cases chunk with
    | nil => rfl
    | cons byte chunk =>
      have fewer : ((byte :: chunk).drop capacity).length ≤ parts := by
        rw [List.length_drop]
        rw [List.length_cons] at enough ⊢
        omega
      rw [split_cons, List.flatten_cons, ih fewer, List.take_append_drop]

theorem split_of_le {capacity : Nat} {chunk : Bytes} (some : chunk ≠ []) (fits : chunk.length ≤ capacity) :
    Source.split capacity chunk.length chunk = [chunk] := by
  cases chunk with
  | nil => exact absurd rfl some
  | cons byte chunk =>
    rw [List.length_cons, split_cons, List.take_of_length_le fits, List.drop_of_length_le fits]
    cases chunk.length <;> rfl

namespace Behaviour

variable {capacity : Nat}

theorem received_served (room : 0 < capacity) (a : Option Bytes) :
    received (served capacity a) = a.getD [] := by
  cases a with
  | none => rfl
  | some chunk =>
    have parts := flatten_split room chunk.length (Nat.le_refl _)
    rw [served, received, List.flatMap_map]
    rwa [← List.flatMap_id] at parts

theorem received_deliveries (b : Behaviour) (room : 0 < capacity) :
    received (b.deliveries capacity) = b.content := by
  rw [deliveries, received, List.flatMap_assoc, content]
  exact List.flatMap_congr fun a _ => received_served room a

theorem received_polls (b : Behaviour) (room : 0 < capacity) : received (b.polls capacity) = b.content := by
  have final : received [b.last] = [] := by
    rw [last]
    split <;> rfl
  rw [polls, received, List.flatMap_append, ← received, ← received, final, List.append_nil,
    b.received_deliveries room]

theorem delivers_deliveries (b : Behaviour) : ∀ p ∈ b.deliveries capacity, Delivers p := by
  intro p member
  rcases List.mem_flatMap.mp member with ⟨a, -, served⟩
  cases a with
  | none => exact .inl (List.mem_singleton.mp served)
  | some chunk =>
    rcases List.mem_map.mp served with ⟨part, -, rfl⟩
    exact .inr ⟨part, rfl⟩

theorem bounded_of_data (b : Behaviour) (room : 0 < capacity) {bytes : Bytes}
    (member : .data bytes ∈ b.polls capacity) : bytes ≠ [] ∧ bytes.length ≤ capacity := by
  rcases List.mem_append.mp member with delivered | final
  · rcases List.mem_flatMap.mp delivered with ⟨a, -, served⟩
    cases a with
    | none => cases List.mem_singleton.mp served
    | some chunk =>
      rcases List.mem_map.mp served with ⟨part, split, same⟩
      obtain rfl := Poll.data.inj same
      exact split_bounded room _ _ _ split
  · rw [last] at final
    split at final <;> cases List.mem_singleton.mp final

section

variable (b : Behaviour) {rules : StreamRules} {cancelled : Nat → Bool}

theorem length_polls : (b.polls capacity).length = (b.deliveries capacity).length + 1 :=
  List.length_append

theorem hash_eq_follow {check : Nat} (inside : check < (b.polls rules.capacity).length)
    (passed : ∀ earlier < check, cancelled earlier = false) :
    ∃ reads, b.hash rules cancelled = follow cancelled check reads
      (.behind (received ((b.polls rules.capacity).take check))) ((b.polls rules.capacity).drop check) := by
  have within : check ≤ (b.deliveries rules.capacity).length := by
    rw [length_polls] at inside
    exact Nat.le_of_lt_succ inside
  have before : (b.polls rules.capacity).take check = (b.deliveries rules.capacity).take check :=
    List.take_append_of_le_length within
  have length : ((b.polls rules.capacity).take check).length = check := by
    rw [List.length_take, Nat.min_eq_left (Nat.le_of_lt inside)]
  have delivers : ∀ p ∈ (b.polls rules.capacity).take check, Delivers p := by
    intro p member
    rw [before] at member
    exact b.delivers_deliveries p (List.mem_of_mem_take member)
  have passedHere : ∀ k < ((b.polls rules.capacity).take check).length, cancelled (0 + k) = false := by
    intro k below
    rw [Nat.zero_add]
    exact passed k (length ▸ below)
  rcases follow_deliveries delivers passedHere 0 [] ((b.polls rules.capacity).drop check) with ⟨reads, steps⟩
  rw [List.take_append_drop, length, Nat.zero_add, List.nil_append, ← Hasher.new_eq_behind] at steps
  exact ⟨reads, steps⟩

theorem result_of_cancelled {check : Nat} (inside : check < (b.polls rules.capacity).length)
    (cancels : cancelled check = true) (first : ∀ earlier < check, cancelled earlier = false) :
    (b.hash rules cancelled).result =
      .error (.cancelled (received ((b.polls rules.capacity).take check)).length) := by
  rcases b.hash_eq_follow inside first with ⟨reads, steps⟩
  rw [steps, List.drop_eq_getElem_cons inside]
  exact follow_cancelled _ _ _ _ cancels

/-- A count of 64 bits is the same, as long as the content has fewer than `2 ^ 64` bytes. -/
theorem toNat_counter_pieces (small : b.content.length < UInt64.size) (check : Nat) :
    (Hasher.counter (pieces ((b.polls rules.capacity).take check))).toNat =
      (received ((b.polls rules.capacity).take check)).length := by
  have part : (received ((b.polls rules.capacity).take check)).length ≤ b.content.length := by
    rw [← b.received_polls rules.capacity_pos]
    exact (List.IsPrefix.flatMap (List.take_prefix check _) _).length_le
  rw [← flatten_pieces] at part ⊢
  exact Hasher.toNat_counter (Nat.lt_of_le_of_lt part small)

theorem result_of_uncancelled
    (passed : ∀ check < (b.polls rules.capacity).length, cancelled check = false) :
    (b.failure = none → (b.hash rules cancelled).result = .ok (Digest.hash b.content)) ∧
      ∀ reason, b.failure = some reason → (b.hash rules cancelled).result = .error (.failed reason) := by
  have final : (b.deliveries rules.capacity).length < (b.polls rules.capacity).length := by
    rw [length_polls]
    exact Nat.lt_succ_self _
  have passedLast := passed _ final
  rcases b.hash_eq_follow final fun check earlier => passed check (Nat.lt_trans earlier final)
    with ⟨reads, steps⟩
  rw [polls, List.take_left, List.drop_left, b.received_deliveries rules.capacity_pos] at steps
  rw [steps]
  constructor
  · intro ends
    simp [last, ends, follow, passedLast, Hasher.finish_behind, Except.mapError, Except.map]
  · intro reason fails
    simp [last, fails, follow, passedLast]

end

end Behaviour

theorem served_of_fit {capacity : Nat} {part : Bytes} (some : part ≠ []) (fits : part.length ≤ capacity) :
    Behaviour.served capacity part = [.data part] := by
  rw [Behaviour.served, split_of_le some fits]
  rfl

theorem flatten_flatMap_split {capacity : Nat} (room : 0 < capacity) (chunks : List Bytes) :
    (chunks.flatMap fun chunk => Source.split capacity chunk.length chunk).flatten = chunks.flatten := by
  induction chunks with
  | nil => rfl
  | cons chunk chunks ih =>
    rw [List.flatMap_cons, List.flatten_append, ih, flatten_split room _ (Nat.le_refl _), List.flatten_cons]

end Stream

namespace Source

variable {capacity : Nat}

def parts (s : Source) (capacity : Nat) : List Bytes :=
  s.chunks.flatMap fun chunk => split capacity chunk.length chunk

def behaviour (s : Source) (capacity : Nat) : Stream.Behaviour where
  answers := (s.parts capacity).flatMap (fun part => if s.stalls then [none, some part] else [some part]) ++
    if s.stalls then [none] else []
  failure := s.failure

theorem content_behaviour (s : Source) (room : 0 < capacity) :
    (s.behaviour capacity).content = s.chunks.flatten := by
  have parts : (s.parts capacity).flatten = s.chunks.flatten := Stream.flatten_flatMap_split room s.chunks
  rw [← parts, Stream.Behaviour.content, behaviour]
  cases s.stalls <;> simp [List.flatMap_assoc]

theorem polls_behaviour (s : Source) (room : 0 < capacity) :
    (s.behaviour capacity).polls capacity = s.polls capacity := by
  have served : ∀ part ∈ s.parts capacity, Stream.Behaviour.served capacity part = [.data part] := by
    intro part member
    rcases List.mem_flatMap.mp member with ⟨chunk, -, piece⟩
    rcases Stream.split_bounded room _ _ part piece with ⟨some, fits⟩
    exact Stream.served_of_fit some fits
  have whole : s.polls capacity = ((s.parts capacity).map Poll.data ++ [(s.behaviour capacity).last]).flatMap
      fun p => if s.stalls then [.pending, p] else [p] := rfl
  rw [whole, Stream.Behaviour.polls, Stream.Behaviour.deliveries]
  generalize (s.behaviour capacity).last = last
  rw [behaviour]
  cases s.stalls with
  | false =>
    have pieces := List.flatMap_congr served
    simpa [List.flatMap_assoc, List.flatMap_map] using pieces
  | true =>
    have delay : Stream.Behaviour.served capacity none = [.pending] := rfl
    have pieces := List.flatMap_congr fun part member => congrArg ([Poll.pending] ++ ·) (served part member)
    simpa [List.flatMap_assoc, List.flatMap_map, delay] using pieces

end Source

namespace Stream

theorem passed_or_first (cancelled : Nat → Bool) (count : Nat) :
    (∀ check < count, cancelled check = false) ∨
      ∃ check < count, cancelled check = true ∧ ∀ earlier < check, cancelled earlier = false := by
  induction count with
  | zero => exact .inl fun check below => absurd below (Nat.not_lt_zero check)
  | succ count ih =>
    rcases ih with passed | ⟨check, below, first⟩
    · cases cancels : cancelled count with
      | true => exact .inr ⟨count, Nat.lt_succ_self count, cancels, passed⟩
      | false =>
        left
        intro check below
        rcases Nat.lt_succ_iff_lt_or_eq.mp below with before | rfl
        · exact passed check before
        · exact cancels
    · exact .inr ⟨check, Nat.lt_succ_of_lt below, first⟩

/-- However a source delivers its content, it is read in pieces that fit. If no check cancels, the
result is the digest of the content, or the reason why the source failed; if one does, it is the number
of bytes that had been read by then. So no digest is one of a part. And all sources behave in this way. -/
theorem outcome_by_content (rules : StreamRules) (cancelled : Nat → Bool) :
    (∀ b : Behaviour,
      let polls := b.polls rules.capacity
      let result := (b.hash rules cancelled).result
      (received polls = b.content ∧
        ∀ bytes, .data bytes ∈ polls → bytes ≠ [] ∧ bytes.length ≤ max rules.chunkSize 1) ∧
      ((∀ check < polls.length, cancelled check = false) →
        (b.failure = none → result = .ok (Digest.hash b.content)) ∧
          ∀ reason, b.failure = some reason → result = .error (.failed reason)) ∧
      (∀ check < polls.length, cancelled check = true → (∀ earlier < check, cancelled earlier = false) →
        result = .error (.cancelled (received (polls.take check)).length)) ∧
      ∀ digest, result = .ok digest → b.failure = none ∧ digest = Digest.hash b.content) ∧
    ∀ source : Source, ∃ b : Behaviour, b.content = source.chunks.flatten ∧ b.failure = source.failure ∧
      hash rules source cancelled = b.hash rules cancelled := by
  have room := rules.capacity_pos
  constructor
  · intro b polls result
    refine ⟨⟨b.received_polls room, fun bytes => b.bounded_of_data room⟩, b.result_of_uncancelled,
      fun check => b.result_of_cancelled, ?_⟩
    intro digest done
    rcases passed_or_first cancelled polls.length with passed | ⟨check, inside, cancels, first⟩
    · rcases b.result_of_uncancelled passed with ⟨ends, fails⟩
      cases failure : b.failure with
      | none => exact ⟨rfl, Except.ok.inj (done.symm.trans (ends failure))⟩
      | some reason => cases done.symm.trans (fails reason failure)
    · cases done.symm.trans (b.result_of_cancelled inside cancels first)
  · intro source
    refine ⟨source.behaviour rules.capacity, source.content_behaviour room, rfl, ?_⟩
    rw [hash, Behaviour.hash, source.polls_behaviour room]

theorem outcome_by_content_delayed :
    let rules : StreamRules := ⟨2⟩
    let b : Behaviour := ⟨[none, some [1, 2, 3], none, some [4]], none⟩
    (b.hash rules never).result = .ok (Digest.hash [1, 2, 3, 4]) ∧
      (b.hash rules (after 3)).result = .error (.cancelled 3) := by
  intro rules b
  rcases (outcome_by_content rules never).1 b with ⟨-, passed, -⟩
  rcases (outcome_by_content rules (after 3)).1 b with ⟨-, -, cancels, -⟩
  constructor
  · exact (passed fun _ _ => rfl).1 rfl
  · exact cancels 3 (by decide) (by decide) (by decide)

end Stream
end Attest
