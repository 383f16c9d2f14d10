import Attest.Proofs.Canonical.Explained
import Mathlib.Data.List.Induction
import Mathlib.Data.List.Lex

namespace Attest

namespace Canonical

theorem at?_append (l steps : Location) (c : Canonical) : c.at? (l ++ steps) = (c.at? l).bind (at? steps) := by
  induction l generalizing c with
  | nil => rfl
  | cons step l ih =>
    cases step with
    | key key =>
      cases c with
      | object members =>
        show (Entries.get? key members).bind (at? (l ++ steps)) =
          ((Entries.get? key members).bind (at? l)).bind (at? steps)
        rw [Option.bind_assoc]
        exact congrArg _ (funext ih)
      | _ => rfl
    | index i =>
      cases c with
      | array items =>
        show items[i]?.bind (at? (l ++ steps)) = (items[i]?.bind (at? l)).bind (at? steps)
        rw [Option.bind_assoc]
        exact congrArg _ (funext ih)
      | _ => rfl

section

variable {c : Canonical} {l : Location}

theorem at?_key {members : List (String × Canonical)} (here : c.at? l = some (.object members)) (key : String) :
    c.at? (l ++ [.key key]) = Entries.get? key members := by
  rw [at?_append, here, Option.bind_some]
  show (Entries.get? key members).bind (at? []) = _
  cases Entries.get? key members <;> rfl

theorem at?_index {items : List Canonical} (here : c.at? l = some (.array items)) (i : Nat) :
    c.at? (l ++ [.index i]) = items[i]? := by
  rw [at?_append, here, Option.bind_some]
  show items[i]?.bind (at? []) = _
  cases items[i]? <;> rfl

end

end Canonical

/-- Keys ascend by code point and indices by size; no value has both below it. -/
inductive Step.Before : Step → Step → Prop
  | key {key other : String} (before : key < other) : Before (.key key) (.key other)
  | index {i j : Nat} (before : i < j) : Before (.index i) (.index j)

instance : Std.Asymm Step.Before := by
  constructor
  intro step other before after
  cases before with
  | key before =>
    cases after with
    | key after => exact String.lt_asymm before after
  | index before =>
    cases after with
    | index after => exact Nat.lt_asymm before after

namespace Location

/-- The order of a walk that comes to a part before it goes on into it. -/
def Before : Location → Location → Prop := List.Lex Step.Before

theorem Before.ne {l m : Location} (before : Before l m) : l ≠ m := by
  intro same
  subst same
  exact (List.Lex.asymm Step.Before).asymm l l before before

theorem before_of_prefix {l m : Location} {step : Step} (below : l ++ [step] <+: m) : Before l m := by
  obtain ⟨steps, rfl⟩ := below
  rw [List.append_assoc]
  have longer : Before (l ++ []) (l ++ ([step] ++ steps)) := List.Lex.append_left _ .nil l
  rwa [List.append_nil] at longer

theorem before_of_prefixes {l m n : Location} {step other : Step} (before : Step.Before step other)
    (left : l ++ [step] <+: m) (right : l ++ [other] <+: n) : Before m n := by
  obtain ⟨steps, rfl⟩ := left
  obtain ⟨others, rfl⟩ := right
  rw [List.append_assoc, List.append_assoc]
  exact List.Lex.append_left _ (.rel before) l

/-- How a location is written: a point before a key, except where nothing is written yet, and brackets
around an index. -/
inductive Written : Location → String → Prop
  | root : Written [] ""
  | first {l : Location} {key : String} (above : Written l "") : Written (l ++ [.key key]) key
  | key {l : Location} {path key : String} (above : Written l path) (some : path ≠ "") :
    Written (l ++ [.key key]) (path ++ "." ++ key)
  | index {l : Location} {path : String} {i : Nat} (above : Written l path) :
    Written (l ++ [.index i]) (path ++ "[" ++ toString i ++ "]")

theorem path_append (l : Location) (step : Step) : path (l ++ [step]) = extend (path l) step := by
  rw [path, List.foldl_append]
  rfl

theorem written_path (l : Location) : Written l l.path := by
  induction l using List.reverseRecOn with
  | nil => exact .root
  | append_singleton l step ih =>
    rw [path_append]
    cases step with
    | index i => exact .index ih
    | key key =>
      rw [extend]
      split
      · rename_i none
        rw [String.isEmpty_iff.mp none] at ih
        exact .first ih
      · rename_i some
        exact .key ih fun none => some (String.isEmpty_iff.mpr none)

end Location

end Attest
