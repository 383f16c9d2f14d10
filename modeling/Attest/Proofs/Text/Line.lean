import Attest.Run.Log
import Mathlib.Data.List.DropRight

namespace Attest

theorem trimBlank_eq (cs : List Char) : trimBlank cs = (cs.dropWhile isBlank).rdropWhile isBlank := rfl

theorem trimBlank_eq_nil_iff {cs : List Char} : trimBlank cs = [] ↔ ∀ c ∈ cs, isBlank c = true := by
  rw [trimBlank_eq, List.rdropWhile_eq_nil_iff]
  constructor
  · intro behind c there
    rw [← List.takeWhile_append_dropWhile (p := isBlank) (l := cs)] at there
    rcases List.mem_append.mp there with front | back
    · exact List.mem_takeWhile_imp front
    · exact behind c back
  · exact fun blank c there => blank c ((List.dropWhile_suffix _).subset there)

theorem rdropWhile_append_blanks {spaces : List Char} (blank : ∀ c ∈ spaces, isBlank c = true)
    (cs : List Char) : (cs ++ spaces).rdropWhile isBlank = cs.rdropWhile isBlank := by
  induction spaces using List.reverseRecOn with
  | nil => rw [List.append_nil]
  | append_singleton spaces c ih =>
    obtain ⟨front, last⟩ := List.forall_mem_append.mp blank
    rw [← List.append_assoc, List.rdropWhile_concat_pos _ _ _ (last c List.mem_cons_self), ih front]

theorem trimBlank_append {spaces : List Char} (blank : ∀ c ∈ spaces, isBlank c = true) (cs : List Char) :
    trimBlank (cs ++ spaces) = trimBlank cs := by
  rw [trimBlank_eq, trimBlank_eq, List.dropWhile_append]
  cases rest : cs.dropWhile isBlank with
  | nil =>
    rw [List.isEmpty_nil, if_pos rfl, List.dropWhile_eq_nil_iff.mpr blank]
  | cons c cs' => exact rdropWhile_append_blanks blank _

theorem trimBlank_of_visible {first last : Char} (cs : List Char) (visible : isBlank first = false)
    (visible' : isBlank last = false) : trimBlank (first :: (cs ++ [last])) = first :: (cs ++ [last]) := by
  rw [trimBlank_eq, List.dropWhile_cons_of_neg (by simp [visible]), ← List.cons_append,
    List.rdropWhile_concat_neg _ _ _ (by simp [visible'])]

theorem linesOf_ne_nil (cs : List Char) : linesOf cs ≠ [] := by
  cases cs with
  | nil => exact List.cons_ne_nil _ _
  | cons c cs =>
    rw [linesOf]
    split
    · exact List.cons_ne_nil _ _
    · split <;> exact List.cons_ne_nil _ _

theorem linesOf_feed (cs : List Char) : linesOf ('\n' :: cs) = [] :: linesOf cs := if_pos rfl

theorem linesOf_cons {c : Char} {cs line : List Char} {lines : List (List Char)} (inside : c ≠ '\n')
    (found : linesOf cs = line :: lines) : linesOf (c :: cs) = (c :: line) :: lines := by
  rw [linesOf, if_neg inside, found]

theorem linesOf_append_feed (a b : List Char) : linesOf (a ++ '\n' :: b) = linesOf a ++ linesOf b := by
  induction a with
  | nil => exact linesOf_feed b
  | cons c a ih =>
    by_cases feed : c = '\n'
    · subst feed
      rw [List.cons_append, linesOf_feed, linesOf_feed, ih, List.cons_append]
    · obtain ⟨line, lines, found⟩ := List.exists_cons_of_ne_nil (linesOf_ne_nil a)
      rw [found, List.cons_append] at ih
      rw [List.cons_append, linesOf_cons feed ih, linesOf_cons feed found, List.cons_append]

theorem linesOf_single {cs : List Char} (single : '\n' ∉ cs) : linesOf cs = [cs] := by
  induction cs with
  | nil => rfl
  | cons c cs ih =>
    obtain ⟨inside, others⟩ := not_or.mp (List.mem_cons.not.mp single)
    exact linesOf_cons (Ne.symm inside) (ih others)

theorem length_linesOf (cs : List Char) : (linesOf cs).length = cs.count '\n' + 1 := by
  induction cs with
  | nil => rfl
  | cons c cs ih =>
    by_cases feed : c = '\n'
    · subst feed
      rw [linesOf_feed, List.length_cons, ih, List.count_cons_self]
    · obtain ⟨line, lines, found⟩ := List.exists_cons_of_ne_nil (linesOf_ne_nil cs)
      rw [found, List.length_cons] at ih
      rw [linesOf_cons feed found, List.length_cons, ih, List.count_cons_of_ne feed]

def withoutReturn (line : List Char) : List Char :=
  if line.getLast? = some '\r' then line.dropLast else line

theorem trimBlank_withoutReturn (line : List Char) : trimBlank (withoutReturn line) = trimBlank line := by
  rw [withoutReturn]
  split
  · rename_i last
    obtain ⟨front, rfl⟩ := List.getLast?_eq_some_iff.mp last
    rw [List.dropLast_concat, trimBlank_append (List.forall_mem_singleton.mpr rfl)]
  · rfl

def closedLines (text : List Char) : List (List Char) :=
  (linesOf text).dropLast.map withoutReturn ++ ((linesOf text).getLast?.filter (· ≠ [])).toList

theorem closedLines_append_feed (a b : List Char) :
    closedLines (a ++ '\n' :: b) = (linesOf a).map withoutReturn ++ closedLines b := by
  rw [closedLines, closedLines, linesOf_append_feed, List.dropLast_append_of_ne_nil (linesOf_ne_nil b),
    List.getLast?_append_of_ne_nil _ (linesOf_ne_nil b), List.map_append, List.append_assoc]

theorem trimBlank_comp_withoutReturn : trimBlank ∘ withoutReturn = trimBlank :=
  funext trimBlank_withoutReturn

/-- Without their blanks these are the lines between the line feeds, but for an empty one at the end. -/
theorem map_trimBlank_linesOf (text : List Char) :
    (linesOf text).map trimBlank = (closedLines text).map trimBlank ∨
      (linesOf text).map trimBlank = (closedLines text).map trimBlank ++ [[]] := by
  obtain ⟨front, last, same⟩ := (List.eq_nil_or_concat' (linesOf text)).resolve_left (linesOf_ne_nil text)
  rw [closedLines, same, List.dropLast_concat, List.getLast?_concat, List.map_append, List.map_append,
    List.map_map, trimBlank_comp_withoutReturn]
  by_cases empty : last = []
  · subst empty
    exact .inr (by rw [List.append_assoc]; rfl)
  · rw [Option.filter_some_pos (by simpa using empty)]
    exact .inl rfl

/-- What stands on the line of a number, counted from one, but for the blanks at its ends. -/
def lineAt (text : List Char) (number : Nat) : Option (List Char) :=
  ((closedLines text).map trimBlank)[number - 1]?

end Attest
