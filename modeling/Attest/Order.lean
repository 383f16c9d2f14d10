import Attest.Number.Double

namespace Attest

abbrev Comparator (α : Type) := α → α → Ordering

namespace Comparator

def onText (key : α → String) : Comparator α := fun a b => compare (key a) (key b)

def onNumber (key : α → Double) : Comparator α := fun a b => (key a).order (key b)

def swapped (c : Comparator α) : Comparator α := fun a b => c b a

def chain : List (Comparator α) → Comparator α
  | [] => fun _ _ => .eq
  | c :: cs => fun a b => (c a b).then (chain cs a b)

/-- Sorting is stable: what the comparator holds equal keeps its order. -/
def sort (c : Comparator α) (items : List α) : List α := items.mergeSort fun a b => c a b != .gt

end Comparator

def sortByText (key : α → String) (items : List α) : List α :=
  items.mergeSort fun a b => compare (key a) (key b) != .gt

def sortByNumber (key : α → Double) (items : List α) : List α :=
  items.mergeSort fun a b => (key a).order (key b) != .gt

def sortTexts (items : List String) : List String := (Comparator.onText id).sort items

end Attest
