import Attest.Proofs.Canonical.Explained
import Attest.Proofs.KeyMap.Merge

namespace Attest

namespace Difference

open Entries

def underKey (l : Location) (key : String) : (a b : Option Canonical) → List (Location × Difference)
  | some a, some b => locate (l ++ [.key key]) a b
  | some a, none => [onlyInA l (key, a)]
  | none, some b => [onlyInB l (key, b)]
  | none, none => []

/-- What is reported under the keys of two objects, one key after the other. -/
def underKeys (l : Location) (as bs : List (String × Canonical)) : List (Location × Difference) :=
  (eitherKeys as bs).flatMap fun key => underKey l key (get? key as) (get? key bs)

theorem underKeys_first {l : Location} {key : String} {as as' bs bs' : List (String × Canonical)}
    (belowLeft : ∀ name ∈ keys as, key < name) (belowRight : ∀ name ∈ keys bs, key < name)
    (names : ∀ name, name = key ∨ name ∈ keys as ∨ name ∈ keys bs ↔ name ∈ keys as' ∨ name ∈ keys bs')
    (sameLeft : ∀ name, key < name → get? name as' = get? name as)
    (sameRight : ∀ name, key < name → get? name bs' = get? name bs) :
    underKeys l as' bs' = underKey l key (get? key as') (get? key bs') ++ underKeys l as bs := by
  rw [underKeys, eitherKeys_first belowLeft belowRight names, List.flatMap_cons]
  congr 1
  apply List.flatMap_congr
  intro name named
  have after : key < name := (mem_eitherKeys.mp named).elim (belowLeft name) (belowRight name)
  rw [sameLeft name after, sameRight name after]

theorem locateMembers_eq_underKeys (l : Location) {as bs : List (String × Canonical)}
    (left : Ascending as) (right : Ascending bs) : locateMembers l as bs = underKeys l as bs := by
  have absent {key : String} {members : List (String × Canonical)}
      (below : ∀ name ∈ keys members, key < name) : get? key members = none :=
    get?_of_not_mem fun named => String.lt_irrefl key (below key named)
  induction as, bs using merge_induction with
  | nil => rw [locateMembers, underKeys, eitherKeys_eq .nil (by simp [keys]), List.map_nil, List.flatMap_nil]
  | left key a as bs first ih =>
    have belowLeft := (List.pairwise_cons.mp left).1
    have belowRight := right.below_head? first
    rw [locateMembers_first_left first, ih left.tail right,
      underKeys_first belowLeft belowRight (by simp [keys, or_assoc])
        (fun name after => get?_cons_of_lt a after as) fun _ _ => rfl,
      get?_cons_self, absent belowRight]
    rfl
  | right key b as bs first ih =>
    have belowLeft := left.below_head? first
    have belowRight := (List.pairwise_cons.mp right).1
    rw [locateMembers_first_right first, ih left right.tail,
      underKeys_first belowLeft belowRight (by simp [keys, or_left_comm])
        (fun _ _ => rfl) fun name after => get?_cons_of_lt b after bs,
      get?_cons_self, absent belowLeft]
    rfl
  | both key a b as bs ih =>
    have belowLeft := (List.pairwise_cons.mp left).1
    have belowRight := (List.pairwise_cons.mp right).1
    rw [locateMembers_both, ih left.tail right.tail,
      underKeys_first belowLeft belowRight (by simp [keys, or_left_comm, or_assoc])
        (fun name after => get?_cons_of_lt a after as) fun name after => get?_cons_of_lt b after bs,
      get?_cons_self, get?_cons_self]
    rfl

theorem locateItems_eq_flatMap (l : Location) (i : Nat) (as bs : List Canonical) :
    locateItems l i as bs =
      ((as.zip bs).zipIdx i).flatMap fun p => locate (l ++ [.index p.2]) p.1.1 p.1.2 := by
  induction as generalizing i bs with
  | nil => rfl
  | cons a as ih =>
    cases bs with
    | nil => rfl
    | cons b bs => rw [locateItems, ih, List.zip_cons_cons, List.zipIdx_cons, List.flatMap_cons]

def Walked (a b : Canonical) : Prop :=
  (∃ as bs, a = .object as ∧ b = .object bs) ∨ ∃ as bs, a = .array as ∧ b = .array bs

theorem locate_eq_ofParts {a b : Canonical} (l : Location) (apart : ¬ Walked a b) :
    locate l a b = ofParts l a b := by
  rcases locate_cases l a b with objects | arrays | parts
  · exact absurd (.inl objects) apart
  · exact absurd (.inr arrays) apart
  · exact parts

theorem locate_object (l : Location) {as bs : List (String × Canonical)} (left : Ascending as)
    (right : Ascending bs) : locate l (.object as) (.object bs) = underKeys l as bs := by
  rw [locate, locateMembers_eq_underKeys l left right]

theorem locate_array (l : Location) (as bs : List Canonical) :
    locate l (.array as) (.array bs) = ofLengths l as.length bs.length ++
      (as.zip bs).zipIdx.flatMap fun p => locate (l ++ [.index p.2]) p.1.1 p.1.2 := by
  rw [locate, locateItems_eq_flatMap]

end Difference

inductive Canonical.PartOf : (part whole : Canonical) → Prop
  | item {part : Canonical} {items : List Canonical} (inside : part ∈ items) : PartOf part (.array items)
  | member {entry : String × Canonical} {members : List (String × Canonical)} (inside : entry ∈ members) :
    PartOf entry.2 (.object members)

theorem Canonical.partOf_wellFounded : WellFounded PartOf := by
  have smaller : Subrelation PartOf (measure (sizeOf : Canonical → Nat)).rel := by
    intro part whole inside
    cases inside with
    | item inside =>
      have bound := List.sizeOf_lt_of_mem inside
      show sizeOf part < sizeOf (Canonical.array _)
      rw [Canonical.array.sizeOf_spec]
      omega
    | member inside =>
      rename_i entry members
      have bound := List.sizeOf_lt_of_mem inside
      obtain ⟨key, value⟩ := entry
      show sizeOf value < sizeOf (Canonical.object _)
      rw [Canonical.object.sizeOf_spec]
      rw [Prod.mk.sizeOf_spec] at bound
      omega
  exact smaller.wf (measure _).wf

namespace Difference

open Entries

def Reason.swap : Reason → Reason
  | .missingInA => .missingInB
  | .missingInB => .missingInA
  | reason => reason

def swap (d : Difference) : Difference := ⟨d.path, d.b, d.a, d.reason.swap⟩

def mirror (entry : Location × Difference) : Location × Difference := (entry.1, entry.2.swap)

variable {l : Location} {a b : Canonical}

theorem ofParts_swap : ofParts l b a = (ofParts l a b).map mirror := by
  unfold ofParts
  by_cases types : a.typeName = b.typeName
  · by_cases same : a = b
    · rw [same]
      simp
    · rw [if_neg (not_not_intro types.symm), if_neg (not_not_intro types), if_pos (Ne.symm same),
        if_pos same]
      rfl
  · rw [if_pos (Ne.symm types), if_pos types]
    rfl

theorem ofLengths_swap (l : Location) (m n : Nat) : ofLengths l n m = (ofLengths l m n).map mirror := by
  unfold ofLengths
  by_cases same : m = n
  · rw [if_pos same, if_pos same.symm, List.map_nil]
  · rw [if_neg same, if_neg (Ne.symm same)]
    rfl

def Mirrored (a : Canonical) : Prop := ∀ l b, locate l b a = (locate l a b).map mirror

theorem locateMembers_swap (l : Location) {as bs : List (String × Canonical)}
    (parts : ∀ entry ∈ as, Mirrored entry.2) : locateMembers l bs as = (locateMembers l as bs).map mirror := by
  induction as, bs using merge_induction with
  | nil => rw [locateMembers, List.map_nil, List.map_nil]
  | left key a as bs first ih =>
    rw [locateMembers_first_left first, locateMembers_first_right first, List.map_cons,
      ih fun entry inside => parts entry (List.mem_cons_of_mem _ inside)]
    rfl
  | right key b as bs first ih =>
    rw [locateMembers_first_left first, locateMembers_first_right first, List.map_cons, ih parts]
    rfl
  | both key a b as bs ih =>
    rw [locateMembers_both, locateMembers_both, List.map_append, parts (key, a) List.mem_cons_self,
      ih fun entry inside => parts entry (List.mem_cons_of_mem _ inside)]

theorem locateItems_swap (l : Location) (i : Nat) {as bs : List Canonical} (parts : ∀ item ∈ as, Mirrored item) :
    locateItems l i bs as = (locateItems l i as bs).map mirror := by
  induction as generalizing i bs with
  | nil => cases bs <;> rfl
  | cons a as ih =>
    cases bs with
    | nil => rfl
    | cons b bs =>
      rw [locateItems, locateItems, List.map_append, parts a List.mem_cons_self,
        ih (i + 1) fun item inside => parts item (List.mem_cons_of_mem _ inside)]

theorem locate_swap (a : Canonical) : Mirrored a := by
  induction a using Canonical.partOf_wellFounded.induction with
  | _ a ih =>
    intro l b
    by_cases walked : Walked a b
    · rcases walked with ⟨as, bs, rfl, rfl⟩ | ⟨as, bs, rfl, rfl⟩
      · rw [locate, locate]
        exact locateMembers_swap l fun entry inside => ih _ (.member inside)
      · rw [locate, locate, ofLengths_swap, List.map_append,
          locateItems_swap l 0 fun item inside => ih _ (.item inside)]
    · have other : ¬ Walked b a := by
        rintro (⟨as, bs, rfl, rfl⟩ | ⟨as, bs, rfl, rfl⟩)
        · exact walked (.inl ⟨bs, as, rfl, rfl⟩)
        · exact walked (.inr ⟨bs, as, rfl, rfl⟩)
      rw [locate_eq_ofParts l walked, locate_eq_ofParts l other, ofParts_swap]

theorem differences_are_mirrored (a b : Canonical) : between b a = (between a b).map swap := by
  rw [between, locate_swap a, between, List.map_map, List.map_map]
  rfl

end Difference
end Attest
