import Attest.Proofs.Canonical.Integer
import Attest.Proofs.Canonical.Location
import Attest.Proofs.Canonical.Normal
import Attest.Proofs.Canonical.Walk

namespace Attest

namespace Canonical

def Ordered (c : Canonical) : Prop :=
  ∀ members, Relation.ReflTransGen PartOf (.object members) c → Entries.Ascending members

theorem Ordered.ascending {members : List (String × Canonical)} (ordered : Ordered (.object members)) :
    Entries.Ascending members := ordered members .refl

theorem Ordered.part {part whole : Canonical} (ordered : whole.Ordered) (inside : PartOf part whole) :
    part.Ordered := fun members within => ordered members (within.tail inside)

theorem Ordered.partOf {members : List (String × Canonical)} (ordered : Ordered (.object members))
    {key : String} {c : Canonical} (found : Entries.get? key members = some c) : PartOf c (.object members) := by
  have inside : (key, c) ∈ members := (Entries.get?_eq_some_iff ordered.ascending).mp found
  exact .member inside

theorem Normal.part {part whole : Canonical} (normal : whole.Normal) (inside : PartOf part whole) :
    part.Normal := by
  cases inside with
  | item inside => exact normalItems_iff.mp normal _ inside
  | member inside => exact normalMembers_iff.mp normal.2 _ inside

theorem Normal.within {part whole : Canonical} (normal : whole.Normal)
    (within : Relation.ReflTransGen PartOf part whole) : part.Normal := by
  induction within using Relation.ReflTransGen.head_induction_on with
  | refl => exact normal
  | head inside _ ih => exact ih.part inside

theorem Normal.ordered {c : Canonical} (normal : c.Normal) : c.Ordered :=
  fun _ within => (normal.within within).1

end Canonical

namespace Difference

open Entries

/-- What a difference that is reported at a location says: how the location is written, and of the parts
there what its reason stands for. -/
inductive Truthful (a b : Canonical) (l : Location) : Difference → Prop
  | values {path : String} {x y : Canonical} (written : l.Written path) (left : a.at? l = some x)
    (right : b.at? l = some y) (apart : ¬ Walked x y) (differ : x ≠ y) (types : x.typeName = y.typeName) :
    Truthful a b l ⟨path, some x, some y, .valueMismatch⟩
  | types {path : String} {x y : Canonical} (written : l.Written path) (left : a.at? l = some x)
    (right : b.at? l = some y) (apart : ¬ Walked x y) (differ : x ≠ y) (types : x.typeName ≠ y.typeName) :
    Truthful a b l ⟨path, some x, some y, .typeMismatch⟩
  | onlyInA {path key : String} {parent : Location} {as bs : List (String × Canonical)} {x : Canonical}
    (written : l.Written path) (place : l = parent ++ [.key key]) (left : a.at? parent = some (.object as))
    (right : b.at? parent = some (.object bs)) (here : a.at? l = some x) (absent : b.at? l = none) :
    Truthful a b l ⟨path, some x, none, .missingInB⟩
  | onlyInB {path key : String} {parent : Location} {as bs : List (String × Canonical)} {y : Canonical}
    (written : l.Written path) (place : l = parent ++ [.key key]) (left : a.at? parent = some (.object as))
    (right : b.at? parent = some (.object bs)) (absent : a.at? l = none) (here : b.at? l = some y) :
    Truthful a b l ⟨path, none, some y, .missingInA⟩
  | lengths {path : String} {xs ys : List Canonical} (written : l.Written path)
    (left : a.at? l = some (.array xs)) (right : b.at? l = some (.array ys))
    (differ : xs.length ≠ ys.length)
    (carried : Canonical.ofInt xs.length ≠ Canonical.ofInt ys.length) :
    Truthful a b l ⟨path, some (.ofInt xs.length), some (.ofInt ys.length), .lengthMismatch⟩

section

variable {a b x y : Canonical} {l : Location} {entry : Location × Difference}

theorem truthful_of_mem_ofParts (left : a.at? l = some x) (right : b.at? l = some y) (apart : ¬ Walked x y)
    (there : entry ∈ ofParts l x y) : Truthful a b entry.1 entry.2 := by
  unfold ofParts at there
  split at there
  · rename_i types
    obtain rfl := List.mem_singleton.mp there
    have differ : x ≠ y := fun same => types (congrArg _ same)
    exact .types l.written_path left right apart differ types
  · rename_i types
    split at there
    · rename_i differ
      obtain rfl := List.mem_singleton.mp there
      exact .values l.written_path left right apart differ (not_not.mp types)
    · cases there

theorem truthful_of_mem_ofLengths {xs ys : List Canonical} (left : a.at? l = some (.array xs))
    (right : b.at? l = some (.array ys)) (there : entry ∈ ofLengths l xs.length ys.length) :
    Truthful a b entry.1 entry.2 := by
  unfold ofLengths at there
  split at there
  · cases there
  · rename_i differ
    obtain rfl := List.mem_singleton.mp there
    have carried : Canonical.ofInt xs.length ≠ Canonical.ofInt ys.length := by
      rw [Canonical.ofInt_eq_exactly, Canonical.ofInt_eq_exactly]
      exact Canonical.exactly_injective.ne (Int.ofNat_inj.not.mpr differ)
    exact .lengths l.written_path left right differ carried

/-- Under one key: a walk further down if both objects have it, and else one entry that is truthful. -/
theorem truthful_of_mem_underKey {as bs : List (String × Canonical)} {key : String}
    (left : a.at? l = some (.object as)) (right : b.at? l = some (.object bs))
    (below : ∀ x y, get? key as = some x → get? key bs = some y →
      ∀ entry ∈ locate (l ++ [.key key]) x y, Truthful a b entry.1 entry.2)
    (there : entry ∈ underKey l key (get? key as) (get? key bs)) : Truthful a b entry.1 entry.2 := by
  have hereA := Canonical.at?_key left key
  have hereB := Canonical.at?_key right key
  cases foundA : get? key as with
  | some x =>
    rw [foundA] at hereA there
    cases foundB : get? key bs with
    | some y =>
      rw [foundB] at there
      exact below x y foundA foundB entry there
    | none =>
      rw [foundB] at hereB there
      obtain rfl := List.mem_singleton.mp there
      exact .onlyInA (Location.written_path _) rfl left right hereA hereB
  | none =>
    rw [foundA] at hereA there
    cases foundB : get? key bs with
    | some y =>
      rw [foundB] at hereB there
      obtain rfl := List.mem_singleton.mp there
      exact .onlyInB (Location.written_path _) rfl left right hereA hereB
    | none =>
      rw [foundB] at there
      cases there

end

theorem mem_zipIdx_zip {as bs : List Canonical} {pair : (Canonical × Canonical) × Nat}
    (paired : pair ∈ (as.zip bs).zipIdx) : as[pair.2]? = some pair.1.1 ∧ bs[pair.2]? = some pair.1.2 :=
  List.getElem?_zip_eq_some.mp (List.mem_zipIdx_iff_getElem?.mp paired)

theorem truthful_of_mem_locate {a b : Canonical} (x : Canonical) : ∀ (l : Location) (y : Canonical),
    a.at? l = some x → b.at? l = some y → x.Ordered → y.Ordered →
      ∀ entry ∈ locate l x y, Truthful a b entry.1 entry.2 := by
  -- On the parts of the one value; what stands at the location is what the walk has in hand there.
  induction x using Canonical.partOf_wellFounded.induction with
  | _ x ih =>
    intro l y left right orderedX orderedY entry there
    by_cases walked : Walked x y
    · rcases walked with ⟨as, bs, rfl, rfl⟩ | ⟨as, bs, rfl, rfl⟩
      · rw [locate_object l orderedX.ascending orderedY.ascending] at there
        obtain ⟨key, -, there⟩ := List.mem_flatMap.mp there
        apply truthful_of_mem_underKey left right _ there
        intro x y foundX foundY
        have insideX := orderedX.partOf foundX
        have insideY := orderedY.partOf foundY
        rw [← Canonical.at?_key left] at foundX
        rw [← Canonical.at?_key right] at foundY
        exact ih x insideX _ y foundX foundY (orderedX.part insideX) (orderedY.part insideY)
      · rw [locate_array] at there
        rcases List.mem_append.mp there with lengths | items
        · exact truthful_of_mem_ofLengths left right lengths
        · obtain ⟨pair, paired, there⟩ := List.mem_flatMap.mp items
          obtain ⟨foundX, foundY⟩ := mem_zipIdx_zip paired
          have insideX := Canonical.PartOf.item (List.mem_of_getElem? foundX)
          have insideY := Canonical.PartOf.item (List.mem_of_getElem? foundY)
          rw [← Canonical.at?_index left] at foundX
          rw [← Canonical.at?_index right] at foundY
          exact ih _ insideX _ _ foundX foundY (orderedX.part insideX) (orderedY.part insideY) entry there
    · rw [locate_eq_ofParts l walked] at there
      exact truthful_of_mem_ofParts left right walked there

section

variable {l : Location}

theorem pairwise_ofParts (a b : Canonical) :
    (ofParts l a b).Pairwise fun entry other => Location.Before entry.1 other.1 := by
  unfold ofParts
  split
  · exact List.pairwise_singleton _ _
  · split
    · exact List.pairwise_singleton _ _
    · exact .nil

theorem pairwise_ofLengths (m n : Nat) :
    (ofLengths l m n).Pairwise fun entry other => Location.Before entry.1 other.1 := by
  unfold ofLengths
  split
  · exact .nil
  · exact List.pairwise_singleton _ _

theorem prefix_of_mem_underKey {key : String} {x y : Option Canonical} {entry : Location × Difference}
    (there : entry ∈ underKey l key x y) : l ++ [.key key] <+: entry.1 := by
  cases x with
  | some x =>
    cases y with
    | some y => exact prefix_of_mem_locate _ x y entry there
    | none =>
      obtain rfl := List.mem_singleton.mp there
      exact List.prefix_rfl
  | none =>
    cases y with
    | some y =>
      obtain rfl := List.mem_singleton.mp there
      exact List.prefix_rfl
    | none => cases there

theorem pairwise_underKey {key : String} {x y : Option Canonical}
    (below : ∀ a b, x = some a → y = some b →
      (locate (l ++ [.key key]) a b).Pairwise fun entry other => Location.Before entry.1 other.1) :
    (underKey l key x y).Pairwise fun entry other => Location.Before entry.1 other.1 := by
  cases x with
  | some x =>
    cases y with
    | some y => exact below x y rfl rfl
    | none => exact List.pairwise_singleton _ _
  | none =>
    cases y with
    | some y => exact List.pairwise_singleton _ _
    | none => exact .nil

end

theorem pairwise_locate (x : Canonical) : ∀ (l : Location) (y : Canonical), x.Ordered → y.Ordered →
    (locate l x y).Pairwise fun entry other => Location.Before entry.1 other.1 := by
  induction x using Canonical.partOf_wellFounded.induction with
  | _ x ih =>
    intro l y orderedX orderedY
    by_cases walked : Walked x y
    · rcases walked with ⟨as, bs, rfl, rfl⟩ | ⟨as, bs, rfl, rfl⟩
      · rw [locate_object l orderedX.ascending orderedY.ascending]
        apply List.pairwise_flatMap.mpr
        constructor
        · intro key _
          apply pairwise_underKey
          intro x y foundX foundY
          have insideX := orderedX.partOf foundX
          have insideY := orderedY.partOf foundY
          exact ih x insideX _ y (orderedX.part insideX) (orderedY.part insideY)
        · apply (pairwise_eitherKeys as bs).imp
          intro key other before entry there next after
          exact Location.before_of_prefixes (.key before) (prefix_of_mem_underKey there)
            (prefix_of_mem_underKey after)
      · rw [locate_array]
        apply List.pairwise_append.mpr
        refine ⟨pairwise_ofLengths _ _, List.pairwise_flatMap.mpr ⟨?_, ?_⟩, ?_⟩
        · intro pair paired
          obtain ⟨foundX, foundY⟩ := mem_zipIdx_zip paired
          have insideX := Canonical.PartOf.item (List.mem_of_getElem? foundX)
          have insideY := Canonical.PartOf.item (List.mem_of_getElem? foundY)
          exact ih _ insideX _ _ (orderedX.part insideX) (orderedY.part insideY)
        · have indices : ((as.zip bs).zipIdx.map Prod.snd).Pairwise (· < ·) := by
            rw [List.zipIdx_map_snd]
            exact List.pairwise_lt_range'
          apply (List.pairwise_map.mp indices).imp
          intro pair other before entry there next after
          exact Location.before_of_prefixes (.index before) (prefix_of_mem_locate _ _ _ entry there)
            (prefix_of_mem_locate _ _ _ next after)
        · -- The lengths are reported at the array itself, before its items.
          intro entry lengths next items
          obtain ⟨pair, -, there⟩ := List.mem_flatMap.mp items
          rw [location_of_mem_ofLengths lengths]
          exact Location.before_of_prefix (prefix_of_mem_locate _ _ _ next there)
    · rw [locate_eq_ofParts l walked]
      exact pairwise_ofParts x y

/-- For all differences there are locations, in the order of the walk and hence no two the same, at which
they say what is so. -/
theorem differences_are_truthful (a b : Canonical) (left : a.Ordered) (right : b.Ordered) :
    ∃ locations : List Location, locations.Nodup ∧ locations.Pairwise Location.Before ∧
      List.Forall₂ (Truthful a b) locations (between a b) := by
  have walk : ((locate [] a b).map Prod.fst).Pairwise Location.Before :=
    List.pairwise_map.mpr (pairwise_locate a [] b left right)
  refine ⟨(locate [] a b).map Prod.fst, walk.imp Location.Before.ne, walk, ?_⟩
  rw [between, List.forall₂_map_left_iff, List.forall₂_map_right_iff, List.forall₂_same]
  intro entry there
  exact truthful_of_mem_locate a [] b rfl rfl left right entry there

/-- Members on one side only, arrays of two lengths, and parts of one type and of two. -/
theorem differences_are_truthful_nested :
    let a : Canonical := .ofJson <| .object [("a", .array [.null, .string "x"]),
      ("b", .object [("c", .bool true), ("d", .null)]), ("e", .string "1")]
    let b : Canonical := .ofJson <| .object [("f", .null), ("a", .array [.bool false]),
      ("b", .object [("d", .bool true)]), ("e", .string "2")]
    a.Ordered ∧ b.Ordered ∧
      (between a b).map (fun d => (d.path, d.reason)) = [("a", .lengthMismatch), ("a[0]", .typeMismatch),
        ("b.c", .missingInB), ("b.d", .typeMismatch), ("e", .valueMismatch), ("f", .missingInA)] ∧
      ∃ locations : List Location, locations.Nodup ∧ locations.Pairwise Location.Before ∧
        List.Forall₂ (Truthful a b) locations (between a b) := by
  intro a b
  have left : a.Ordered := (Canonical.normal_ofJson _).ordered
  have right : b.Ordered := (Canonical.normal_ofJson _).ordered
  exact ⟨left, right, by decide, differences_are_truthful a b left right⟩

end Difference
end Attest
