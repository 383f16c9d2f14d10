import Mathlib.Data.List.Perm.Basic

namespace Attest

variable {α β ε : Type}

theorem bind_eq_ok {x : Except ε α} {f : α → Except ε β} {b : β} :
    x >>= f = .ok b ↔ ∃ a, x = .ok a ∧ f a = .ok b := by
  cases x <;> simp [bind, Except.bind]

theorem bind_eq_error {x : Except ε α} {f : α → Except ε β} {e : ε} :
    x >>= f = .error e ↔ x = .error e ∨ ∃ a, x = .ok a ∧ f a = .error e := by
  cases x <;> simp [bind, Except.bind]

theorem map_eq_ok {x : Except ε α} {f : α → β} {b : β} :
    f <$> x = .ok b ↔ ∃ a, x = .ok a ∧ f a = b := by
  cases x <;> simp [Functor.map, Except.map]

theorem mapError_eq_ok {δ : Type} {x : Except ε α} {f : ε → δ} {a : α} :
    x.mapError f = .ok a ↔ x = .ok a := by
  cases x <;> simp [Except.mapError]

theorem exists_of_isOk {x : Except ε α} (succeeds : x.isOk = true) : ∃ a, x = .ok a := by
  cases x with
  | error e => cases succeeds
  | ok a => exact ⟨a, rfl⟩

theorem mapM_eq_ok_iff {f : α → Except ε β} {xs : List α} {ys : List β} :
    xs.mapM f = .ok ys ↔ List.Forall₂ (fun x y => f x = .ok y) xs ys := by
  induction xs generalizing ys with
  | nil =>
    rw [List.mapM_nil, List.forall₂_nil_left_iff]
    exact ⟨fun done => (Except.ok.inj done).symm, fun none => congrArg Except.ok none.symm⟩
  | cons x xs ih =>
    rw [List.mapM_cons, bind_eq_ok]
    constructor
    · rintro ⟨y, first, done⟩
      obtain ⟨rest, others, done⟩ := bind_eq_ok.mp done
      obtain rfl := Except.ok.inj done
      exact .cons first (ih.mp others)
    · intro related
      cases related with
      | cons first others => exact ⟨_, first, bind_eq_ok.mpr ⟨_, ih.mpr others, rfl⟩⟩

theorem mapM_congr {f g : α → Except ε β} {xs : List α} (same : ∀ x ∈ xs, f x = g x) :
    xs.mapM f = xs.mapM g := by
  induction xs with
  | nil => rfl
  | cons x xs ih =>
    obtain ⟨first, others⟩ := List.forall_mem_cons.mp same
    rw [List.mapM_cons, List.mapM_cons, first, ih others]

theorem exists_of_mem_forall₂ {R : α → β → Prop} {xs : List α} {ys : List β}
    (related : List.Forall₂ R xs ys) {x : α} (member : x ∈ xs) : ∃ y ∈ ys, R x y := by
  induction related with
  | nil => cases member
  | cons first _ ih =>
    rcases List.mem_cons.mp member with rfl | later
    · exact ⟨_, List.mem_cons_self, first⟩
    · obtain ⟨y, there, holds⟩ := ih later
      exact ⟨y, List.mem_cons_of_mem _ there, holds⟩

theorem forall₂_changed {R : α → α → Prop} (refl : ∀ a, R a a) (before after : List α) {a a' : α}
    (changed : R a a') : List.Forall₂ R (before ++ a :: after) (before ++ a' :: after) := by
  induction before with
  | nil => exact .cons changed (List.forall₂_same.mpr fun a _ => refl a)
  | cons x before ih => exact .cons (refl x) ih

theorem exists_mapM_iff {f : α → Except ε β} {xs : List α} :
    (∃ ys, xs.mapM f = .ok ys) ↔ ∀ x ∈ xs, ∃ y, f x = .ok y := by
  constructor
  · rintro ⟨ys, done⟩ x member
    obtain ⟨y, -, image⟩ := exists_of_mem_forall₂ (mapM_eq_ok_iff.mp done) member
    exact ⟨y, image⟩
  · intro each
    induction xs with
    | nil => exact ⟨[], rfl⟩
    | cons x xs ih =>
      obtain ⟨here, others⟩ := List.forall_mem_cons.mp each
      obtain ⟨y, first⟩ := here
      obtain ⟨ys, rest⟩ := ih others
      exact ⟨y :: ys, mapM_eq_ok_iff.mpr (.cons first (mapM_eq_ok_iff.mp rest))⟩

theorem exists_of_mem_mapM {f : α → Except ε β} {xs : List α} {ys : List β}
    (done : xs.mapM f = .ok ys) {y : β} (member : y ∈ ys) : ∃ x ∈ xs, f x = .ok y :=
  exists_of_mem_forall₂ (mapM_eq_ok_iff.mp done).flip member

theorem exists_mapM_of_mapM {γ : Type} {f : α → Except ε β} {f' : α → Except ε γ} {g : γ → β} {xs : List α}
    {ys : List β} (each : ∀ x ∈ xs, ∀ y, f x = .ok y → ∃ z, f' x = .ok z ∧ g z = y)
    (done : xs.mapM f = .ok ys) : ∃ zs, xs.mapM f' = .ok zs ∧ zs.map g = ys := by
  rw [mapM_eq_ok_iff] at done
  induction done with
  | nil => exact ⟨[], rfl, rfl⟩
  | cons first _ ih =>
    obtain ⟨here, later⟩ := List.forall_mem_cons.mp each
    obtain ⟨z, image, rfl⟩ := here _ first
    obtain ⟨zs, images, rfl⟩ := ih later
    exact ⟨z :: zs, mapM_eq_ok_iff.mpr (.cons image (mapM_eq_ok_iff.mp images)), rfl⟩

theorem exists_perm_of_mapM {f : α → Except ε β} {xs ys : List α} {as : List β} (moved : xs.Perm ys)
    (done : xs.mapM f = .ok as) : ∃ bs, ys.mapM f = .ok bs ∧ as.Perm bs := by
  obtain ⟨bs, related, perm⟩ := List.perm_comp_forall₂ moved.symm (mapM_eq_ok_iff.mp done)
  exact ⟨bs, mapM_eq_ok_iff.mpr related, perm.symm⟩

def Agree (x y : Except ε α) : Prop := ∀ a, x = .ok a ↔ y = .ok a

namespace Agree

theorem refl (x : Except ε α) : Agree x x := fun _ => Iff.rfl

theorem symm {x y : Except ε α} (agree : Agree x y) : Agree y x := fun a => (agree a).symm

theorem trans {x y z : Except ε α} (first : Agree x y) (second : Agree y z) : Agree x z :=
  fun a => (first a).trans (second a)

theorem bind {x y : Except ε α} {f g : α → Except ε β} (first : Agree x y) (second : ∀ a, Agree (f a) (g a)) :
    Agree (x >>= f) (y >>= g) := by
  intro b
  rw [bind_eq_ok, bind_eq_ok]
  exact exists_congr fun a => and_congr (first a) (second a b)

theorem map {x y : Except ε α} (agree : Agree x y) (f : α → β) : Agree (f <$> x) (f <$> y) := by
  intro b
  rw [map_eq_ok, map_eq_ok]
  exact exists_congr fun a => and_congr_left' (agree a)

theorem mapM {f : α → Except ε β} {xs ys : List α} (related : List.Forall₂ (fun x y => Agree (f x) (f y)) xs ys) :
    Agree (xs.mapM f) (ys.mapM f) := by
  induction related with
  | nil => exact .refl _
  | cons first _ ih =>
    rw [List.mapM_cons, List.mapM_cons]
    exact first.bind fun _ => ih.bind fun _ => .refl _

end Agree

end Attest
