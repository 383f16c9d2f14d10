import Attest.Proofs.Json.Plain

namespace Attest.Json

variable {α σ : Type} {p : Outline → Prop}

structure Hereditary (p : Outline → Prop) : Prop where
  items : ∀ items, p (.array items) → ∀ item ∈ items, p item
  members : ∀ members, p (.object members) → ∀ member ∈ members, p member.2

theorem hereditary_true : Hereditary fun _ => True :=
  ⟨fun _ _ _ _ => trivial, fun _ _ _ _ => trivial⟩

theorem hereditary_isPlain : Hereditary fun o => o.isPlain = true := by
  refine ⟨fun items plain => Outline.allPlain_iff.mp plain, fun members plain => ?_⟩
  exact Outline.allPlainMembers_iff.mp (Bool.and_eq_true_iff.mp plain).2

namespace Decoder

/-- What `d` reads is what `d'` reads, with `g` applied to it. -/
def Follows (p : Outline → Prop) (g : α → α) (d d' : Decoder α) : Prop :=
  ∀ ⦃depth o a⦄, p o → d depth o = .ok a → ∃ b, d' depth o = .ok b ∧ g b = a

theorem follows_rfl (d : Decoder α) : Follows p id d d := fun _ _ a _ read => ⟨a, read, rfl⟩

theorem follows_content_value : Follows (fun o => o.isPlain = true) id content value :=
  fun _ _ a plain read => ⟨a, value_of_isPlain plain ▸ read, rfl⟩

theorem follows_value_content : Follows (fun o => o.isPlain = true) id value content :=
  fun _ _ a plain read => ⟨a, value_of_isPlain plain ▸ read, rfl⟩

theorem follows_collapsed : Follows (fun _ => True) collapsed value content :=
  fun _ _ _ _ read => exists_content_of_value read

variable {g : α → α} {d d' : Decoder α}

theorem Follows.optional (follows : Follows p g d d') : Follows p (Option.map g) (optional d) (optional d') := by
  intro depth o a holds read
  by_cases null : o = .null
  · subst null
    cases read
    exact ⟨none, rfl, rfl⟩
  · rw [optional_of_ne_null null] at read ⊢
    obtain ⟨b, inside, rfl⟩ := map_eq_ok.mp read
    obtain ⟨c, found, rfl⟩ := follows holds inside
    exact ⟨some c, map_eq_ok.mpr ⟨c, found, rfl⟩, rfl⟩

theorem Follows.list (hereditary : Hereditary p) (follows : Follows p g d d') :
    Follows p (List.map g) (list d) (list d') := by
  intro depth o as holds read
  cases depth with
  | zero => cases o <;> cases read
  | succ depth =>
    cases o with
    | array items =>
      have each := hereditary.items items holds
      exact exists_mapM_of_mapM (fun o there _ => follows (each o there)) read
    | _ => cases read

theorem Follows.entries (hereditary : Hereditary p) (follows : Follows p g d d') :
    Follows p (Entries.mapValues g) (entries d) (entries d') := by
  intro depth o as holds read
  cases depth with
  | zero => cases o <;> cases read
  | succ depth =>
    cases o with
    | object members =>
      have each := hereditary.members members holds
      obtain ⟨pairs, inside, rfl⟩ := map_eq_ok.mp read
      obtain ⟨others, found, rfl⟩ := exists_members_of_members (fun m there _ => follows (each m there)) inside
      exact ⟨_, map_eq_ok.mpr ⟨others, found, rfl⟩, (Entries.ofList_mapValues g others).symm⟩
    | _ => cases read

theorem Follows.read_eq_ok (follows : Follows (fun o => o.isPlain = true) id d d') {text : Bytes}
    (plain : Plain text) {a : α} (accepted : read d text = .ok a) : read d' text = .ok a := by
  obtain ⟨o, outlined, inside⟩ := read_eq_ok_iff.mp accepted
  have plain : o.isPlain = true := by rwa [Plain, outlined] at plain
  obtain ⟨_, found, rfl⟩ := follows plain inside
  exact read_eq_ok_iff.mpr ⟨o, outlined, found⟩

end Decoder

namespace Record

variable {g : σ → σ} {fields fields' : List (Field σ)}

/-- A field that differs from another in how its value is read, and in that only by `g`. -/
structure Field.Follows (p : Outline → Prop) (g : σ → σ) (fld fld' : Field σ) : Prop where
  name : fld.name = fld'.name
  aliases : fld.aliases = fld'.aliases
  required : fld.required = fld'.required
  decode : ∀ ⦃depth o change⦄, p o → fld.decode depth o = .ok change →
    ∃ change', fld'.decode depth o = .ok change' ∧ ∀ r, change (g r) = g (change' r)

theorem Field.follows {h : α → α} {d d' : Decoder α} (follows : d.Follows p h d') {set : α → σ → σ}
    (sets : ∀ a r, set (h a) (g r) = g (set a r)) {name : String} {aliases : List String}
    {required : Bool} :
    Field.Follows p g ⟨name, aliases, required, fun depth o => set <$> d depth o⟩
      ⟨name, aliases, required, fun depth o => set <$> d' depth o⟩ := by
  refine ⟨rfl, rfl, rfl, fun depth o change holds read => ?_⟩
  obtain ⟨a, inside, rfl⟩ := map_eq_ok.mp read
  obtain ⟨b, found, rfl⟩ := follows holds inside
  exact ⟨set b, map_eq_ok.mpr ⟨b, found, rfl⟩, sets b⟩

theorem find?_follows {q : Field σ → Bool}
    (same : ∀ fld fld' : Field σ, fld.Follows p g fld' → q fld = q fld')
    (each : List.Forall₂ (Field.Follows p g) fields fields') :
    Option.Rel (Field.Follows p g) (fields.find? q) (fields'.find? q) := by
  induction each with
  | nil => exact .none
  | @cons fld fld' _ _ first _ ih =>
    rw [List.find?_cons, List.find?_cons, ← same fld fld' first]
    cases q fld with
    | true => exact .some first
    | false => exact ih

theorem decodeMembers_follows {depth : Nat} (each : List.Forall₂ (Field.Follows p g) fields fields')
    {members : List (Option String × Outline)} (holds : ∀ member ∈ members, p member.2)
    {seen seen' : List String} {r r' : σ}
    (read : decodeMembers fields depth members seen (g r) = .ok (seen', r')) :
    ∃ s, decodeMembers fields' depth members seen r = .ok (seen', s) ∧ g s = r' := by
  induction members generalizing seen r with
  | nil =>
    cases read
    exact ⟨r, rfl, rfl⟩
  | cons member members ih =>
    obtain ⟨key, o⟩ := member
    obtain ⟨here, later⟩ := List.forall_mem_cons.mp holds
    cases key with
    | none => cases read
    | some key =>
      have answers : ∀ fld fld' : Field σ, fld.Follows p g fld' → fld.answersTo key = fld'.answersTo key := by
        intro fld fld' follows
        rw [Field.answersTo, Field.answersTo, follows.name, follows.aliases]
      have found := find?_follows answers each
      rw [decodeMembers] at read ⊢
      cases own : fields.find? (·.answersTo key) with
      | none =>
        rw [own] at found read
        cases other : fields'.find? (·.answersTo key) with
        | some _ =>
          rw [other] at found
          cases found
        | none =>
          dsimp only at read ⊢
          split at read
          · rename_i whole
            rw [if_pos whole]
            exact ih later read
          · cases read
      | some fld =>
        rw [own] at found read
        cases other : fields'.find? (·.answersTo key) with
        | none =>
          rw [other] at found
          cases found
        | some fld' =>
          rw [other] at found
          cases found with
          | some follows =>
            dsimp only at read ⊢
            rw [← follows.name]
            split at read
            · cases read
            · rename_i fresh
              rw [if_neg fresh]
              obtain ⟨change, made, read⟩ := bind_eq_ok.mp read
              obtain ⟨change', made', same⟩ := follows.decode here made
              rw [same] at read
              obtain ⟨s, done, equal⟩ := ih later read
              exact ⟨s, bind_eq_ok.mpr ⟨change', made', done⟩, equal⟩

theorem decodeItems_follows {depth : Nat} (each : List.Forall₂ (Field.Follows p g) fields fields')
    {items : List Outline} (holds : ∀ item ∈ items, p item) {r r' : σ}
    (read : decodeItems depth fields items (g r) = .ok r') :
    ∃ s, decodeItems depth fields' items r = .ok s ∧ g s = r' := by
  induction each generalizing items r with
  | nil =>
    cases items with
    | nil =>
      cases read
      exact ⟨r, rfl, rfl⟩
    | cons _ _ => cases read
  | @cons fld fld' fields fields' follows _ ih =>
    cases items with
    | nil =>
      rw [decodeItems, ← follows.required]
      rw [decodeItems] at read
      split at read
      · cases read
      · rename_i optional
        rw [if_neg optional]
        exact ih holds read
    | cons o items =>
      obtain ⟨here, later⟩ := List.forall_mem_cons.mp holds
      rw [decodeItems] at read ⊢
      obtain ⟨change, made, read⟩ := bind_eq_ok.mp read
      obtain ⟨change', made', same⟩ := follows.decode here made
      rw [same] at read
      obtain ⟨s, done, equal⟩ := ih later read
      exact ⟨s, bind_eq_ok.mpr ⟨change', made', done⟩, equal⟩

theorem follows_decode (hereditary : Hereditary p) (each : List.Forall₂ (Field.Follows p g) fields fields')
    {blank : σ} (start : g blank = blank) : Decoder.Follows p g (decode fields blank) (decode fields' blank) := by
  intro depth o r holds read
  cases depth with
  | zero => cases o <;> cases read
  | succ depth =>
    cases o with
    | array items =>
      rw [decode, ← start] at read
      exact decodeItems_follows each (hereditary.items items holds) read
    | object members =>
      rw [decode, ← start] at read
      obtain ⟨⟨seen, r⟩, done, read⟩ := bind_eq_ok.mp read
      obtain ⟨s, found, rfl⟩ := decodeMembers_follows each (hereditary.members members holds) done
      have wanted : ∀ fld fld' : Field σ, fld.Follows p g fld' →
          (fld.required && !seen.contains fld.name) = (fld'.required && !seen.contains fld'.name) := by
        intro fld fld' follows
        rw [follows.name, follows.required]
      have missing := find?_follows wanted each
      dsimp only at read
      split at read
      · cases read
      · rename_i none
        cases read
        refine ⟨s, bind_eq_ok.mpr ⟨(seen, s), found, ?_⟩, rfl⟩
        rw [none] at missing
        cases other : fields'.find? fun fld => fld.required && !seen.contains fld.name with
        | none =>
          dsimp only
          rw [other]
          rfl
        | some _ =>
          rw [other] at missing
          cases missing
    | _ => cases read

end Record
end Attest.Json
