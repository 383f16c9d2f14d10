import Attest.Proofs.Json.Rewriting

namespace Attest.Json

open Utf8

variable {σ : Type}

theorem keys_outlineOfMembers (members : List (String × Json)) :
    (outlineOfMembers members).map Prod.fst = (Entries.keys members).map some := by
  rw [outlineOfMembers_eq_map, List.map_map, Entries.keys, List.map_map]
  rfl

mutual

theorem distinct_outline : (j : Json) → j.Ordered → j.outline.Distinct
  | .null, _ | .bool _, _ | .number _, _ | .string _, _ => trivial
  | .array items, ordered => distinct_outlineOfItems items ordered
  | .object members, ⟨ascending, ordered⟩ => by
    refine ⟨?_, distinct_outlineOfMembers members ordered⟩
    rw [keys_outlineOfMembers]
    exact ascending.nodup.map (Option.some_injective _)

theorem distinct_outlineOfItems : (items : List Json) → OrderedItems items →
    Outline.DistinctItems (outlineOfItems items)
  | [], _ => trivial
  | item :: items, ⟨first, others⟩ => ⟨distinct_outline item first, distinct_outlineOfItems items others⟩

theorem distinct_outlineOfMembers : (members : List (String × Json)) → OrderedMembers members →
    Outline.DistinctMembers (outlineOfMembers members)
  | [], _ => trivial
  | (_, value) :: members, ⟨first, others⟩ =>
    ⟨distinct_outline value first, distinct_outlineOfMembers members others⟩

end

namespace Record

theorem Field.among_outlineOfMembers (fld : Field σ) (members : List (String × Json)) :
    fld.among (outlineOfMembers members) = outlineOfMembers (fld.own members) := by
  rw [outlineOfMembers_eq_map, outlineOfMembers_eq_map, among, own, List.filter_map]
  rfl

theorem legible_outlineOfMembers {fields : List (Field σ)} {members : List (String × Json)}
    (once : ∀ fld ∈ fields, (fld.own members).length ≤ 1) :
    Legible fields [] (outlineOfMembers members) := by
  refine ⟨?_, ?_, ?_, nofun⟩
  · intro member there
    rw [outlineOfMembers_eq_map] at there
    obtain ⟨_, -, rfl⟩ := List.mem_map.mp there
    rfl
  · intro member there _
    rw [outlineOfMembers_eq_map] at there
    obtain ⟨entry, -, rfl⟩ := List.mem_map.mp there
    exact entry.2.isWhole_outline
  · intro fld known
    rw [fld.among_outlineOfMembers, outlineOfMembers_eq_map, List.length_map]
    exact once fld known

end Record

mutual

/-- The members of every object in the order of their keys. -/
def tidy : Json → Json
  | .array items => .array (tidyItems items)
  | .object members => .object (Entries.ofList (tidyMembers members))
  | other => other

def tidyItems : List Json → List Json
  | [] => []
  | item :: items => item.tidy :: tidyItems items

def tidyMembers : List (String × Json) → List (String × Json)
  | [] => []
  | (key, value) :: members => (key, value.tidy) :: tidyMembers members

end

mutual

theorem content_outline_tidy : (j : Json) → {depth : Nat} → j.nesting ≤ depth →
    Decoder.content depth j.outline = .ok j.tidy
  | .null, depth, _ | .bool _, depth, _ | .number _, depth, _ | .string _, depth, _ => by
    cases depth <;> rfl
  | .array items, 0, shallow | .object items, 0, shallow => nomatch shallow
  | .array items, depth + 1, shallow => by
    have inside := mapM_outlineOfItems_tidy items (Nat.le_of_succ_le_succ shallow)
    rw [outline, Decoder.content, inside]
    rfl
  | .object members, depth + 1, shallow => by
    have inside := mapM_outlineOfMembers_tidy members (Nat.le_of_succ_le_succ shallow)
    rw [outline, Decoder.content, inside]
    rfl

theorem mapM_outlineOfItems_tidy : (items : List Json) → {depth : Nat} → nestingOfItems items ≤ depth →
    (outlineOfItems items).mapM (Decoder.content depth) = .ok (tidyItems items)
  | [], _, _ => rfl
  | item :: items, depth, shallow => by
    obtain ⟨low, lower⟩ := Nat.max_le.mp shallow
    rw [outlineOfItems, List.mapM_cons, content_outline_tidy item low, mapM_outlineOfItems_tidy items lower]
    rfl

theorem mapM_outlineOfMembers_tidy : (members : List (String × Json)) → {depth : Nat} →
    nestingOfMembers members ≤ depth →
    (outlineOfMembers members).mapM (Decoder.member (Decoder.content depth)) = .ok (tidyMembers members)
  | [], _, _ => rfl
  | (key, item) :: members, depth, shallow => by
    obtain ⟨low, lower⟩ := Nat.max_le.mp shallow
    rw [outlineOfMembers, List.mapM_cons, Decoder.member, content_outline_tidy item low,
      mapM_outlineOfMembers_tidy members lower]
    rfl

end

theorem tidy_of_ordered {j : Json} (ordered : j.Ordered) : j.tidy = j := by
  have read := Decoder.content_outline j (Nat.le_refl _) ordered
  exact Except.ok.inj ((content_outline_tidy j (Nat.le_refl _)).symm.trans read)

theorem tidyItems_eq_map (items : List Json) : tidyItems items = items.map tidy := by
  induction items with
  | nil => rfl
  | cons item items ih => rw [tidyItems, ih, List.map_cons]

theorem tidyMembers_eq_mapValues (members : List (String × Json)) :
    tidyMembers members = Entries.mapValues tidy members := by
  induction members with
  | nil => rfl
  | cons member members ih =>
    rw [tidyMembers, ih]
    rfl

theorem tidy_object (members : List (String × Json)) :
    (object members).tidy = .ofMembers (Entries.mapValues tidy members) := by
  rw [tidy, tidyMembers_eq_mapValues, ofMembers]

theorem keys_tidyMembers (members : List (String × Json)) :
    Entries.keys (tidyMembers members) = Entries.keys members := by
  induction members with
  | nil => rfl
  | cons member members ih => exact congrArg (member.1 :: ·) ih

mutual

theorem nesting_le_of_tidy : (j : Json) → {depth : Nat} → j.outline.Distinct → j.tidy.nesting ≤ depth →
    j.nesting ≤ depth
  | .null, _, _, shallow | .bool _, _, _, shallow | .number _, _, _, shallow | .string _, _, _, shallow =>
    shallow
  | .array items, depth, distinct, shallow => by
    obtain ⟨depth, rfl⟩ := Nat.exists_eq_succ_of_ne_zero (Nat.ne_zero_of_lt shallow)
    exact Nat.succ_le_succ (nestingOfItems_le_of_tidy items distinct (Nat.le_of_succ_le_succ shallow))
  | .object members, depth, ⟨once, distinct⟩, shallow => by
    obtain ⟨depth, rfl⟩ := Nat.exists_eq_succ_of_ne_zero (Nat.ne_zero_of_lt shallow)
    have nodup : (Entries.keys (tidyMembers members)).Nodup := by
      rw [keys_tidyMembers]
      rw [keys_outlineOfMembers] at once
      exact .of_map _ once
    have inside := nestingOfMembers_le_iff.mp (Nat.le_of_succ_le_succ shallow)
    apply Nat.succ_le_succ
    apply nestingOfMembers_le_of_tidy members distinct
    exact nestingOfMembers_le_iff.mpr fun member there =>
      inside member ((Entries.perm_ofList nodup).mem_iff.mpr there)

theorem nestingOfItems_le_of_tidy : (items : List Json) → {depth : Nat} →
    Outline.DistinctItems (outlineOfItems items) → nestingOfItems (tidyItems items) ≤ depth →
    nestingOfItems items ≤ depth
  | [], _, _, shallow => shallow
  | item :: items, depth, ⟨first, others⟩, shallow => by
    obtain ⟨low, lower⟩ := Nat.max_le.mp shallow
    exact Nat.max_le.mpr ⟨nesting_le_of_tidy item first low, nestingOfItems_le_of_tidy items others lower⟩

theorem nestingOfMembers_le_of_tidy : (members : List (String × Json)) → {depth : Nat} →
    Outline.DistinctMembers (outlineOfMembers members) → nestingOfMembers (tidyMembers members) ≤ depth →
    nestingOfMembers members ≤ depth
  | [], _, _, shallow => shallow
  | (_, value) :: members, depth, ⟨first, others⟩, shallow => by
    obtain ⟨low, lower⟩ := Nat.max_le.mp shallow
    exact Nat.max_le.mpr
      ⟨nesting_le_of_tidy value first low, nestingOfMembers_le_of_tidy members others lower⟩

end

theorem distinct_array {items : List Json} (inside : ∀ item ∈ items, item.outline.Distinct) :
    (array items).outline.Distinct := by
  apply Outline.distinctItems_iff.mpr
  rw [outlineOfItems_eq_map]
  exact List.forall_mem_map.mpr inside

theorem distinct_object {members : List (String × Json)} (nodup : (Entries.keys members).Nodup)
    (inside : ∀ member ∈ members, member.2.outline.Distinct) : (object members).outline.Distinct := by
  constructor
  · rw [keys_outlineOfMembers]
    exact nodup.map (Option.some_injective _)
  · apply Outline.distinctMembers_iff.mpr
    rw [outlineOfMembers_eq_map]
    exact List.forall_mem_map.mpr inside

/-- A text of the value: its tokens are those of the value with the members of its objects in some
order, none of them twice. Between the tokens blanks may stand, and strings may be escaped in any way. -/
def Rendering (j : Json) (text : Bytes) : Prop :=
  ∃ k : Json, k.outline.Distinct ∧ k.tidy = j ∧ Token.scan text = k.tokens

theorem Rendering.read {j : Json} {text : Bytes} (rendering : Rendering j text)
    (shallow : j.nesting ≤ maxDepth) :
    ∃ o, Outline.ofBytes text = (o, true) ∧ o.Distinct ∧ Decoder.content maxDepth o = .ok j := by
  obtain ⟨k, distinct, rfl, scanned⟩ := rendering
  exact ⟨k.outline, Outline.ofBytes_of_tokens scanned, distinct,
    content_outline_tidy k (nesting_le_of_tidy k distinct shallow)⟩

theorem rendering_text {k : Json} (distinct : k.outline.Distinct) :
    Rendering k.tidy (encode k.text) := by
  refine ⟨k, distinct, rfl, ?_⟩
  have scanned := k.scan_chars Literal.Stops.nil
  rwa [List.append_nil, Token.scan_nil, List.append_nil, ← encode_ofList] at scanned

theorem rendering_ofMembers {pairs : List (String × Json)} (nodup : (Entries.keys pairs).Nodup)
    (ordered : ∀ pair ∈ pairs, pair.2.Ordered) : Rendering (.ofMembers pairs) (encode (object pairs).text) := by
  have same : Entries.mapValues tidy pairs = pairs := by
    refine (List.map_congr_left fun pair there => ?_).trans (List.map_id _)
    exact Prod.ext rfl (tidy_of_ordered (ordered pair there))
  have distinct := distinct_object nodup fun pair there => distinct_outline pair.2 (ordered pair there)
  have rendering := rendering_text distinct
  rwa [tidy_object, same] at rendering

/-- A reader to which the order of members is nothing reads every text of a value as it reads the value. -/
theorem Rendering.read_eq_ok {α : Type} {d : Decoder α} (respects : d.Respects id id) {j : Json}
    (shallow : j.nesting ≤ maxDepth) (ordered : j.Ordered) {a : α} (own : d maxDepth j.outline = .ok a)
    {text : Bytes} (rendering : Rendering j text) : Json.read d text = .ok a := by
  obtain ⟨o, outlined, distinct, value⟩ := rendering.read shallow
  have written := Decoder.content_outline j shallow ordered
  exact read_eq_ok_iff.mpr ⟨o, outlined, respects ⟨⟨_, written, value⟩, distinct⟩ own⟩

def indent (depth : Nat) : List Char := '\n' :: List.replicate (2 * depth) ' '

theorem scan_indent (depth : Nat) (rest : Bytes) :
    Token.scan (ofChars (indent depth) ++ rest) = Token.scan rest := by
  have blanks : ∀ n, Token.scan (ofChars (List.replicate n ' ') ++ rest) = Token.scan rest := by
    intro n
    induction n with
    | zero => rfl
    | succ n ih => exact (Token.scan_blank (by decide) _).trans ih
  exact (Token.scan_blank (by decide) _).trans (blanks (2 * depth))

mutual

def spread (depth : Nat) : Json → List Char
  | .array items => '[' :: spreadItems depth items ++ [']']
  | .object members => '{' :: spreadMembers depth members ++ ['}']
  | other => other.chars

def spreadItems (depth : Nat) : List Json → List Char
  | [] => []
  | [item] => indent (depth + 1) ++ spread (depth + 1) item ++ indent depth
  | item :: items => indent (depth + 1) ++ spread (depth + 1) item ++ ',' :: spreadItems depth items

def spreadMembers (depth : Nat) : List (String × Json) → List Char
  | [] => []
  | [(key, value)] => indent (depth + 1) ++ quote key ++ ':' :: ' ' :: spread (depth + 1) value ++ indent depth
  | (key, value) :: members =>
    indent (depth + 1) ++ quote key ++ ':' :: ' ' :: spread (depth + 1) value ++
      ',' :: spreadMembers depth members

end

def pretty (j : Json) : String := String.ofList (spread 0 j)

section

variable (rest : Bytes)

theorem stops_indent (depth : Nat) : Literal.Stops (ofChars (indent depth) ++ rest) :=
  .cons (by decide) _

theorem scan_space : Token.scan (String.utf8EncodeChar ' ' ++ rest) = Token.scan rest :=
  Token.scan_blank (by decide) rest

end

mutual

theorem scan_spread : (j : Json) → (depth : Nat) → {rest : Bytes} → Literal.Stops rest →
    Token.scan (ofChars (spread depth j) ++ rest) = j.tokens ++ Token.scan rest
  | .null, _, _, stops | .bool _, _, _, stops | .number _, _, _, stops | .string _, _, _, stops =>
    scan_chars _ stops
  | .array items, depth, rest, _ => by
    have inside := scan_spreadItems items depth (String.utf8EncodeChar ']' ++ rest)
    rw [spread, tokens, ofChars_append, ofChars_cons, ofChars_cons, ofChars_nil, List.append_nil,
      List.append_assoc, List.append_assoc, scan_beginArray, inside, scan_endArray]
    simp only [List.cons_append, List.append_assoc, List.nil_append]
  | .object members, depth, rest, _ => by
    have inside := scan_spreadMembers members depth (String.utf8EncodeChar '\x7d' ++ rest)
    rw [spread, tokens, ofChars_append, ofChars_cons, ofChars_cons, ofChars_nil, List.append_nil,
      List.append_assoc, List.append_assoc, scan_beginObject, inside, scan_endObject]
    simp only [List.cons_append, List.append_assoc, List.nil_append]

theorem scan_spreadItems : (items : List Json) → (depth : Nat) → (rest : Bytes) →
    Token.scan (ofChars (spreadItems depth items) ++ rest) = tokensOfItems items ++ Token.scan rest
  | [], _, _ => rfl
  | [item], depth, rest => by
    have only := scan_spread item (depth + 1) (stops_indent rest depth)
    simp only [spreadItems, tokensOfItems, ofChars_append, List.append_assoc]
    rw [scan_indent, only, scan_indent]
  | item :: next :: items, depth, rest => by
    have first := scan_spread item (depth + 1)
      (stops_comma (ofChars (spreadItems depth (next :: items)) ++ rest))
    have more := scan_spreadItems (next :: items) depth rest
    simp only [spreadItems, tokensOfItems_cons, ofChars_append, ofChars_cons, List.append_assoc,
      List.cons_append]
    rw [scan_indent, first, scan_comma, more]

theorem scan_spreadMembers : (members : List (String × Json)) → (depth : Nat) → (rest : Bytes) →
    Token.scan (ofChars (spreadMembers depth members) ++ rest) = tokensOfMembers members ++ Token.scan rest
  | [], _, _ => rfl
  | [(key, value)], depth, rest => by
    have only := scan_spread value (depth + 1) (stops_indent rest depth)
    simp only [spreadMembers, tokensOfMembers, ofChars_append, ofChars_cons, List.append_assoc,
      List.cons_append]
    rw [scan_indent, Token.scan_string, scan_colon, scan_space, only, scan_indent]
  | (key, value) :: next :: members, depth, rest => by
    have first := scan_spread value (depth + 1)
      (stops_comma (ofChars (spreadMembers depth (next :: members)) ++ rest))
    have more := scan_spreadMembers (next :: members) depth rest
    simp only [spreadMembers, tokensOfMembers_cons, ofChars_append, ofChars_cons, List.append_assoc,
      List.cons_append]
    rw [scan_indent, Token.scan_string, scan_colon, scan_space, first, scan_comma, more]

end

theorem scan_pretty (j : Json) : Token.scan (encode j.pretty) = j.tokens := by
  have scanned := scan_spread j 0 Literal.Stops.nil
  rwa [List.append_nil, Token.scan_nil, List.append_nil, ← encode_ofList] at scanned

theorem rendering_pretty {k : Json} (distinct : k.outline.Distinct) :
    Rendering k.tidy (encode k.pretty) :=
  ⟨k, distinct, rfl, scan_pretty k⟩

end Attest.Json
