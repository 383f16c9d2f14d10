import Attest.Proofs.Entries
import Attest.Proofs.KeyMap.Written
import Attest.Proofs.Order
import Mathlib.Logic.Function.Basic

namespace Attest.KeyMap

inductive Call where
  | set (key : String) (value : Int)
  | update (key : String) (f : Int → Int)
  | delete (key : String)
  | clear
  | collect (pairs : List (String × Int))
  | reload
  | read (text : Bytes)

def Call.InRange : Call → Prop
  | .set _ value => IsInt64 value
  | .update _ f => ∀ n, IsInt64 n → IsInt64 (f n)
  | .collect pairs => ∀ pair ∈ pairs, IsInt64 pair.2
  | .delete _ | .clear | .reload | .read _ => True

def step (m : KeyMap Int) : Call → KeyMap Int
  | .set key value => m.insert key value
  | .update key f => m.modify key f
  | .delete key => m.erase key
  | .clear => .empty
  | .collect pairs => .ofList pairs
  | .reload => .ofList m.entries
  | .read text =>
    match Json.read (decoder .int64) text with
    | .ok read => read
    | .error _ => m

def run (calls : List Call) : KeyMap Int := calls.foldl step .empty

abbrev Table := String → Option Int

namespace Table

def step (t : Table) : Call → Table
  | .set key value => Function.update t key (some value)
  | .update key f => Function.update t key ((t key).map f)
  | .delete key => Function.update t key none
  | .clear => fun _ => none
  | .collect pairs => fun key => Entries.last? key pairs
  | .reload => t
  | .read text =>
    match Json.read (.pairs .int64) text with
    | .ok pairs => fun key => Entries.last? key pairs
    | .error _ => t

def run (calls : List Call) : Table := calls.foldl step fun _ => none

/-- The pairs of a table in the order in which they happen to be found. -/
structure Listing (t : Table) (pairs : List (String × Int)) : Prop where
  distinct : (Entries.keys pairs).Nodup
  mem_iff : ∀ key value, (key, value) ∈ pairs ↔ t key = some value

theorem Listing.perm {t : Table} {pairs others : List (String × Int)} (listing : t.Listing pairs)
    (other : t.Listing others) : pairs.Perm others := by
  apply (List.perm_ext_iff_of_nodup (.of_map _ listing.distinct) (.of_map _ other.distinct)).mpr
  rintro ⟨key, value⟩
  rw [listing.mem_iff, other.mem_iff]

end Table

section

variable {α : Type} (m : KeyMap α) (key : String)

theorem get?_insert (value : α) : (m.insert key value).get? = Function.update m.get? key (some value) := by
  funext other
  by_cases same : other = key
  · rw [same, Function.update_self]
    exact Entries.get?_insert_self key value m.entries
  · rw [Function.update_of_ne same]
    exact Entries.get?_insert_of_ne same value m.entries

theorem get?_modify (f : α → α) :
    (m.modify key f).get? = Function.update m.get? key ((m.get? key).map f) := by
  rw [modify]
  split
  · rename_i value found
    rw [get?_insert, found, Option.map_some]
  · rename_i absent
    rw [absent, Option.map_none, ← absent, Function.update_eq_self]

theorem get?_erase : (m.erase key).get? = Function.update m.get? key none := by
  funext other
  by_cases same : other = key
  · rw [same, Function.update_self]
    exact Entries.get?_erase_self key m.entries
  · rw [Function.update_of_ne same]
    exact Entries.get?_erase_of_ne same m.entries

theorem get?_ofList (pairs : List (String × α)) :
    (ofList pairs).get? = fun key => Entries.last? key pairs := by
  funext key
  exact Entries.get?_ofList key pairs

end

section

variable {m : KeyMap Int} (ascending : Entries.Ascending m.entries)

include ascending

theorem ascending_step (call : Call) : Entries.Ascending (m.step call).entries := by
  cases call with
  | set key value => exact ascending.insert
  | update key f =>
    rw [step, modify]
    split
    · exact ascending.insert
    · exact ascending
  | delete key => exact ascending.erase key
  | clear => exact .nil
  | collect pairs => exact Entries.ascending_ofList pairs
  | reload => exact Entries.ascending_ofList m.entries
  | read text =>
    rw [step, read_decoder]
    cases Json.read (.pairs .int64) text with
    | error fault => exact ascending
    | ok pairs => exact Entries.ascending_ofList pairs

theorem get?_step (call : Call) : (m.step call).get? = Table.step m.get? call := by
  cases call with
  | set key value => exact m.get?_insert key value
  | update key f => exact m.get?_modify key f
  | delete key => exact m.get?_erase key
  | clear => rfl
  | collect pairs => exact get?_ofList pairs
  | reload =>
    rw [step, ofList, Entries.ofList_of_ascending ascending]
    rfl
  | read text =>
    rw [step, read_decoder, Table.step]
    cases Json.read (.pairs .int64) text with
    | error fault => rfl
    | ok pairs => exact get?_ofList pairs

end

theorem isInt64_of_pairs {text : Bytes} {pairs : List (String × Int)}
    (read : Json.read (.pairs .int64) text = .ok pairs) : ∀ pair ∈ pairs, IsInt64 pair.2 := by
  intro pair member
  obtain ⟨o, -, decoded⟩ := Json.read_eq_ok_iff.mp read
  cases o with
  | object members =>
    obtain ⟨m, -, made⟩ := exists_of_mem_mapM decoded member
    exact Json.Decoder.isInt64_of_int64 (Json.Decoder.member_eq_ok_iff.mp made).2
  | _ => cases decoded

structure Sound (m : KeyMap Int) : Prop where
  ascending : Entries.Ascending m.entries
  inRange : ∀ entry ∈ m.entries, IsInt64 entry.2

theorem Sound.empty : Sound .empty := ⟨.nil, fun _ none => nomatch none⟩

theorem inRange_insert {m : KeyMap Int} (held : ∀ entry ∈ m.entries, IsInt64 entry.2) (key : String)
    {value : Int} (fits : IsInt64 value) : ∀ entry ∈ (m.insert key value).entries, IsInt64 entry.2 := by
  intro entry member
  rcases Entries.mem_of_mem_insert member with rfl | there
  · exact fits
  · exact held entry there

theorem inRange_ofList {pairs : List (String × Int)} (fit : ∀ pair ∈ pairs, IsInt64 pair.2) :
    ∀ entry ∈ (ofList pairs).entries, IsInt64 entry.2 :=
  fun entry member => fit entry (Entries.mem_of_mem_ofList member)

theorem inRange_step {m : KeyMap Int} (sound : Sound m) {call : Call} (inRange : call.InRange) :
    ∀ entry ∈ (m.step call).entries, IsInt64 entry.2 := by
  cases call with
  | set key value => exact inRange_insert sound.inRange key inRange
  | update key f =>
    rw [step, modify]
    split
    · rename_i value found
      have there := (Entries.get?_eq_some_iff sound.ascending).mp found
      exact inRange_insert sound.inRange key (inRange value (sound.inRange _ there))
    · exact sound.inRange
  | delete key =>
    intro entry member
    exact sound.inRange entry (Entries.mem_of_mem_erase member)
  | clear => exact Sound.empty.inRange
  | collect pairs => exact inRange_ofList inRange
  | reload => exact inRange_ofList sound.inRange
  | read text =>
    rw [step, read_decoder]
    cases read : Json.read (.pairs .int64) text with
    | error fault => exact sound.inRange
    | ok pairs => exact inRange_ofList (isInt64_of_pairs read)

theorem Sound.step {m : KeyMap Int} (sound : Sound m) {call : Call} (inRange : call.InRange) :
    Sound (m.step call) :=
  ⟨ascending_step sound.ascending call, inRange_step sound inRange⟩

theorem ascending_run (calls : List Call) : Entries.Ascending (run calls).entries :=
  List.foldlRecOn (motive := fun m : KeyMap Int => Entries.Ascending m.entries) calls step .nil
    fun _ ascending call _ => ascending_step ascending call

theorem get?_run (calls : List Call) : (run calls).get? = Table.run calls := by
  have all (m : KeyMap Int) (ascending : Entries.Ascending m.entries) :
      (calls.foldl step m).get? = calls.foldl Table.step m.get? := by
    induction calls generalizing m with
    | nil => rfl
    | cons call calls ih =>
      rw [List.foldl_cons, List.foldl_cons, ih _ (ascending_step ascending call), get?_step ascending]
  exact all .empty .nil

theorem sound_run {calls : List Call} (inRange : ∀ call ∈ calls, call.InRange) : Sound (run calls) :=
  List.foldlRecOn (motive := Sound) calls step .empty
    fun _ sound call member => sound.step (inRange call member)

/-- What a map with the pairs of this table answers, and what is seen of it. -/
structure Views (t : Table) (m : KeyMap Int) : Prop where
  ascending : m.keys.Pairwise (· < ·)
  listing : t.Listing m.entries
  keys : m.keys = m.entries.map Prod.fst
  values : m.values = m.entries.map Prod.snd
  get : m.get? = t
  contains_iff : ∀ key, m.contains key = true ↔ key ∈ m.keys
  size : m.size = m.keys.length
  isEmpty_iff : m.isEmpty = true ↔ m.keys = []
  sorted : ∀ pairs, t.Listing pairs → pairs.length = m.size ∧
    sortTexts (Entries.keys pairs) = m.keys ∧
    (Comparator.onText Prod.fst).sort pairs = m.entries ∧
    Entries.ofList pairs = m.entries
  written : Json.read (.pairs .int64) (Utf8.encode (m.toJson Json.ofInt).text) = .ok m.entries
  reread : Json.read (decoder .int64) (Utf8.encode (m.toJson Json.ofInt).text) = .ok m
  shown : ∀ n : KeyMap Int, n.describe toString = m.describe toString → n = m

theorem listing_entries {m : KeyMap Int} (ascending : Entries.Ascending m.entries) :
    Table.Listing m.get? m.entries :=
  ⟨ascending.nodup, fun _ _ => (Entries.get?_eq_some_iff ascending).symm⟩

theorem sorted_of_listing {m : KeyMap Int} (ascending : Entries.Ascending m.entries)
    {pairs : List (String × Int)} (listing : Table.Listing m.get? pairs) :
    pairs.length = m.size ∧ sortTexts (Entries.keys pairs) = m.keys ∧
      (Comparator.onText Prod.fst).sort pairs = m.entries ∧ Entries.ofList pairs = m.entries := by
  have moved : pairs.Perm m.entries := listing.perm (listing_entries ascending)
  refine ⟨moved.length_eq, ?_, sort_onText_eq moved ascending, ?_⟩
  · apply sort_onText_eq (moved.map Prod.fst)
    rw [List.map_id]
    exact ascending
  · rw [Entries.ofList_eq_of_perm listing.distinct moved, Entries.ofList_of_ascending ascending]

theorem Sound.views {m : KeyMap Int} (sound : Sound m) : Views m.get? m := by
  obtain ⟨ascending, inRange⟩ := sound
  have written : Json.read (.pairs .int64) (Utf8.encode (m.toJson Json.ofInt).text) = .ok m.entries :=
    m.pairs_text fun entry member => Json.Decoder.int64_outline_ofInt (inRange entry member)
  constructor
  case ascending => exact ascending
  case listing => exact listing_entries ascending
  case keys | values | get => rfl
  case contains_iff =>
    intro key
    exact Option.isSome_iff_exists.trans Entries.mem_keys_iff.symm
  case size => exact (List.length_map _).symm
  case isEmpty_iff => exact List.isEmpty_iff.trans List.map_eq_nil_iff.symm
  case sorted => exact fun pairs listing => sorted_of_listing ascending listing
  case written => exact written
  case reread =>
    rw [read_decoder, written]
    show Except.ok (KeyMap.ofList m.entries) = _
    rw [KeyMap.ofList, Entries.ofList_of_ascending ascending]
  case shown => exact fun n same => describe_injective same

/-- After any calls a map is seen as its table says, in the order of the keys. The calls count for nothing
else: after others the map is the same exactly if the table is. -/
theorem seen_by_table {calls : List Call} (inRange : ∀ call ∈ calls, call.InRange) :
    Views (Table.run calls) (run calls) ∧
    ∀ others, run others = run calls ↔ ∀ key, Table.run others key = Table.run calls key := by
  constructor
  · rw [← get?_run]
    exact (sound_run inRange).views
  · intro others
    rw [← get?_run, ← get?_run]
    constructor
    · intro same key
      rw [same]
    · exact ext_get? (ascending_run others) (ascending_run calls)

/-- A key that comes twice and outside of ASCII, a text that is cut off, and a change that wraps around. -/
theorem seen_by_table_rewritten :
    let calls : List Call := [.set "b" 1, .clear,
      .read (Utf8.encode "\x7b\"\u00e9\": 2, \"a\": 9223372036854775807, \"\u00e9\": -4\x7d"),
      .read (Utf8.encode "\x7b\"a\": 0"), .update "a" fun n => (n + 1).bmod (2 ^ 64), .set "Z" 3, .delete "Z",
      .reload]
    let others : List Call := [.collect [("\u00e9", -4), ("a", -9223372036854775808)]]
    Views (Table.run calls) (run calls) ∧ (run calls).keys = ["a", "\u00e9"] ∧
      ∀ key, Table.run others key = Table.run calls key := by
  intro calls others
  have wrapped (n : Int) : IsInt64 ((n + 1).bmod (2 ^ 64)) := by
    have low := Int.le_bmod (x := n + 1) (m := 2 ^ 64) (by decide)
    have high := Int.bmod_lt (x := n + 1) (m := 2 ^ 64) (by decide)
    constructor <;> omega
  have inRange : ∀ call ∈ calls, call.InRange := by
    simp only [calls, List.forall_mem_cons, Call.InRange, true_and]
    refine ⟨by decide, fun n _ => wrapped n, by decide, fun _ none => nomatch none⟩
  rcases seen_by_table inRange with ⟨views, same⟩
  have moved : run others = run calls := by decide +kernel
  exact ⟨views, by decide +kernel, (same others).mp moved⟩

end Attest.KeyMap
