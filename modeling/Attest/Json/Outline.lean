import Attest.Json.Token

namespace Attest.Json

/-- Strings and keys without a text are closed properly but denote none. -/
inductive Outline where
  | null
  | bool (b : Bool)
  | number (literal : Literal)
  | string (text : Option String)
  | array (items : List Outline)
  | object (members : List (Option String × Outline))
  | broken
deriving Repr

namespace Outline

mutual

/-- The value that `tokens` begin with, and the tokens behind it unless the text breaks off. -/
def value : (steps : Nat) → (tokens : List Token) → Outline × Option (List Token)
  | 0, _ => (.broken, none)
  | _ + 1, .null :: rest => (.null, some rest)
  | _ + 1, .bool b :: rest => (.bool b, some rest)
  | _ + 1, .number l :: rest => (.number l, some rest)
  | _ + 1, .string s :: rest => (.string s, some rest)
  | _ + 1, .beginArray :: .endArray :: rest => (.array [], some rest)
  | steps + 1, .beginArray :: rest => let (items, rest) := items steps rest; (.array items, rest)
  | _ + 1, .beginObject :: .endObject :: rest => (.object [], some rest)
  | steps + 1, .beginObject :: rest =>
    let (members, rest) := members steps rest; (.object members, rest)
  | _ + 1, _ => (.broken, none)

/-- The items up to the end of an array, of which at least one is to come. -/
def items : (steps : Nat) → (tokens : List Token) → List Outline × Option (List Token)
  | 0, _ => ([.broken], none)
  | steps + 1, tokens =>
    match value steps tokens with
    | (item, some (.comma :: rest)) =>
      let (more, rest) := items steps rest; (item :: more, rest)
    | (item, some (.endArray :: rest)) => ([item], some rest)
    | (item, some _) => ([item, .broken], none)
    | (item, none) => ([item], none)

/-- The members up to the end of an object, of which at least one is to come. -/
def members : (steps : Nat) → (tokens : List Token) →
    List (Option String × Outline) × Option (List Token)
  | steps + 1, .string key :: .colon :: rest =>
    match value steps rest with
    | (item, some (.comma :: rest)) =>
      let (more, rest) := members steps rest; ((key, item) :: more, rest)
    | (item, some (.endObject :: rest)) => ([(key, item)], some rest)
    | (item, some _) => ([(key, item), (none, .broken)], none)
    | (item, none) => ([(key, item)], none)
  | _ + 1, .string key :: _ => ([(key, .broken)], none)
  | _, _ => ([(none, .broken)], none)

end

mutual

def isWhole : Outline → Bool
  | .broken => false
  | .array items => allWhole items
  | .object members => allWholeMembers members
  | _ => true

def allWhole : List Outline → Bool
  | [] => true
  | item :: items => item.isWhole && allWhole items

def allWholeMembers : List (Option String × Outline) → Bool
  | [] => true
  | (_, item) :: members => item.isWhole && allWholeMembers members

end

/-- The outline of a text, and whether nothing but blanks follows its value. Each token takes at
most two steps. -/
def ofBytes (bytes : Bytes) : Outline × Bool :=
  let tokens := Token.scan bytes
  let (outline, rest) := value (2 * tokens.length + 1) tokens
  (outline, rest == some [])

end Outline
end Attest.Json
