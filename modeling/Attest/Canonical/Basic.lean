import Attest.Json.Printer
import Attest.Json.Decoder
import Attest.Number.Decimal

namespace Attest

inductive Canonical where
  | null
  | bool (b : Bool)
  | number (literal : Literal)
  | string (s : String)
  | array (items : List Canonical)
  | object (members : List (String × Canonical))
deriving Repr

namespace Canonical

mutual

def decEq : (a b : Canonical) → Decidable (a = b)
  | .null, .null => isTrue rfl
  | .bool a, .bool b => if h : a = b then isTrue (h ▸ rfl) else isFalse fun e => h (by injection e)
  | .number a, .number b => if h : a = b then isTrue (h ▸ rfl) else isFalse fun e => h (by injection e)
  | .string a, .string b => if h : a = b then isTrue (h ▸ rfl) else isFalse fun e => h (by injection e)
  | .array a, .array b =>
    match decEqItems a b with
    | isTrue h => isTrue (h ▸ rfl)
    | isFalse h => isFalse fun e => h (by injection e)
  | .object a, .object b =>
    match decEqMembers a b with
    | isTrue h => isTrue (h ▸ rfl)
    | isFalse h => isFalse fun e => h (by injection e)
  | .null, .bool _ | .null, .number _ | .null, .string _ | .null, .array _ | .null, .object _
  | .bool _, .null | .bool _, .number _ | .bool _, .string _ | .bool _, .array _ | .bool _, .object _
  | .number _, .null | .number _, .bool _ | .number _, .string _ | .number _, .array _
  | .number _, .object _
  | .string _, .null | .string _, .bool _ | .string _, .number _ | .string _, .array _
  | .string _, .object _
  | .array _, .null | .array _, .bool _ | .array _, .number _ | .array _, .string _
  | .array _, .object _
  | .object _, .null | .object _, .bool _ | .object _, .number _ | .object _, .string _
  | .object _, .array _ => isFalse nofun

def decEqItems : (a b : List Canonical) → Decidable (a = b)
  | [], [] => isTrue rfl
  | [], _ :: _ | _ :: _, [] => isFalse nofun
  | x :: xs, y :: ys =>
    match decEq x y, decEqItems xs ys with
    | isTrue h, isTrue t => isTrue (h ▸ t ▸ rfl)
    | isFalse h, _ => isFalse fun e => h (by injection e)
    | _, isFalse t => isFalse fun e => t (by injection e)

def decEqMembers : (a b : List (String × Canonical)) → Decidable (a = b)
  | [], [] => isTrue rfl
  | [], _ :: _ | _ :: _, [] => isFalse nofun
  | (k, x) :: xs, (l, y) :: ys =>
    if hk : k = l then
      match decEq x y, decEqMembers xs ys with
      | isTrue h, isTrue t => isTrue (hk ▸ h ▸ t ▸ rfl)
      | isFalse h, _ => isFalse fun e => h (by injection e with e; injection e)
      | _, isFalse t => isFalse fun e => t (by injection e)
    else isFalse fun e => hk (by injection e with e; injection e)

end

instance : DecidableEq Canonical := decEq

/-- Up to this number every integer is a double, and no other integer rounds to it. -/
def maxSafeInteger : Nat := Nat.pow 2 53 - 1

/-- A literal in plain digits is a number as long as a double can hold it safely, and text beyond. -/
def settle (l : Literal) : Canonical :=
  if l.isInteger ∧ maxSafeInteger < l.whole then .string l.text else .number l

/-- An integer literal keeps its digits. Every other literal stands for the double nearest to it,
which is written with the fewest digits; one too large for a double becomes null. -/
def ofLiteral (l : Literal) : Canonical :=
  if l.isInteger then settle { l with negative := l.negative && l.whole != 0 }
  else match l.round binary64 with
    | some x => settle (.ofMagnitude binary64 .upward l.negative x)
    | none => .null

def ofInt (n : Int) : Canonical := settle (.ofInt n)

mutual

def ofJson : Json → Canonical
  | .null => .null
  | .bool b => .bool b
  | .number l => ofLiteral l
  | .string s => .string s
  | .array items => .array (ofItems items)
  | .object members => .object (Entries.ofList (ofMembers members))

def ofItems : List Json → List Canonical
  | [] => []
  | item :: items => ofJson item :: ofItems items

def ofMembers : List (String × Json) → List (String × Canonical)
  | [] => []
  | (key, value) :: members => (key, ofJson value) :: ofMembers members

end

mutual

def toJson : Canonical → Json
  | .null => .null
  | .bool b => .bool b
  | .number l => .number l
  | .string s => .string s
  | .array items => .array (toItems items)
  | .object members => .object (toMembers members)

def toItems : List Canonical → List Json
  | [] => []
  | item :: items => item.toJson :: toItems items

def toMembers : List (String × Canonical) → List (String × Json)
  | [] => []
  | (key, value) :: members => (key, value.toJson) :: toMembers members

end

mutual

def chars : Canonical → List Char
  | .null => ['n', 'u', 'l', 'l']
  | .bool true => ['t', 'r', 'u', 'e']
  | .bool false => ['f', 'a', 'l', 's', 'e']
  | .number l => l.chars
  | .string s => Json.quote s
  | .array items => '[' :: charsOfItems items ++ [']']
  | .object members => '{' :: charsOfMembers members ++ ['}']

def charsOfItems : List Canonical → List Char
  | [] => []
  | [item] => item.chars
  | item :: items => item.chars ++ ',' :: charsOfItems items

def charsOfMembers : List (String × Canonical) → List Char
  | [] => []
  | [(key, value)] => Json.quote key ++ ':' :: value.chars
  | (key, value) :: members => Json.quote key ++ ':' :: value.chars ++ ',' :: charsOfMembers members

end

def text (c : Canonical) : String := String.ofList c.chars

def bytes (c : Canonical) : Bytes := Utf8.encode c.text

def decoder : Json.Decoder Canonical := fun depth o => ofJson <$> Json.Decoder.value depth o

def typeName : Canonical → String
  | .null => "null"
  | .bool _ => "boolean"
  | .number _ => "number"
  | .string _ => "string"
  | .array _ => "array"
  | .object _ => "object"

def get? (key : String) : Canonical → Option Canonical
  | .object members => Entries.get? key members
  | _ => none

def asString? : Canonical → Option String
  | .string s => some s
  | _ => none

end Canonical

namespace Json

def canonicalText (j : Json) : String := (Canonical.ofJson j).text

def canonicalBytes (j : Json) : Bytes := Utf8.encode j.canonicalText

def equivalent (a b : Json) : Bool := a.canonicalText == b.canonicalText

end Json
end Attest
