import Attest.Canonical.Native

namespace Attest

/-- The double nearest to a literal, or the infinite one past the largest. -/
def Literal.toDouble (l : Literal) : Double :=
  l.toDouble?.getD (if l.negative then ⟨0xFFF0000000000000⟩ else ⟨0x7FF0000000000000⟩)

namespace Json

/-- What a serializer writes for one byte of a text: bytes past ASCII are written as they are. -/
def escapeByte (b : UInt8) : Bytes :=
  if b = 0x22 ∨ b = 0x5C then [0x5C, b]
  else if b = 0x08 then [0x5C, 0x62]
  else if b = 0x09 then [0x5C, 0x74]
  else if b = 0x0A then [0x5C, 0x6E]
  else if b = 0x0C then [0x5C, 0x66]
  else if b = 0x0D then [0x5C, 0x72]
  else if b < 0x20 then
    [0x5C, 0x75, 0x30, 0x30, .ofNat (Hex.digit (b.toNat / 16)).toNat, .ofNat (Hex.digit (b.toNat % 16)).toNat]
  else [b]

def serializedString (s : String) : Bytes := 0x22 :: (Utf8.encode s).flatMap escapeByte ++ [0x22]

end Json

namespace Canonical

mutual

/-- The value as plain JSON. -/
def rebuilt : Canonical → Json
  | .null => .null
  | .bool b => .bool b
  | .number l =>
    match Literal.ofText? l.text with
    | some l => .number l
    | none => .null
  | .string s => .string s
  | .array items => .array (rebuiltItems items)
  | .object members => .ofMembers (rebuiltMembers members)

def rebuiltItems : List Canonical → List Json
  | [] => []
  | item :: items => rebuilt item :: rebuiltItems items

def rebuiltMembers : List (String × Canonical) → List (String × Json)
  | [] => []
  | (key, value) :: members => (key, rebuilt value) :: rebuiltMembers members

end

def separator (first : Bool) : Bytes := if first then [] else [0x2C]

section

variable (double : Double → Bytes)

mutual

/-- The bytes that a serializer writes which writes a double as `double` says. -/
def serialized : Canonical → Bytes
  | .null => [0x6E, 0x75, 0x6C, 0x6C]
  | .bool true => [0x74, 0x72, 0x75, 0x65]
  | .bool false => [0x66, 0x61, 0x6C, 0x73, 0x65]
  | .number l =>
    match Literal.ofText? l.text with
    | some l => Utf8.encode l.text
    | none => double l.toDouble
  | .string s => Json.serializedString s
  | .array items => 0x5B :: serializedItems true items ++ [0x5D]
  | .object members => 0x7B :: serializedMembers true members ++ [0x7D]

def serializedItems (first : Bool) : List Canonical → Bytes
  | [] => []
  | item :: items => separator first ++ serialized item ++ serializedItems false items

def serializedMembers (first : Bool) : List (String × Canonical) → Bytes
  | [] => []
  | (key, value) :: members =>
    separator first ++ Json.serializedString key ++ 0x3A :: serialized value ++
      serializedMembers false members

end

end

end Canonical
end Attest
