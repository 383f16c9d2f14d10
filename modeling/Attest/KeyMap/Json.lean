import Attest.Json.Decoder
import Attest.Json.Printer
import Attest.Text.Quote

namespace Attest

structure KeyMap (α : Type) where
  entries : List (String × α)
deriving DecidableEq, Repr

namespace KeyMap

def empty : KeyMap α := ⟨[]⟩

def ofList (pairs : List (String × α)) : KeyMap α := ⟨Entries.ofList pairs⟩

def get? (m : KeyMap α) (key : String) : Option α := Entries.get? key m.entries

def contains (m : KeyMap α) (key : String) : Bool := (m.get? key).isSome

def insert (m : KeyMap α) (key : String) (value : α) : KeyMap α :=
  ⟨Entries.insert key value m.entries⟩

def erase (m : KeyMap α) (key : String) : KeyMap α := ⟨Entries.erase key m.entries⟩

def modify (m : KeyMap α) (key : String) (f : α → α) : KeyMap α :=
  match m.get? key with
  | some v => m.insert key (f v)
  | none => m

def size (m : KeyMap α) : Nat := m.entries.length

def isEmpty (m : KeyMap α) : Bool := m.entries.isEmpty

def keys (m : KeyMap α) : List String := Entries.keys m.entries

def values (m : KeyMap α) : List α := m.entries.map Prod.snd

def toJson (encode : α → Json) (m : KeyMap α) : Json :=
  .object (m.entries.map fun (key, value) => (key, encode value))

def decoder (value : Json.Decoder α) : Json.Decoder (KeyMap α) := fun depth o =>
  KeyMap.mk <$> Json.Decoder.entries value depth o

def describe (value : α → String) (m : KeyMap α) : String :=
  "\x7b" ++ ", ".intercalate (m.entries.map fun (key, v) => Quote.text key ++ ": " ++ value v) ++ "\x7d"

end KeyMap
end Attest
