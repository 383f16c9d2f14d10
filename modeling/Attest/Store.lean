import Attest.KeyMap.Json
import Attest.Merkle.Tree

namespace Attest

structure Store where
  contents : KeyMap Bytes
deriving DecidableEq, Repr

namespace Store

def address (data : Bytes) : String := (Digest.hash data).hex

def empty : Store := ⟨.empty⟩

def get? (s : Store) (address : String) : Option Bytes := s.contents.get? address

def contains (s : Store) (address : String) : Bool := s.contents.contains address

def put (s : Store) (data : Bytes) : Store :=
  if s.contains (address data) then s else ⟨s.contents.insert (address data) data⟩

def putAll (s : Store) (items : List Bytes) : Except Merkle.Error (Digest × Store) := do
  let tree ← Merkle.Tree.ofContents items
  return (tree.root, items.foldl put s)

def size (s : Store) : Nat := s.contents.size

def isEmpty (s : Store) : Bool := s.contents.isEmpty

def addresses (s : Store) : List String := s.contents.keys

end Store
end Attest
