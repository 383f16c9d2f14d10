import Attest.Number.Double
import Attest.Text.Utf8

namespace Attest

structure Random where
  state : UInt32
deriving DecidableEq, Repr

namespace Random

/-- FNV-1a over the UTF-16 units of the seed. -/
def hashSeed (seed : String) : UInt32 :=
  (Utf16.units seed).foldl (fun hash unit => (hash ^^^ unit.toUInt32) * 0x01000193) 0x811c9dc5

def ofSeed (seed : String) : Random := ⟨hashSeed seed⟩

def increment : UInt32 := 0x6D2B79F5

/-- What a draw makes of the state it has moved to (Mulberry32). -/
def scramble (state : UInt32) : UInt32 :=
  let t := (state ^^^ state >>> 15) * (state ||| 1)
  let t := t ^^^ (t + (t ^^^ t >>> 7) * (t ||| 61))
  t ^^^ t >>> 14

def next (r : Random) : UInt32 × Random :=
  let state := r.state + increment
  (scramble state, ⟨state⟩)

/-- The draw `u` as a double between zero and one: `u / 2 ^ 32`, which is exact. -/
def unit (u : UInt32) : Double := .ofMagnitude false ((binary64.round u.toNat (Nat.pow 2 32)).getD binary64.zero)

/-- The draw `u` as an index below `m`: the double nearest to `u * m / 2 ^ 32`, rounded down. -/
def below (u : UInt32) (m : Nat) : Nat :=
  ((binary64.round (u.toNat * m) (Nat.pow 2 32)).getD binary64.zero).floor

def nextUnit (r : Random) : Double × Random := let (u, r) := r.next; (unit u, r)

def nextBelow (m : Nat) (r : Random) : Nat × Random := let (u, r) := r.next; (below u m, r)

def pick (items : List α) (r : Random) : Option α × Random :=
  let (u, r) := r.next
  (items[min (below u items.length) (items.length - 1)]?, r)

/-- Swaps each item from the `i`-th down to the second with one that is not behind it. -/
def shuffleFrom (draw : Random → UInt32 × Random) : (i : Nat) → Array α → Random → Array α × Random
  | 0, items, r => (items, r)
  | i + 1, items, r =>
    let (u, r) := draw r
    shuffleFrom draw i (items.swapIfInBounds (i + 1) (min (below u (i + 2)) (i + 1))) r

def shuffle (items : List α) (r : Random) : List α × Random :=
  let (items, r) := shuffleFrom next (items.length - 1) items.toArray r
  (items.toList, r)

def take (draw : Random → β × Random) : (n : Nat) → Random → List β × Random
  | 0, r => ([], r)
  | n + 1, r =>
    let (b, r) := draw r
    let (bs, r) := take draw n r
    (b :: bs, r)

end Random
end Attest
