import Attest.Hash.Sha256
import Attest.Text.Hex
import Attest.Canonical.Basic

namespace Attest

structure Digest where
  bytes : Bytes
  length_bytes : bytes.length = 32
deriving DecidableEq, Repr

namespace Digest

inductive Fault where
  | hex (fault : Hex.Fault)
  | length (text : String)
  | algorithm (name : String)
  | untagged (text : String)
deriving DecidableEq, Repr

def Fault.message : Fault → String
  | .hex fault => "invalid hash: " ++ fault.message
  | .length text => "invalid hash: expected 32 bytes: " ++ text
  | .algorithm name => "invalid hash: unsupported algorithm: " ++ name
  | .untagged text => "invalid hash: missing algorithm tag: " ++ text

def ofBytes? (bytes : Bytes) : Option Digest :=
  if h : bytes.length = 32 then some ⟨bytes, h⟩ else none

def hash (data : Bytes) : Digest := ⟨Sha256.hash data, Sha256.length_hash data⟩

def hashText (s : String) : Digest := hash (Utf8.encode s)

def pair (left right : Digest) : Digest := hash (left.bytes ++ right.bytes)

def algorithm : String := "sha256"

def hex (d : Digest) : String := Hex.encode d.bytes

def ofHex (s : String) : Except Fault Digest :=
  match Hex.decode s with
  | .error fault => .error (.hex fault)
  | .ok bytes =>
    match ofBytes? bytes with
    | some d => .ok d
    | none => .error (.length s)

def tagged (d : Digest) : String := algorithm ++ ":" ++ d.hex

def ofTagged (s : String) : Except Fault Digest :=
  let name := s.toList.takeWhile (· ≠ ':')
  match s.toList.dropWhile (· ≠ ':') with
  | [] => .error (.untagged s)
  | _ :: rest =>
    if String.ofList name = algorithm then ofHex (String.ofList rest)
    else .error (.algorithm (String.ofList name))

def short (d : Digest) : String := "SHA256(" ++ String.ofList (d.hex.toList.take 8) ++ "...)"

def toJson (d : Digest) : Json := .string d.hex

def decoder : Json.Decoder Digest := fun depth o => do
  let s ← Json.Decoder.string depth o
  match ofHex s with
  | .ok d => return d
  | .error fault => throw (.refused fault.message)

def combine (ds : List Digest) : Digest := hashText (":".intercalate (ds.map hex))

def sort (ds : List Digest) : List Digest := ds.mergeSort fun a b => decide (a.bytes ≤ b.bytes)

end Digest

def Canonical.digest (c : Canonical) : Digest := .hash c.bytes

def Json.digest (j : Json) : Digest := .hash j.canonicalBytes

end Attest
