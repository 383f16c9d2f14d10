import Attest.Manifest.Basic

namespace Attest
namespace Signature

open Manifest (Error)

def key : String := "signatureHash"

def keys : List String := [key, "signature_hash"]

/-- The document without its signature: all else in it is signed, whether a manifest has a place for it or not. -/
def basis : Json → Json
  | .object members => .object (keys.foldl (fun members key => Entries.erase key members) members)
  | other => other

def compute (document : Json) : Digest := (basis document).digest

/-- The first signature that is a text. -/
def claimed? (document : Json) : Option String :=
  keys.findSome? fun key => (document.get? key).bind Json.asString?

/-- A hash may be claimed in digits of either case. -/
def check (claimed : String) (actual : Digest) : Except Error Unit :=
  if claimed.toList.map Char.toLower = actual.hex.toList then .ok ()
  else .error (.signatureMismatch claimed actual.hex)

def verify (document : Json) : Except Error Unit :=
  match claimed? document with
  | some claimed => check claimed (compute document)
  | none => .error .unsigned

def sealed (document : Json) : Except Error Json :=
  match basis document with
  | .object members => .ok (.object (Entries.insert key (compute document).toJson members))
  | _ => .error .notAnObject

def read (bytes : Bytes) : Except Error Json :=
  (Json.read Json.Decoder.value bytes).mapError .unreadable

def computeBytes (bytes : Bytes) : Except Error Digest := compute <$> read bytes

def verifyBytes (bytes : Bytes) : Except Error Unit := do verify (← read bytes)

def sealedBytes (bytes : Bytes) : Except Error Bytes := do
  return (← sealed (← read bytes)).canonicalBytes

end Signature

namespace Manifest

def signatureHash (m : Manifest) : Digest := Signature.compute m.toJson

def sealed (m : Manifest) : Manifest := { m with signature := some m.signatureHash.hex }

def verifySignature (m : Manifest) : Except Error Unit :=
  match m.signature with
  | some claimed => Signature.check claimed m.signatureHash
  | none => .error .unsigned

end Manifest
end Attest
