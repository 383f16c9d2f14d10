import Attest.Merkle.Tree

namespace Attest.Reference

structure CanonicalVector where
  name : String
  input : String
  text : String
  hash : String
deriving DecidableEq, Repr

structure MerkleVector where
  name : String
  leaves : List String
  root : String
deriving DecidableEq, Repr

def canonicalVectors : List CanonicalVector := [
  ⟨"sorted keys", "\x7b\"b\": 2, \"a\": 1\x7d", "\x7b\"a\":1,\"b\":2\x7d",
    "43258cff783fe7036d8a43033f830adfc60ec037382473548ac742b888292777"⟩,
  ⟨"nested objects", "\x7b\"c\": \x7b\"z\": 26, \"a\": 1\x7d, \"b\": 2, \"a\": 1\x7d",
    "\x7b\"a\":1,\"b\":2,\"c\":\x7b\"a\":1,\"z\":26\x7d\x7d",
    "24e4db09ae0e40a93e391725f9290725f3a8ffd15d33ed0bb39c394319087492"⟩,
  ⟨"empty object", "\x7b \x7d", "\x7b\x7d",
    "44136fa355b3678a1146ad16f7e8649e94fb4fc21fe77e8310c060f61caaff8a"⟩,
  ⟨"mixed array", "\x7b\"items\": [1, \"two\", true, null, \x7b\"nested\": \"value\"\x7d]\x7d",
    "\x7b\"items\":[1,\"two\",true,null,\x7b\"nested\":\"value\"\x7d]\x7d",
    "7f76a9a8e0bec70c5d327b1ee560378ec256372034993f7cb7b676c77992f5cc"⟩,
  ⟨"unsafe integer", "\x7b\"big\": 9007199254740993\x7d", "\x7b\"big\":\"9007199254740993\"\x7d",
    "9128067e9c2cd647f64a40f68aee10dffc20924eb6f3691c589346fb1ffc0985"⟩,
  ⟨"float formatting", "[1.0, 0.5, 1e21, -0.0, 1e-7]", "[1,0.5,1e+21,0,1e-7]",
    "6fc314b6ca353c5020fda51234e457d91918e1f3a35549a3a66eaa8fbfbe06bb"⟩,
  ⟨"string escapes", "\x7b\"s\": \"a\\\"b\\\\c\\n\\u0001\"\x7d",
    "\x7b\"s\":\"a\\\"b\\\\c\\n\\u0001\"\x7d",
    "bbe54c9c73120828ff25c5eb31b59be40031eea10574421aadf601bb1ec76cf2"⟩]

def merkleVectors : List MerkleVector := [
  ⟨"single leaf", ["only"], "f905b19542ed08c9a9c26543cca32e5711d207dcffb81b4cdb44ce0b989431c9"⟩,
  ⟨"odd leaf count", ["a", "b", "c"],
    "d31a37ef6ac14a2db1470c4316beb5592e6afd4465022339adafda76a18ffabe"⟩,
  ⟨"balanced", ["a", "b", "c", "d"],
    "14ede5e8e97ad9372327728f5099b95604a39593cac3bd38a343ad76205213e7"⟩]

def evaluateText (input : String) : String × String :=
  match Json.read Json.Decoder.value (Utf8.encode input) with
  | .ok j => (j.canonicalText, j.digest.hex)
  | .error fault => ("<parse error: " ++ fault.message ++ ">", "")

def evaluateLeaves (leaves : List String) : String :=
  match Merkle.Tree.ofContents (leaves.map Utf8.encode) with
  | .ok t => t.root.hex
  | .error _ => ""

structure Outcome where
  name : String
  holds : Bool
  hash : String
deriving DecidableEq, Repr

def CanonicalVector.outcome (v : CanonicalVector) : Outcome :=
  let (text, hash) := evaluateText v.input
  ⟨v.name, text = v.text ∧ hash = v.hash, hash⟩

def MerkleVector.outcome (v : MerkleVector) : Outcome :=
  let root := evaluateLeaves v.leaves
  ⟨v.name, root = v.root, root⟩

def outcomes : List Outcome :=
  canonicalVectors.map CanonicalVector.outcome ++ merkleVectors.map MerkleVector.outcome

end Attest.Reference
