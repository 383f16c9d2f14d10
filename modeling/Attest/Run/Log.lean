import Attest.Run.Rules

namespace Attest

def isBlank (c : Char) : Bool :=
  let n := c.toNat
  (0x09 ≤ n && n ≤ 0x0D) || n == 0x20 || n == 0x85 || n == 0xA0 || n == 0x1680 ||
    (0x2000 ≤ n && n ≤ 0x200A) || n == 0x2028 || n == 0x2029 || n == 0x202F || n == 0x205F ||
    n == 0x3000

def trimBlank (s : List Char) : List Char :=
  ((s.dropWhile isBlank).reverse.dropWhile isBlank).reverse

/-- The parts of a text between its line feeds; a text without one is a single line. -/
def linesOf : List Char → List (List Char)
  | [] => [[]]
  | c :: rest =>
    if c = '\n' then [] :: linesOf rest
    else match linesOf rest with
      | [] => [[c]]
      | line :: lines => (c :: line) :: lines

namespace Run

def readLine (number : Nat) (line : List Char) : Except Error Event :=
  (Json.read Event.decoder (Utf8.encode (String.ofList line))).mapError (.unreadableLine number)

def readLines (number : Nat) : List (List Char) → Except Error (List Event)
  | [] => .ok []
  | line :: lines =>
    let line := trimBlank line
    if line.isEmpty then readLines (number + 1) lines
    else do
      let e ← readLine number line
      let log ← readLines (number + 1) lines
      return e :: log

def readText (text : String) : Except Error (List Event) := readLines 1 (linesOf text.toList)

def readLog (bytes : Bytes) : Except Error (List Event) :=
  match Utf8.decode bytes with
  | .ok text => readText text
  | .error fault => .error (.notText fault)

end Run
end Attest
