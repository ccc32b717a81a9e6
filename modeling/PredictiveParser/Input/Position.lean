import PredictiveParser.CharSet.Basic

/-!
# Positions in a text

A position stands between two characters of a text: it knows the characters before it and those
after it. So it can neither leave the text nor stand inside a character. Its index counts the bytes
before it in UTF-8, while lookahead and columns count characters.
-/
namespace PredictiveParser

structure Position where
  /-- The characters already passed. -/
  before : List Char
  /-- The characters still ahead. -/
  after : List Char
deriving DecidableEq

/-- The number of bytes that characters take up in UTF-8. -/
def byteCount : List Char → Nat
  | [] => 0
  | c :: rest => c.utf8Size + byteCount rest

/-- Splits off the characters that take up exactly `count` bytes, if there are such characters at
the start. -/
def splitBytes (count : Nat) : List Char → Option (List Char × List Char)
  | [] => if count = 0 then some ([], []) else none
  | c :: rest =>
    if count = 0 then some ([], c :: rest)
    else if count < c.utf8Size then none
    else (splitBytes (count - c.utf8Size) rest).map fun (taken, left) => (c :: taken, left)

namespace Position

def start (input : String) : Position where
  before := []
  after := input.toList

/-- The position with this index, unless it lies outside the text or inside a character. -/
def ofIndex? (input : String) (index : Nat) : Option Position :=
  (splitBytes index input.toList).map fun (before, after) => ⟨before, after⟩

def input (p : Position) : String :=
  String.ofList (p.before ++ p.after)

/-- The number of bytes before the position. -/
def index (p : Position) : Nat :=
  byteCount p.before

/-- The code point `offset` characters ahead, or `eof` past the end. -/
def peek (p : Position) (offset : Nat) : Int :=
  match p.after[offset]? with
  | some c => c.toNat
  | none => eof

def atEnd (p : Position) : Bool :=
  p.after.isEmpty

/-- The position behind the next character; the end of the text is not left. -/
def advance (p : Position) : Position :=
  match p.after with
  | [] => p
  | c :: rest => ⟨p.before ++ [c], rest⟩

def line (p : Position) : Nat :=
  p.before.count '\n' + 1

/-- The number of the next character in its line, counted from one. -/
def column (p : Position) : Nat :=
  (p.before.reverse.takeWhile (· != '\n')).length + 1

end Position

end PredictiveParser
