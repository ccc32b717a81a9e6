import PredictiveParser.Input.Source

/-!
# Cursors on the bytes of a text

A text lies in memory as its bytes in UTF-8, and a cursor on it is a text and a number of bytes. Nothing
keeps this number within the text or out of the middle of a character. To read the text is to cut it at
such a number, and that gives nothing where no character starts or ends (`slice?`). So each operation that
reads the text may give `none`.
-/
namespace PredictiveParser

/-- Whether a character of the text starts or ends at this index, told by the byte there. -/
def isBoundary (text : String) (index : Nat) : Bool :=
  String.Pos.Raw.isValid text ⟨index⟩

/-- The text between two indices, which must not cut a character. -/
def slice? (text : String) (start stop : Nat) : Option String :=
  if start ≤ stop ∧ isBoundary text start ∧ isBoundary text stop then
    String.fromUTF8? (text.toByteArray.extract start stop)
  else none

/-- The index of the last such character, if that of the first character is `index`. -/
def lastIndexOf? (wanted : Char) (index : Nat) : List Char → Option Nat
  | [] => none
  | c :: rest =>
    (lastIndexOf? wanted (index + c.utf8Size) rest).or (if c = wanted then some index else none)

structure Cursor where
  input : String
  /-- The number of bytes in front of the cursor. -/
  index : Nat
deriving DecidableEq

namespace Cursor

def new (input : String) (start : Nat) : Except InputError Cursor :=
  if start ≤ input.utf8ByteSize && isBoundary input start then .ok ⟨input, start⟩
  else .error (.invalidIndex input start)

def rest? (c : Cursor) : Option String :=
  slice? c.input c.index c.input.utf8ByteSize

/-- The code point `offset` characters ahead, or `eof` past the end. -/
def peek? (c : Cursor) (offset : Nat) : Option Int :=
  c.rest?.map fun rest => ((rest.toList[offset]?).map fun char => (char.toNat : Int)).getD eof

/-- Moves behind the next character, and says whether there was one. -/
def advance? (c : Cursor) : Option (Bool × Cursor) :=
  c.rest?.map fun rest =>
    match rest.toList with
    | [] => (false, c)
    | char :: _ => (true, { c with index := c.index + char.utf8Size })

def atEnd (c : Cursor) : Bool :=
  c.input.utf8ByteSize ≤ c.index

/-- Line and column, both counted from one. -/
def lineCol? (c : Cursor) : Option (Nat × Nat) := do
  let before ← slice? c.input 0 c.index
  let line := before.toList.count '\n' + 1
  match lastIndexOf? '\n' 0 before.toList with
  | some newline =>
    let current ← slice? before (newline + 1) before.utf8ByteSize
    return (line, current.toList.length + 1)
  | none => return (line, before.toList.length + 1)

def location? (c : Cursor) : Option String :=
  c.lineCol?.map fun (line, column) => toString line ++ ":" ++ toString column

/-- Goes to an index; one that cuts a character or lies outside the text is ignored. -/
def restore (c : Cursor) (index : Nat) : Cursor :=
  match new c.input index with
  | .ok place => place
  | .error _ => c

/-! ## Matching -/

def skip? (c : Cursor) : Option (Int × Cursor) := do
  let value ← c.peek? 0
  let (_, next) ← c.advance?
  return (value, next)

def matchSet? (c : Cursor) (ranges : List (Int × Int)) :
    Option (Except InputError Int × Cursor) := do
  let value ← c.peek? 0
  if inSet ranges value then
    let (_, next) ← c.advance?
    return (.ok value, next)
  else
    let location ← c.location?
    return (.error (.unexpected location value ranges), c)

def tryMatchSet? (c : Cursor) (ranges : List (Int × Int)) : Option (Bool × Cursor) := do
  let value ← c.peek? 0
  if inSet ranges value then
    let (_, next) ← c.advance?
    return (true, next)
  else
    return (false, c)

/-- Runs a recognizer and goes back to where it started. -/
def tryRecognize? {α : Type} (c : Cursor) (run : Cursor → Option (α × Cursor)) :
    Option (α × Cursor) := do
  let (answer, after) ← run c
  return (answer, after.restore c.index)

/-! ## Spans -/

def between? (start stop : Cursor) : Option (Except InputError Span) :=
  if start.input ≠ stop.input then some (.error (.differentInputs start.input stop.input))
  else if stop.index < start.index then some (.error (.reversed start.index stop.index))
  else (slice? start.input start.index stop.index).map fun text => .ok ⟨start.index, stop.index, text⟩

/-- The text in front of the cursor from an earlier index on. -/
def textSince? (c : Cursor) (start : Nat) : Option (Except InputError Span) :=
  match new c.input start with
  | .ok place => between? place c
  | .error cause => some (.error cause)

end Cursor

end PredictiveParser
