import PredictiveParser.Input.Span

/-!
# Sources of input

What generated parsers read from. A `Source` can look ahead, move forward, and go back to a place
it has been at; matching, skipping and trial runs are defined on top of that. There are two sources:
the characters of a text, whose places are lines and columns, and a list of values, whose places are
their numbers.
-/
namespace PredictiveParser

class Source (σ : Type) where
  /-- The value so many places ahead, or `eof`. -/
  lookahead : σ → Nat → Int
  /-- Consumes one value. -/
  advance : σ → σ
  /-- The current place, for `restore`. -/
  index : σ → Nat
  /-- Goes back to a place. -/
  restore : σ → Nat → σ
  /-- The current place in messages. -/
  location : σ → String

namespace Source

variable {σ : Type} [Source σ]

def skip (s : σ) : Int × σ :=
  (lookahead s 0, advance s)

def unexpected (s : σ) (expected : List (Int × Int)) : InputError :=
  .unexpected (location s) (lookahead s 0) expected

def checkFailed (s : σ) (text : String) : InputError :=
  .checkFailed (location s) text

/-- Consumes one value of `ranges`, or fails and consumes nothing. -/
def matchSet (s : σ) (ranges : List (Int × Int)) : Except InputError Int × σ :=
  if inSet ranges (lookahead s 0) then (.ok (lookahead s 0), advance s)
  else (.error (unexpected s ranges), s)

/-- Consumes one value of `ranges` if it comes next, and says whether it did. -/
def tryMatchSet (s : σ) (ranges : List (Int × Int)) : Bool × σ :=
  if inSet ranges (lookahead s 0) then (true, advance s) else (false, s)

/-- Runs a recognizer and goes back to where it started. -/
def tryRecognize {α : Type} (s : σ) (run : σ → α × σ) : α × σ :=
  let (answer, after) := run s
  (answer, restore after (index s))

end Source

/-! ## Text -/

/-- A text that is read one character at a time. -/
structure TextSource where
  position : Position

namespace TextSource

def ofString (input : String) : TextSource where
  position := .start input

/-- Goes to a place in the text; a place that does not exist is ignored. -/
def restore (s : TextSource) (index : Nat) : TextSource :=
  match Position.ofIndex? s.position.input index with
  | some position => ⟨position⟩
  | none => s

instance : Source TextSource where
  lookahead s offset := s.position.peek offset
  advance s := ⟨s.position.advance⟩
  index s := s.position.index
  restore := restore
  location s := toString s.position.line ++ ":" ++ toString s.position.column

def input (s : TextSource) : String :=
  s.position.input

def atEnd (s : TextSource) : Bool :=
  s.position.atEnd

/-- The text consumed since an earlier place. -/
def textSince (s : TextSource) (start : Nat) : Except InputError Span := do
  Span.between (← Position.ofIndex s.input start) s.position

end TextSource

/-! ## Values -/

/-- A list of values that is read one at a time. -/
structure ItemSource where
  items : List Int
  /-- How many values were consumed. -/
  position : Nat

namespace ItemSource

def ofItems (items : List Int) : ItemSource where
  items
  position := 0

instance : Source ItemSource where
  lookahead s offset := s.items.getD (s.position + offset) eof
  advance s := { s with position := s.position + 1 }
  index s := s.position
  restore s index := { s with position := index }
  location s := "index " ++ toString s.position

end ItemSource

end PredictiveParser
