import PredictiveParser.Input.Error
import PredictiveParser.Input.Position

/-!
# Spans

A span is the text between two positions of the same text. Spans with the same text count as the
same, wherever they lie.
-/
namespace PredictiveParser

/-- The position with this index, or why there is none. -/
def Position.ofIndex (input : String) (index : Nat) : Except InputError Position :=
  match Position.ofIndex? input index with
  | some position => .ok position
  | none => .error (.invalidIndex input index)

structure Span where
  start : Nat
  stop : Nat
  text : String

namespace Span

def between (start stop : Position) : Except InputError Span :=
  if start.input ≠ stop.input then .error (.differentInputs start.input stop.input)
  else if stop.index < start.index then .error (.reversed start.index stop.index)
  else .ok ⟨start.index, stop.index, String.ofList (stop.before.drop start.before.length)⟩

def isEmpty (span : Span) : Bool :=
  span.start == span.stop

def sameText (first second : Span) : Bool :=
  first.text == second.text

end Span

end PredictiveParser
