import PredictiveParser.CharSet.Basic
import PredictiveParser.Text.Quoted
import PredictiveParser.Text.WhiteSpace

/-!
# Expected input

A parser tests its input against lists of inclusive ranges, and says in messages what it found and
what it expected.
-/
namespace PredictiveParser

/-- Whether some range of the list holds a value. -/
def inSet (ranges : List (Int × Int)) (value : Int) : Bool :=
  ranges.any fun range => range.1 ≤ value && value ≤ range.2

/-- The character with this code point, if there is one. -/
def charOf? (value : Int) : Option Char :=
  if 0 ≤ value ∧ value.toNat.isValidChar then some (Char.ofNat value.toNat) else none

/-- A value of 32 bits in hexadecimal; a negative one as its two's complement. -/
def hexWord (value : Int) : String :=
  "0x" ++ Text.hex (value % 0x100000000).toNat

def describeValue (value : Int) : String :=
  if value = eof then "end of input"
  else
    match charOf? value with
    | some c => if Text.isControl c then hexWord value else Text.quotedChar c
    | none => hexWord value

def describeRanges (ranges : List (Int × Int)) : String :=
  "|".intercalate <| ranges.map fun (lo, hi) =>
    if lo = hi then describeValue lo else describeValue lo ++ ".." ++ describeValue hi

end PredictiveParser
