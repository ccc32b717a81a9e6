import PredictiveParser.CharSet.Basic
import PredictiveParser.Text.Quoted

/-!
# Sets of code points in grammar notation

A set is shown as its ranges with bars between them, the universe as an underscore and the empty
set as a pair of parentheses. A printable ASCII character stands between quotes, every other code
point is a decimal number.
-/
namespace PredictiveParser

/-- The printable ASCII character with this code point, if it is one. -/
def printableAscii? (c : Int) : Option Char :=
  if 0x20 ≤ c ∧ c < 0x7f then some (Char.ofNat c.toNat) else none

namespace CharSet

def endText (c : Int) : String :=
  if c = eof then "EOF"
  else match printableAscii? c with
    | some ch => Text.quotedChar ch
    | none => toString c

def rangeText (range : Int × Int) : String :=
  if range.1 = range.2 then endText range.1
  else endText range.1 ++ ".." ++ endText range.2

def text (s : CharSet) : String :=
  if s.isEverything then "_"
  else if s.isEmpty then "()"
  else "|".intercalate (s.ranges.map rangeText)

/-- The set in grammar notation, marked as a set. -/
def debugText (s : CharSet) : String :=
  "CharSet(" ++ s.text ++ ")"

end CharSet

end PredictiveParser
