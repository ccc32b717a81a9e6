import PredictiveParser.CharSet.Display
import PredictiveParser.Code.Template

/-!
# Sets of code points in generated code

A set occurs in generated code in three ways: as a test of a lookahead value, as the pattern of a
multi-way branch, and as a list of ranges that is passed to the runtime. A test is first built as a
`SetTest`, whose meaning is `SetTest.holds`, and then written down.
-/
namespace PredictiveParser

open Template

/-- A code point as it stands in a comparison: a printable ASCII character as a character, any
other as a number. -/
def charCode (c : Int) : Tokens :=
  match printableAscii? c with
  | some ch => literal (Text.quotedChar ch) ++ words ["as", "i32"]
  | none => intLiteral c

/-! ## Tests -/

/-- The comparison that tests one range. -/
inductive Comparison where
  | equal (c : Int)
  | atMost (c : Int)
  | atLeast (c : Int)
  | between (lo hi : Int)
deriving DecidableEq

namespace Comparison

/-- The shortest comparison for a range of a canonical set. -/
def ofRange (range : Int × Int) : Comparison :=
  if range.1 = range.2 then .equal range.1
  else if range.1 = eof then .atMost range.2
  else if range.2 = maxChar then .atLeast range.1
  else .between range.1 range.2

def holds (c : Int) : Comparison → Bool
  | .equal d => c == d
  | .atMost d => c ≤ d
  | .atLeast d => d ≤ c
  | .between lo hi => lo ≤ c && c ≤ hi

def code (la : Tokens) : Comparison → Tokens
  | .equal c => la ++ op "==" ++ charCode c
  | .atMost c => la ++ op "<=" ++ charCode c
  | .atLeast c => la ++ op ">=" ++ charCode c
  | .between lo hi =>
    la ++ op ">=" ++ charCode lo ++ op "&&" ++ la ++ op "<=" ++ charCode hi

end Comparison

/-- A test whether a lookahead value is in a set. -/
inductive SetTest where
  | never
  | always
  | anyOf (comparisons : List Comparison)
  | noneOf (comparisons : List Comparison)
deriving DecidableEq

namespace SetTest

def holds (c : Int) : SetTest → Bool
  | .never => false
  | .always => true
  | .anyOf comparisons => comparisons.any (·.holds c)
  | .noneOf comparisons => !comparisons.any (·.holds c)

def code (la : Tokens) : SetTest → Tokens
  | .never => word "false"
  | .always => word "true"
  | .anyOf comparisons => (op "||").intercalate (comparisons.map (·.code la))
  | .noneOf comparisons => op "!" ++ parens ((op "||").intercalate (comparisons.map (·.code la)))

end SetTest

namespace CharSet

/-- The test for the set, or for its complement when that takes fewer comparisons. -/
def test (s : CharSet) : SetTest :=
  if s.isEmpty then .never
  else if s.isEverything then .always
  else if s.complement.testCost < s.testCost then
    .noneOf (s.complement.ranges.map Comparison.ofRange)
  else .anyOf (s.ranges.map Comparison.ofRange)

def testCode (s : CharSet) (la : Tokens) : Tokens :=
  s.test.code la

/-! ## Patterns and range lists -/

def rangePattern (range : Int × Int) : Tokens :=
  if range.1 = range.2 then intLiteral range.1
  else intLiteral range.1 ++ op "..=" ++ intLiteral range.2

/-- The pattern of a multi-way branch that accepts the set. -/
def pattern (s : CharSet) : Tokens :=
  (op "|").intercalate (s.ranges.map rangePattern)

def rangeList (s : CharSet) : Tokens :=
  op "&" ++ brackets ((op ",").intercalate
    (s.ranges.map fun range => parens (charCode range.1 ++ op "," ++ charCode range.2)))

end CharSet

/-- A set in the arguments of a call: its ranges, or the table that holds them. -/
structure SetRef where
  set : CharSet
  /-- The number of the table. -/
  table : Option Nat
deriving DecidableEq

def tableName (index : Nat) : String :=
  "SET" ++ toString index

def SetRef.code (ref : SetRef) : Tokens :=
  match ref.table with
  | some index => path ["Self", tableName index]
  | none => ref.set.rangeList

end PredictiveParser
