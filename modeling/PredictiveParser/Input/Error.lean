import PredictiveParser.Input.Expected

/-!
# Errors of a running parser
-/
namespace PredictiveParser

/-- Why a parser gives up, or why a place in a text does not exist. -/
inductive InputError where
  /-- The input is none of the expected values. -/
  | unexpected (location : String) (found : Int) (expected : List (Int × Int))
  | checkFailed (location text : String)
  /-- No character of the text starts or ends at this index. -/
  | invalidIndex (input : String) (index : Nat)
  /-- The ends of a span lie in different texts. -/
  | differentInputs (first second : String)
  /-- A span ends before it starts. -/
  | reversed (start stop : Nat)
deriving DecidableEq

def InputError.message : InputError → String
  | .unexpected location found expected =>
    location ++ ": unexpected " ++ describeValue found ++ ", expected " ++ describeRanges expected
  | .checkFailed location text => location ++ ": check failed: " ++ text
  | .invalidIndex input index =>
    "start is not a valid position, start: " ++ toString index ++ ", len: " ++
      toString input.utf8ByteSize ++ ", input: " ++ input
  | .differentInputs first second =>
    "positions on different strings: '" ++ first ++ "', '" ++ second ++ "'"
  | .reversed start stop =>
    "start idx after end idx, start: " ++ toString start ++ ", end: " ++ toString stop

end PredictiveParser
