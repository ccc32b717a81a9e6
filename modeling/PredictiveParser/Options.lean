import PredictiveParser.Code.Template
import PredictiveParser.Error

/-!
# Settings

The settings that apply to a whole grammar, their defaults, and the check that they make sense.
-/
namespace PredictiveParser

structure Options where
  /-- How many terminals a prediction may look at. Rules may have their own number. -/
  k : Nat
  /-- The type of variables that hold a matched terminal. -/
  terminalType : Option Tokens
  /-- The container for labels that collect every match. -/
  listType : Tokens
  /-- How deeply rule calls may nest before a terminal. -/
  recursionLimit : Nat
  /-- The number of branches from which a decision is written as one multi-way branch. -/
  switchThreshold : Nat

namespace Options

def default : Options where
  k := 2
  terminalType := some (Template.word "i32")
  listType := Template.word "Vec"
  recursionLimit := 32
  switchThreshold := 4

instance : Inhabited Options := ⟨default⟩

/-- Refuses settings with which nothing could be predicted or called. -/
def check (options : Options) : Except GenerationError Unit :=
  if options.k = 0 then throw (.invalidOption "'k' must be at least 1")
  else if options.recursionLimit = 0 then
    throw (.invalidOption "'recursion_limit' must be at least 1")
  else return ()

end Options

end PredictiveParser
