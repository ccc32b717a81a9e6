import PredictiveParser.Grammar.Prediction
import PredictiveParser.Text.Identifier

/-!
# What can go wrong

A `GrammarError` is a structural problem of a grammar, a `GenerationError` one that stops the
generation of a rule or of the whole grammar. Each has one wording, given by its `message`.

A `Fault` is a breach of what callers promise: a name that is no identifier, the place of a node or
branch that does not exist, a literal that has no value, or parameters that cannot be kept. It is
kept apart from the errors, because it says nothing about the grammar at hand.
-/
namespace PredictiveParser

/-- A breach of what callers promise. -/
inductive Fault where
  | invalidName (name : String)
  | noSuchNode (node : NodeId)
  | noSuchBranch (index : Nat)
  /-- The nodes below this one do not form a finite tree. -/
  | endless (node : NodeId)
  /-- A value was asked of a literal that is of no known kind. -/
  | unknownLiteral (spelling : String)
  /-- Behind `mut self` in the type of a function stand two parameters with nothing between them:
  the commas there are not kept. -/
  | crowdedParameters
deriving DecidableEq

/-- A name that may stand in code. -/
def checkedName (name : String) : Except Fault String :=
  if Text.isIdentifier name then .ok name else .error (.invalidName name)

/-- A structural problem of a grammar. -/
inductive GrammarError where
  | duplicateRule (name : String)
  | unknownRule (rule referenced : String)
  | emptyAlternatives (rule : String) (node : NodeId)
  /-- The same node is reachable from two places. -/
  | sharedNode (rule : String) (node : NodeId)
  | defaultArmOutOfRange (rule : String) (node : NodeId) (arm : Nat)
  | invalidType (reason : String)
deriving DecidableEq

def GrammarError.message : GrammarError → String
  | .duplicateRule name => "rule '" ++ name ++ "' is defined twice"
  | .unknownRule rule referenced =>
    "rule '" ++ rule ++ "' references unknown rule '" ++ referenced ++ "'"
  | .emptyAlternatives rule node =>
    "alternative set " ++ nodeText node ++ " in rule '" ++ rule ++ "' has no arms"
  | .sharedNode rule node =>
    "node " ++ nodeText node ++ " in rule '" ++ rule ++ "' is reachable from more than one parent"
  | .defaultArmOutOfRange rule node arm =>
    "default arm " ++ toString arm ++ " of " ++ nodeText node ++ " in rule '" ++ rule ++
      "' does not exist"
  | .invalidType reason => "invalid type: " ++ reason

/-- A problem that stops the generation of a rule, or of the whole grammar. -/
inductive GenerationError where
  | grammar (cause : GrammarError)
  | emptyAlternatives (rule : String) (node : NodeId)
  /-- A prediction tree leads to a choice that its alternative set does not have. -/
  | armOutOfRange (rule : String) (node : NodeId) (alt : Alt)
  | missingPrediction (rule : String) (node : NodeId)
  /-- Rule calls nest too deeply before a terminal, a sign of left recursion. -/
  | recursionLimit (rule : String) (limit : Nat)
  | unknownRule (rule referenced : String)
  | missingRecognizer (rule : String)
  | invalidOption (reason : String)
deriving DecidableEq

def GenerationError.message : GenerationError → String
  | .grammar cause => "Invalid grammar: " ++ cause.message
  | .emptyAlternatives rule node =>
    "Alternative set " ++ nodeText node ++ " in rule '" ++ rule ++ "' has no arms"
  | .armOutOfRange rule node alt =>
    "Prediction for " ++ nodeText node ++ " in rule '" ++ rule ++ "' leads to invalid branch '" ++
      alt.text ++ "'"
  | .missingPrediction rule node =>
    "Alternative set " ++ nodeText node ++ " in rule '" ++ rule ++ "' was never analyzed"
  | .recursionLimit rule limit =>
    "Rule '" ++ rule ++ "' nests more than " ++ toString limit ++
      " rule calls without consuming input (left recursion?)"
  | .unknownRule rule referenced =>
    "Rule '" ++ rule ++ "' references unknown rule '" ++ referenced ++ "'"
  | .missingRecognizer rule => "Rule '" ++ rule ++ "' has no recognizer form"
  | .invalidOption reason => "Invalid option: " ++ reason

/-- An error, or a fault of the caller. -/
inductive Failure (ε : Type) where
  | error (cause : ε)
  | fault (cause : Fault)
deriving DecidableEq

def Failure.map {ε δ : Type} (f : ε → δ) : Failure ε → Failure δ
  | .error cause => .error (f cause)
  | .fault cause => .fault cause

instance {ε : Type} : MonadLift (Except Fault) (Except (Failure ε)) where
  monadLift := fun result => result.mapError Failure.fault

end PredictiveParser
