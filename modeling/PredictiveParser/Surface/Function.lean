import PredictiveParser.Surface.Generics
import PredictiveParser.Surface.Pattern
import PredictiveParser.Surface.Type

/-!
# Functions

The head of a function: what stands in front of its keyword, its name and generic parameters, its
parameters, its result and its where clause. A method has the object that it belongs to as its
first parameter, with or without a type.
-/
namespace PredictiveParser.Surface

open Template

/-! ## Parameters -/

/-- The object that a method belongs to. -/
def receiver : Reader Tokens := do
  let reference ← if ← peekOp "&" then do
      let sign ← readOp "&"
      pure (sign ++ (← if ← peek startsLifetime then readLifetime else pure []))
    else pure []
  let mutability ← optionalWord "mut"
  return reference ++ mutability ++ (← readWord "self")

/-- The object that a method belongs to, if it comes next and has no type. -/
def receiver? : Reader (Option Tokens) := do
  match ← lookahead receiver with
  | .ok (_, rest) => if startsOp ":" rest then return none else return some (← receiver)
  | .error _ => return none

/-- A parameter with a type. A generic type may stand without a pattern in front. -/
def typedParameter (nested : Nested) : Reader Tokens := do
  let tokens ← ahead
  if startsName tokens && startsOp "<" tokens.tail then
    return word "_" ++ op ":" ++ (← nested.typeTokens)
  else
    let pattern ← alternatives nested
    let colon ← readOp ":"
    return pattern ++ colon ++ (← parameterType nested)

structure FunctionParameters where
  tokens : Tokens
  isEmpty : Bool
  /-- The first one is the object that the method belongs to. -/
  hasReceiver : Bool

def FunctionParameters.push (list : FunctionParameters) (parameter : Tokens) :
    FunctionParameters :=
  { list with tokens := list.tokens ++ parameter, isEmpty := false }

/-- Reads the next parameter of a function, and gives whether there may be more. -/
def FunctionParameters.next (list : FunctionParameters) (nested : Nested) :
    Reader (FunctionParameters × Bool) := do
  if (← ahead).isEmpty then return (list, false)
  let attributes ← attributeCode
  let list ← if ← peekOp "..." then pure (list.push (attributes ++ (← readOp "...")))
    else
      match ← receiver? with
      | some self =>
        if list.hasReceiver then fail (.invalid "unexpected second method receiver")
        else if !list.isEmpty then fail (.invalid "unexpected method receiver")
        else pure { list.push (attributes ++ self) with hasReceiver := true }
      | none => pure (list.push (attributes ++ (← typedParameter nested)))
  if (← ahead).isEmpty then return (list, false)
  let comma ← readOp ","
  return ({ list with tokens := list.tokens ++ comma }, true)

/-! ## Heads -/

/-- What may stand in front of the keyword of a function. -/
def functionQualifiers : Reader Tokens := do
  let constness ← optionalWord "const"
  let asyncness ← optionalWord "async"
  let safety ← optionalWord "unsafe"
  return constness ++ asyncness ++ safety ++ (← linkage)

/-- Whether a function is declared here. A literal without a value in front of its keyword is a
fault. -/
def peekFunction : Reader Bool := do
  match ← lookahead functionQualifiers with
  | .ok (_, rest) => return startsWord "fn" rest
  | .error (.fault cause) => failWith (.fault cause)
  | .error (.error _) => return false

def functionHead (nested : Nested) : Reader Tokens := do
  let qualifiers ← functionQualifiers
  let keyword ← readWord "fn"
  let name ← readName
  let generics ← genericParameters nested
  let parameters ← readGroup .parenthesis do
    let count := (← ahead).length
    repeatOn (fun (list : FunctionParameters) => list.next nested) (count + 1) ⟨[], true, false⟩
  let (_, result) ← resultType nested true
  let clause ← whereClause nested
  return qualifiers ++ keyword ++ word name ++ parameterCode generics ++
    parens parameters.tokens ++ result ++ clause

end PredictiveParser.Surface
