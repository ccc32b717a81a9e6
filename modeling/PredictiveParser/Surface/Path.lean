import PredictiveParser.Surface.Nested

/-!
# Paths

A path is a list of names, each of which may have arguments: types, lifetimes, constants and
conditions between angle brackets, or the types of a function in parentheses. In a type, angle
brackets may follow a name directly; in an expression they need a `::` in front.
-/
namespace PredictiveParser.Surface

open Template

inductive Arguments where
  | none
  /-- Between angle brackets, and whether there is nothing between them. -/
  | angle (tokens : Tokens) (isEmpty : Bool)
  /-- In parentheses, with the result of a function behind them. -/
  | parenthesized (tokens : Tokens)

def Arguments.code : Arguments → Tokens
  | .none => []
  | .angle tokens _ => tokens
  | .parenthesized tokens => tokens

/-- Whether arguments in parentheses may still follow. -/
def Arguments.isEmpty : Arguments → Bool
  | .none => true
  | .angle _ isEmpty => isEmpty
  | .parenthesized _ => false

def Arguments.isNone : Arguments → Bool
  | .none => true
  | _ => false

structure Segment where
  name : String
  arguments : Arguments

def Segment.code (segment : Segment) : Tokens :=
  word segment.name ++ segment.arguments.code

/-- A path, possibly behind the type it belongs to. -/
structure Path where
  /-- What stands in front of the first name: nothing, `::` or `<T as Trait>::`. -/
  root : Tokens
  /-- The path belongs to a type. -/
  isQualified : Bool
  /-- The names before the last one. -/
  initial : List Segment
  last : Segment

namespace Path

def code (path : Path) : Tokens :=
  path.root ++ (op "::").intercalate ((path.initial ++ [path.last]).map Segment.code)

def push (path : Path) (segment : Segment) : Path :=
  { path with initial := path.initial ++ [path.last], last := segment }

def hasArguments (path : Path) : Bool :=
  (path.initial ++ [path.last]).any (!·.arguments.isNone)

/-- Whether the path is a single name with arguments between angle brackets. -/
def isApplied (path : Path) : Bool :=
  path.root.isEmpty && path.initial.isEmpty &&
    match path.last.arguments with
    | .angle .. => true
    | _ => false

end Path

/-! ## Arguments -/

/-- The bounds of a condition `Name: bounds` between angle brackets. -/
def conditionBounds (nested : Nested) : Reader Tokens := do
  let items ← readWhile "+" (fun tokens => startsOp "," tokens || startsOp ">" tokens) nested.bound
  return joinItems "+" items

/-- The value behind `Name =` between angle brackets. A constant is kept as it was written. -/
def bindingValue (nested : Nested) : Reader Tokens := do
  if ← peekLiteral then asWritten readLiteral
  else if ← peek (startsGroup .brace) then asWritten (nested.block true)
  else nested.typeTokens

/-- A type between angle brackets. One with arguments of its own may be given a value or a
condition; it is kept as it was written then. -/
def typeArgument (nested : Nested) : Reader Tokens := do
  let start ← ahead
  let type ← nested.type true
  match type.form with
  | .path true =>
    if ← peekOp "=" then
      let _ ← readOp "="
      let _ ← nested.type true
      writtenSince start
    else if ← peekOp ":" then
      let _ ← readOp ":"
      let _ ← conditionBounds nested
      writtenSince start
    else return type.tokens
  | _ => return type.tokens

/-- One argument between angle brackets: whether it is a lifetime, and its tokens. -/
def genericArgument (nested : Nested) : Reader (Bool × Tokens) := do
  let tokens ← ahead
  if startsLifetime tokens && !startsOp "+" (afterTree tokens) then return (true, ← readLifetime)
  else if startsName tokens && startsOp "=" tokens.tail then
    let name ← readName
    let sign ← readOp "="
    return (false, word name ++ sign ++ (← bindingValue nested))
  else if startsName tokens && startsColon tokens.tail then
    let name ← readName
    let colon ← readOp ":"
    return (false, word name ++ colon ++ (← conditionBounds nested))
  else if ← peekLiteral then return (false, (← readLiteral).2)
  else if startsGroup .brace tokens then return (false, ← nested.block true)
  else return (false, ← typeArgument nested)

/-- Arguments with the lifetimes in front of the others, whatever their order. -/
def lifetimesFirst (items : List ((Bool × Tokens) × Bool)) : Tokens :=
  let lifetimes := items.filter (·.1.1)
  let others := items.filter (!·.1.1)
  let comma := if (lifetimes.getLast?.any (!·.2)) && !others.isEmpty then op "," else []
  joinItems "," (lifetimes.map fun item => (item.1.2, item.2)) ++ comma ++
    joinItems "," (others.map fun item => (item.1.2, item.2))

def angleArguments (nested : Nested) : Reader Arguments := do
  let colons ← optionalOp "::"
  let opening ← readOp "<"
  let items ← readItems "," (startsOp ">") (genericArgument nested)
  let closing ← readOp ">"
  return .angle (colons ++ opening ++ lifetimesFirst items ++ closing) items.isEmpty

/-- What follows the parameters of a function: its result. The type of the result is given too. -/
def resultType (nested : Nested) (allowPlus : Bool) : Reader (Option TypeCode × Tokens) := do
  if ← peekOp "->" then
    let arrow ← readOp "->"
    let type ← nested.type allowPlus
    return (some type, arrow ++ type.tokens)
  else return (none, [])

def startsParenthesized (tokens : Tokens) : Bool :=
  startsGroup .parenthesis tokens ||
    (startsOp "::" tokens && startsGroup .parenthesis (tokens.drop 2))

/-- The arguments and the result of a function, `(A) -> B`, and whether the path may go on behind
them. -/
def parenthesizedArguments (nested : Nested) : Reader (Arguments × Bool) := do
  let _ ← optionalOp "::"
  let items ← readGroup .parenthesis (readItems "," stopAtEnd nested.typeTokens)
  let (type, result) ← resultType nested false
  let mayGoOn := match type with
    | none => true
    | some ⟨_, .parenthesized⟩ => true
    | _ => false
  return (.parenthesized (parens (joinItems "," items) ++ result), mayGoOn)

/-! ## Names and paths -/

/-- One name of a path, where `inExpression` says that angle brackets need a `::` in front. -/
def segment (nested : Nested) (inExpression : Bool) : Reader Segment := do
  let tokens ← ahead
  if ["super", "self", "crate"].any (startsWord · tokens) then return ⟨← readAnyWord, .none⟩
  else
    let name ← if startsWord "Self" tokens then readAnyWord else readName
    let tokens ← ahead
    if (!inExpression && startsOp "<" tokens && !startsOp "<=" tokens) ||
        (startsOp "::" tokens && startsOp "<" (tokens.drop 2)) then
      return ⟨name, ← angleArguments nested⟩
    else return ⟨name, .none⟩

/-- The names behind a path that was begun, as long as `goesOn` holds. -/
def pathRest (nested : Nested) (inExpression : Bool) (goesOn : Tokens → Bool) (path : Path) :
    Reader Path := do
  let count := (← ahead).length
  repeatOn
    (fun path => do
      if ← peek goesOn then
        let _ ← readOp "::"
        return (path.push (← segment nested inExpression), true)
      else return (path, false))
    (count + 1) path

def startsNextName (tokens : Tokens) : Bool :=
  startsOp "::" tokens && !startsGroup .parenthesis (tokens.drop 2)

def plainPath (nested : Nested) (inExpression : Bool) : Reader Path := do
  let colons ← optionalOp "::"
  let first ← segment nested inExpression
  pathRest nested inExpression startsNextName ⟨colons, false, [], first⟩

/-- A path, possibly with the type it belongs to: `<T as Trait>::Name`. -/
def anyPath (nested : Nested) (inExpression : Bool) : Reader Path := do
  if ← peekOp "<" then
    let opening ← readOp "<"
    let self ← nested.typeTokens
    let trait ← if ← peek (startsWord "as") then do
        let keyword ← readWord "as"
        pure (keyword ++ (← plainPath nested false).code)
      else pure []
    let closing ← readOp ">"
    let colons ← readOp "::"
    let first ← segment nested inExpression
    pathRest nested inExpression (startsOp "::")
      ⟨opening ++ self ++ trait ++ closing ++ colons, true, [], first⟩
  else plainPath nested inExpression

/-- The path of a type, whose names may have arguments in parentheses. -/
def typePath (nested : Nested) : Reader Path := do
  let start ← anyPath nested false
  let count := (← ahead).length
  repeatOn
    (fun path => do
      if path.last.arguments.isEmpty && startsParenthesized (← ahead) then
        let (arguments, mayGoOn) ← parenthesizedArguments nested
        let path := { path with last := ⟨path.last.name, arguments⟩ }
        if mayGoOn then return (← pathRest nested false startsNextName path, true)
        else return (path, true)
      else return (path, false))
    (count + 1) start

/-- What a macro is called with. -/
def macroArguments : Reader Tokens := do
  match ← ahead with
  | .group delimiter body :: _ =>
    advance 1
    return [.group delimiter body]
  | _ => failExpected ["delimiter"]

/-- Whether a path is the name of a macro that is called here. -/
def Path.callsMacro (path : Path) (tokens : Tokens) : Bool :=
  !path.isQualified && !path.hasArguments && startsOp "!" tokens && !startsOp "!=" tokens

def macroCall (path : Path) : Reader Tokens := do
  let sign ← readOp "!"
  return path.code ++ sign ++ (← macroArguments)

end PredictiveParser.Surface
