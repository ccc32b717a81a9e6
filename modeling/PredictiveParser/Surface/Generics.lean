import PredictiveParser.Surface.Bound

/-!
# Generic parameters

The parameters of a declaration between angle brackets, and the conditions of its where clause. A
header repeats the parameters without what they stand for when they are left out; as arguments
they are their names alone. Lifetimes always come first.
-/
namespace PredictiveParser.Surface

open Template

inductive ParameterKind where
  | lifetime
  | type
  | const
deriving DecidableEq

structure Parameter where
  kind : ParameterKind
  attributes : Tokens
  name : Tokens
  /-- Its bounds or, for a constant, its type, with the colon in front. -/
  bounds : Tokens
  /-- What a header does not repeat: what the parameter stands for when it is left out, with the
  equals sign in front, or bounds of which one is marked with `~const`. -/
  omitted : Tokens
  /-- A comma stands behind it. -/
  comma : Bool

structure Generics where
  parameters : List Parameter
  /-- The where clause, as written; empty without one. -/
  whereClause : Tokens

/-! ## Reading -/

/-- One bound of a type parameter, and whether it is marked with `~const`. -/
def parameterBound (nested : Nested) : Reader (Tokens × Bool) := do
  let mark ← constMark
  return (mark ++ (← nested.bound), !mark.isEmpty)

def typeParameter (nested : Nested) (attributes : Tokens) : Reader Parameter := do
  let name ← readName
  let colon ← optionalOp ":"
  let start ← ahead
  let items ← if colon.isEmpty then pure []
    else readWhile "+" (startsAnyOp [",", ">", "="]) (parameterBound nested)
  let default ← if ← peekOp "=" then do
      let sign ← readOp "="
      pure (sign ++ (← nested.typeTokens))
    else pure []
  if items.any (·.1.2) then
    return ⟨.type, attributes, word name, [], colon ++ (← writtenSince start), false⟩
  else
    let bounds := joinItems "+" (items.map fun item => (item.1.1, item.2))
    let bounds := if bounds.isEmpty then [] else colon ++ bounds
    return ⟨.type, attributes, word name, bounds, default, false⟩

/-- The value of a constant parameter: a literal, a name or a block. -/
def constantValue (nested : Nested) : Reader Tokens := do
  if ← peekLiteral then return (← readLiteral).2
  else if ← peek startsName then return word (← readName)
  else if ← peek (startsGroup .brace) then nested.block true
  else failExpected []

def constParameter (nested : Nested) (attributes : Tokens) : Reader Parameter := do
  let _ ← readWord "const"
  let name ← readName
  let colon ← readOp ":"
  let type ← nested.typeTokens
  let default ← if ← peekOp "=" then do
      let sign ← readOp "="
      pure (sign ++ (← constantValue nested))
    else pure []
  return ⟨.const, attributes, word name, colon ++ type, default, false⟩

def genericParameter (nested : Nested) : Reader Parameter := do
  let attributes ← attributeCode
  let tokens ← ahead
  if startsLifetime tokens then
    let lifetime ← declaredLifetime attributes
    return ⟨.lifetime, attributes, lifetime.name, lifetime.bounds, [], false⟩
  else if startsName tokens then typeParameter nested attributes
  else if startsWord "const" tokens then constParameter nested attributes
  else if startsWord "_" tokens then
    return ⟨.type, attributes, word (← readAnyWord), [], [], false⟩
  else failExpected ["lifetime", "identifier", quoted "const"]

def genericParameters (nested : Nested) : Reader (List Parameter) := do
  if ← peekOp "<" then
    let _ ← readOp "<"
    let items ← readItems "," (startsOp ">") (genericParameter nested)
    let _ ← readOp ">"
    return items.map fun (parameter, comma) => { parameter with comma }
  else return []

def endsClause (tokens : Tokens) : Bool :=
  tokens.isEmpty || startsGroup .brace tokens || startsAnyOp [",", ";", "="] tokens ||
    startsColon tokens

def whereCondition (nested : Nested) : Reader Tokens := do
  let tokens ← ahead
  if startsLifetime tokens && startsOp ":" (afterTree tokens) then
    let name ← readLifetime
    let colon ← readOp ":"
    let stop (tokens : Tokens) : Bool := endsClause tokens || startsOp ":" tokens
    return name ++ colon ++ (← boundsUntil stop readLifetime)
  else
    let lifetimes ← optionalLifetimes
    let type ← nested.typeTokens
    let colon ← readOp ":"
    return lifetimes ++ type ++ colon ++ (← boundsUntil endsClause nested.bound)

/-- A where clause, if there is one. A clause without conditions is dropped. -/
def whereClause (nested : Nested) : Reader Tokens := do
  if ← peek (startsWord "where") then
    let keyword ← readWord "where"
    let conditions ← readWhile "," endsClause (whereCondition nested)
    return if conditions.isEmpty then [] else keyword ++ joinItems "," conditions
  else return []

/-! ## Writing -/

/-- Parameters between angle brackets, lifetimes in front of the others. -/
def angleParameters (render : Parameter → Tokens) (parameters : List Parameter) : Tokens :=
  if parameters.isEmpty then []
  else
    op "<" ++ lifetimesFirst (parameters.map fun p => ((p.kind == .lifetime, render p), p.comma)) ++
      op ">"

def Parameter.header (p : Parameter) : Tokens :=
  p.attributes ++ (if p.kind = .const then word "const" else []) ++ p.name ++ p.bounds

/-- The parameters as they are declared in a header. -/
def Generics.header (generics : Generics) : Tokens :=
  angleParameters Parameter.header generics.parameters

/-- The parameters as arguments of their type. -/
def Generics.arguments (generics : Generics) : Tokens :=
  angleParameters (·.name) generics.parameters

def parameterCode (parameters : List Parameter) : Tokens :=
  angleParameters (fun p => p.header ++ p.omitted) parameters

end PredictiveParser.Surface
