import PredictiveParser.Surface.Bound

/-!
# Types

A reader for the types of the language that parsers are generated in. The generator never looks
inside a type, so a type is its tokens, printed in the standard spacing.
-/
namespace PredictiveParser.Surface

open Template

/-- What can start a type, as named in messages. -/
def typeStarts : List String :=
  [quoted "for", "parentheses", quoted "fn", quoted "unsafe", quoted "extern", "identifier",
    quoted "::", quoted "<", "square brackets", quoted "*", quoted "&", quoted "!", quoted "impl",
    quoted "_", "lifetime"]

/-- What can start a type behind `for<'a>`, as named in messages. -/
def genericTypeStarts : List String :=
  "identifier" ::
    ["fn", "unsafe", "extern", "super", "self", "Self", "crate"].map quoted

/-- The complaint about a type that is made of lifetimes alone. -/
def traitMissing : String :=
  "at least one trait is required for an object type"

/-! ## Parentheses -/

/-- What stands in the parentheses that start a type. -/
inductive ParenContent where
  /-- A tuple, or bounds that start with a lifetime: the parentheses are all of the type. -/
  | whole (type : TypeCode)
  /-- A bound that is marked with `?`. -/
  | bound (tokens : Tokens)
  | type (type : TypeCode)

def parenContent (nested : Nested) : Reader ParenContent := do
  let tokens ← ahead
  if tokens.isEmpty then return .whole ⟨parens [], .other⟩
  else if startsLifetime tokens then
    return .whole ⟨parens (← traitSum nested true traitMissing), .parenthesized⟩
  else if startsOp "?" tokens then return .bound (← traitBound nested)
  else
    let first ← nested.type true
    if ← peekOp "," then
      let _ ← readOp ","
      let items ← readItems "," stopAtEnd nested.typeTokens
      return .whole ⟨parens (joinItems "," ((first.tokens, true) :: items)), .other⟩
    else return .type first

/-- Bounds of which the first stands in parentheses. -/
def parenSum (nested : Nested) (first : Tokens) : Reader TypeCode := do
  let further ← furtherBounds nested
  return ⟨parens first ++ further.flatten, .bounds (if further.isEmpty then some first else none)⟩

/-- A type that starts with parentheses: a tuple, a type in parentheses, or bounds of which the
first one stands in parentheses. -/
def parenType (nested : Nested) (allowPlus : Bool) : Reader TypeCode := do
  match ← readGroup .parenthesis (parenContent nested) with
  | .whole type => return type
  | .bound first => parenSum nested first
  | .type type =>
    let alone : TypeCode := ⟨parens type.tokens, .parenthesized⟩
    if allowPlus && (← peekOp "+") then
      match type.form with
      | .path _ => parenSum nested type.tokens
      | .bounds (some single) => parenSum nested single
      | _ => return alone
    else return alone

/-! ## Functions -/

/-- The name of the place where a function is found, if there is one. -/
def linkageName : Reader Tokens := do
  match ← frontLiteral? with
  | some ⟨.string _, tokens⟩ =>
    advance tokens.length
    return tokens
  | _ => return []

/-- Where a function is found: `extern`, possibly with a name. -/
def linkage : Reader Tokens := do
  if ← peek (startsWord "extern") then
    let keyword ← readWord "extern"
    return keyword ++ (← linkageName)
  else return []

def startsMutSelf (tokens : Tokens) : Bool :=
  startsWord "mut" tokens && startsWord "self" tokens.tail

def parameterName : Reader Tokens := do
  let tokens ← ahead
  if (startsName tokens || startsWord "_" tokens || startsWord "self" tokens) &&
      startsColon tokens.tail then
    let name ← readAnyWord
    return word name ++ (← readOp ":")
  else return []

/-- The type of a parameter, or three dots for any number of further parameters. -/
def parameterType (nested : Nested) : Reader Tokens := do
  if ← peekOp "..." then readOp "..." else nested.typeTokens

/-- One parameter of a function pointer without its attributes; `none` for `mut self`. -/
def functionParameter (nested : Nested) : Reader (Option Tokens) := do
  let tokens ← ahead
  if startsMutSelf tokens && startsColon (tokens.drop 2) then
    advance 3
    let _ ← parameterType nested
    return none
  else
    let name ← parameterName
    let tokens ← ahead
    if startsMutSelf tokens then
      advance 2
      return none
    else return some (name ++ (← parameterType nested))

/-- Parameters of a function pointer that were read. -/
structure ParameterList where
  tokens : Tokens
  /-- `mut self` was among them. From there on commas are not kept. -/
  hasMutSelf : Bool
  /-- There is no parameter yet, or a comma was kept behind the last one. -/
  isOpen : Bool

/-- Reads the next parameter of a function pointer, and gives whether there may be more. Three dots
without a name end them. -/
def ParameterList.next (list : ParameterList) (nested : Nested) :
    Reader (ParameterList × Bool) := do
  if (← ahead).isEmpty then return (list, false)
  let attributes ← attributeCode
  if list.isOpen && (← peekOp "...") then
    let dots ← readOp "..."
    return ({ list with tokens := list.tokens ++ attributes ++ dots }, false)
  let list ← match ← functionParameter nested with
    | some parameter =>
      if list.isOpen then
        pure { list with tokens := list.tokens ++ attributes ++ parameter, isOpen := false }
      else failWith (.fault .crowdedParameters)
    | none => pure { list with hasMutSelf := true }
  if (← ahead).isEmpty then return (list, false)
  let comma ← readOp ","
  if list.hasMutSelf then return (list, true)
  else return ({ list with tokens := list.tokens ++ comma, isOpen := true }, true)

def functionParameters (nested : Nested) : Reader ParameterList :=
  readGroup .parenthesis do
    let count := (← ahead).length
    repeatOn (fun list => list.next nested) (count + 1) ⟨[], false, true⟩

/-- A function pointer, and whether it has to be kept as it was written. -/
def functionType (nested : Nested) : Reader (Tokens × Bool) := do
  let safety ← optionalWord "unsafe"
  let linkage ← linkage
  let keyword ← readWord "fn"
  let parameters ← functionParameters nested
  let (_, result) ← resultType nested false
  return (safety ++ linkage ++ keyword ++ parens parameters.tokens ++ result,
    parameters.hasMutSelf)

/-! ## Other types -/

/-- A type that starts with a path: the path itself, a call of a macro, or a sum of bounds. -/
def pathType (nested : Nested) (allowPlus : Bool) (lifetimes : Tokens) : Reader TypeCode := do
  let path ← typePath nested
  let tokens ← ahead
  if path.isQualified then return ⟨path.code, .other⟩
  else if path.callsMacro tokens then return ⟨← macroCall path, .other⟩
  else if allowPlus && startsOp "+" tokens then
    let plus ← readOp "+"
    if startsBound (← ahead) then
      return ⟨lifetimes ++ path.code ++ plus ++ sumCode (← boundSum nested true), .bounds none⟩
    else return ⟨lifetimes ++ path.code ++ plus, .bounds none⟩
  else if lifetimes.isEmpty then return ⟨path.code, .path path.isApplied⟩
  else return ⟨lifetimes ++ path.code, .bounds (some (lifetimes ++ path.code))⟩

def bracketType (nested : Nested) : Reader Tokens :=
  readGroup .bracket do
    let element ← nested.typeTokens
    if ← peekOp ";" then
      let semicolon ← readOp ";"
      return brackets (element ++ semicolon ++ (← nested.expressionTokens))
    else return brackets element

def referenceType (nested : Nested) : Reader Tokens := do
  let sign ← readOp "&"
  let lifetime ← if ← peek startsLifetime then readLifetime else pure []
  let mutability ← optionalWord "mut"
  return sign ++ lifetime ++ mutability ++ (← nested.type false).tokens

def pointerType (nested : Nested) : Reader Tokens := do
  let star ← readOp "*"
  let tokens ← ahead
  if startsWord "const" tokens || startsWord "mut" tokens then
    let qualifier ← readAnyWord
    return star ++ word qualifier ++ (← nested.type false).tokens
  else failExpected [quoted "const", quoted "mut"]

/-- An object of traits, `dyn A + B`. With a star behind the keyword it is kept as it was
written. -/
def objectType (nested : Nested) (allowPlus : Bool) : Reader Tokens := do
  let start ← ahead
  let keyword ← readWord "dyn"
  let star ← optionalOp "*"
  let bounds ← traitSum nested allowPlus traitMissing
  if star.isEmpty then return keyword ++ bounds else writtenSince start

def plainType (nested : Nested) (allowPlus : Bool) : Reader TypeCode := do
  let tokens ← ahead
  if startsGroup .parenthesis tokens then parenType nested allowPlus
  else if startsWord "dyn" tokens then return ⟨← objectType nested allowPlus, .other⟩
  else if startsName tokens || startsAnyOp ["::", "<"] tokens ||
      ["super", "self", "Self", "crate"].any (startsWord · tokens) then
    pathType nested allowPlus []
  else if startsGroup .bracket tokens then return ⟨← bracketType nested, .other⟩
  else if startsOp "*" tokens then return ⟨← pointerType nested, .other⟩
  else if startsOp "&" tokens then return ⟨← referenceType nested, .other⟩
  else if startsOp "!" tokens then return ⟨← readOp "!", .other⟩
  else if startsWord "impl" tokens then
    let keyword ← readWord "impl"
    return ⟨keyword ++ (← traitSum nested allowPlus "at least one trait must be specified"), .other⟩
  else if startsWord "_" tokens then return ⟨word (← readAnyWord), .other⟩
  else if startsLifetime tokens then return ⟨← traitSum nested true traitMissing, .bounds none⟩
  else failExpected typeStarts

def typeLevel (nested : Nested) (allowPlus : Bool) : Reader TypeCode := do
  let start ← ahead
  let lifetimes ← optionalLifetimes
  let tokens ← ahead
  if ["fn", "unsafe", "extern"].any (startsWord · tokens) then
    let (code, isWritten) ← functionType nested
    return ⟨← if isWritten then writtenSince start else pure (lifetimes ++ code), .other⟩
  else if lifetimes.isEmpty then plainType nested allowPlus
  else if startsWord "dyn" tokens then failExpected []
  else if startsModuleName tokens then pathType nested allowPlus lifetimes
  else failExpected genericTypeStarts

end PredictiveParser.Surface
