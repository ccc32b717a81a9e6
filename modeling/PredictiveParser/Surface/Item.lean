import PredictiveParser.Surface.Member

/-!
# Items

The items that may stand in a block or module: imports, constants, functions, types, traits,
implementations, modules, foreign items and macros. An item that is written in a form which only a
macro could give a meaning to is read all the same, and kept as it was written.

An item is read behind its attributes. Its reader is given where the item starts: in a module with
its attributes, in a block behind them.
-/
namespace PredictiveParser.Surface

open Template

/-! ## Imports -/

def useTree : (depth : Nat) → Reader Tokens
  | 0 => fail .leftover
  | depth + 1 => do
    let tokens ← ahead
    if startsName tokens || ["self", "super", "crate"].any (startsWord · tokens) then
      let name ← readAnyWord
      let tokens ← ahead
      if startsOp "::" tokens then
        let colons ← readOp "::"
        return word name ++ colons ++ (← useTree depth)
      else if startsWord "as" tokens then
        let keyword ← readWord "as"
        if (← peek startsName) || (← peek (startsWord "_")) then
          return word name ++ keyword ++ word (← readAnyWord)
        else failExpected ["identifier or underscore"]
      else return word name
    else if startsOp "*" tokens then readOp "*"
    else if startsGroup .brace tokens then
      let items ← readGroup .brace (readItems "," stopAtEnd (useTree depth))
      return braces (joinItems "," items)
    else failExpected (["identifier"] ++ ["self", "super", "crate", "*"].map quoted ++
      ["curly braces"])

def useItem : Reader Tokens := do
  let keyword ← readWord "use"
  let colons ← optionalOp "::"
  let tree ← useTree (size (← ahead) + 1)
  return keyword ++ colons ++ tree ++ (← readOp ";")

def packageItem : Reader Tokens := do
  let keyword ← readWord "crate"
  let name ← if ← peek (startsWord "self") then readAnyWord else readName
  let newName ← if ← peek (startsWord "as") then do
      let keyword ← readWord "as"
      let name ← if ← peek (startsWord "_") then readAnyWord else readName
      pure (keyword ++ word name)
    else pure []
  return keyword ++ word name ++ newName ++ (← readOp ";")

/-! ## Foreign items -/

def foreignBlock (nested : Nested) : Reader Tokens := do
  let head ← linkage
  return head ++ (← memberBlock (foreignMember nested))

/-- What `extern` starts: the import of a package, or a block of foreign items. Only the import may
have a visibility. -/
def externItem (nested : Nested) (visibility : Tokens) : Reader Tokens := do
  let keyword ← readWord "extern"
  if ← peek (startsWord "crate") then return visibility ++ keyword ++ (← packageItem)
  else
    let name ← linkageName
    if ← peek (startsGroup .brace) then
      if visibility.isEmpty then return keyword ++ name ++ (← memberBlock (foreignMember nested))
      else fail (.expected [quoted "extern"] false)
    else if name.isEmpty then failExpected [quoted "crate", "curly braces", "string literal"]
    else failExpected ["curly braces"]

/-! ## Values and functions -/

/-- A function. Without a body it is kept as it was written. -/
def functionItem (nested : Nested) (start visibility : Tokens) : Reader Piece := do
  let head ← functionHead nested
  if ← peekOp ";" then
    let _ ← readOp ";"
    keepSince start
  else return .standard (visibility ++ head ++ (← nested.block true))

/-- The rest of an item that has to have a value: without one it is kept as it was written. -/
def valueItem (nested : Nested) (start head : Tokens) : Reader Piece := do
  if ← peekOp ";" then
    let _ ← readOp ";"
    keepSince start
  else
    let value ← valuePart nested
    return .standard (head ++ value ++ (← readOp ";"))

/-- A static variable. Without a type it is kept as it was written. -/
def staticItem (nested : Nested) (start visibility : Tokens) : Reader Piece := do
  let keyword ← readWord "static"
  let mutability ← optionalWord "mut"
  let name ← readName
  if ← peekOp "=" then
    let _ ← valuePart nested
    let _ ← readOp ";"
    keepSince start
  else
    let colon ← readOp ":"
    let type ← nested.typeTokens
    valueItem nested start (visibility ++ keyword ++ mutability ++ word name ++ colon ++ type)

def constItem (nested : Nested) (start visibility : Tokens) : Reader Piece := do
  let keyword ← readWord "const"
  let head ← constantHead nested
  valueItem nested start (visibility ++ keyword ++ head)

/-! ## Types, traits and implementations -/

/-- A name for a type. One that has bounds or stands for nothing is kept as it was written. -/
def aliasItem (nested : Nested) (start visibility : Tokens) : Reader Piece := do
  let type ← typeItem nested false
  if type.hasColon || type.value.isEmpty then keepSince start
  else
    return .standard
      (visibility ++ type.head ++ type.parameters ++ type.clause ++ type.value ++ op ";")

/-- What follows the generic parameters of a trait: the traits that it extends, its where clause
and its members. -/
def traitRest (nested : Nested) : Reader Tokens := do
  let colon ← optionalOp ":"
  let stop (tokens : Tokens) : Bool := startsWord "where" tokens || startsGroup .brace tokens
  let bounds ← if colon.isEmpty then pure [] else readItems "+" stop nested.bound
  let bounds := if bounds.isEmpty then [] else colon ++ joinItems "+" bounds
  let clause ← whereClause nested
  return bounds ++ clause ++ (← memberBlock (traitMember nested))

/-- A trait that is a name for a sum of bounds, behind its generic parameters. -/
def traitAlias (nested : Nested) : Reader Tokens := do
  let sign ← readOp "="
  let stop (tokens : Tokens) : Bool := startsWord "where" tokens || startsOp ";" tokens
  let bounds ← readItems "+" stop nested.bound
  let clause ← whereClause nested
  return sign ++ joinItems "+" bounds ++ clause ++ (← readOp ";")

/-- A trait. One that is neither unsafe nor automatic may be a name for a sum of bounds. -/
def traitItem (nested : Nested) : Reader Tokens := do
  let safety ← optionalWord "unsafe"
  let automatic ← optionalWord "auto"
  let keyword ← readWord "trait"
  let name ← readName
  let parameters ← genericParameters nested
  let head := safety ++ automatic ++ keyword ++ word name ++ parameterCode parameters
  let tokens ← ahead
  let isPlain := safety.isEmpty && automatic.isEmpty
  if isPlain && startsOp "=" tokens then return head ++ (← traitAlias nested)
  else if !isPlain || startsGroup .brace tokens || startsOp ":" tokens ||
      startsWord "where" tokens then
    return head ++ (← traitRest nested)
  else failExpected ["curly braces", quoted ":", quoted "where", quoted "="]

/-- Whether angle brackets behind `impl` hold generic parameters, and do not start a path. -/
def startsParameters (tokens : Tokens) : Bool :=
  let next := tokens.tail
  startsOp "<" tokens &&
    (startsAnyOp [">", "#"] next || startsWord "const" next ||
      ((startsName next || startsLifetime next) &&
        startsAnyOp [":", ",", ">", "="] (afterTree next)))

/-- The mark `const` or `?const` of an implementation, if it is there. -/
def peekConstImpl : Reader Bool := do
  let tokens ← ahead
  return startsWord "const" tokens || (startsOp "?" tokens && startsWord "const" tokens.tail)

/-- What is implemented, and whether it has a standard form: a type by itself, or a trait for a
type. -/
def implTarget (nested : Nested) : Reader (Tokens × Bool) := do
  let start ← ahead
  let polarity ← if startsOp "!" start && !startsGroup .brace start.tail then readOp "!"
    else pure []
  let type ← nested.type true
  if ← peek (startsWord "for") then
    let keyword ← readWord "for"
    let isTrait := match type.form with
      | .path _ => true
      | _ => false
    return (polarity ++ type.tokens ++ keyword ++ (← nested.typeTokens), isTrait)
  else if polarity.isEmpty then return (type.tokens, true)
  else return (← writtenSince start, true)

/-- An implementation. One with a visibility, of constant functions, or for something that is no
trait is kept as it was written. -/
def implItem (nested : Nested) (start visibility : Tokens) : Reader Piece := do
  let defaultness ← optionalWord "default"
  let safety ← optionalWord "unsafe"
  let keyword ← readWord "impl"
  let parameters ← if ← peek startsParameters then genericParameters nested else pure []
  let isConst ← peekConstImpl
  if isConst then
    let _ ← optionalOp "?"
    let _ ← readWord "const"
  let (target, isStandard) ← implTarget nested
  let clause ← whereClause nested
  let members ← memberBlock (implMember nested)
  if visibility.isEmpty && !isConst && isStandard then
    return .standard (defaultness ++ safety ++ keyword ++ parameterCode parameters ++ target ++
      clause ++ members)
  else keepSince start

/-! ## Modules and macros -/

def moduleItem (nested : Nested) : Reader Tokens := do
  let keyword ← readWord "mod"
  let name ← readName
  let tokens ← ahead
  if startsOp ";" tokens then return keyword ++ word name ++ (← readOp ";")
  else if startsGroup .brace tokens then
    return keyword ++ word name ++ (← memberBlock nested.item)
  else failExpected [quoted ";", "curly braces"]

/-- The definition of a macro: possibly parameters, and a body. -/
def macroDefinition : Reader Tokens := do
  let keyword ← readWord "macro"
  let name ← readName
  let tokens ← ahead
  let isFunction := startsGroup .parenthesis tokens
  let parameters ← if isFunction then macroArguments else pure []
  if ← peek (startsGroup .brace) then
    return keyword ++ word name ++ parameters ++ (← macroArguments)
  else failExpected ((if isFunction then [] else ["parentheses"]) ++ ["curly braces"])

/-! ## Items -/

/-- What `unsafe` starts: a trait, an implementation, or foreign items or a module, which are kept
as they were written. -/
def unsafeItem (nested : Nested) (start visibility : Tokens) : Reader Piece := do
  let next := (← ahead).tail
  if startsWord "trait" next || (startsWord "auto" next && startsWord "trait" next.tail) then
    return .standard (visibility ++ (← traitItem nested))
  else if startsWord "impl" next then implItem nested start visibility
  else
    advance 1
    if startsWord "extern" next then
      let _ ← foreignBlock nested
      keepSince start
    else if startsWord "mod" next then
      let _ ← moduleItem nested
      keepSince start
    else failWords ["trait", "auto", "impl", "extern", "mod"] []

def itemWords : List String :=
  ["fn", "extern", "use", "static", "const", "unsafe", "mod", "type", "struct", "enum", "union",
    "trait", "auto", "impl", "default", "macro"]

/-- An item behind its attributes, which starts at `start`. -/
def item (nested : Nested) (start : Tokens) : Reader Piece := do
  let visibility ← visibility
  let tokens ← ahead
  let next := tokens.tail
  let starts (name : String) : Bool := startsWord name tokens
  let standard (reader : Reader Tokens) : Reader Piece :=
    return .standard (visibility ++ (← reader))
  if ← peekFunction then functionItem nested start visibility
  else if starts "extern" then return .standard (← externItem nested visibility)
  else if starts "use" then standard useItem
  else if starts "static" then staticItem nested start visibility
  else if starts "const" then constItem nested start visibility
  else if starts "unsafe" then unsafeItem nested start visibility
  else if starts "mod" then standard (moduleItem nested)
  else if starts "type" then aliasItem nested start visibility
  else if starts "struct" || starts "enum" || (starts "union" && startsName next) then
    standard (Prod.snd <$> declaration nested)
  else if starts "trait" || (starts "auto" && startsWord "trait" next) then
    standard (traitItem nested)
  else if starts "impl" || (starts "default" && !startsOp "!" next) then
    implItem nested start visibility
  else if starts "macro" then standard macroDefinition
  else if visibility.isEmpty && startsMacroName tokens then standard (macroItem true)
  else if starts "macro_rules" then
    let _ ← macroItem true
    keepSince start
  else failWords itemWords (if visibility.isEmpty then macroNameStarts else [])

def itemLevel (nested : Nested) : Reader Tokens := do
  let start ← ahead
  let attributes ← attributeCode
  return (← item nested start).behind attributes

end PredictiveParser.Surface
