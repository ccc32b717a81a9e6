import PredictiveParser.Surface.Path

/-!
# Patterns

Patterns stand in the blocks of constant expressions: behind `let`, in the arms of a `match`, and
as the parameters of closures.
-/
namespace PredictiveParser.Surface

open Template

/-! ## Ranges and constants -/

/-- The dots of a range, and whether its upper end may be missing. Three dots are another spelling
of `..=`. -/
def rangeDots : Reader (Tokens × Bool) := do
  if ← peekOp "..=" then return (← readOp "..=", false)
  else if ← peekOp "..." then
    let _ ← readOp "..."
    return (op "..=", false)
  else return (← readOp "..", true)

/-- A constant block, `const` and a block; it is kept as it was written. -/
def constBlock (nested : Nested) : Reader Tokens :=
  asWritten do
    let _ ← readWord "const"
    nested.block true

def startsPath (tokens : Tokens) : Bool :=
  startsName tokens || startsOp "::" tokens || startsOp "<" tokens ||
    ["self", "Self", "super", "crate"].any (startsWord · tokens)

def rangeEnd? (nested : Nested) : Reader (Option Piece) := do
  let tokens ← ahead
  if tokens.isEmpty || startsOp "|" tokens || startsOp "=" tokens || startsColon tokens ||
      startsOp "," tokens || startsOp ";" tokens then
    return none
  else
    let sign ← optionalOp "-"
    if ← peekLiteral then return some (.standard (sign ++ (← readLiteral).2))
    else if startsPath (← ahead) then
      return some (.standard (sign ++ (← anyPath nested true).code))
    else if ← peek (startsWord "const") then
      return some ⟨sign ++ (← constBlock nested), sign.isEmpty⟩
    else failExpected (["literal", "identifier"] ++
      ["::", "<", "self", "Self", "super", "crate", "const"].map quoted)

/-- A range whose lower end was read. Without an upper end it is kept as it was written. -/
def rangeFrom (nested : Nested) (start lower : Tokens) : Reader Piece := do
  let (dots, _) ← rangeDots
  match ← rangeEnd? nested with
  | some upper => return .standard (lower ++ dots ++ upper.tokens)
  | none => keepSince start

/-- A literal or constant block, or a range that starts with one. -/
def constantPattern (nested : Nested) : Reader Piece := do
  let start ← ahead
  match ← rangeEnd? nested with
  | some lower => if ← peekOp ".." then rangeFrom nested start lower.tokens else return lower
  | none => failExpected []

/-- Two dots: a range without a lower end, or what stands for the rest. -/
def dotsPattern (nested : Nested) : Reader Piece := do
  let start ← ahead
  let (dots, mayEnd) ← rangeDots
  match ← rangeEnd? nested with
  | some _ => keepSince start
  | none => if mayEnd then return .standard dots else failExpected ["range upper bound"]

/-! ## Patterns inside others -/

/-- Patterns with `|` between them. -/
def alternatives (nested : Nested) : Reader Tokens := do
  let first ← nested.pattern
  let count := (← ahead).length
  let parts ← repeatFor
    (do
      let tokens ← ahead
      if startsOp "|" tokens && !startsOp "||" tokens && !startsOp "|=" tokens then
        let bar ← readOp "|"
        return (bar ++ (← nested.pattern).tokens, true)
      else return ([], false))
    (count + 1)
  return first.tokens ++ parts.flatten

/-- Patterns with `|` between them, and possibly in front. -/
def alternation (nested : Nested) : Reader Tokens := do
  let leading ← optionalOp "|"
  return leading ++ (← alternatives nested)

def patternItems (nested : Nested) : Reader Tokens := do
  return joinItems "," (← readItems "," stopAtEnd (alternation nested))

def fieldIndex (negative : Bool) (magnitude : Nat) (hasSuffix : Bool) : Reader Tokens :=
  if hasSuffix then fail (.invalid "expected unsuffixed integer")
  else if negative then fail (.invalid "invalid digit found in string")
  else if 0x100000000 ≤ magnitude then fail (.invalid "number too large to fit in target type")
  else return natLiteral magnitude

/-- The name or number of a field, and whether it is a name. -/
def member : Reader (Tokens × Bool) := do
  if ← peek startsName then return (word (← readName), true)
  else
    match ← frontLiteral? with
    | some ⟨.int negative magnitude, tokens⟩ =>
      advance tokens.length
      let hasSuffix := tokens.any fun token =>
        match token with
        | .literal spelling => LiteralValue.hasSuffix spelling
        | _ => false
      return (← fieldIndex negative magnitude hasSuffix, false)
    | _ => failExpected ["identifier or integer"]

/-- One field of the pattern for a structure. A field with a number has a pattern behind it; what
marks the number is dropped, and so is the number itself if the colon is missing. -/
def fieldPattern (nested : Nested) : Reader Tokens := do
  let boxed ← optionalWord "box"
  let reference ← optionalWord "ref"
  let mutability ← optionalWord "mut"
  let marks := boxed ++ reference ++ mutability
  let (name, isName) ← member
  if !isName || (marks.isEmpty && (← peekOp ":")) then
    let colon ← optionalOp ":"
    let pattern ← alternation nested
    return if colon.isEmpty then pattern else name ++ colon ++ pattern
  else return marks ++ name

/-- The fields of the pattern for a structure, and whether there are attributes in front of the two
dots that end them. -/
def fieldPatterns (nested : Nested) : Reader (Tokens × Bool) := do
  let count := (← ahead).length
  let parts ← repeatFor
    (do
      if (← ahead).isEmpty then return (([], false), false)
      let attributes ← attributeCode
      if ← peekOp ".." then
        return ((attributes ++ (← readOp ".."), !attributes.isEmpty), false)
      let field ← fieldPattern nested
      if (← ahead).isEmpty then return ((attributes ++ field, false), false)
      let comma ← readOp ","
      return ((attributes ++ field ++ comma, false), true))
    (count + 1)
  return (parts.flatMap Prod.fst, parts.any Prod.snd)

/-- A pattern that starts with a path. One for a structure that belongs to a type, or with
attributes in front of its dots, is kept as it was written. -/
def pathPattern (nested : Nested) : Reader Piece := do
  let start ← ahead
  let path ← anyPath nested true
  let tokens ← ahead
  if path.callsMacro tokens then return .standard (← macroCall path)
  else if startsGroup .brace tokens then
    let (fields, isWritten) ← readGroup .brace (fieldPatterns nested)
    if isWritten || path.isQualified then keepSince start
    else return .standard (path.code ++ braces fields)
  else if startsGroup .parenthesis tokens then
    let items ← readGroup .parenthesis (patternItems nested)
    if path.isQualified then keepSince start
    else return .standard (path.code ++ parens items)
  else if startsOp ".." tokens then rangeFrom nested start path.code
  else return .standard path.code

/-- A name that is bound, possibly to what another pattern matches. -/
def bindingPattern (nested : Nested) : Reader Tokens := do
  let reference ← optionalWord "ref"
  let mutability ← optionalWord "mut"
  let name ← readAnyWord
  let sub ← if ← peekOp "@" then do
      let sign ← readOp "@"
      pure (sign ++ (← nested.pattern).tokens)
    else pure []
  return reference ++ mutability ++ word name ++ sub

/-- What can start a pattern, as named in messages. Three dots are refused although they start
with two, so two are not named then. -/
def patternStarts (tokens : Tokens) : List String :=
  [quoted "::", quoted "<", quoted "_", "literal", quoted "const", quoted "ref", quoted "mut",
    quoted "&", "parentheses", "square brackets"] ++
    (if startsOp ".." tokens then [] else [quoted ".."]) ++ [quoted "const"]

/-- Whether a range goes on behind the dots here. -/
def startsRangeEnd (tokens : Tokens) : Bool :=
  startsOp ".." tokens &&
    let rest := tokens.drop (if startsOp "..=" tokens || startsOp "..." tokens then 3 else 2)
    !rest.isEmpty && !startsOp "," rest

/-- Whether a path with something behind it starts here, and not just a name. -/
def startsPathPattern (tokens : Tokens) : Bool :=
  let next := tokens.tail
  (startsName tokens && (startsOp "::" next || startsOp "!" next || startsRangeEnd next ||
    startsGroup .brace next || startsGroup .parenthesis next)) ||
  (startsWord "self" tokens && startsOp "::" next) || startsOp "::" tokens ||
    startsOp "<" tokens || ["Self", "super", "crate"].any (startsWord · tokens)

def patternLevel (nested : Nested) : Reader Piece := do
  let tokens ← ahead
  let standard (reader : Reader Tokens) : Reader Piece := return .standard (← reader)
  if startsPathPattern tokens then pathPattern nested
  else if startsWord "_" tokens then standard (word <$> readAnyWord)
  else if startsWord "box" tokens then
    let keyword ← readWord "box"
    return .standard (keyword ++ (← nested.pattern).tokens)
  else if startsOp "-" tokens || (← peekLiteral) || startsWord "const" tokens then
    constantPattern nested
  else if startsWord "ref" tokens || startsWord "mut" tokens || startsWord "self" tokens ||
      startsName tokens then
    standard (bindingPattern nested)
  else if startsOp "&" tokens then
    let sign ← readOp "&"
    let mutability ← optionalWord "mut"
    return .standard (sign ++ mutability ++ (← nested.pattern).tokens)
  else if startsGroup .parenthesis tokens then
    standard (parens <$> readGroup .parenthesis (patternItems nested))
  else if startsGroup .bracket tokens then
    standard (brackets <$> readGroup .bracket (patternItems nested))
  else if startsOp ".." tokens && !startsOp "..." tokens then dotsPattern nested
  else failExpected (patternStarts tokens)

end PredictiveParser.Surface
