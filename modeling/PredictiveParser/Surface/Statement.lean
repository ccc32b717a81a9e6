import PredictiveParser.Surface.Expression
import PredictiveParser.Surface.Item

/-!
# Statements and blocks

A block is a list of statements: declarations of variables with `let`, calls of macros, items and
expressions. An expression needs a semicolon behind it unless it ends in a block of its own or is
the last thing in its block. Attributes in front of an expression belong to its first operand.
-/
namespace PredictiveParser.Surface

open Template

/-! ## Statements -/

def startsItem (tokens : Tokens) : Bool :=
  let next := tokens.tail
  ["pub", "extern", "use", "fn", "mod", "type", "struct", "enum", "trait", "impl", "macro"].any
    (startsWord · tokens) ||
  (startsWord "crate" tokens && !startsOp "::" next) ||
  (startsWord "static" tokens && (startsWord "mut" next || (startsName next &&
    !(startsWord "async" next && (startsWord "move" next.tail || startsOp "|" next.tail))))) ||
  (["const", "unsafe"].any (startsWord · tokens) && !startsGroup .brace next) ||
  (startsWord "async" tokens && ["unsafe", "extern", "fn"].any (startsWord · next)) ||
  (startsWord "union" tokens && startsName next) ||
  (startsWord "auto" tokens && startsWord "trait" next) ||
  (startsWord "default" tokens && ["unsafe", "impl"].any (startsWord · next))

/-- The declaration of variables. With a block for what does not match it is kept as it was
written. -/
def letStatement (nested : Nested) (start attributes : Tokens) : Reader Tokens := do
  let keyword ← readWord "let"
  let pattern ← alternation nested
  let type ← if ← peekOp ":" then do
      let colon ← readOp ":"
      pure (colon ++ (← nested.typeTokens))
    else pure []
  let declared := attributes ++ keyword ++ pattern ++ type
  if ← peekOp "=" then
    let sign ← readOp "="
    let value ← nested.expressionTokens
    if ← peek (startsWord "else") then
      let _ ← readWord "else"
      let _ ← nested.block false
      let written ← writtenSince start
      return written ++ (← readOp ";")
    else return declared ++ sign ++ value ++ (← readOp ";")
  else return declared ++ (← readOp ";")

/-- Whether the arguments of a macro stand here that is called as a statement of its own: with braces, or
with a name in front of them. -/
def startsMacroStatement (tokens : Tokens) : Bool :=
  let next := tokens.tail
  let behind := next.tail
  startsOp "!" tokens &&
    ((startsGroup .brace next && !startsOp "." behind && !startsOp "?" behind) || startsName next)

/-- The name of a macro that is called here as a statement of its own. -/
def macroStatement? : Reader (Option Tokens) := do
  match ← lookahead readModulePath with
  | .ok ((isAbsolute, path), rest) =>
    if startsMacroStatement rest then
      let _ ← readModulePath
      return some ((if isAbsolute then op "::" else []) ++ Template.path path)
    else return none
  | .error _ => return none

/-- One statement, and whether another one may follow it. -/
def statement (nested : Nested) : Reader (Tokens × Bool) := do
  let start ← ahead
  let attributes ← attributeCode
  let tokens ← ahead
  match ← macroStatement? with
  | some path =>
    let sign ← readOp "!"
    let name ← if ← peek startsName then word <$> readName else pure []
    let arguments ← macroArguments
    return (attributes ++ path ++ sign ++ name ++ arguments ++ (← optionalOp ";"), true)
  | none =>
    if startsWord "let" tokens then return (← letStatement nested start attributes, true)
    else if startsItem tokens then
      return ((← item nested tokens).behind attributes, true)
    else
      let e ← nested.statement
      let code := if e.form.losesAttributes then e.tokens else attributes ++ e.tokens
      if ← peekOp ";" then return (code ++ (← readOp ";"), true)
      else return (code, e.form = .block)

def statements (nested : Nested) : Reader Tokens := do
  let count := (← ahead).length
  let parts ← repeatFor
    (do
      let tokens ← ahead
      if tokens.isEmpty then return ([], false)
      else if startsOp ";" tokens then return (← readOp ";", true)
      else
        let (code, mayGoOn) ← statement nested
        if mayGoOn || (← ahead).isEmpty then return (code, true) else failExpected [])
    (count + 1)
  return parts.flatten

/-- A block; `withAttributes` says whether it may start with attributes. -/
def blockLevel (nested : Nested) (withAttributes : Bool) : Reader Tokens := do
  let content ← readGroup .brace do
    let attributes ← if withAttributes then innerAttributeCode else pure []
    return attributes ++ (← statements nested)
  return braces content

end PredictiveParser.Surface
