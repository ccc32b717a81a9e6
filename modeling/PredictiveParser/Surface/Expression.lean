import PredictiveParser.Surface.Pattern
import PredictiveParser.Surface.Type

/-!
# Expressions

Expressions stand in types as the lengths of arrays and as constant arguments, and in declarations
as the values of cases. An expression is a chain of operands with binary operators between them;
how tightly an operator binds does not show in the tokens. An operand is an atom with signs in
front of it and calls, fields and indices behind it.

Where a block has to follow an expression, a brace behind a path is the start of that block and not
of a structure; `allowStruct` tells the two apart.
-/
namespace PredictiveParser.Surface

open Template

/-! ## Behind an atom -/

def callArguments (nested : Nested) : Reader Tokens := do
  return parens (joinItems "," (← readGroup .parenthesis
    (readItems "," stopAtEnd nested.expressionTokens)))

/-- The arguments between angle brackets of a method. -/
def methodArgument (nested : Nested) : Reader Tokens := do
  if ← peekLiteral then return (← readLiteral).2
  else if ← peek (startsGroup .brace) then nested.block true
  else nested.typeTokens

def memberAccess (nested : Nested) : Reader Tokens := do
  let (name, isName) ← member
  let brackets ← if isName && (← peekOp "::") then do
      let colons ← readOp "::"
      let opening ← readOp "<"
      let items ← readItems "," (startsOp ">") (methodArgument nested)
      let closing ← readOp ">"
      pure (colons ++ opening ++ joinItems "," items ++ closing)
    else pure []
  if isName && (!brackets.isEmpty || (← peek (startsGroup .parenthesis))) then
    return name ++ brackets ++ (← callArguments nested)
  else return name

/-- The number of a field as part of a number with points, `0` or `1` in `0.1`. -/
def indexPart (text : String) : Reader Tokens :=
  let negative := text.startsWith "-"
  let digits := if negative then text.toList.drop 1 else text.toList
  match LiteralValue.wholeNumber? digits with
  | some (magnitude, suffix) => fieldIndex negative magnitude (!suffix.isEmpty)
  | none => fail (.invalid "expected integer literal")

/-- The fields in a number with points, `0` and `1` in `0.1`. With a point at its end, a member
follows. -/
def indexChain (nested : Nested) (spelling : String) : Reader Tokens := do
  let parts ← ((spelling.splitOn ".").filter (!·.isEmpty)).mapM indexPart
  let chain := (op ".").intercalate parts
  if spelling.endsWith "." then return chain ++ op "." ++ (← memberAccess nested) else return chain

/-- What follows the point behind an atom: `await`, a number with points, or a member. -/
def pointAccess (nested : Nested) : Reader Tokens := do
  if ← peek (startsWord "await") then readWord "await"
  else
    match ← frontLiteral? with
    | some ⟨.float, number⟩ =>
      advance number.length
      indexChain nested (String.join (number.map Token.text))
    | _ => memberAccess nested

/-- What may follow an atom: calls, members, indices and question marks. -/
def trailers (nested : Nested) (atom : ExprCode) : Reader ExprCode := do
  let count := (← ahead).length
  repeatOn
    (fun (e : ExprCode) => do
      let tokens ← ahead
      let goOn (rest : Tokens) : ExprCode × Bool := (⟨e.tokens ++ rest, .other⟩, true)
      if startsGroup .parenthesis tokens then return goOn (← callArguments nested)
      else if startsOp "." tokens && !startsOp ".." tokens && e.form != .range then
        let point ← readOp "."
        return goOn (point ++ (← pointAccess nested))
      else if startsGroup .bracket tokens then
        return goOn (brackets (← readGroup .bracket nested.expressionTokens))
      else if startsOp "?" tokens then return goOn (← readOp "?")
      else return (e, false))
    (count + 1) atom

/-! ## Atoms -/

/-- Whether a range ends here, without an upper end. -/
def endsRange (allowStruct : Bool) (tokens : Tokens) : Bool :=
  tokens.isEmpty || startsOp "," tokens || startsOp ";" tokens ||
    (startsOp "." tokens && !startsOp ".." tokens) ||
    (!allowStruct && startsGroup .brace tokens)

/-- A range without a lower end. -/
def rangeExpression (nested : Nested) (allowStruct : Bool) : Reader Tokens := do
  let (dots, _) ← rangeDots
  if endsRange allowStruct (← ahead) then return dots
  else return dots ++ (← nested.expression allowStruct).tokens

/-- Expressions with commas between them, in parentheses or brackets. -/
def furtherElements (nested : Nested) (first : Tokens) : Reader Tokens := do
  if (← ahead).isEmpty then return first
  else
    let comma ← readOp ","
    let items ← readItems "," stopAtEnd nested.expressionTokens
    return first ++ comma ++ joinItems "," items

/-- A tuple, or an expression in parentheses. -/
def tupleExpression (nested : Nested) : Reader Tokens := do
  let content ← readGroup .parenthesis do
    if (← ahead).isEmpty then return []
    else furtherElements nested (← nested.expressionTokens)
  return parens content

/-- An array: a list of elements, or one element and how often it is repeated. -/
def arrayExpression (nested : Nested) : Reader Tokens := do
  let content ← readGroup .bracket do
    if (← ahead).isEmpty then return []
    else
      let first ← nested.expressionTokens
      let tokens ← ahead
      if tokens.isEmpty || startsOp "," tokens then furtherElements nested first
      else if startsOp ";" tokens then
        let semicolon ← readOp ";"
        return first ++ semicolon ++ (← nested.expressionTokens)
      else failExpected [quoted "," ++ " or " ++ quoted ";"]
  return brackets content

/-- One field of a structure with its value; a name may stand for itself. -/
def fieldValue (nested : Nested) : Reader Tokens := do
  let attributes ← attributeCode
  let (name, isName) ← member
  if !isName || (← peekOp ":") then
    let colon ← readOp ":"
    return attributes ++ name ++ colon ++ (← nested.expressionTokens)
  else return attributes ++ name

/-- The fields of a structure. Two dots, with what the other fields are taken from, end them. -/
def fieldValues (nested : Nested) : Reader Tokens := do
  let count := (← ahead).length
  let parts ← repeatFor
    (do
      if (← ahead).isEmpty then return ([], false)
      if ← peekOp ".." then
        let dots ← readOp ".."
        if (← ahead).isEmpty then return (dots, false)
        else return (dots ++ (← nested.expressionTokens), false)
      let field ← fieldValue nested
      if (← ahead).isEmpty then return (field, false)
      let comma ← readOp ","
      return (field ++ comma, true))
    (count + 1)
  return parts.flatten

/-- An atom that starts with a path: the path itself, a call of a macro, or a structure. -/
def pathExpression (nested : Nested) (allowStruct : Bool) : Reader ExprCode := do
  let start ← ahead
  let path ← anyPath nested true
  let tokens ← ahead
  if path.callsMacro tokens then return ⟨← macroCall path, .other⟩
  else if allowStruct && startsGroup .brace tokens then
    let fields ← readGroup .brace (fieldValues nested)
    if path.isQualified then return ⟨← writtenSince start, .written⟩
    else return ⟨path.code ++ braces fields, .other⟩
  else return ⟨path.code, .other⟩

def closureParameter (nested : Nested) : Reader Tokens := do
  let attributes ← attributeCode
  let pattern ← nested.pattern
  if ← peekOp ":" then
    let colon ← readOp ":"
    return attributes ++ pattern.tokens ++ colon ++ (← nested.typeTokens)
  else return pattern.behind attributes

/-- A closure. With a type for its result its body is a block. -/
def closure (nested : Nested) (allowStruct : Bool) : Reader Tokens := do
  let movability ← optionalWord "static"
  let asyncness ← optionalWord "async"
  let capture ← optionalWord "move"
  let opening ← readOp "|"
  let parameters ← readItems "," (startsOp "|") (closureParameter nested)
  let closing ← readOp "|"
  let (type, result) ← resultType nested true
  let body ← if type.isSome then nested.block false
    else ExprCode.tokens <$> nested.expression allowStruct
  return movability ++ asyncness ++ capture ++ opening ++ joinItems "," parameters ++ closing ++
    result ++ body

def startsGenericClosure (tokens : Tokens) : Bool :=
  startsWord "for" tokens && startsOp "<" tokens.tail &&
    (startsLifetime (tokens.drop 2) || startsOp ">" (tokens.drop 2))

def startsClosure (tokens : Tokens) : Bool :=
  startsOp "|" tokens || startsWord "static" tokens || startsWord "move" tokens ||
    (startsWord "async" tokens && (startsOp "|" tokens.tail || startsWord "move" tokens.tail))

/-- Whether an expression is left out behind a keyword such as `return`. -/
def endsValue (tokens : Tokens) : Bool :=
  tokens.isEmpty || startsOp "," tokens || startsOp ";" tokens

def breakExpression (nested : Nested) (allowStruct : Bool) : Reader Tokens := do
  let keyword ← readWord "break"
  let label ← if ← peek startsLifetime then readLifetime else pure []
  let tokens ← ahead
  if endsValue tokens || (!allowStruct && startsGroup .brace tokens) then return keyword ++ label
  else return keyword ++ label ++ (← nested.expression allowStruct).tokens

/-- A keyword with a value that may be missing. -/
def valueExpression (nested : Nested) (name : String) (allowStruct : Bool) : Reader Tokens := do
  let keyword ← readWord name
  if endsValue (← ahead) then return keyword
  else return keyword ++ (← nested.expression allowStruct).tokens

def conditional (nested : Nested) : Reader Tokens := do
  let count := (← ahead).length
  let parts ← repeatFor
    (do
      let keyword ← readWord "if"
      let condition ← nested.expression false
      let branch ← nested.block false
      let decision := keyword ++ condition.tokens ++ branch
      if !(← peek (startsWord "else")) then return (decision, false)
      let otherwise ← readWord "else"
      let tokens ← ahead
      if startsWord "if" tokens then return (decision ++ otherwise, true)
      else if startsGroup .brace tokens then
        return (decision ++ otherwise ++ (← nested.block false), false)
      else failExpected [])
    (count + 1)
  return parts.flatten

def loopExpression (nested : Nested) : Reader Tokens := do
  let tokens ← ahead
  if startsWord "while" tokens then
    let keyword ← readWord "while"
    let condition ← nested.expression false
    return keyword ++ condition.tokens ++ (← nested.block true)
  else if startsWord "for" tokens then
    let keyword ← readWord "for"
    let pattern ← alternation nested
    let inside ← readWord "in"
    let values ← nested.expression false
    return keyword ++ pattern ++ inside ++ values.tokens ++ (← nested.block true)
  else
    let keyword ← readWord "loop"
    return keyword ++ (← nested.block true)

/-- A loop or block behind a label. -/
def labelled (nested : Nested) : Reader Tokens := do
  let label ← readLifetime
  let colon ← readOp ":"
  let tokens ← ahead
  if ["while", "for", "loop"].any (startsWord · tokens) then
    return label ++ colon ++ (← loopExpression nested)
  else if startsGroup .brace tokens then return label ++ colon ++ (← nested.block true)
  else failExpected ["loop or block expression"]

def keywordBlock (nested : Nested) (name : String) (withAttributes : Bool) : Reader Tokens := do
  let keyword ← readWord name
  return keyword ++ (← nested.block withAttributes)

/-! ## Chains of operands -/

/-- Operators that change what stands on their left. -/
def assigningOps : List String :=
  ["+=", "-=", "*=", "/=", "%=", "^=", "&=", "|=", "<<=", ">>="]

/-- Comparisons, and the operators that bind tighter. -/
def tightOps : List String :=
  ["<<", ">>", "==", "<=", "!=", ">=", "+", "-", "*", "/", "%", "^", "&", "|", "<", ">"]

def binaryOps : List String :=
  assigningOps ++ ["&&", "||"] ++ tightOps

/-- Refuses what would belong to a type that something was cast to. -/
def checkCast : Reader Unit := do
  let tokens ← ahead
  let next := tokens.tail
  let refuse (what : String) : Reader Unit :=
    fail (.invalid ("casts cannot be followed by " ++ what))
  if startsOp "." tokens && !startsOp ".." tokens then
    if startsWord "await" next then refuse (quoted ".await")
    else if startsName next &&
        (startsGroup .parenthesis next.tail || startsOp "::" next.tail) then
      refuse "a method call"
    else refuse "a field access"
  else if startsOp "?" tokens then refuse (quoted "?")
  else if startsGroup .bracket tokens then refuse "indexing"
  else if startsGroup .parenthesis tokens then refuse "a function call"
  else return ()

/-- A type behind `as` or a colon. -/
def castType (nested : Nested) : Reader Tokens := do
  let type ← nested.type false
  checkCast
  return type.tokens

/-- What an expression goes on with behind an operand. -/
inductive Continuation where
  /-- A binary operator with its right operand. -/
  | operator
  | assignment
  | range
  /-- A type behind `as` or a colon. -/
  | cast
deriving DecidableEq

/-- The form of an expression that goes on. An operator takes the first operand with it, a range
all that is not assigned, and a cast no more than one operand. -/
def ExprForm.goOn : ExprForm → Continuation → ExprForm
  | .written, .operator => .leading false
  | .written, .assignment => .leading true
  | .leading isAssigned, .operator => .leading isAssigned
  | .leading _, .assignment => .leading true
  | .leading isAssigned, .cast => .leading isAssigned
  | .leading true, .range => .leading true
  | _, _ => .other

/-- What an expression goes on with behind an operand, or `none` at its end. With `tightOnly` it
ends before any operator that binds looser than a comparison. -/
def nextPart? (nested : Nested) (allowStruct tightOnly : Bool) :
    Reader (Option (Continuation × Tokens)) := do
  let tokens ← ahead
  match binaryOps.find? (startsOp · tokens) with
  | some found =>
    if tightOnly && !tightOps.contains found then return none
    let sign ← readOp found
    let kind := if assigningOps.contains found then .assignment else .operator
    return some (kind, sign ++ (← nested.operand allowStruct).tokens)
  | none =>
    if !tightOnly && startsOp "=" tokens && !startsOp "=>" tokens then
      let sign ← readOp "="
      return some (.assignment, sign ++ (← nested.operand allowStruct).tokens)
    else if !tightOnly && startsOp ".." tokens then
      let (dots, _) ← rangeDots
      if endsRange allowStruct (← ahead) then return some (.range, dots)
      else return some (.range, dots ++ (← nested.operand allowStruct).tokens)
    else if startsWord "as" tokens then
      let keyword ← readWord "as"
      return some (.cast, keyword ++ (← castType nested))
    else if startsColon tokens then
      let colon ← readOp ":"
      return some (.cast, colon ++ (← castType nested))
    else return none

/-- An expression whose first operand was read. -/
def chain (nested : Nested) (allowStruct tightOnly : Bool) (first : ExprCode) :
    Reader ExprCode := do
  let count := (← ahead).length
  repeatOn
    (fun e => do
      match ← nextPart? nested allowStruct tightOnly with
      | some (kind, part) => return (⟨e.tokens ++ part, e.form.goOn kind⟩, true)
      | none => return (e, false))
    (count + 1) first

def letExpression (nested : Nested) : Reader Tokens := do
  let keyword ← readWord "let"
  let pattern ← alternation nested
  let sign ← readOp "="
  let value ← chain nested false true (← nested.operand false)
  return keyword ++ pattern ++ sign ++ value.tokens

/-! ## Choosing among arms -/

/-- One arm of a `match`. Behind a body without a block a comma is needed. -/
def matchArm (nested : Nested) : Reader Tokens := do
  let attributes ← attributeCode
  let pattern ← alternation nested
  let guard ← if ← peek (startsWord "if") then do
      let keyword ← readWord "if"
      pure (keyword ++ (← nested.expressionTokens))
    else pure []
  let arrow ← readOp "=>"
  let body ← nested.statement
  let comma ← if body.form != .block && !(← ahead).isEmpty then readOp "," else optionalOp ","
  return attributes ++ pattern ++ guard ++ arrow ++ body.tokens ++ comma

def matchExpression (nested : Nested) : Reader Tokens := do
  let keyword ← readWord "match"
  let value ← nested.expression false
  let content ← readGroup .brace do
    let attributes ← innerAttributeCode
    let count := (← ahead).length
    let arms ← repeatFor
      (do
        if (← ahead).isEmpty then return ([], false)
        return (← matchArm nested, true))
      (count + 1)
    return attributes ++ arms.flatten
  return keyword ++ value.tokens ++ braces content

/-! ## Expressions -/

/-- An atom with a block of its own, if one starts here. -/
def blockAtom? (nested : Nested) : Reader (Option ExprCode) := do
  let tokens ← ahead
  let block (reader : Reader Tokens) : Reader (Option ExprCode) :=
    return some ⟨← reader, .block⟩
  if startsWord "if" tokens then block (conditional nested)
  else if startsWord "match" tokens then block (matchExpression nested)
  else if ["while", "loop"].any (startsWord · tokens) ||
      (startsWord "for" tokens && !startsGenericClosure tokens) then
    block (loopExpression nested)
  else if startsWord "try" tokens && startsGroup .brace tokens.tail then
    block (keywordBlock nested "try" false)
  else if startsWord "unsafe" tokens then block (keywordBlock nested "unsafe" true)
  else if startsWord "const" tokens then return some ⟨← constBlock nested, .written⟩
  else if startsGroup .brace tokens then block (nested.block true)
  else return none

def startsAsyncBlock (tokens : Tokens) : Bool :=
  startsWord "async" tokens &&
    (startsGroup .brace tokens.tail ||
      (startsWord "move" tokens.tail && startsGroup .brace (tokens.drop 2)))

def atom (nested : Nested) (allowStruct : Bool) : Reader ExprCode := do
  let tokens ← ahead
  let other (reader : Reader Tokens) : Reader ExprCode := return ⟨← reader, .other⟩
  if ← peekLiteral then other (Prod.snd <$> readLiteral)
  else if startsAsyncBlock tokens then
    let keyword ← readWord "async"
    let capture ← optionalWord "move"
    return ⟨keyword ++ capture ++ (← nested.block false), .block⟩
  else if startsClosure tokens then other (closure nested allowStruct)
  else if startsGenericClosure tokens then
    let written ← asWritten do
      let _ ← boundLifetimes
      closure nested allowStruct
    return ⟨written, .written⟩
  else if let some found ← blockAtom? nested then return found
  else if startsPath tokens then pathExpression nested allowStruct
  else if startsGroup .parenthesis tokens then other (tupleExpression nested)
  else if startsWord "break" tokens then other (breakExpression nested allowStruct)
  else if startsWord "continue" tokens then
    let keyword ← readWord "continue"
    let label ← if ← peek startsLifetime then readLifetime else pure []
    return ⟨keyword ++ label, .other⟩
  else if startsWord "return" tokens then other (valueExpression nested "return" allowStruct)
  else if startsGroup .bracket tokens then other (arrayExpression nested)
  else if startsWord "let" tokens then other (letExpression nested)
  else if startsWord "yield" tokens then other (valueExpression nested "yield" true)
  else if startsOp ".." tokens then return ⟨← rangeExpression nested allowStruct, .range⟩
  else if startsWord "_" tokens then return ⟨word (← readAnyWord), .written⟩
  else if startsLifetime tokens then return ⟨← labelled nested, .block⟩
  else failExpected ["expression"]

/-- An operand: an atom with what follows it, behind any number of signs. A reference to raw memory
is kept as it was written. -/
def operandLevel (nested : Nested) (allowStruct : Bool) : Reader ExprCode := do
  let start ← ahead
  let attributes ← attributeCode
  let tokens ← ahead
  if startsOp "&" tokens then
    let sign ← readOp "&"
    let next := tokens.tail
    if startsWord "raw" next && (startsWord "mut" next.tail || startsWord "const" next.tail) then
      advance 2
      let _ ← nested.operand allowStruct
      return ⟨← writtenSince start, .written⟩
    else
      let mutability ← optionalWord "mut"
      return ⟨attributes ++ sign ++ mutability ++ (← nested.operand allowStruct).tokens, .other⟩
  else if startsWord "box" tokens then
    let keyword ← readWord "box"
    return ⟨attributes ++ keyword ++ (← nested.operand allowStruct).tokens, .other⟩
  else if let some found := ["*", "!", "-"].find? (startsOp · tokens) then
    let sign ← readOp found
    return ⟨attributes ++ sign ++ (← nested.operand allowStruct).tokens, .other⟩
  else
    let e ← trailers nested (← atom nested allowStruct)
    if e.form = .written then return ⟨← writtenSince start, .written⟩
    else return ⟨attributes ++ e.tokens, e.form⟩

def expressionLevel (nested : Nested) (allowStruct : Bool) : Reader ExprCode := do
  chain nested allowStruct false (← operandLevel nested allowStruct)

/-- An operand behind attributes that were read before it. -/
def ExprCode.behind (e : ExprCode) (attributes : Tokens) : ExprCode :=
  if e.form = .written then e else { e with tokens := attributes ++ e.tokens }

/-- An expression as a statement or an arm: one with a block of its own ends with it, unless a
point or a question mark follows. -/
def statementLevel (nested : Nested) : Reader ExprCode := do
  let attributes ← attributeCode
  match ← blockAtom? nested with
  | some first =>
    let tokens ← ahead
    if (startsOp "." tokens && !startsOp ".." tokens) || startsOp "?" tokens then
      let e ← trailers nested first
      chain nested true false (e.behind attributes)
    else return first.behind attributes
  | none =>
    let first ← operandLevel nested true
    chain nested true false (first.behind attributes)

end PredictiveParser.Surface
