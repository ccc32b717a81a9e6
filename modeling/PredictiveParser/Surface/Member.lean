import PredictiveParser.Surface.Declaration
import PredictiveParser.Surface.Function

/-!
# Members

The members of traits, of implementations and of blocks of foreign items: functions, constants,
static variables, types, and calls of macros. What may be left out differs between them: a trait
may leave out bodies and values, a foreign block has to. A member that does not fit its place is
still read, and kept as it was written.
-/
namespace PredictiveParser.Surface

open Template

/-! ## Calls of macros -/

def startsMacroName (tokens : Tokens) : Bool :=
  startsName tokens || ["self", "super", "crate"].any (startsWord · tokens) || startsOp "::" tokens

/-- What can start the name of a macro, as named in messages. -/
def macroNameStarts : List String :=
  "identifier" :: ["self", "super", "crate", "::"].map quoted

/-- A call of a macro among items, where a name may stand behind the exclamation mark if `mayName`
holds. A semicolon follows arguments that do not stand in braces. -/
def macroItem (mayName : Bool) : Reader Tokens := do
  let (isAbsolute, path) ← readModulePath
  let sign ← readOp "!"
  let name ← if mayName && (← peek startsName) then word <$> readName else pure []
  let isBraced ← peek (startsGroup .brace)
  let arguments ← macroArguments
  let semicolon ← if isBraced then pure [] else readOp ";"
  return (if isAbsolute then op "::" else []) ++ Template.path path ++ sign ++ name ++ arguments ++
    semicolon

/-! ## Types -/

structure TypeItem where
  /-- The keyword and the name. -/
  head : Tokens
  /-- There are angle brackets behind the name. -/
  isGeneric : Bool
  parameters : Tokens
  /-- There is a colon, with or without bounds behind it. -/
  hasColon : Bool
  /-- The bounds with the colon in front; empty without any. -/
  bounds : Tokens
  /-- There is a where clause, with or without conditions. -/
  hasClause : Bool
  clause : Tokens
  /-- The type that the name stands for, with the equals sign in front; empty without one. -/
  value : Tokens

/-- A named type up to its semicolon. `mayTrail` says that the where clause may stand behind the
type that the name stands for. -/
def typeItem (nested : Nested) (mayTrail : Bool) : Reader TypeItem := do
  let keyword ← readWord "type"
  let name ← readName
  let isGeneric ← peekOp "<"
  let parameters ← genericParameters nested
  let colon ← optionalOp ":"
  let stop (tokens : Tokens) : Bool := startsWord "where" tokens || startsAnyOp ["=", ";"] tokens
  let bounds ← if colon.isEmpty then pure [] else readItems "+" stop nested.bound
  let leads ← peek (startsWord "where")
  let leading ← whereClause nested
  let value ← if ← peekOp "=" then do
      let sign ← readOp "="
      pure (sign ++ (← nested.typeTokens))
    else pure []
  let trails ← pure (mayTrail && !leads && startsWord "where" (← ahead))
  let trailing ← if trails then whereClause nested else pure []
  let _ ← readOp ";"
  return {
    head := keyword ++ word name
    isGeneric
    parameters := parameterCode parameters
    hasColon := !colon.isEmpty
    bounds := if bounds.isEmpty then [] else colon ++ joinItems "+" bounds
    hasClause := leads || trails
    clause := leading ++ trailing
    value }

/-! ## Parts of members -/

/-- A body with attributes at its start, or the semicolon that stands for one. -/
def bodyOrSemicolon (nested : Nested) : Reader Tokens := do
  if ← peekOp ";" then readOp ";" else nested.block true

def constantHead (nested : Nested) : Reader Tokens := do
  if (← peek startsName) || (← peek (startsWord "_")) then
    let name ← readAnyWord
    let colon ← readOp ":"
    return word name ++ colon ++ (← nested.typeTokens)
  else failExpected ["identifier", quoted "_"]

def valuePart (nested : Nested) : Reader Tokens := do
  let sign ← readOp "="
  return sign ++ (← nested.expressionTokens)

/-! ## Members of traits -/

def traitFunction (nested : Nested) : Reader Tokens := do
  let head ← functionHead nested
  let tokens ← ahead
  if startsGroup .brace tokens || startsOp ";" tokens then
    return head ++ (← bodyOrSemicolon nested)
  else failExpected ["curly braces", quoted ";"]

def traitConstant (nested : Nested) : Reader Tokens := do
  let keyword ← readWord "const"
  let head ← constantHead nested
  let value ← if ← peekOp "=" then valuePart nested else pure []
  return keyword ++ head ++ value ++ (← readOp ";")

/-- A member of a trait behind its attributes and what marks it. -/
def traitMemberBody (nested : Nested) : Reader Tokens := do
  let tokens ← ahead
  if ← peekFunction then traitFunction nested
  else if startsWord "const" tokens then
    let next := tokens.tail
    if startsName next || startsWord "_" next then traitConstant nested
    else if ["unsafe", "extern", "fn"].any (startsWord · next) then traitFunction nested
    else
      advance 1
      failExpected (["identifier"] ++ ["_", "async", "unsafe", "extern", "fn"].map quoted)
  else if startsWord "type" tokens then
    let type ← typeItem nested true
    return type.head ++ type.parameters ++ type.bounds ++ type.value ++ type.clause ++ op ";"
  else if startsMacroName tokens then macroItem false
  else failExpected (["fn", "const", "type"].map quoted ++ macroNameStarts)

/-- A member of a trait. One that is marked with a visibility or `default` is kept as it was
written. -/
def traitMember (nested : Nested) : Reader Tokens := do
  let start ← ahead
  let attributes ← attributeCode
  let visibility ← visibility
  let defaultness ← optionalWord "default"
  let body ← traitMemberBody nested
  if visibility.isEmpty && defaultness.isEmpty then return attributes ++ body
  else writtenSince start

/-! ## Members of implementations -/

/-- A member of an implementation behind its attributes; `start` is where it starts with them. One
without the value that it needs is kept as it was written. -/
def implMemberBody (nested : Nested) (start : Tokens) : Reader Piece := do
  let visibility ← visibility
  let tokens ← ahead
  let isDefault := startsWord "default" tokens && !startsOp "!" tokens.tail
  let defaultness ← if isDefault then readWord "default" else pure []
  let lead := visibility ++ defaultness
  let tokens ← ahead
  if ← peekFunction then
    let head ← functionHead nested
    return .standard (lead ++ head ++ (← bodyOrSemicolon nested))
  else if startsWord "const" tokens then
    let keyword ← readWord "const"
    let head ← constantHead nested
    if ← peekOp "=" then
      let value ← valuePart nested
      return .standard (lead ++ keyword ++ head ++ value ++ (← readOp ";"))
    else
      let _ ← readOp ";"
      keepSince start
  else if startsWord "type" tokens then
    let type ← typeItem nested true
    if type.hasColon || type.value.isEmpty then keepSince start
    else
      return .standard
        (lead ++ type.head ++ type.parameters ++ type.value ++ type.clause ++ op ";")
  else if lead.isEmpty && startsMacroName tokens then return .standard (← macroItem false)
  else
    failWords ((if isDefault then [] else ["default"]) ++ ["fn", "const", "type"])
      (if lead.isEmpty then macroNameStarts else [])

def implMember (nested : Nested) : Reader Tokens := do
  let start ← ahead
  let attributes ← attributeCode
  return (← implMemberBody nested start).behind attributes

/-! ## Foreign items -/

/-- A foreign item behind its attributes; `start` is where it starts with them. One with a body, a
value or anything else that is known elsewhere only is kept as it was written. -/
def foreignMemberBody (nested : Nested) (start : Tokens) : Reader Piece := do
  let visibility ← visibility
  let tokens ← ahead
  if ← peekFunction then
    let head ← functionHead nested
    if ← peek (startsGroup .brace) then
      let _ ← nested.block true
      keepSince start
    else return .standard (visibility ++ head ++ (← readOp ";"))
  else if startsWord "static" tokens then
    let keyword ← readWord "static"
    let mutability ← optionalWord "mut"
    let name ← readName
    let colon ← readOp ":"
    let type ← nested.typeTokens
    if ← peekOp "=" then
      let _ ← valuePart nested
      let _ ← readOp ";"
      keepSince start
    else
      let head := visibility ++ keyword ++ mutability ++ word name ++ colon ++ type
      return .standard (head ++ (← readOp ";"))
  else if startsWord "type" tokens then
    let type ← typeItem nested true
    if type.isGeneric || type.hasClause || type.hasColon || !type.value.isEmpty then
      keepSince start
    else return .standard (visibility ++ type.head ++ op ";")
  else if visibility.isEmpty && startsMacroName tokens then return .standard (← macroItem false)
  else failExpected (["fn", "static", "type"].map quoted ++
    (if visibility.isEmpty then macroNameStarts else []))

def foreignMember (nested : Nested) : Reader Tokens := do
  let start ← ahead
  let attributes ← attributeCode
  return (← foreignMemberBody nested start).behind attributes

/-! ## Lists of members -/

/-- Members in braces, with attributes at their start. -/
def memberBlock (member : Reader Tokens) : Reader Tokens := do
  let content ← readGroup .brace do
    let attributes ← innerAttributeCode
    let count := (← ahead).length
    let members ← repeatFor
      (do
        if (← ahead).isEmpty then return ([], false)
        return (← member, true))
      (count + 1)
    return attributes ++ members.flatten
  return braces content

end PredictiveParser.Surface
