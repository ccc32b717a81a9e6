import PredictiveParser.Surface.Reader

/-!
# Attributes

An attribute is a path with any tokens behind it: `#[path tokens]` in front of what it applies to,
`#![path tokens]` inside of it. The tokens are kept as they were written.
-/
namespace PredictiveParser.Surface

open Template

structure Attribute where
  /-- It stands inside of what it applies to. -/
  isInner : Bool
  path : List String
  /-- The path starts with `::`. -/
  isAbsolute : Bool
  tokens : Tokens

def Attribute.code (attr : Attribute) : Tokens :=
  op "#" ++ (if attr.isInner then op "!" else []) ++
    brackets ((if attr.isAbsolute then op "::" else []) ++ Template.path attr.path ++ attr.tokens)

/-- One round of reading names with `::` between them: a name with whether `::` follows it, and whether to
go on. -/
def nameRound (starts : Tokens → Bool) : Reader (Option (String × Bool) × Bool) := do
  if ← peek starts then
    let name ← readAnyWord
    if ← peekOp "::" then
      let _ ← readOp "::"
      return (some (name, true), true)
    else return (some (name, false), false)
  else return (none, false)

/-- The names of a path with `::` between them, as long as `starts` holds. -/
def readNames (starts : Tokens → Bool) : Reader (List String) := do
  let parts := (← repeatFor (nameRound starts) ((← ahead).length + 1)).filterMap id
  if parts.isEmpty then failExpected ["path"]
  else if parts.getLast?.any Prod.snd then failExpected ["path segment"]
  else return parts.map Prod.fst

/-- A name, or one of the keywords that a path may hold. -/
def startsModuleName (tokens : Tokens) : Bool :=
  startsName tokens || ["super", "self", "Self", "crate"].any (startsWord · tokens)

/-- A path without arguments: whether it starts with `::`, and its names. -/
def readModulePath : Reader (Bool × List String) := do
  let colons ← optionalOp "::"
  return (!colons.isEmpty, ← readNames startsModuleName)

/-- The second character of an attribute that stands inside of what it applies to. -/
def readInnerMark (isInner : Bool) : Reader Tokens :=
  if isInner then readOp "!" else pure []

/-- An attribute behind its marks. -/
def attributeBody (isInner : Bool) : Reader Attribute :=
  readGroup .bracket do
    let (isAbsolute, path) ← readModulePath
    let tokens ← ahead
    advance tokens.length
    return ⟨isInner, path, isAbsolute, tokens⟩

def readAttribute (isInner : Bool) : Reader Attribute := do
  let _ ← readOp "#"
  let _ ← readInnerMark isInner
  attributeBody isInner

/-- Whether an attribute stands in front. -/
def startsAttribute (isInner : Bool) (tokens : Tokens) : Bool :=
  startsOp "#" tokens && (!isInner || startsOp "!" tokens.tail)

/-- One round of reading attributes. -/
def attributeRound (isInner : Bool) : Reader (Option Attribute × Bool) := do
  if ← peek (startsAttribute isInner) then return (some (← readAttribute isInner), true)
  else return (none, false)

/-- The attributes that stand in front. -/
def attributesAhead (isInner : Bool) : Reader (List Attribute) := do
  return (← repeatFor (attributeRound isInner) ((← ahead).length + 1)).filterMap id

/-- The attributes in front of something. -/
def readAttributes : Reader (List Attribute) :=
  attributesAhead false

/-- The attributes at the start of something that apply to it. -/
def readInnerAttributes : Reader (List Attribute) :=
  attributesAhead true

def attributeCode : Reader Tokens := do
  return (← readAttributes).flatMap Attribute.code

def innerAttributeCode : Reader Tokens := do
  return (← readInnerAttributes).flatMap Attribute.code

/-- The attributes that a text consists of. -/
def attributesOf (source : String) : Except (Failure SyntaxError) (List Attribute) :=
  readText readAttributes source

end PredictiveParser.Surface
