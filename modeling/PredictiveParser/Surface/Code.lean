import PredictiveParser.Surface.Statement

/-!
# Readers for whole pieces of code

`Nested.ofDepth` ties the knot between the readers for types, expressions, patterns, blocks and
items: what is nested is read one level further down, and the levels suffice for the tokens there
are. The functions at the end read whole texts.
-/
namespace PredictiveParser.Surface

/-- The readers of one level, given those for what is nested. -/
def Nested.level (nested : Nested) : Nested where
  type := typeLevel nested
  bound := Bound.code <$> anyBound nested
  expression := expressionLevel nested
  operand := operandLevel nested
  statement := statementLevel nested
  pattern := patternLevel nested
  block := blockLevel nested
  item := itemLevel nested

def Nested.none : Nested where
  type := fun _ => fail .leftover
  bound := fail .leftover
  expression := fun _ => fail .leftover
  operand := fun _ => fail .leftover
  statement := fail .leftover
  pattern := fail .leftover
  block := fun _ => fail .leftover
  item := fail .leftover

/-- Readers for code that is nested at most `depth` levels deep. -/
def Nested.ofDepth (depth : Nat) : Nested :=
  nested Nested.none Nested.level depth

/-- Readers for what is ahead. A level that takes no token, such as that of a block which is an
expression, is followed by one that does. -/
def readers : Reader Nested := do
  return Nested.ofDepth (2 * size (← ahead) + 2)

def readType : Reader Tokens := do
  (← readers).typeTokens

def readPath : Reader Tokens := do
  return (← plainPath (← readers) false).code

def readDeclaration : Reader Declaration := do
  let nested ← readers
  let _ ← readAttributes
  let _ ← visibility
  return (← declaration nested).1

/-- The type that a text spells. -/
def typeOf (source : String) : Except (Failure SyntaxError) Tokens :=
  readText readType source

/-- The path that a text spells. -/
def pathOf (source : String) : Except (Failure SyntaxError) Tokens :=
  readText readPath source

/-- The declaration that a text consists of. -/
def declarationOf (source : String) : Except (Failure SyntaxError) Declaration :=
  readText readDeclaration source

end PredictiveParser.Surface
