import PredictiveParser.Surface.Attribute

/-!
# What may be nested

Types, bounds, expressions, patterns, blocks and items are nested in each other. A reader for one of
them takes the readers for what is nested in it from a `Nested`, whose readers stand one level
further down; `Surface.Code` ties the knot.

The generator never looks inside code, so a reader gives back the tokens in the standard spacing,
and of the structure of what it read only a `form`: the part that what stands around it asks for.
-/
namespace PredictiveParser.Surface

/-- A piece of code, and whether it was kept as it was written. -/
structure Piece where
  tokens : Tokens
  isWritten : Bool

def Piece.standard (tokens : Tokens) : Piece :=
  ⟨tokens, false⟩

/-- A piece of code behind attributes that were read before it. What is kept as it was written has
no place for them. -/
def Piece.behind (piece : Piece) (attributes : Tokens) : Tokens :=
  if piece.isWritten then piece.tokens else attributes ++ piece.tokens

/-- The code since `start` was ahead, kept as it was written. -/
def keepSince (start : Tokens) : Reader Piece := do
  return ⟨← writtenSince start, true⟩

inductive TypeForm where
  /-- A path, and whether it is a single name with arguments between angle brackets. -/
  | path (isApplied : Bool)
  /-- Bounds without a keyword in front. A single one with nothing behind it is given, without
  parentheses of its own. -/
  | bounds (single : Option Tokens)
  /-- A type in parentheses. -/
  | parenthesized
  | other

structure TypeCode where
  tokens : Tokens
  form : TypeForm

inductive ExprForm where
  /-- It ends in a block of its own, so as a statement it needs no semicolon. -/
  | block
  /-- A range without a lower end. -/
  | range
  /-- It is kept as it was written. -/
  | written
  /-- Its first operand is kept as it was written, with an operator behind it; `isAssigned` says
  whether an assignment is among the operators. -/
  | leading (isAssigned : Bool)
  | other
deriving DecidableEq

structure ExprCode where
  tokens : Tokens
  form : ExprForm

/-- Whether attributes in front of a statement are lost: they belong to its first operand, which
has no place for them. -/
def ExprForm.losesAttributes : ExprForm → Bool
  | .written => true
  | .leading _ => true
  | _ => false

/-- Readers for what may be nested in a piece of code. -/
structure Nested where
  /-- A type; the argument says whether a `+` may follow, as in `A + B`. -/
  type : Bool → Reader TypeCode
  /-- A bound of a type. -/
  bound : Reader Tokens
  /-- An expression; the argument says whether a brace behind a path makes it a structure. -/
  expression : Bool → Reader ExprCode
  /-- An operand of an expression: what stands between binary operators. -/
  operand : Bool → Reader ExprCode
  /-- An expression as a statement or an arm, which may end with a block of its own. -/
  statement : Reader ExprCode
  /-- A pattern without alternatives. -/
  pattern : Reader Piece
  /-- A block; the argument says whether it may start with attributes. -/
  block : Bool → Reader Tokens
  /-- An item with its attributes. -/
  item : Reader Tokens

/-- The tokens of a type behind which a `+` may follow. -/
def Nested.typeTokens (nested : Nested) : Reader Tokens :=
  TypeCode.tokens <$> nested.type true

/-- The tokens of an expression in which structures may be written. -/
def Nested.expressionTokens (nested : Nested) : Reader Tokens :=
  ExprCode.tokens <$> nested.expression true

end PredictiveParser.Surface
