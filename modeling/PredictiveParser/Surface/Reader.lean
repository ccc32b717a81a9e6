import PredictiveParser.Code.Literal
import PredictiveParser.Error

/-!
# Reading token trees

Types, expressions, attributes and declarations are read from token trees by small readers. A
reader takes tokens off the front of its input. What it gives back is printed anew, so the spacing
of operators in the source is lost; a few constructs are kept as they were written (`asWritten`).

A group is read by a reader of its own. Tokens that are left over in a group are refused at the end
only, so an error met in between comes first.
-/
namespace PredictiveParser.Surface

/-- Why a text cannot be read. -/
inductive SyntaxError where
  /-- The text has no tokens. -/
  | lexical
  /-- A token is left over. -/
  | leftover
  /-- One of these was expected, at the end of the input or in front of another token. -/
  | expected (what : List String) (atEnd : Bool)
  /-- Something is missing or does not fit, in so many words. -/
  | invalid (reason : String)
deriving DecidableEq

/-- The alternatives of an expectation in words. -/
def expectationText : List String → String
  | [] => "unexpected token"
  | [one] => "expected " ++ one
  | [one, other] => "expected " ++ one ++ " or " ++ other
  | many => "expected one of: " ++ ", ".intercalate many

def SyntaxError.message : SyntaxError → String
  | .lexical => "lex error"
  | .leftover => "unexpected token"
  | .expected [] true => "unexpected end of input"
  | .expected what atEnd =>
    (if atEnd then "unexpected end of input, " else "") ++ expectationText what
  | .invalid reason => reason

/-- The tokens still to be read, and whether some token was left over in a group. -/
structure Input where
  rest : Tokens
  leftover : Bool

/-- One input comes behind another: it is an end of it, and forgets no token that is left over. -/
structure Input.Behind (after input : Input) : Prop where
  suffix : after.rest <:+ input.rest
  leftover : input.leftover = true → after.leftover = true

theorem Input.behind_refl (input : Input) : input.Behind input :=
  ⟨List.suffix_rfl, id⟩

theorem Input.Behind.trans {after between input : Input} (h : after.Behind between)
    (h' : between.Behind input) : after.Behind input :=
  ⟨h.suffix.trans h'.suffix, fun hleftover => h.leftover (h'.leftover hleftover)⟩

/-- A reader fails with a syntax error, or with a fault at a literal that has no value. What it leaves
comes behind what it was given. -/
structure Reader (α : Type) where
  run : Input → Except (Failure SyntaxError) (α × Input)
  behind : ∀ {input value after}, run input = .ok (value, after) → after.Behind input

namespace Reader

variable {α β : Type}

/-- Reads nothing. -/
protected def pure (value : α) : Reader α where
  run input := .ok (value, input)
  behind h := by
    cases h
    exact Input.behind_refl _

/-- Reads on with what `f` makes of the value. -/
protected def bind (reader : Reader α) (f : α → Reader β) : Reader β where
  run input :=
    match reader.run input with
    | .ok (value, between) => (f value).run between
    | .error failure => .error failure
  behind := by
    intro input value after h
    split at h
    · rename_i value' between hread
      exact ((f value').behind h).trans (reader.behind hread)
    · cases h

instance : Monad Reader where
  pure := Reader.pure
  bind := Reader.bind

end Reader

/-- How a keyword or operator is named in messages. -/
def quoted (text : String) : String :=
  "`" ++ text ++ "`"

/-! ## Looking at the front of the input -/

/-- Whether operator characters stand in front; they are joined, and the last one may be joined to
anything. -/
def startsChars : List Char → Tokens → Bool
  | [], _ => true
  | [c], .punct d _ :: _ => c == d
  | c :: chars, .punct d .joint :: rest => c == d && startsChars chars rest
  | _, _ => false

/-- Whether an operator stands in front, possibly as the beginning of a longer one. -/
def startsOp (op : String) (tokens : Tokens) : Bool :=
  startsChars op.toList tokens

def isKeyword (name : String) : Bool :=
  ["_", "abstract", "as", "become", "box", "break", "const", "continue", "crate", "do", "else",
    "enum", "extern", "false", "final", "fn", "for", "if", "impl", "in", "let", "loop", "macro",
    "match", "mod", "move", "mut", "override", "priv", "pub", "ref", "return", "Self", "self",
    "static", "struct", "super", "trait", "true", "type", "typeof", "unsafe", "unsized", "use",
    "virtual", "where", "while", "yield"].contains name

def startsWord (name : String) : Tokens → Bool
  | .ident n :: _ => n == name
  | _ => false

def startsName : Tokens → Bool
  | .ident n :: _ => !isKeyword n
  | _ => false

def startsAnyWord : Tokens → Bool
  | .ident _ :: _ => true
  | _ => false

def startsLifetime : Tokens → Bool
  | .punct '\'' .joint :: .ident _ :: _ => true
  | _ => false

def startsColon (tokens : Tokens) : Bool :=
  startsOp ":" tokens && !startsOp "::" tokens

def stopAtEnd (tokens : Tokens) : Bool :=
  tokens.isEmpty

def startsGroup (delimiter : Delimiter) : Tokens → Bool
  | .group d _ :: _ => d == delimiter
  | _ => false

/-- A literal in front of the input: its value and its tokens. -/
structure FrontLiteral where
  value : LiteralValue
  tokens : Tokens

/-- The literal in front of some tokens. A minus sign belongs to a number. -/
def literalAt? : Tokens → Option FrontLiteral
  | .literal spelling :: _ => some ⟨.ofSpelling spelling, [.literal spelling]⟩
  | .punct '-' _ :: .literal spelling :: _ =>
    let tokens := Template.op "-" ++ [Token.literal spelling]
    match LiteralValue.ofSpelling spelling with
    | .int _ magnitude => some ⟨.int true magnitude, tokens⟩
    | .float => some ⟨.float, tokens⟩
    | _ => none
  | .ident "true" :: _ => some ⟨.bool true, [.ident "true"]⟩
  | .ident "false" :: _ => some ⟨.bool false, [.ident "false"]⟩
  | _ => none

/-- The tokens behind the first token tree; a lifetime counts as one. -/
def afterTree : Tokens → Tokens
  | .punct '\'' .joint :: .ident _ :: rest => rest
  | tokens => tokens.tail

/-! ## Basic readers -/

def ahead : Reader Tokens where
  run input := .ok (input.rest, input)
  behind h := by
    cases h
    exact Input.behind_refl _

/-- Whether the tokens still to be read satisfy a condition. -/
def peek (condition : Tokens → Bool) : Reader Bool := do
  return condition (← ahead)

def peekOp (op : String) : Reader Bool :=
  peek (startsOp op)

def advance (count : Nat) : Reader Unit where
  run input := .ok ((), { input with rest := input.rest.drop count })
  behind h := by
    cases h
    exact ⟨List.drop_suffix _ _, id⟩

/-- What a reader would read here, and the tokens that it would leave. Nothing is taken. -/
def lookahead {α : Type} (reader : Reader α) : Reader (Except (Failure SyntaxError) (α × Tokens)) where
  run input := .ok ((reader.run ⟨input.rest, false⟩).map fun (value, after) => (value, after.rest), input)
  behind h := by
    cases h
    exact Input.behind_refl _

def failWith {α : Type} (failure : Failure SyntaxError) : Reader α where
  run _ := .error failure
  behind := nofun

def fail {α : Type} (error : SyntaxError) : Reader α :=
  failWith (.error error)

/-- Fails because one of these was expected here. -/
def failExpected {α : Type} (what : List String) : Reader α := do
  fail (.expected what (← ahead).isEmpty)

/-- Fails because one of these words, or one of `others`, was expected here. A word that does stand
here was refused for what follows it, and is not named. -/
def failWords {α : Type} (words others : List String) : Reader α := do
  let tokens ← ahead
  failExpected ((words.filter fun word => !startsWord word tokens).map quoted ++ others)

/-- The tokens read since `start` was ahead, as they were written. -/
def writtenSince (start : Tokens) : Reader Tokens := do
  return start.take (start.length - (← ahead).length)

/-- Reads as `reader` does, and gives the tokens as they were written. -/
def asWritten {α : Type} (reader : Reader α) : Reader Tokens := do
  let start ← ahead
  let _ ← reader
  writtenSince start

/-- An operator. A missing one is called by its name alone, also at the end of the input. -/
def readOp (op : String) : Reader Tokens := do
  let tokens ← ahead
  if startsOp op tokens then
    advance op.length
    return Template.op op
  else fail (.expected [quoted op] false)

def optionalOp (op : String) : Reader Tokens := do
  if ← peekOp op then readOp op else return []

def readWord (name : String) : Reader Tokens := do
  let tokens ← ahead
  if startsWord name tokens then
    advance 1
    return Template.word name
  else failExpected [quoted name]

def optionalWord (name : String) : Reader Tokens := do
  if ← peek (startsWord name) then readWord name else return []

def readAnyWord : Reader String := do
  match ← ahead with
  | .ident name :: _ =>
    advance 1
    return name
  | _ => failExpected ["ident"]

def readName : Reader String := do
  if ← peek startsName then readAnyWord else failExpected ["identifier"]

def readLifetime : Reader Tokens := do
  match ← ahead with
  | .punct '\'' .joint :: .ident name :: _ =>
    advance 2
    return Template.lifetime name
  | _ => failExpected ["lifetime"]

/-- The literal in front, if there is one. To look at a literal is to ask for its value, so one
that has none is a fault. -/
def frontLiteral? : Reader (Option FrontLiteral) := do
  let found := literalAt? (← ahead)
  match found with
  | some ⟨.unknown, tokens⟩ => failWith (.fault (.unknownLiteral (Tokens.text tokens)))
  | _ => return found

def peekLiteral : Reader Bool := do
  return (← frontLiteral?).isSome

def readLiteral : Reader (LiteralValue × Tokens) := do
  match ← frontLiteral? with
  | some ⟨value, tokens⟩ =>
    advance tokens.length
    return (value, tokens)
  | none => failExpected ["literal"]

def Delimiter.words : Delimiter → String
  | .parenthesis => "parentheses"
  | .bracket => "square brackets"
  | .brace => "curly braces"
  | .invisible => "invisible group"

/-- Reads what stands in a group. -/
def readGroup {α : Type} (delimiter : Delimiter) (reader : Reader α) : Reader α where
  run input :=
    match input.rest with
    | .group d body :: rest =>
      if d = delimiter then
        match reader.run { input with rest := body } with
        | .ok (value, inside) => .ok (value, ⟨rest, inside.leftover || !inside.rest.isEmpty⟩)
        | .error failure => .error failure
      else (failExpected [Delimiter.words delimiter]).run input
    | _ => (failExpected [Delimiter.words delimiter]).run input
  behind := by
    intro input value after h
    split at h
    · rename_i d body rest hinput
      split at h
      · split at h
        · rename_i value' inside hread
          cases h
          refine ⟨hinput ▸ List.suffix_cons _ _, fun hleftover => ?_⟩
          rw [(reader.behind hread).leftover hleftover, Bool.true_or]
        · cases h
      · exact (failExpected _).behind h
    · exact (failExpected _).behind h

/-- Repeats a reader, at most as often as there are tokens, until it says that it is done. -/
def repeatFor {α : Type} (reader : Reader (α × Bool)) : (count : Nat) → Reader (List α)
  | 0 => return []
  | count + 1 => do
    let (value, more) ← reader
    if more then return value :: (← repeatFor reader count) else return [value]

/-- Repeats a step on a value, at most as often as there are tokens, until it says that it is
done. -/
def repeatOn {α : Type} (step : α → Reader (α × Bool)) : (count : Nat) → α → Reader α
  | 0, value => return value
  | count + 1, value => do
    let (value, more) ← step value
    if more then repeatOn step count value else return value

/-- One round of reading items with an operator between them, where no operator follows the item that
`isLast` holds behind: the item with whether the operator follows it, and whether to go on. -/
def itemRound {α : Type} (separator : String) (stop isLast : Tokens → Bool) (item : Reader α) :
    Reader (Option (α × Bool) × Bool) := do
  if ← peek stop then return (none, false)
  let value ← item
  if ← peek isLast then return (some (value, false), false)
  let _ ← readOp separator
  return (some (value, true), true)

/-- Items with an operator between them, and possibly behind the last. -/
def readItemsUntil {α : Type} (separator : String) (stop isLast : Tokens → Bool) (item : Reader α) :
    Reader (List (α × Bool)) := do
  let parts ← repeatFor (itemRound separator stop isLast item) ((← ahead).length + 1)
  return parts.filterMap id

/-- Items with an operator between them, and possibly behind the last. Items are read until
`stop` holds; each is given with whether the operator follows it. -/
def readItems {α : Type} (separator : String) (stop : Tokens → Bool) (item : Reader α) :
    Reader (List (α × Bool)) :=
  readItemsUntil separator stop stop item

/-- Items with an operator between them, and possibly behind the last, as long as the operator
follows. -/
def readWhile {α : Type} (separator : String) (stop : Tokens → Bool) (item : Reader α) :
    Reader (List (α × Bool)) :=
  readItemsUntil separator stop (fun tokens => !startsOp separator tokens) item

/-- The tokens of items with the operator behind those that have it. -/
def joinItems (separator : String) (items : List (Tokens × Bool)) : Tokens :=
  items.flatMap fun item => item.1 ++ (if item.2 then Template.op separator else [])

def readAll {α : Type} (reader : Reader α) (tokens : Tokens) :
    Except (Failure SyntaxError) α := do
  let (value, input) ← reader.run ⟨tokens, false⟩
  if input.leftover || !input.rest.isEmpty then throw (.error .leftover)
  return value

def readText {α : Type} (reader : Reader α) (source : String) : Except (Failure SyntaxError) α :=
  match Tokens.lex source with
  | some tokens => readAll reader tokens
  | none => throw (.error .lexical)

mutual

/-- The number of tokens in one token tree. -/
def treeSize : Token → Nat
  | .group _ body => 1 + size body
  | _ => 1

/-- The number of tokens in token trees. -/
def size : List Token → Nat
  | [] => 0
  | token :: rest => treeSize token + size rest

end

/-- Ties the knot of a reader that needs itself for what is nested inside: `depth` readers inside
each other, with `base` at the bottom. -/
def nested {β : Type} (base : β) (reader : β → β) : (depth : Nat) → β
  | 0 => base
  | depth + 1 => reader (nested base reader depth)

end PredictiveParser.Surface
