import PredictiveParser.Code.Token
import PredictiveParser.Text.Identifier
import PredictiveParser.Text.Quoted
import PredictiveParser.Text.WhiteSpace

/-!
# From source text to token trees

`Tokens.lex` reads a text as a list of token trees. Blanks and plain comments separate tokens, doc
comments become attributes. At each place a delimiter, a literal, an operator character and a name
are tried in this order; a text where none of them fits, or whose delimiters do not match, is
refused.

Every scanner takes the characters still to be read and gives back those behind what it accepts, so
the accepted text is what stands before the rest.
-/
namespace PredictiveParser.Lexer

open Text

/-- The characters of `whole` that stand before its end `rest`. -/
def before (whole rest : List Char) : List Char :=
  whole.take (whole.length - rest.length)

def skip? (start : String) (cs : List Char) : Option (List Char) :=
  if start.toList.isPrefixOf cs then some (cs.drop start.length) else none

def startsWith (start : String) (cs : List Char) : Bool :=
  start.toList.isPrefixOf cs

/-! ## Blanks and comments -/

/-- The rest after a block comment whose opening was read; `depth` counts the comments nested
inside it that are still open. -/
def blockEnd? (depth : Nat) : List Char → Option (List Char)
  | '/' :: '*' :: rest => blockEnd? (depth + 1) rest
  | '*' :: '/' :: rest =>
    match depth with
    | 0 => some rest
    | depth + 1 => blockEnd? depth rest
  | _ :: rest => blockEnd? depth rest
  | [] => none

def blockComment? (cs : List Char) : Option (List Char) :=
  (skip? "/*" cs).bind (blockEnd? 0)

/-- The characters of a line and the rest, which starts with the line feed. A carriage return
before the line feed belongs to neither. -/
def splitLine : List Char → List Char × List Char
  | [] => ([], [])
  | '\n' :: rest => ([], '\n' :: rest)
  | '\r' :: '\n' :: rest => ([], '\n' :: rest)
  | c :: rest => (c :: (splitLine rest).1, (splitLine rest).2)

/-- The rest after one blank or plain comment. -/
def blank? (cs : List Char) : Option (List Char) :=
  if startsWith "//" cs && (!startsWith "///" cs || startsWith "////" cs) && !startsWith "//!" cs then
    some (splitLine cs).2
  else if startsWith "/**/" cs then some (cs.drop 4)
  else if startsWith "/*" cs && (!startsWith "/**" cs || startsWith "/***" cs)
      && !startsWith "/*!" cs then
    blockComment? cs
  else match cs with
    | c :: rest => if isBlank c then some rest else none
    | [] => none

def skipBlanks (cs : List Char) : List Char :=
  match blank? cs with
  | none => cs
  | some rest => if rest.length < cs.length then skipBlanks rest else rest
termination_by cs.length

/-- Whether some carriage return is not followed by a line feed. -/
def hasBareReturn : List Char → Bool
  | [] => false
  | '\r' :: '\n' :: rest => hasBareReturn rest
  | c :: rest => c == '\r' || hasBareReturn rest

/-- The text of a block comment without its three opening and two closing characters. -/
def blockDoc? (cs : List Char) : Option (List Char × List Char) := do
  let rest ← blockComment? cs
  let whole := before cs rest
  return ((whole.drop 3).take (whole.length - 5), rest)

/-- A doc comment: whether it documents what encloses it, its text, and the rest. -/
def docComment? (cs : List Char) : Option (Bool × List Char × List Char) :=
  let found : Option (Bool × List Char × List Char) :=
    if startsWith "//!" cs then some (true, splitLine (cs.drop 3))
    else if startsWith "/*!" cs then (blockDoc? cs).map fun doc => (true, doc)
    else if startsWith "///" cs then
      if startsWith "////" cs then none else some (false, splitLine (cs.drop 3))
    else if startsWith "/**" cs && !startsWith "/***" cs then
      (blockDoc? cs).map fun doc => (false, doc)
    else none
  found.filter fun doc => !hasBareReturn doc.2.1

/-- The attribute that a doc comment stands for. -/
def docTokens (inner : Bool) (text : List Char) : Tokens :=
  [.punct '#' .alone] ++ (if inner then [.punct '!' .alone] else []) ++
    [.group .bracket [.ident "doc", .punct '=' .alone,
      .literal (quotedString (String.ofList text))]]

/-! ## Names -/

def plainName? : List Char → Option (List Char)
  | c :: rest => if isIdentStart c then some (rest.dropWhile isIdentContinue) else none
  | [] => none

/-- The rest after a name that may be raw. Some keywords have no raw form. -/
def anyName? (cs : List Char) : Option (List Char) :=
  if startsWith "r#" cs then do
    let rest ← plainName? (cs.drop 2)
    let name := String.ofList (before (cs.drop 2) rest)
    if ["_", "super", "self", "Self", "crate"].contains name then none else some rest
  else plainName? cs

/-- How a string or byte literal starts; a name does not start that way. -/
def literalOpenings : List String :=
  ["r\"", "r#\"", "r##", "b\"", "b'", "br\"", "br#", "c\"", "cr\"", "cr#"]

def name? (cs : List Char) : Option (List Char) :=
  if literalOpenings.any (startsWith · cs) then none else anyName? cs

def afterSuffix (cs : List Char) : List Char :=
  (plainName? cs).getD cs

/-! ## Strings -/

inductive StringKind where
  | text
  | bytes
  /-- A string that ends in a NUL and holds no other. -/
  | terminated
deriving DecidableEq

def hexDigit? (c : Char) : Option Nat :=
  if c.isDigit then some (c.toNat - '0'.toNat)
  else if 'a' ≤ c ∧ c ≤ 'f' then some (c.toNat - 'a'.toNat + 10)
  else if 'A' ≤ c ∧ c ≤ 'F' then some (c.toNat - 'A'.toNat + 10)
  else none

/-- Whether `\x` may be followed by these two digits. -/
def StringKind.allowsHex (kind : StringKind) (high low : Char) : Bool :=
  match hexDigit? high, hexDigit? low with
  | some h, some l =>
    match kind with
    | .text => h < 8
    | .bytes => true
    | .terminated => h != 0 || l != 0
  | _, _ => false

/-- Whether a character may stand for itself. -/
def StringKind.allowsChar (kind : StringKind) (c : Char) : Bool :=
  match kind with
  | .text => true
  | .bytes => c.toNat < 128
  | .terminated => c != '\x00'

/-- Whether a backslash may be followed by this character alone. -/
def StringKind.allowsEscape (kind : StringKind) (c : Char) : Bool :=
  ['n', 'r', 't', '\\', '\'', '"'].contains c || (c == '0' && kind != .terminated)

/-- The value and the rest after the digits of a Unicode escape and its closing brace. It has one
to six digits, with underscores after the first. -/
def codePoint? (digits value : Nat) : List Char → Option (Nat × List Char)
  | [] => none
  | c :: rest =>
    match hexDigit? c with
    | some d => if digits = 6 then none else codePoint? (digits + 1) (value * 16 + d) rest
    | none =>
      if digits = 0 then none
      else if c == '_' then codePoint? digits value rest
      else if c == '\x7d' && value.isValidChar then some (value, rest)
      else none

/-- The rest after a Unicode escape whose backslash and `u` were read. -/
def unicodeEscape? (kind : StringKind) : List Char → Option (List Char)
  | '\x7b' :: rest => do
    let (value, rest) ← codePoint? 0 0 rest
    if kind == .bytes || (kind == .terminated && value == 0) then none else some rest
  | _ => none

/-- The rest after an escape whose backslash was read, unless it is a line continuation. -/
def escape? (kind : StringKind) : List Char → Option (List Char)
  | 'x' :: high :: low :: rest => if kind.allowsHex high low then some rest else none
  | 'u' :: rest => unicodeEscape? kind rest
  | c :: rest => if kind.allowsEscape c then some rest else none
  | [] => none

/-- The rest after a string whose opening quote was read, suffix included. After a backslash at the
end of a line, blanks are skipped: `skipping` says that only blanks were read since. -/
def stringEnd? (kind : StringKind) (skipping : Bool) (cs : List Char) : Option (List Char) :=
  match cs with
  | [] => none
  | '\r' :: '\n' :: rest => stringEnd? kind skipping rest
  | c :: rest =>
    if c == '\r' then none
    else if skipping && [' ', '\t', '\n'].contains c then stringEnd? kind true rest
    else if c == '"' then some (afterSuffix rest)
    else if c == '\\' then
      if rest.head? == some '\n' || rest.head? == some '\r' then stringEnd? kind true rest
      else
        match escape? kind rest with
        | some rest' => if rest'.length ≤ rest.length then stringEnd? kind false rest' else none
        | none => none
    else if kind.allowsChar c then stringEnd? kind false rest
    else none
termination_by cs.length
decreasing_by all_goals simp_wf <;> omega

/-- The number signs of a raw string and what follows its opening quote. -/
def rawOpening? (cs : List Char) : Option (List Char × List Char) :=
  let hashes := cs.takeWhile (· == '#')
  match cs.dropWhile (· == '#') with
  | '"' :: rest => if hashes.length ≤ 255 then some (hashes, rest) else none
  | _ => none

/-- The rest after a raw string whose opening quote was read, suffix included. -/
def rawEnd? (kind : StringKind) (hashes : List Char) : List Char → Option (List Char)
  | [] => none
  | '\r' :: '\n' :: rest => rawEnd? kind hashes rest
  | c :: rest =>
    if c == '"' && hashes.isPrefixOf rest then some (afterSuffix (rest.drop hashes.length))
    else if c == '\r' then none
    else if kind.allowsChar c then rawEnd? kind hashes rest
    else none

def stringLiteral? (kind : StringKind) (cooked raw : String) (cs : List Char) :
    Option (List Char) :=
  match skip? cooked cs with
  | some rest => stringEnd? kind false rest
  | none => do
    let (hashes, rest) ← rawOpening? (← skip? raw cs)
    rawEnd? kind hashes rest

/-! ## Characters -/

/-- The rest after the closing quote of a character and its suffix. -/
def charEnd? : List Char → Option (List Char)
  | '\'' :: rest => some (afterSuffix rest)
  | _ => none

/-- The rest after a character or byte literal with the given opening. -/
def charLiteral? (kind : StringKind) (opening : String) (cs : List Char) : Option (List Char) := do
  match ← skip? opening cs with
  | '\\' :: rest => charEnd? (← escape? kind rest)
  | c :: rest => if kind.allowsChar c then charEnd? rest else none
  | [] => none

/-! ## Numbers -/

def isDecimal (c : Char) : Bool :=
  c.isDigit || c == '_'

/-- The rest after an exponent whose letter was read: a sign and at least one digit. -/
def exponentEnd? (signed value : Bool) : List Char → Option (List Char)
  | [] => if value then some [] else none
  | c :: rest =>
    if c.isDigit then exponentEnd? signed true rest
    else if c == '_' then exponentEnd? signed value rest
    else if value then some (c :: rest)
    else if (c == '+' || c == '-') && !signed then exponentEnd? true value rest
    else none

def isExponentLetter (c : Char) : Bool :=
  c == 'e' || c == 'E'

/-- The rest after the digits of a number with a point or an exponent. A point before another point
or a name belongs to what follows. -/
def floatDigits? : List Char → Option (List Char)
  | [] => none
  | c :: rest =>
    if !c.isDigit then none
    else match rest.dropWhile isDecimal with
      | '.' :: fraction =>
        if fraction.head?.any fun d => d == '.' || isIdentStart d then none
        else match fraction.dropWhile isDecimal with
          | [] => some []
          | d :: after =>
            if isExponentLetter d then some ((exponentEnd? false false after).getD (d :: after))
            else some (d :: after)
      | d :: after => if isExponentLetter d then exponentEnd? false false after else none
      | [] => none

/-- The rest after the digits of an integer; a digit that the base does not have is refused. -/
def intDigits? (base : Nat) (seen : Bool) : List Char → Option (List Char)
  | [] => if seen then some [] else none
  | c :: rest =>
    match hexDigit? c with
    | some d =>
      if d < base then intDigits? base true rest
      else if c.isDigit then none
      else if seen then some (c :: rest) else none
    | none =>
      if c == '_' && (seen || base != 10) then intDigits? base seen rest
      else if c != '_' && seen then some (c :: rest)
      else none

def int? (cs : List Char) : Option (List Char) :=
  if startsWith "0x" cs then intDigits? 16 false (cs.drop 2)
  else if startsWith "0o" cs then intDigits? 8 false (cs.drop 2)
  else if startsWith "0b" cs then intDigits? 2 false (cs.drop 2)
  else intDigits? 10 false cs

/-- The rest after the suffix of a number, which may not run into a name. -/
def numberEnd? : List Char → Option (List Char)
  | [] => some []
  | c :: rest =>
    if isIdentStart c then some (rest.dropWhile isIdentContinue)
    else if isIdentContinue c then none
    else some (c :: rest)

def number? (cs : List Char) : Option (List Char) :=
  ((floatDigits? cs).bind numberEnd?).or ((int? cs).bind numberEnd?)

def literal? (cs : List Char) : Option (List Char) :=
  (stringLiteral? .text "\"" "r" cs)
    |>.or (stringLiteral? .bytes "b\"" "br" cs)
    |>.or (stringLiteral? .terminated "c\"" "cr" cs)
    |>.or (charLiteral? .bytes "b'" cs)
    |>.or (charLiteral? .text "'" cs)
    |>.or (number? cs)

/-! ## Operators -/

def operatorChars : List Char :=
  "~!@#$%^&*-=+|;:,<.>/?'".toList

/-- Whether an operator character stands here; the slash of a comment is none. -/
def startsOperator (cs : List Char) : Bool :=
  !startsWith "//" cs && !startsWith "/*" cs && cs.head?.any operatorChars.contains

/-- An operator character and the rest. An apostrophe is one only in front of a label. -/
def operator? (cs : List Char) : Option (Token × List Char) :=
  if !startsOperator cs then none
  else match cs with
    | [] => none
    | '\'' :: rest => do
      let after ← anyName? rest
      if startsWith "'" after || (startsWith "#" after && !startsWith "r#" rest) then none
      else some (.punct '\'' .joint, rest)
    | c :: rest => some (.punct c (if startsOperator rest then .joint else .alone), rest)

/-! ## Token trees -/

/-- The group in which an expansion left its error; it is read as one literal. -/
def errorMarker : String := "(/*ERROR*/)"

/-- A token other than a group, and the rest. -/
def leaf? (cs : List Char) : Option (Token × List Char) :=
  let literal := (literal? cs).map fun rest =>
    (Token.literal (String.ofList (before cs rest)), rest)
  let name := (name? cs).map fun rest => (Token.ident (String.ofList (before cs rest)), rest)
  let marker := (skip? errorMarker cs).map fun rest => (Token.literal errorMarker, rest)
  literal.or ((operator? cs).or (name.or marker))

def opening? (cs : List Char) : Option (Delimiter × List Char) :=
  match cs with
  | '(' :: rest => if startsWith errorMarker cs then none else some (.parenthesis, rest)
  | '[' :: rest => some (.bracket, rest)
  | '\x7b' :: rest => some (.brace, rest)
  | _ => none

def closing? : List Char → Option (Delimiter × List Char)
  | ')' :: rest => some (.parenthesis, rest)
  | ']' :: rest => some (.bracket, rest)
  | '\x7d' :: rest => some (.brace, rest)
  | _ => none

/-- What is being read: the tokens of the innermost open group, last one first, and the groups that
enclose it with the tokens before them. -/
structure Reading where
  tokens : Tokens
  enclosing : List (Delimiter × Tokens)

/-- One step at a place where no blank stands: the reading after it and the rest. -/
def step? (reading : Reading) (cs : List Char) : Option (Reading × List Char) :=
  match docComment? cs with
  | some (inner, text, rest) =>
    some (⟨(docTokens inner text).reverse ++ reading.tokens, reading.enclosing⟩, rest)
  | none =>
    match opening? cs with
    | some (delimiter, rest) =>
      some (⟨[], (delimiter, reading.tokens) :: reading.enclosing⟩, rest)
    | none =>
      match closing? cs with
      | some (delimiter, rest) =>
        match reading.enclosing with
        | (opened, outer) :: enclosing =>
          if opened = delimiter then
            some (⟨.group delimiter reading.tokens.reverse :: outer, enclosing⟩, rest)
          else none
        | [] => none
      | none =>
        (leaf? cs).map fun (token, rest) => (⟨token :: reading.tokens, reading.enclosing⟩, rest)

def readAll? (reading : Reading) (cs : List Char) : Option Tokens :=
  let start := skipBlanks cs
  if start.isEmpty then
    if reading.enclosing.isEmpty then some reading.tokens.reverse else none
  else
    match step? reading start with
    | some (reading, rest) => if rest.length < cs.length then readAll? reading rest else none
    | none => none
termination_by cs.length

end PredictiveParser.Lexer

namespace PredictiveParser

/-- The token trees of a source text, or `none` when it has none. A byte order mark in front is
skipped. -/
def Tokens.lex (source : String) : Option Tokens :=
  let cs := source.toList
  Lexer.readAll? ⟨[], []⟩ (if cs.head? = some '\ufeff' then cs.tail else cs)

end PredictiveParser
