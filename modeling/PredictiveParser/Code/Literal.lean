import PredictiveParser.Code.Lexer
import PredictiveParser.Code.Template

/-!
# Values of literals

`LiteralValue.ofSpelling` reads the value that a literal stands for off its source spelling.
Characters, strings and integers have a value here; floating point numbers, bytes and byte strings
are only told apart from them. Strings that end in a NUL are of no known kind: whoever asks for the
value of one has made a mistake, which `Fault.unknownLiteral` reports. `stringLiteral` goes the
other way.
-/
namespace PredictiveParser

inductive LiteralValue where
  | char (value : Char)
  | string (value : String)
  /-- A whole number; the sign is kept because `-0` is written with one. -/
  | int (negative : Bool) (magnitude : Nat)
  /-- A truth value, written as a keyword. -/
  | bool (value : Bool)
  | float
  /-- A byte or a byte string. -/
  | bytes
  /-- A literal of another kind, which has no value here. -/
  | unknown
deriving DecidableEq

namespace LiteralValue

open Lexer

/-- The character that a backslash followed by `c` stands for. -/
def escapeValue (c : Char) : Char :=
  match c with
  | 'n' => '\n'
  | 'r' => '\r'
  | 't' => '\t'
  | '0' => '\x00'
  | _ => c

/-- The character of an escape whose backslash was read, and the rest. -/
def escapedChar? : List Char → Option (Char × List Char)
  | 'x' :: high :: low :: rest => do
    let h ← hexDigit? high
    let l ← hexDigit? low
    return (Char.ofNat (h * 16 + l), rest)
  | 'u' :: '\x7b' :: rest => do
    let (value, rest) ← codePoint? 0 0 rest
    return (Char.ofNat value, rest)
  | c :: rest => some (escapeValue c, rest)
  | [] => none

/-- What a line continuation takes away: blanks, tabs and the ends of lines. -/
def isLineBlank (c : Char) : Bool :=
  c == ' ' || c == '\t' || c == '\n' || c == '\r'

/-- The characters of a string up to its closing quote. A line continuation takes the blanks behind
it away, and a carriage return before a line feed is dropped. -/
def stringChars (cs : List Char) : List Char :=
  match cs with
  | [] => []
  | '"' :: _ => []
  | '\r' :: '\n' :: rest => '\n' :: stringChars rest
  | '\\' :: rest =>
    if rest.head? == some '\n' || rest.head? == some '\r' then
      stringChars (rest.dropWhile isLineBlank)
    else
      match escapedChar? rest with
      | some (c, after) => if after.length ≤ rest.length then c :: stringChars after else [c]
      | none => []
  | c :: rest => c :: stringChars rest
termination_by cs.length
decreasing_by
  · simp only [List.length_cons]; omega
  · have h := (List.dropWhile_sublist isLineBlank (l := rest)).length_le
    simp only [List.length_cons]; omega
  · simp only [List.length_cons]; omega
  · simp only [List.length_cons]; omega

/-- The characters between the quotes of a raw string whose `r` was read. -/
def rawChars (cs : List Char) : List Char :=
  let opened := (cs.dropWhile (· == '#')).drop 1
  ((opened.reverse.dropWhile (· != '"')).drop 1).reverse

/-- What follows the exponent letter of a decimal number: whether digits make it an exponent. A
letter without digits starts a suffix. -/
def isExponent (digits : Bool) : List Char → Bool
  | [] => digits
  | c :: rest =>
    if c == '_' then isExponent digits rest
    else if c == '+' || c == '-' then true
    else if c.isDigit then isExponent true rest
    else digits && Text.isIdentifierChars (c :: rest)

/-- The value of the digits of a whole number and the suffix behind them, or `none` for a number
with a point or exponent. -/
def digits? (base value : Nat) : List Char → Option (Nat × List Char)
  | [] => some (value, [])
  | c :: rest =>
    if c == '_' then digits? base value rest
    else if base == 10 && c == '.' then none
    else if base == 10 && (c == 'e' || c == 'E') then
      if isExponent false rest then none else some (value, c :: rest)
    else
      match hexDigit? c with
      | some d =>
        if d < base then digits? base (value * base + d) rest
        else if c.isDigit then none
        else some (value, c :: rest)
      | none => some (value, c :: rest)

/-- The value and the suffix of a whole number, whatever its base. -/
def wholeNumber? (cs : List Char) : Option (Nat × List Char) :=
  if startsWith "0x" cs then digits? 16 0 (cs.drop 2)
  else if startsWith "0o" cs then digits? 8 0 (cs.drop 2)
  else if startsWith "0b" cs then digits? 2 0 (cs.drop 2)
  else digits? 10 0 cs

def ofSpelling (spelling : String) : LiteralValue :=
  match spelling.toList with
  | '"' :: rest => .string (String.ofList (stringChars rest))
  | 'r' :: rest => .string (String.ofList (rawChars rest))
  | 'b' :: _ => .bytes
  | '\'' :: '\\' :: rest =>
    match escapedChar? rest with
    | some (c, _) => .char c
    | none => .unknown
  | '\'' :: c :: _ => .char c
  | c :: rest =>
    if c.isDigit then
      match wholeNumber? (c :: rest) with
      | some (value, _) => .int false value
      | none => .float
    else .unknown
  | [] => .unknown

def hasSuffix (spelling : String) : Bool :=
  (wholeNumber? spelling.toList).any (!·.2.isEmpty)

end LiteralValue

namespace Template

def stringLiteral (s : String) : Tokens :=
  literal (Text.quotedString s)

end Template

end PredictiveParser
