import PredictiveParser.Text.Printable

/-!
# Quoted characters and strings

A character or string is shown between quotes as it would be written in source text. A tab, a line
feed, a carriage return, a NUL, a backslash and the quotes in use are written with a backslash,
every other character that has no visible form of its own as its code point in hexadecimal, and
all others as themselves.
-/
namespace PredictiveParser.Text

def hex (n : Nat) : String :=
  String.ofList (Nat.toDigits 16 n)

/-- The code point of a character between braces, after a backslash and a `u`. -/
def escapedCodePoint (c : Char) : String :=
  "\\u\x7b" ++ hex c.toNat ++ "\x7d"

/-- One character as it stands inside quotes, where `quotes` are the quote characters that need a
backslash. -/
def escaped (quotes : List Char) (c : Char) : String :=
  if c == '\t' then "\\t"
  else if c == '\n' then "\\n"
  else if c == '\r' then "\\r"
  else if c == '\x00' then "\\0"
  else if c == '\\' || quotes.contains c then String.ofList ['\\', c]
  else if isGraphemeExtend c || !isPrintable c then escapedCodePoint c
  else String.singleton c

def quotedChar (c : Char) : String :=
  "'" ++ escaped ['\''] c ++ "'"

/-- The characters of a string as they stand between double quotes. A NUL before an octal digit is
written in hexadecimal, so that the digit is not read as part of it. -/
def escapedChars : List Char → String
  | [] => ""
  | c :: rest =>
    let octalNext := match rest with
      | d :: _ => '0' ≤ d && d ≤ '7'
      | [] => false
    (if c == '\x00' && octalNext then "\\x00" else escaped ['"'] c) ++ escapedChars rest

def quotedString (s : String) : String :=
  "\"" ++ escapedChars s.toList ++ "\""

end PredictiveParser.Text
