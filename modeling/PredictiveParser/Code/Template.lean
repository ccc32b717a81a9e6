import PredictiveParser.Code.Token

/-!
# Templates

Small combinators that build the code this library writes. An operator of several characters is one
unit: its characters are joined and the last one stands alone. Every other operator character
stands alone.
-/
namespace PredictiveParser.Template

def word (name : String) : Tokens :=
  [.ident name]

def words (names : List String) : Tokens :=
  names.map .ident

def opChars : List Char → Tokens
  | [] => []
  | [c] => [.punct c .alone]
  | c :: rest => .punct c .joint :: opChars rest

/-- One operator of one or more characters. -/
def op (operator : String) : Tokens :=
  opChars operator.toList

def literal (spelling : String) : Tokens :=
  [.literal spelling]

def natLiteral (n : Nat) : Tokens :=
  literal (toString n)

/-- An integer; the sign of a negative one is an operator of its own. -/
def intLiteral (n : Int) : Tokens :=
  if n < 0 then op "-" ++ natLiteral n.natAbs else natLiteral n.natAbs

/-- A label or lifetime: an apostrophe joined to its name. -/
def lifetime (name : String) : Tokens :=
  [.punct '\'' .joint, .ident name]

def parens (body : Tokens) : Tokens :=
  [.group .parenthesis body]

def brackets (body : Tokens) : Tokens :=
  [.group .bracket body]

def braces (body : Tokens) : Tokens :=
  [.group .brace body]

/-- A path `a::b::c`. -/
def path (names : List String) : Tokens :=
  (op "::").intercalate (names.map word)

def absolutePath (names : List String) : Tokens :=
  op "::" ++ path names

def selfCall (method : String) (arguments : Tokens) : Tokens :=
  word "self" ++ op "." ++ word method ++ parens arguments

end PredictiveParser.Template
