/-!
# Token trees

Code is kept as a list of token trees: names, single operator characters, literals in their source
spelling, and groups between delimiters. An operator character records whether the next one was
written directly behind it, which is all that is kept of the spacing.

`Tokens.text` prints a list of trees: one blank after every token except an operator character that
is joined to the next, none inside parentheses and brackets, and one on each side of what stands
between braces.
-/
namespace PredictiveParser

/-- Whether an operator character is joined to the one that follows it. -/
inductive Spacing where
  | alone
  | joint
deriving DecidableEq, Repr, Inhabited

/-- What encloses a group. An invisible group keeps its tokens together and prints no delimiters. -/
inductive Delimiter where
  | parenthesis
  | bracket
  | brace
  | invisible
deriving DecidableEq, Repr, Inhabited

inductive Token where
  /-- A name or keyword. A raw name includes its `r#`. -/
  | ident (name : String)
  | punct (char : Char) (spacing : Spacing)
  /-- A literal in its source spelling, suffix included. -/
  | literal (spelling : String)
  | group (delimiter : Delimiter) (body : List Token)
deriving Inhabited

/-- A piece of code. -/
abbrev Tokens := List Token

namespace Token

def isJoint : Token → Bool
  | .punct _ .joint => true
  | _ => false

def isPunct (c : Char) : Token → Bool
  | .punct d _ => d == c
  | _ => false

end Token

/-- What is printed on both sides of a group's tokens. -/
def Delimiter.enclose (delimiter : Delimiter) (isEmpty : Bool) (text : String) : String :=
  match delimiter with
  | .parenthesis => "(" ++ text ++ ")"
  | .bracket => "[" ++ text ++ "]"
  | .brace => if isEmpty then "\x7b \x7d" else "\x7b " ++ text ++ " \x7d"
  | .invisible => text

mutual

def Token.text : Token → String
  | .ident name => name
  | .punct c _ => String.singleton c
  | .literal spelling => spelling
  | .group delimiter body => delimiter.enclose body.isEmpty (Tokens.text body)

def Tokens.text : Tokens → String
  | [] => ""
  | [token] => token.text
  | token :: next :: rest =>
    token.text ++ ((if token.isJoint then "" else " ") ++ Tokens.text (next :: rest))

end

end PredictiveParser
