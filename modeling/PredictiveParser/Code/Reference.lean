import PredictiveParser.Code.Literal
import PredictiveParser.Error

/-!
# References in code blocks

Code blocks of a grammar refer to matched values with a dollar sign: `$name`, `$literal` and
`$( tokens )`. The two lookahead references `$LA` and `$LI` stand for the terminal under inspection
and its distance; they are resolved where code is written, all others before.

`References.find` lists the references of a piece of code in the order in which they are written,
and `References.replace` puts other code in their place. `References.replaceM` does so with effects
at each of them.
-/
namespace PredictiveParser

/-- What follows a dollar sign. -/
inductive Reference where
  | name (name : String)
  | literal (spelling : String)
  | code (tokens : Tokens)
deriving Inhabited

/-- The name of the reference to the terminal under inspection. -/
def lookaheadValue : String := "LA"

/-- The name of the reference to the distance of the terminal under inspection. -/
def lookaheadIndex : String := "LI"

/-- The text by which two pieces of code are compared: the printed form, looking through an
invisible group that holds everything. -/
def Tokens.normalText : Tokens → String
  | [.group .invisible body] => Tokens.normalText body
  | tokens => tokens.text
termination_by tokens => sizeOf tokens

/-- A text as part of a name: letters, digits and underscores of ASCII as themselves, every other
character as `x` and its code point in hexadecimal. -/
def sanitize (s : String) : String :=
  "".intercalate <| s.toList.map fun c =>
    if c.isAlphanum || c == '_' then String.singleton c else "x" ++ Text.hex c.toNat

/-- The name of the variable for a literal, which says what its value is. -/
def literalVarName (spelling : String) : Except Fault String :=
  match LiteralValue.ofSpelling spelling with
  | .char c => .ok ("ch_" ++ sanitize (String.singleton c))
  | .string s => .ok ("lit_" ++ sanitize s)
  | .int _ n => .ok ("lit_" ++ sanitize (toString n))
  | .unknown => .error (.unknownLiteral spelling)
  | _ => .ok ("lit_" ++ sanitize spelling)

def Token.isPathPart : Token → Bool
  | .ident _ => true
  | .punct c _ => c == '.' || c == ':'
  | _ => false

/-- The last component of `a.b` or `A::B`. -/
def lastComponent? (tokens : Tokens) : Option String :=
  match tokens.reverse with
  | .ident last :: .punct c _ :: _ =>
    if (c == '.' || c == ':') && tokens.all Token.isPathPart then some last else none
  | _ => none

/-- The name of the variable for a reference `$( tokens )`, when it has one: a single name or
literal, or the last component of a path. -/
def codeVarName? : Tokens → Except Fault (Option String)
  | [.ident name] => .ok (some ("tok_" ++ name))
  | [.literal spelling] => (literalVarName spelling).map some
  | [.group .invisible body] => codeVarName? body
  | tokens => .ok ((lastComponent? tokens).map ("tok__" ++ ·))

namespace Reference

/-- The reference that a dollar sign makes with the token behind it. -/
def ofToken? : Token → Option Reference
  | .ident n => some (.name n)
  | .literal spelling => some (.literal spelling)
  | .group .parenthesis body => some (.code body)
  | _ => none

/-- References with the same key mean the same. -/
def key : Reference → String
  | .name n => n
  | .literal spelling => spelling
  | .code tokens => tokens.normalText

def name? : Reference → Option String
  | .name n => some n
  | _ => none

def isLookahead : Reference → Bool
  | .name n => n == lookaheadValue || n == lookaheadIndex
  | _ => false

/-- The name of the variable for a reference that is neither a rule nor a label, when it has
one. -/
def varName? : Reference → Except Fault (Option String)
  | .name n =>
    .ok (if n == lookaheadValue || n == lookaheadIndex then none else some ("tok_" ++ n))
  | .literal spelling => (literalVarName spelling).map some
  | .code tokens => codeVarName? tokens

end Reference

namespace References

/-- The reference that two neighbouring tokens make. -/
def at? (token next : Token) : Option Reference :=
  if token.isPunct '$' then Reference.ofToken? next else none

mutual

def findIn : Token → List Reference
  | .group _ body => find body
  | _ => []

/-- Every reference of a piece of code, those in groups included. What a reference holds is not
searched again. -/
def find : Tokens → List Reference
  | [] => []
  | [token] => findIn token
  | token :: next :: rest =>
    match at? token next with
    | some reference => reference :: find rest
    | none => findIn token ++ find (next :: rest)

end

mutual

def replaceIn (f : Reference → Option Tokens) : Token → Token
  | .group delimiter body => .group delimiter (replace f body)
  | token => token

/-- Puts `f reference` in the place of each reference for which it is defined, and keeps the
others. -/
def replace (f : Reference → Option Tokens) : Tokens → Tokens
  | [] => []
  | [token] => [replaceIn f token]
  | token :: next :: rest =>
    match at? token next with
    | some reference => (f reference).getD [token, next] ++ replace f rest
    | none => replaceIn f token :: replace f (next :: rest)

end

mutual

def replaceInM {m : Type → Type} [Monad m] (f : Reference → m (Option Tokens)) : Token → m Token
  | .group delimiter body => do
    let body ← replaceM f body
    return .group delimiter body
  | token => return token

/-- Asks `f` for what to put in the place of each reference, one after the other. -/
def replaceM {m : Type → Type} [Monad m] (f : Reference → m (Option Tokens)) : Tokens → m Tokens
  | [] => return []
  | [token] => do
    let token ← replaceInM f token
    return [token]
  | token :: next :: rest =>
    match at? token next with
    | some reference => do
      let new ← f reference
      let rest ← replaceM f rest
      return new.getD [token, next] ++ rest
    | none => do
      let token ← replaceInM f token
      let rest ← replaceM f (next :: rest)
      return token :: rest

end

end References

end PredictiveParser
