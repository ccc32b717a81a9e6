import PredictiveParser.Surface.Path

/-!
# Bounds

A bound is a lifetime or a trait. A trait may be marked with `~const` or `?`, be generic in
lifetimes (`for<'a>`), take the arguments of a function, and stand in parentheses.
-/
namespace PredictiveParser.Surface

open Template

/-! ## Lifetimes -/

/-- A lifetime that is declared: its attributes, its name, and its bounds with the colon in front.
A colon without bounds is dropped. -/
structure DeclaredLifetime where
  attributes : Tokens
  name : Tokens
  bounds : Tokens

def DeclaredLifetime.code (lifetime : DeclaredLifetime) : Tokens :=
  lifetime.attributes ++ lifetime.name ++ lifetime.bounds

def boundsUntil (stop : Tokens → Bool) (bound : Reader Tokens) : Reader Tokens := do
  let items ← readWhile "+" stop bound
  return joinItems "+" items

/-- Bounds with the colon in front, or nothing. -/
def optionalBounds (stop : Tokens → Bool) (bound : Reader Tokens) : Reader Tokens := do
  if ← peekOp ":" then
    let colon ← readOp ":"
    let bounds ← boundsUntil stop bound
    return if bounds.isEmpty then [] else colon ++ bounds
  else return []

def startsAnyOp (ops : List String) (tokens : Tokens) : Bool :=
  ops.any (startsOp · tokens)

def declaredLifetime (attributes : Tokens) : Reader DeclaredLifetime := do
  let name ← readLifetime
  return ⟨attributes, name, ← optionalBounds (startsAnyOp [",", ">"]) readLifetime⟩

/-- The lifetimes that a type, bound or condition is generic in, `for<'a>`. -/
def boundLifetimes : Reader Tokens := do
  let keyword ← readWord "for"
  let opening ← readOp "<"
  let items ← readItems "," (startsOp ">") do
    let attributes ← attributeCode
    return (← declaredLifetime attributes).code
  let closing ← readOp ">"
  return keyword ++ opening ++ joinItems "," items ++ closing

def optionalLifetimes : Reader Tokens := do
  if ← peek (startsWord "for") then boundLifetimes else return []

/-! ## Bounds -/

structure Bound where
  isTrait : Bool
  isParenthesized : Bool
  /-- Its tokens without parentheses of its own. -/
  tokens : Tokens

def Bound.code (bound : Bound) : Tokens :=
  if bound.isParenthesized then parens bound.tokens else bound.tokens

/-- The mark `~const`, if it is there. -/
def constMark : Reader Tokens := do
  let tokens ← ahead
  if startsOp "~" tokens && startsWord "const" tokens.tail then
    let tilde ← readOp "~"
    return tilde ++ (← readWord "const")
  else return []

def traitBound (nested : Nested) : Reader Tokens := do
  let mark ← constMark
  let modifier ← optionalOp "?"
  let lifetimes ← optionalLifetimes
  let path ← plainPath nested false
  let path ← if path.last.arguments.isEmpty && startsParenthesized (← ahead) then do
      let (arguments, _) ← parenthesizedArguments nested
      pure { path with last := ⟨path.last.name, arguments⟩ }
    else pure path
  return mark ++ modifier ++ lifetimes ++ path.code

def anyBound (nested : Nested) : Reader Bound := do
  let tokens ← ahead
  if startsLifetime tokens then return ⟨false, false, ← readLifetime⟩
  else if startsGroup .parenthesis tokens then
    return ⟨true, true, ← readGroup .parenthesis (traitBound nested)⟩
  else return ⟨true, false, ← traitBound nested⟩

/-- Whether another bound of a type can start here. -/
def startsBound (tokens : Tokens) : Bool :=
  startsAnyWord tokens || startsAnyOp ["::", "?"] tokens || startsLifetime tokens ||
    startsGroup .parenthesis tokens

/-- One or more bounds with `+` between them, and possibly behind the last; each is given with
whether a `+` follows it. -/
def boundSum (nested : Nested) (allowPlus : Bool) : Reader (List (Bound × Bool)) := do
  let count := (← ahead).length
  repeatFor
    (do
      let bound ← anyBound nested
      if allowPlus && (← peekOp "+") then
        let _ ← readOp "+"
        return ((bound, true), startsBound (← ahead))
      else return ((bound, false), false))
    (count + 1)

def sumCode (sum : List (Bound × Bool)) : Tokens :=
  joinItems "+" (sum.map fun (bound, plus) => (bound.code, plus))

/-- Bounds of which at least one has to be a trait. -/
def traitSum (nested : Nested) (allowPlus : Bool) (complaint : String) : Reader Tokens := do
  let sum ← boundSum nested allowPlus
  if sum.any (·.1.isTrait) then return sumCode sum else fail (.invalid complaint)

/-- The bounds behind a first one, each behind a `+` that needs it. -/
def furtherBounds (nested : Nested) : Reader (List Tokens) := do
  let count := (← ahead).length
  let parts ← repeatFor
    (do
      if ← peekOp "+" then
        let plus ← readOp "+"
        return (some (plus ++ (← anyBound nested).code), true)
      else return (none, false))
    (count + 1)
  return parts.filterMap id

end PredictiveParser.Surface
