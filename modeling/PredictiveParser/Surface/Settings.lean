import PredictiveParser.Options
import PredictiveParser.Surface.Code

/-!
# Settings in attributes

Settings are written in attributes: `#[llk(key = value, ...)]` in front of a declaration. All other
attributes are skipped. The whole list of an attribute is read before the first setting takes
effect, and the settings are checked at the end.
-/
namespace PredictiveParser.Surface


/-- The form of what stands behind a name in an attribute. -/
inductive MetaForm where
  /-- Nothing. -/
  | bare
  /-- A list in parentheses. -/
  | list
  | value (value : LiteralValue)

inductive MetaItem where
  | literal
  /-- A name, or a path of several names, with what stands behind it. -/
  | named (path : List String) (isAbsolute : Bool) (form : MetaForm)

/-- What stands behind a name, where `items` reads the entries of a list. -/
def metaForm (items : Reader Unit) : Reader MetaForm := do
  if ← peek (startsGroup .parenthesis) then
    readGroup .parenthesis items
    return .list
  else if ← peekOp "=" then
    let _ ← readOp "="
    return .value (← readLiteral).1
  else return .bare

def metaItem (items : Reader Unit) : Reader MetaItem := do
  let tokens ← ahead
  let isFlag := startsWord "true" tokens || startsWord "false" tokens
  if (← peekLiteral) && !(isFlag && startsOp "=" tokens.tail) then
    let _ ← readLiteral
    return .literal
  else if startsAnyWord tokens || (startsOp "::" tokens && startsAnyWord (tokens.drop 2)) then
    let colons ← optionalOp "::"
    let path ← readNames startsAnyWord
    return .named path (!colons.isEmpty) (← metaForm items)
  else failExpected ["identifier or literal"]

/-- The entries of a list, with at most `depth` lists inside each other. -/
def metaItems : (depth : Nat) → Reader (List MetaItem)
  | 0 => fail .leftover
  | depth + 1 => do
    let items ← readItems "," stopAtEnd (metaItem (discard (metaItems depth)))
    return items.map Prod.fst

/-- The entries of an attribute that holds a list; `none` for an attribute of another form. -/
def attributeItems (tokens : Tokens) : Except (Failure SyntaxError) (Option (List MetaItem)) :=
  readAll
    (do
      if ← peek (startsGroup .parenthesis) then
        return some (← readGroup .parenthesis do metaItems (size (← ahead) + 1))
      else
        let _ ← metaForm (pure ())
        return none)
    tokens

end PredictiveParser.Surface

namespace PredictiveParser.Options

open Surface

def unreadable (error : SyntaxError) : GenerationError :=
  .invalidOption ("syn error: " ++ error.message)

def refuse {α : Type} (reason : String) : Except (Failure GenerationError) α :=
  throw (.error (.invalidOption reason))

/-- The largest number that a setting can hold, plus one. -/
def numberBound : Nat := 0x10000000000000000

def numberOf (negative : Bool) (magnitude : Nat) : Except (Failure GenerationError) Nat :=
  if negative then throw (.error (unreadable (.invalid "invalid digit found in string")))
  else if numberBound ≤ magnitude then
    throw (.error (unreadable (.invalid "number too large to fit in target type")))
  else return magnitude

def set (options : Options) (key : String) (value : LiteralValue) :
    Except (Failure GenerationError) Options := do
  if ["k", "recursion_limit", "switch_threshold"].contains key then
    match value with
    | .int negative magnitude =>
      let number ← numberOf negative magnitude
      if key == "k" then return { options with k := number }
      else if key == "recursion_limit" then return { options with recursionLimit := number }
      else return { options with switchThreshold := number }
    | _ => refuse ("'" ++ key ++ "' must be an integer")
  else if ["terminal_type", "list_type"].contains key then
    match value with
    | .string text =>
      if key == "terminal_type" then
        let type ← (typeOf text).mapError (.map unreadable)
        return { options with terminalType := some type }
      else
        let path ← (pathOf text).mapError (.map unreadable)
        return { options with listType := path }
    | _ => refuse ("'" ++ key ++ "' must be a string")
  else refuse ("unknown option '" ++ key ++ "'")

def setItem (options : Options) : MetaItem → Except (Failure GenerationError) Options
  | .named path isAbsolute (.value value) =>
    match path, isAbsolute with
    | [key], false => options.set key value
    | _, _ => refuse "option names are plain identifiers"
  | _ => refuse "options are written as key = value"

def setAttribute (options : Options) (attr : Attribute) :
    Except (Failure GenerationError) Options := do
  if attr.path = ["llk"] ∧ !attr.isAbsolute then
    match ← (attributeItems attr.tokens).mapError (.map unreadable) with
    | some items => items.foldlM setItem options
    | none => refuse "expected #[llk(key = value, ...)]"
  else return options

/-- The settings that attributes give, starting from the defaults. -/
def ofAttributes (attributes : List Attribute) : Except (Failure GenerationError) Options := do
  let options ← attributes.foldlM setAttribute Options.default
  options.check.mapError Failure.error
  return options

end PredictiveParser.Options
