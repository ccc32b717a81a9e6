import PredictiveParser.Surface.Generics

/-!
# Type declarations

Of the declaration of a structure, enumeration or union only its name and its generic parameters
matter: they make the header of the block that generated methods are put into. The rest is read to
be checked, and given back as code.
-/
namespace PredictiveParser.Surface

open Template

structure Declaration where
  name : String
  generics : Generics

/-! ## Fields -/

def visibility : Reader Tokens := do
  match ← ahead with
  | .ident "pub" :: .group .parenthesis body :: _ =>
    if ["crate", "self", "super"].any (startsWord · body) && body.length = 1 then
      advance 2
      return word "pub" ++ parens body
    else
      advance 1
      if startsWord "in" body then
        let content ← readGroup .parenthesis do
          let keyword ← readWord "in"
          let (isAbsolute, path) ← readModulePath
          return keyword ++ (if isAbsolute then op "::" else []) ++ Template.path path
        return word "pub" ++ parens content
      else return word "pub"
  | .ident "pub" :: _ =>
    advance 1
    return word "pub"
  | .ident "crate" :: rest =>
    if startsOp "::" rest then return []
    else
      advance 1
      return word "crate"
  | _ => return []

def namedField (nested : Nested) : Reader Tokens := do
  let attributes ← attributeCode
  let visibility ← visibility
  let name ← if ← peek (startsWord "_") then readAnyWord else readName
  let colon ← readOp ":"
  return attributes ++ visibility ++ word name ++ colon ++ (← nested.typeTokens)

def plainField (nested : Nested) : Reader Tokens := do
  let attributes ← attributeCode
  let visibility ← visibility
  return attributes ++ visibility ++ (← nested.typeTokens)

def namedFields (nested : Nested) : Reader Tokens := do
  return braces (joinItems "," (← readGroup .brace
    (readItems "," stopAtEnd (namedField nested))))

def plainFields (nested : Nested) : Reader Tokens := do
  return parens (joinItems "," (← readGroup .parenthesis
    (readItems "," stopAtEnd (plainField nested))))

/-- One case of an enumeration. Its visibility says nothing and is dropped. -/
def enumCase (nested : Nested) : Reader Tokens := do
  let attributes ← attributeCode
  let _ ← visibility
  let name ← readName
  let tokens ← ahead
  let fields ← if startsGroup .brace tokens then namedFields nested
    else if startsGroup .parenthesis tokens then plainFields nested
    else pure []
  let value ← if ← peekOp "=" then do
      let sign ← readOp "="
      pure (sign ++ (← nested.expressionTokens))
    else pure []
  return attributes ++ word name ++ fields ++ value

/-! ## Bodies -/

/-- What follows the parameters of a declaration: its where clause, and the code of everything. -/
structure Body where
  whereClause : Tokens
  code : Tokens

/-- The body of a structure. The where clause stands behind fields without names, and in front of
fields with names. -/
def structBody (nested : Nested) : Reader Body := do
  let hadClause ← peek (startsWord "where")
  let clause ← whereClause nested
  let tokens ← ahead
  if !hadClause && startsGroup .parenthesis tokens then
    let fields ← plainFields nested
    let hasClause ← peek (startsWord "where")
    let clause ← whereClause nested
    if ← peekOp ";" then
      let semicolon ← readOp ";"
      return ⟨clause, fields ++ clause ++ semicolon⟩
    else failExpected (if hasClause then [quoted ";"] else [quoted "where", quoted ";"])
  else if startsGroup .brace tokens then
    let fields ← namedFields nested
    return ⟨clause, clause ++ fields⟩
  else if startsOp ";" tokens then
    let semicolon ← readOp ";"
    return ⟨clause, clause ++ semicolon⟩
  else if hadClause then failExpected ["curly braces", quoted ";"]
  else failExpected [quoted "where", "parentheses", "curly braces", quoted ";"]

def enumBody (nested : Nested) : Reader Body := do
  let clause ← whereClause nested
  let cases ← readGroup .brace (readItems "," stopAtEnd (enumCase nested))
  return ⟨clause, clause ++ braces (joinItems "," cases)⟩

def unionBody (nested : Nested) : Reader Body := do
  let clause ← whereClause nested
  return ⟨clause, clause ++ (← namedFields nested)⟩

/-- A declaration behind its attributes and visibility, and its code. -/
def declaration (nested : Nested) : Reader (Declaration × Tokens) := do
  let tokens ← ahead
  let behind (keyword : String) (body : Reader Body) : Reader (Declaration × Tokens) := do
    let _ ← readWord keyword
    let name ← readName
    let parameters ← genericParameters nested
    let body ← body
    return (⟨name, ⟨parameters, body.whereClause⟩⟩,
      words [keyword, name] ++ parameterCode parameters ++ body.code)
  if startsWord "struct" tokens then behind "struct" (structBody nested)
  else if startsWord "enum" tokens then behind "enum" (enumBody nested)
  else if startsWord "union" tokens then behind "union" (unionBody nested)
  else failExpected [quoted "struct", quoted "enum", quoted "union"]

/-- A block of items that belong to the declared type. -/
def Declaration.implBlock (declaration : Declaration) (items : List Tokens) : Tokens :=
  word "impl" ++ declaration.generics.header ++ word declaration.name ++
    declaration.generics.arguments ++ declaration.generics.whereClause ++ braces items.flatten

end PredictiveParser.Surface
