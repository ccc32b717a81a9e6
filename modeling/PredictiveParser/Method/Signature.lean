import PredictiveParser.Grammar.Basic
import PredictiveParser.Method.Stmt

/-!
# Methods

A rule becomes a method for each of its forms: the parser form returns the value of the rule or an
error, the recognizer form says whether the input matches.
-/
namespace PredictiveParser

open Template

/-- The attribute in front of every method: generated code is not held to rules of style. -/
def allowAttribute : Tokens :=
  op "#" ++ brackets (word "allow" ++ parens ((op ",").intercalate
    (["non_snake_case", "unused_mut", "unused_parens", "unused_assignments", "unused_labels",
      "unused_variables", "unreachable_code"].map word)))

namespace Rule

def hasForm (rule : Rule) : Form → Bool
  | .parser => rule.generatesParser
  | .recognizer => rule.recognizer.isSome

def methodName (rule : Rule) : Form → String
  | .parser => rule.name
  | .recognizer => rule.recognizer.getD rule.name

/-- The value that a parser method returns: the declared one, else the default of its type. -/
def valueCode (rule : Rule) : Tokens :=
  match rule.result, rule.returns with
  | some result, _ => result
  | none, some _ => absolutePath ["std", "default", "Default", "default"] ++ parens []
  | none, none => parens []

def returnType (rule : Rule) : Form → Tokens
  | .parser => path ["parsegen", "Result"] ++ op "<" ++ rule.valueType ++ op ">"
  | .recognizer => word "bool"

def finalCode (rule : Rule) : Form → Tokens
  | .parser => word "Ok" ++ parens rule.valueCode
  | .recognizer => word "true"

/-- The method with this body. -/
def methodCode (rule : Rule) (form : Form) (body : Tokens) : Except Fault Tokens := do
  let name ← checkedName (rule.methodName form)
  return allowAttribute ++ (if rule.isPrivate then [] else word "pub") ++ words ["fn", name] ++
    parens (op "&" ++ words ["mut", "self"]) ++ op "->" ++ rule.returnType form ++
    braces (body ++ rule.finalCode form)

end Rule

end PredictiveParser
