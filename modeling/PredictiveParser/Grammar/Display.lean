import PredictiveParser.Grammar.Basic

/-!
# Grammars as text

A grammar is shown as one line per rule, in the notation in which grammars are written down.
-/
namespace PredictiveParser

def Repetition.mark : Repetition → String
  | .once => ""
  | .star => "*"
  | .opt => "?"

namespace Node

/-- What stands in front of a labeled node. -/
def labelText (node : Node) : String :=
  match node.label with
  | some label => label ++ (if node.isList then "+:" else ":")
  | none => ""

end Node

namespace Grammar

/-- The tree under `id` in grammar notation, at most `depth` steps down. -/
def renderDown (g : Grammar) : (depth : Nat) → NodeId → Except Fault String
  | 0, id => .error (.endless id)
  | depth + 1, id => do
    let node ← g.node id
    let text ← match node.kind with
      | .sequence items => " ".intercalate <$> items.mapM (g.renderDown depth)
      | .alternatives alts =>
        let arms ← alts.arms.mapM (g.renderDown depth)
        pure ("(" ++ "|".intercalate arms ++ ")" ++ alts.mode.mark)
      | .gate predict matched =>
        let predict ← g.renderDown depth predict
        let matched ← g.renderDown depth matched
        pure (predict ++ " => " ++ matched)
      | .check ⟨negate, .code tokens, _⟩ =>
        pure ((if negate then "&!" else "&") ++ "\x7b" ++ tokens.text ++ "\x7d")
      | .check ⟨negate, .syntactic payload _, _⟩ =>
        let payload ← g.renderDown depth payload
        pure ((if negate then "&!" else "&") ++ "(" ++ payload ++ ")")
      | .call rule => pure rule
      | .terminal set _ => pure set.text
    return node.labelText ++ text

def renderNode (g : Grammar) (id : NodeId) : Except Fault String :=
  g.renderDown g.depthBound id

/-- The rules in grammar notation, one line each. -/
def text (g : Grammar) : Except Fault String := do
  let lines ← g.ruleList.mapM fun rule => do
    return rule.name ++ " = " ++ (← g.renderNode rule.body) ++ " ;\n"
  return "".intercalate lines

end Grammar

end PredictiveParser
