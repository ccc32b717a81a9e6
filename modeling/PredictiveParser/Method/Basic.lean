import PredictiveParser.Method.Alternatives

/-!
# Writing a method

`MethodPlan.write` lowers the body of a rule and wraps it into a method that first declares the
lookahead variables in use.
-/
namespace PredictiveParser

structure Method where
  rule : Rule
  form : Form
  body : List Stmt
  code : Tokens

def Method.name (method : Method) : String :=
  method.rule.methodName method.form

namespace MethodPlan

/-- An action as a statement. Recognizers run no actions. -/
def lowerAction (m : MethodPlan) (action : Option Tokens) : List Stmt :=
  match m.form with
  | .recognizer => []
  | .parser => action.toList.map fun code => .snippet (.code code)

/-- Lowers a node of this kind, where `lowerBelow` lowers what is below it. -/
def lowerKind (m : MethodPlan) (lowerBelow : NodeId → Lower (List Stmt)) (id : NodeId)
    (saver : Option Saver) : NodeKind → Lower (List Stmt)
  | .sequence items => do
    let parts ← items.mapM lowerBelow
    return parts.flatten
  | .alternatives alts => m.lowerSet lowerBelow id alts
  | .gate _ matched => lowerBelow matched
  | .check check =>
    if check.prematched == some true then return []
    else do
      let test ← Lower.lift (m.checkTest id check 0)
      return [.snippet (.require m.form test)]
  | .call rule => do
    let call ← Lower.lift (m.callSnippet rule saver)
    return [.snippet call]
  | .terminal set prematched => do
    let step ← m.lowerTerminal set prematched saver
    return [.snippet step]

/-- Lowers the tree under `id`, at most `depth` steps down. -/
def lowerDown (m : MethodPlan) : (depth : Nat) → NodeId → Lower (List Stmt)
  | 0, id => Lower.lift (throw (.fault (.endless id)))
  | depth + 1, id => do
    let node ← Lower.lift (m.grammar.node id)
    let code ← m.lowerKind (m.lowerDown depth) id node.saver node.kind
    return m.lowerAction node.preAction ++ code ++ m.lowerAction node.postAction

def lowerBody (m : MethodPlan) : Lower (List Stmt) := do
  let body ← m.lowerDown m.grammar.depthBound m.rule.body
  let declarations := (← get).offsets.map fun offset => Stmt.snippet (.declareLookahead offset)
  return declarations ++ body

def lowerMethod (m : MethodPlan) : Lower Method := do
  let body ← m.lowerBody
  let code ← Lower.lift (m.rule.methodCode m.form (Stmt.renderAll body))
  return ⟨m.rule, m.form, body, code⟩

/-- Makes the method, where `tables` are the tables there are. The result is the method or why
there is none, the tables afterwards, and what there is to say about it. -/
def make (m : MethodPlan) (tables : Tables) :
    Except (Failure GenerationError) Method × Tables × List Event :=
  let (method, state) := m.lowerMethod.run ⟨tables, [], [], 0, 0⟩
  (method, state.tables, state.events)

/-- Writes the method down as code. -/
def write (m : MethodPlan) (tables : Tables) :
    Except (Failure GenerationError) Tokens × Tables × List Event :=
  let (method, tables, events) := m.make tables
  (method.map Method.code, tables, events)

end MethodPlan

end PredictiveParser
