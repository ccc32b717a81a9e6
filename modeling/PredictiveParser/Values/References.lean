import PredictiveParser.Code.Reference
import PredictiveParser.Diagnostics
import PredictiveParser.Grammar.Builder

/-!
# What the code of a rule refers to

The code blocks of a rule refer to values by a label, by the name of a called rule, or by the text
of a terminal. `Referenced` sorts the references of a rule into these three kinds.

Before that, labels move to where there is a value: a label on an alternative set goes to its arms,
and a label on a node without a value is reported and dropped.
-/
namespace PredictiveParser

/-- A reference that is neither a label nor a rule: its key, and the variable for it if it can have
one. -/
structure OtherReference where
  key : String
  varName? : Option String

/-- What the code blocks of a rule refer to. -/
structure Referenced where
  labels : List String
  rules : List String
  others : List OtherReference

/-- The code blocks of a node that may hold references. -/
def Node.codeBlocks (node : Node) : List Tokens :=
  node.preAction.toList ++ node.postAction.toList ++
    match node.kind with
    | .check ⟨_, .code tokens, _⟩ => [tokens]
    | _ => []

def Node.hasValue (node : Node) : Bool :=
  match node.kind with
  | .call _ | .terminal .. => true
  | _ => false

namespace Grammar

/-- Passes a label that a node without a value has: to the arms of an alternative set, else to
nobody, which is reported. -/
def passLabel (g : Grammar) (rule : String) (id : NodeId) (node : Node) (label : String) :
    Except Fault (Grammar × List Event) :=
  match node.alternatives? with
  | some alts => do
    let g ← alts.arms.foldlM
      (fun g arm => g.modifyNode arm ({ · with label := some label, isList := node.isList })) g
    return (g, [])
  | none =>
    return (g, [Event.atNode g .error rule id
      ("Label '" ++ label ++ "' cannot be attached to a " ++ node.kindName ++ ".")])

def moveLabel (g : Grammar) (rule : String) (id : NodeId) :
    Except Fault (Grammar × List Event) := do
  let node ← g.node id
  match node.label with
  | none => return (g, [])
  | some label =>
    if node.hasValue then return (g, [])
    else
      let (g, events) ← g.passLabel rule id node label
      return (← g.modifyNode id ({ · with label := none }), events)

/-- Moves the labels of nodes, parents before their children. -/
def moveLabels (rule : String) : List NodeId → Grammar → Except Fault (Grammar × List Event)
  | [], g => return (g, [])
  | id :: rest, g => do
    let (g, events) ← g.moveLabel rule id
    let (g, more) ← moveLabels rule rest g
    return (g, events ++ more)

end Grammar

namespace Referenced

/-- Records one reference. Lookahead references and labels need no record. -/
def add (ruleNames : List String) (refs : Referenced) (reference : Reference) :
    Except Fault Referenced := do
  let key := reference.key
  if reference.isLookahead || refs.labels.contains key then return refs
  else if reference.name?.isSome && ruleNames.contains key then
    return if refs.rules.contains key then refs else { refs with rules := refs.rules ++ [key] }
  else if refs.others.any (·.key == key) then return refs
  else return { refs with others := refs.others ++ [⟨key, ← reference.varName?⟩] }

/-- What the code blocks of these nodes refer to, where `ruleNames` are the rules there are. -/
def ofNodes (ruleNames : List String) (nodes : List Node) : Except Fault Referenced :=
  let references := nodes.flatMap fun node => node.codeBlocks.flatMap References.find
  references.foldlM (add ruleNames) ⟨nodes.filterMap (·.label), [], []⟩

/-- The variable for a terminal with this grammar text, when some code refers to it. -/
def variableFor? (refs : Referenced) (basis : Tokens) : Option OtherReference :=
  (refs.others.find? (·.key == basis.normalText)).filter (·.varName?.isSome)

end Referenced

end PredictiveParser
