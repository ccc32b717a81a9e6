import PredictiveParser.Error
import PredictiveParser.Grammar.Node

/-!
# Grammars

A grammar owns its nodes and its rules. A rule owns the tree of nodes under its body; trees refer
to other rules by name only. Rules are kept in the order in which they were added.

A walk lists the nodes of a tree, each node before those below it. It fails when a node is missing
or when the nodes below the root do not form a finite tree.
-/
namespace PredictiveParser

structure Rule where
  name : String
  /-- The name of the form that only says whether the input matches, if there is one. -/
  recognizer : Option String
  /-- There is no other form than the recognizer. -/
  recognizerOnly : Bool
  /-- The type of the rule's value. -/
  returns : Option Tokens
  /-- The value of the rule. -/
  result : Option Tokens
  body : NodeId
  /-- Anything may follow a token rule. -/
  isToken : Bool
  isPrivate : Bool
  /-- The lookahead of this rule, when it differs from the grammar's. -/
  k : Option Nat

namespace Rule

/-- A public rule with nothing declared. -/
def ofBody (name : String) (body : NodeId) : Rule where
  name
  recognizer := none
  recognizerOnly := false
  returns := none
  result := none
  body
  isToken := false
  isPrivate := false
  k := none

def generatesParser (rule : Rule) : Bool :=
  !rule.recognizerOnly

/-- The type of the rule's value; a rule that declares none has the empty value. -/
def valueType (rule : Rule) : Tokens :=
  rule.returns.getD (Template.parens [])

end Rule

/-- A set of rules and the nodes they are built from. -/
structure Grammar where
  nodes : Array Node
  /-- The rules under their names, in the order in which they were added. -/
  rules : List (String × Rule)

namespace Grammar

def empty : Grammar where
  nodes := #[]
  rules := []

instance : Inhabited Grammar := ⟨empty⟩

/-! ## Nodes -/

def node (g : Grammar) (id : NodeId) : Except Fault Node :=
  match g.nodes[id]? with
  | some node => .ok node
  | none => .error (.noSuchNode id)

def modifyNode (g : Grammar) (id : NodeId) (f : Node → Node) : Except Fault Grammar :=
  if id < g.nodes.size then .ok { g with nodes := g.nodes.modify id f }
  else .error (.noSuchNode id)

/-! ## Rules -/

def rule? (g : Grammar) (name : String) : Option Rule :=
  g.rules.lookup name

def ruleNames (g : Grammar) : List String :=
  g.rules.map Prod.fst

/-- The rules in the order in which they were added. -/
def ruleList (g : Grammar) : List Rule :=
  g.rules.map Prod.snd

def addRule (g : Grammar) (rule : Rule) : Except GrammarError Grammar :=
  if (g.rule? rule.name).isSome then .error (.duplicateRule rule.name)
  else .ok { g with rules := g.rules ++ [(rule.name, rule)] }

def modifyRule (g : Grammar) (name : String) (f : Rule → Rule) : Grammar :=
  { g with rules := g.rules.map fun entry =>
      if entry.1 == name then (entry.1, f entry.2) else entry }

/-! ## Walks -/

/-- A number of steps down that no tree of the grammar exceeds. -/
def depthBound (g : Grammar) : Nat :=
  g.nodes.size + 1

/-- The nodes under `id`, parents first, at most `depth` steps down. `below` selects the children
to follow. -/
def walkDown (g : Grammar) (below : Node → List NodeId) :
    (depth : Nat) → NodeId → Except Fault (List NodeId)
  | 0, id => .error (.endless id)
  | depth + 1, id => do
    let node ← g.node id
    let parts ← (below node).mapM (g.walkDown below depth)
    return id :: parts.flatten

def walk (g : Grammar) (root : NodeId) : Except Fault (List NodeId) :=
  g.walkDown Node.children g.depthBound root

/-- The nodes that a rule with this body matches. -/
def walkMatched (g : Grammar) (root : NodeId) : Except Fault (List NodeId) :=
  g.walkDown Node.matchedChildren g.depthBound root

/-- The nodes that a rule with this body matches or predicts with. -/
def walkPredicted (g : Grammar) (root : NodeId) : Except Fault (List NodeId) :=
  g.walkDown Node.predictedChildren g.depthBound root

/-- The names of the rules called from the nodes that a rule with this body matches. -/
def callees (g : Grammar) (body : NodeId) : Except Fault (List String) := do
  let ids ← g.walkMatched body
  let nodes ← ids.mapM g.node
  return nodes.filterMap Node.callee?

end Grammar

end PredictiveParser
