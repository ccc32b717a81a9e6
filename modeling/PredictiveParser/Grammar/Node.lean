import PredictiveParser.Code.Template
import PredictiveParser.Grammar.Prediction

/-!
# Nodes of a grammar

The body of a rule is a tree of nodes: sequences, alternative sets, gates, zero-width checks, rule
calls and terminals. Every node can carry a label for its value, actions to run before and after
it, and the piece of grammar text it came from. Nodes refer to each other by their place in the
grammar.
-/
namespace PredictiveParser

inductive Repetition where
  | once
  /-- Zero or more times. -/
  | star
  /-- At most once. -/
  | opt
deriving DecidableEq, Repr, Inhabited

/-- A choice between arms, possibly repeated or left out. -/
structure Alternatives where
  arms : List NodeId
  mode : Repetition
  /-- The arm for input that no arm claims. Without one it is the exit of a loop, else the last
  arm. -/
  defaultArm : Option Nat
  /-- Input that no arm claims is an error. -/
  errorBranch : Bool
  /-- How a loop treats input that may both continue and leave it. When nothing is said it
  continues with a warning. -/
  greedy : Option Bool
  /-- How to choose, once analysis has found it. -/
  prediction : Option Decision

namespace Alternatives

/-- An alternative set with nothing declared about its choice. -/
def ofArms (arms : List NodeId) (mode : Repetition) : Alternatives where
  arms
  mode
  defaultArm := none
  errorBranch := false
  greedy := none
  prediction := none

/-- Whether the set can be left without matching an arm. -/
def hasExit (alts : Alternatives) : Bool :=
  alts.mode != .once

end Alternatives

/-- What a zero-width check evaluates. -/
inductive CheckBody where
  /-- An expression. -/
  | code (tokens : Tokens)
  /-- Whether the tree under `node` matches here. `rule` names the recognizer made for it. -/
  | syntactic (node : NodeId) (rule : Option String)

structure Check where
  negate : Bool
  body : CheckBody
  /-- Whether prediction has already proved the check. -/
  prematched : Option Bool

inductive NodeKind where
  | sequence (items : List NodeId)
  | alternatives (alts : Alternatives)
  /-- Prediction looks at `predict`, parsing runs `matched`. -/
  | gate (predict matched : NodeId)
  | check (check : Check)
  | call (rule : String)
  /-- One terminal of a set. `prematched` says that prediction has already tested it. -/
  | terminal (set : CharSet) (prematched : Option Bool)

/-- Where the value of a match is stored. -/
structure Saver where
  name : String
  /-- Append to a list instead of assigning. -/
  append : Bool
deriving DecidableEq

open Template in
/-- The statement that stores the value of an expression. -/
def Saver.store (saver : Saver) (expression : Tokens) : Tokens :=
  if saver.append then
    word saver.name ++ op "." ++ word "push" ++ parens expression ++ op ";"
  else
    word saver.name ++ op "=" ++ expression ++ op ";"

/-- A node with everything attached to it. -/
structure Node where
  kind : NodeKind
  /-- The name the grammar gives to the value of the node. -/
  label : Option String
  /-- The label collects every match. -/
  isList : Bool
  /-- Where the value goes, once a variable exists for it. -/
  saver : Option Saver
  preAction : Option Tokens
  postAction : Option Tokens
  /-- The grammar text of the node, by which code blocks may refer to it. -/
  basis : Option Tokens

/-- Runs one code block after another. -/
def joinActions : Option Tokens → Option Tokens → Option Tokens
  | some first, some second => some (first ++ second)
  | first, none => first
  | none, second => second

namespace Node

/-- A node with nothing attached. -/
def ofKind (kind : NodeKind) : Node where
  kind
  label := none
  isList := false
  saver := none
  preAction := none
  postAction := none
  basis := none

def kindName (node : Node) : String :=
  match node.kind with
  | .sequence _ => "sequence"
  | .alternatives _ => "alternatives"
  | .gate .. => "gate"
  | .check _ => "and-predicate"
  | .call _ => "rule reference"
  | .terminal .. => "terminal"

def alternatives? (node : Node) : Option Alternatives :=
  match node.kind with
  | .alternatives alts => some alts
  | _ => none

/-- The nodes directly below, in order, what a check looks for included. -/
def children (node : Node) : List NodeId :=
  match node.kind with
  | .sequence items => items
  | .alternatives alts => alts.arms
  | .gate predict matched => [predict, matched]
  | .check ⟨_, .syntactic payload _, _⟩ => [payload]
  | _ => []

/-- The nodes directly below that are matched with the node: without the predicted side of a gate
and without what a check looks for. -/
def matchedChildren (node : Node) : List NodeId :=
  match node.kind with
  | .sequence items => items
  | .alternatives alts => alts.arms
  | .gate _ matched => [matched]
  | _ => []

/-- The nodes directly below that are matched or predicted with the node: without what a check
looks for. -/
def predictedChildren (node : Node) : List NodeId :=
  match node.kind with
  | .check _ => []
  | _ => node.children

def callee? (node : Node) : Option String :=
  match node.kind with
  | .call rule => some rule
  | _ => none

def mapAlternatives (f : Alternatives → Alternatives) (node : Node) : Node :=
  match node.kind with
  | .alternatives alts => { node with kind := .alternatives (f alts) }
  | _ => node

def withPrematched (mark : Option Bool) (node : Node) : Node :=
  match node.kind with
  | .terminal set _ => { node with kind := .terminal set mark }
  | .check check => { node with kind := .check { check with prematched := mark } }
  | _ => node

end Node

end PredictiveParser
