import PredictiveParser.Grammar.Basic

/-!
# Building grammars

Each builder returns the grammar with its new or changed node, and the place of that node.
-/
namespace PredictiveParser

namespace Grammar

def addNode (g : Grammar) (node : Node) : Grammar × NodeId :=
  ({ g with nodes := g.nodes.push node }, g.nodes.size)

def addKind (g : Grammar) (kind : NodeKind) : Grammar × NodeId :=
  g.addNode (.ofKind kind)

def terminal (g : Grammar) (set : CharSet) : Grammar × NodeId :=
  g.addKind (.terminal set none)

def sequence (g : Grammar) (items : List NodeId) : Grammar × NodeId :=
  g.addKind (.sequence items)

def alternatives (g : Grammar) (arms : List NodeId) : Grammar × NodeId :=
  g.addKind (.alternatives (.ofArms arms .once))

def call (g : Grammar) (rule : String) : Grammar × NodeId :=
  g.addKind (.call rule)

def gate (g : Grammar) (predict matched : NodeId) : Grammar × NodeId :=
  g.addKind (.gate predict matched)

/-- A check of an expression. -/
def checkCode (g : Grammar) (negate : Bool) (code : Tokens) : Grammar × NodeId :=
  g.addKind (.check ⟨negate, .code code, none⟩)

/-- A check whether the tree under `payload` matches. -/
def checkMatch (g : Grammar) (negate : Bool) (payload : NodeId) : Grammar × NodeId :=
  g.addKind (.check ⟨negate, .syntactic payload none, none⟩)

/-! ## Repetition -/

/-- Repeats a node. A plain alternative set without annotations becomes the loop itself; any other
node becomes its only arm. -/
def loopOf (g : Grammar) (inner : NodeId) (mode : Repetition) : Except Fault (Grammar × NodeId) := do
  let node ← g.node inner
  let bare := node.label.isNone && node.preAction.isNone && node.postAction.isNone
  match node.kind with
  | .alternatives alts =>
    if bare && alts.mode == .once then
      return (← g.modifyNode inner (Node.mapAlternatives ({ · with mode })), inner)
    else return g.addKind (.alternatives (.ofArms [inner] mode))
  | _ => return g.addKind (.alternatives (.ofArms [inner] mode))

def star (g : Grammar) (inner : NodeId) : Except Fault (Grammar × NodeId) :=
  g.loopOf inner .star

def opt (g : Grammar) (inner : NodeId) : Except Fault (Grammar × NodeId) :=
  g.loopOf inner .opt

/-! ## Copies -/

/-- Copies several trees in order, with a copier for one tree. -/
def copyAll (copy : Grammar → NodeId → Except Fault (Grammar × NodeId)) (g : Grammar)
    (ids : List NodeId) : Except Fault (Grammar × List NodeId) :=
  match ids with
  | [] => return (g, [])
  | id :: rest => do
    let (g, new) ← copy g id
    let (g, news) ← copyAll copy g rest
    return (g, new :: news)

/-- Copies the tree under `id`, at most `depth` steps down. The copies of the children come before
the copy of their parent, and predictions are not copied. -/
def copyDown : (depth : Nat) → Grammar → NodeId → Except Fault (Grammar × NodeId)
  | 0, _, id => .error (.endless id)
  | depth + 1, g, id => do
    let node ← g.node id
    match node.kind with
    | .sequence items =>
      let (g, items) ← copyAll (copyDown depth) g items
      return g.addNode { node with kind := .sequence items }
    | .alternatives alts =>
      let (g, arms) ← copyAll (copyDown depth) g alts.arms
      return g.addNode { node with kind := .alternatives { alts with arms, prediction := none } }
    | .gate predict matched =>
      let (g, predict) ← copyDown depth g predict
      let (g, matched) ← copyDown depth g matched
      return g.addNode { node with kind := .gate predict matched }
    | .check ⟨negate, .syntactic payload rule, prematched⟩ =>
      let (g, payload) ← copyDown depth g payload
      return g.addNode { node with kind := .check ⟨negate, .syntactic payload rule, prematched⟩ }
    | _ => return g.addNode node

def deepClone (g : Grammar) (id : NodeId) : Except Fault (Grammar × NodeId) :=
  copyDown g.depthBound g id

/-- One or more times: the node, then a loop over a copy of it. -/
def plus (g : Grammar) (inner : NodeId) : Except Fault (Grammar × NodeId) := do
  let (g, again) ← g.deepClone inner
  let (g, rest) ← g.star again
  return g.sequence [inner, rest]

/-! ## Annotations -/

/-- Names the value of a node; `isList` collects every match. -/
def label (g : Grammar) (id : NodeId) (name : String) (isList : Bool) : Except Fault Grammar := do
  let _ ← g.node id
  let name ← checkedName name
  g.modifyNode id ({ · with label := some name, isList })

/-- Adds an action before the node, behind those it has. -/
def preAction (g : Grammar) (id : NodeId) (code : Tokens) : Except Fault Grammar :=
  g.modifyNode id fun node => { node with preAction := joinActions node.preAction (some code) }

/-- Adds an action after the node, behind those it has. -/
def postAction (g : Grammar) (id : NodeId) (code : Tokens) : Except Fault Grammar :=
  g.modifyNode id fun node => { node with postAction := joinActions node.postAction (some code) }

def basis (g : Grammar) (id : NodeId) (code : Tokens) : Except Fault Grammar :=
  g.modifyNode id ({ · with basis := some code })

/-- Declares the arm for input that no arm claims; other nodes than alternative sets stay as they
are. -/
def defaultArm (g : Grammar) (id : NodeId) (arm : Nat) : Except Fault Grammar :=
  g.modifyNode id (Node.mapAlternatives ({ · with defaultArm := some arm }))

/-- Declares input that no arm claims an error. -/
def errorBranch (g : Grammar) (id : NodeId) : Except Fault Grammar :=
  g.modifyNode id (Node.mapAlternatives ({ · with errorBranch := true }))

/-- Declares how a loop treats input that may both continue and leave it. -/
def greedy (g : Grammar) (id : NodeId) (value : Bool) : Except Fault Grammar :=
  g.modifyNode id (Node.mapAlternatives ({ · with greedy := some value }))

/-- Attaches a prediction, or takes it away. -/
def setPrediction (g : Grammar) (id : NodeId) (prediction : Option Decision) :
    Except Fault Grammar :=
  g.modifyNode id (Node.mapAlternatives ({ · with prediction }))

def setPrematched (g : Grammar) (id : NodeId) (mark : Option Bool) : Except Fault Grammar :=
  g.modifyNode id (Node.withPrematched mark)

end Grammar

end PredictiveParser
