import PredictiveParser.Grammar.Builder

/-!
# What prediction has already tested

When every way to choose an arm has tested the terminal or check with which the arm starts, the arm
need not test it again. Such nodes are marked as prematched.
-/
namespace PredictiveParser

namespace Decision

/-- The first-level terminals that lead to `alt`, when the first level tests the next terminal at
all. -/
def firstSetsTo? (alt : Alt) : Decision → Option CharSet
  | .level 0 false branches _ =>
    if branches.length < 2 then none
    else match branches.filter (·.target.uses alt) with
      | [] => none
      | branch :: rest => some (rest.foldl (fun set b => b.set.union set) branch.set)
  | _ => none

mutual

/-- Whether some leaf chooses `alt`, and every way to such a leaf passes a test whose disjuncts all
contain `tested`. -/
def alwaysTests (alt : Alt) (tested : CheckRef) : Decision → Bool
  | .pick _ => false
  | .level _ isAssertion branches _ =>
    branches.any (·.target.uses alt) && branchesTest alt tested isAssertion branches

/-- Whether each branch that leads to `alt` tests `tested`, itself or further down. -/
def branchesTest (alt : Alt) (tested : CheckRef) (isAssertion : Bool) :
    List (Branch Decision) → Bool
  | [] => true
  | ⟨_, checks, _, target⟩ :: rest =>
    (!target.uses alt ||
      (isAssertion && !checks.isEmpty && checks.all (·.contains tested)) ||
      alwaysTests alt tested target) &&
    branchesTest alt tested isAssertion rest

end

end Decision

namespace Grammar

/-- The terminal or check with which an arm starts, at most `depth` sequences down. -/
def leadingDown (g : Grammar) : (depth : Nat) → NodeId → Except Fault (Option NodeId)
  | 0, id => .error (.endless id)
  | depth + 1, id => do
    let node ← g.node id
    match node.kind with
    | .sequence (first :: _) => g.leadingDown depth first
    | .terminal .. | .check _ => return some id
    | _ => return none

/-- The terminal or check with which an arm starts. -/
def leadingNode? (g : Grammar) (arm : NodeId) : Except Fault (Option NodeId) :=
  g.leadingDown g.depthBound arm

/-- Whether choosing the arm with this place has tested the node it starts with. -/
def isProven (tree : Decision) (index : Nat) (id : NodeId) (lead : Node) : Bool :=
  match lead.kind with
  | .terminal set _ =>
    match tree.firstSetsTo? (.arm index) with
    | some sets => sets.isSubsetOf set
    | none => false
  | .check _ => tree.alwaysTests (.arm index) ⟨id, 0⟩
  | _ => false

/-- The leading nodes of an alternative set that its prediction has tested. -/
def provenLeads (g : Grammar) (alts : Alternatives) (tree : Decision) :
    Except Fault (List NodeId) := do
  let leads ← (alts.arms.zipIdx).mapM fun (arm, index) => do
    match ← g.leadingNode? arm with
    | none => return []
    | some id => return if isProven tree index id (← g.node id) then [id] else []
  return leads.flatten

/-- Marks the nodes under `body` that prediction has tested. -/
def markPrematched (g : Grammar) (body : NodeId) : Except Fault Grammar := do
  let ids ← g.walkMatched body
  let marks ← ids.mapM fun id => do
    match (← g.node id).alternatives? with
    | some alts =>
      match alts.prediction with
      | some tree => g.provenLeads alts tree
      | none => return []
    | none => return []
  marks.flatten.foldlM (fun g id => g.setPrematched id (some true)) g

end Grammar

end PredictiveParser
