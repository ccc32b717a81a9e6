import PredictiveParser.Grammar.Basic

/-!
# Shape of a grammar

Every later step relies on four properties: no node occurs twice among the trees of all rules, every
alternative set has an arm, every declared default arm exists, and so does every called rule.
-/
namespace PredictiveParser

namespace Grammar

def nodeProblem? (g : Grammar) (rule : String) (id : NodeId) (node : Node) : Option GrammarError :=
  match node.kind with
  | .alternatives alts =>
    if alts.arms.isEmpty then some (.emptyAlternatives rule id)
    else match alts.defaultArm with
      | some arm =>
        if alts.arms.length ≤ arm then some (.defaultArmOutOfRange rule id arm) else none
      | none => none
  | .call callee => if (g.rule? callee).isNone then some (.unknownRule rule callee) else none
  | _ => none

/-- Checks the nodes of one rule in order, where `seen` are the nodes met before. The result is the
nodes met so far. -/
def checkNodes (g : Grammar) (rule : String) (seen : List NodeId) :
    List NodeId → Except (Failure GrammarError) (List NodeId)
  | [] => return seen
  | id :: rest => do
    if seen.contains id then throw (.error (.sharedNode rule id))
    let node ← g.node id
    match g.nodeProblem? rule id node with
    | some problem => throw (.error problem)
    | none => g.checkNodes rule (id :: seen) rest

/-- Checks the rules in order, where `seen` are the nodes met before. -/
def checkRules (g : Grammar) (seen : List NodeId) :
    List Rule → Except (Failure GrammarError) Unit
  | [] => return ()
  | rule :: rest => do
    let ids ← g.walk rule.body
    let seen ← g.checkNodes rule.name seen ids
    g.checkRules seen rest

/-- Checks the shape that every later step relies on. -/
def validate (g : Grammar) : Except (Failure GrammarError) Unit :=
  g.checkRules [] g.ruleList

end Grammar

end PredictiveParser
