import PredictiveParser.Grammar.Builder

/-!
# Recognizers

A check whether something matches runs a recognizer. Before generation, what such a check looks for
is copied into a private rule of its own that has a recognizer and no other form. The copy can hold
checks again, so this goes on in rounds until every check has its rule.

After that, every rule that a recognizer calls gets a recognizer too.
-/
namespace PredictiveParser

/-- A check that looks for the tree under `payload` and has no rule for it yet. -/
structure PendingCheck where
  /-- The name of the rule that holds the check. -/
  owner : String
  check : NodeId
  payload : NodeId

/-- What a check without a rule of its own looks for. -/
def Node.pendingPayload? (node : Node) : Option NodeId :=
  match node.kind with
  | .check ⟨_, .syntactic payload none, _⟩ => some payload
  | _ => none

def Node.withCheckRule (rule : String) (node : Node) : Node :=
  match node.kind with
  | .check ⟨negate, .syntactic payload _, prematched⟩ =>
    { node with kind := .check ⟨negate, .syntactic payload (some rule), prematched⟩ }
  | _ => node

namespace Grammar

/-! ## Rules for checks -/

/-- The checks of a rule that have no rule of their own yet. -/
def pendingChecksOf (g : Grammar) (rule : Rule) : Except Fault (List PendingCheck) := do
  let ids ← g.walkPredicted rule.body
  let found ← ids.mapM fun id => do
    return (← g.node id).pendingPayload?.map fun payload => ⟨rule.name, id, payload⟩
  return found.filterMap id

/-- The checks of all rules that have no rule of their own yet. -/
def pendingChecks (g : Grammar) : Except Fault (List PendingCheck) := do
  return (← g.ruleList.mapM g.pendingChecksOf).flatten

/-- The first name `<owner>_test<n>`, counted from one, that no rule has. -/
def checkRuleName (g : Grammar) (owner : String) : String :=
  let names := (List.range (g.rules.length + 1)).map fun n =>
    owner ++ "_test" ++ toString (n + 1)
  (names.find? fun name => (g.rule? name).isNone).getD (owner ++ "_test")

/-- The name of the recognizer of a rule that has no other name for it. -/
def recognizerName (rule : String) : String :=
  "scan_" ++ rule

/-- Copies what a check looks for into a rule of its own. -/
def synthesizeRule (g : Grammar) (pending : PendingCheck) :
    Except (Failure GrammarError) Grammar := do
  let name := g.checkRuleName pending.owner
  let (g, body) ← g.deepClone pending.payload
  let rule : Rule := { Rule.ofBody name body with
    recognizer := some (recognizerName name), recognizerOnly := true, isToken := true,
    isPrivate := true }
  match g.addRule rule with
  | .error cause => throw (.error cause)
  | .ok g => g.modifyNode pending.check (Node.withCheckRule name)

/-- Makes at most so many rounds over the checks without a rule. -/
def synthesizeRounds : (rounds : Nat) → Grammar → Except (Failure GrammarError) Grammar
  | 0, _ => throw (.fault (.endless 0))
  | rounds + 1, g => do
    let pending ← g.pendingChecks
    if pending.isEmpty then return g
    let g ← pending.foldlM synthesizeRule g
    synthesizeRounds rounds g

/-- Gives every check whether something matches a rule of its own. Each round goes one check deeper
into what checks look for, so there are no more rounds than nodes. -/
def synthesizeRecognizers (g : Grammar) : Except (Failure GrammarError) Grammar :=
  synthesizeRounds (g.nodes.size + 1) g

/-! ## Recognizers of called rules -/

/-- The names that are reached by calls from the rules named in `work`, where those in `seen` were
reached before. At most so many rules are visited. -/
def reachCalls (g : Grammar) : (visits : Nat) → (work seen : List String) →
    Except Fault (List String)
  | 0, _, _ => .error (.endless 0)
  | _ + 1, [], seen => return seen
  | visits + 1, name :: work, seen => do
    let called ← match g.rule? name with
      | some rule => g.callees rule.body
      | none => pure []
    let new := (called.filter fun callee => !seen.contains callee).eraseDups
    g.reachCalls visits (new ++ work) (seen ++ new)

/-- Gives every rule that a recognizer calls a recognizer. -/
def assignRecognizers (g : Grammar) : Except Fault Grammar := do
  let start := (g.ruleList.filter (·.recognizer.isSome)).map (·.name)
  let reached ← g.reachCalls (g.rules.length + g.nodes.size + 1) start start
  let called := reached.filter fun name => !start.contains name
  return called.foldl
    (fun g name => g.modifyRule name fun rule =>
      { rule with recognizer := rule.recognizer.or (some (recognizerName name)) })
    g

end Grammar

end PredictiveParser
