import PredictiveParser.Analysis.Lookahead

/-!
# Follow sets

What may come after the end of each rule. Token rules can be followed by anything; public rules and
rules that nobody calls by the end of input. Beyond that, each call of a rule adds what can come
first after the call. The sets grow round by round until nothing changes.
-/
namespace PredictiveParser

/-- What may follow the end of each rule. -/
abbrev FollowSets := List (String × CharSet)

namespace FollowSets

/-- The follow set of a rule; anything may follow a rule without one. -/
def get (follow : FollowSets) (rule : String) : CharSet :=
  (follow.lookup rule).getD .everything

def set (follow : FollowSets) (rule : String) (value : CharSet) : FollowSets :=
  match follow with
  | [] => [(rule, value)]
  | entry :: rest =>
    if entry.1 == rule then (rule, value) :: rest else entry :: FollowSets.set rest rule value

def erase (follow : FollowSets) (rule : String) : FollowSets :=
  follow.filter (·.1 != rule)

def add (follow : FollowSets) (rule : String) (more : CharSet) : FollowSets :=
  follow.set rule (((follow.lookup rule).getD .empty).union more)

end FollowSets

namespace Grammar

/-- What may follow each rule before its calls are taken into account. -/
def initialFollow (g : Grammar) : Except Fault FollowSets := do
  let called ← g.ruleList.mapM fun rule => g.callees rule.body
  return g.ruleList.foldl
    (fun follow rule => follow.set rule.name
      (if rule.isToken then .everything
      else if !rule.isPrivate || !called.flatten.contains rule.name then .endOfInput
      else .empty))
    []

/-- What the calls in one rule add: each called rule with what can come first after the call. -/
def followAdditions (g : Grammar) (recursionLimit : Nat) (follow : FollowSets) (rule : Rule) :
    Except (Failure GenerationError) (List (String × CharSet)) :=
  let la : Lookahead := ⟨g, rule.name, follow.get rule.name, recursionLimit⟩
  g.visitContinuations rule.body fun _ node after => do
    match node.kind with
    | .call callee => return [(callee, ← la.first (.ofStack after))]
    | _ => return []

/-- One round over the rules. Each rule sees what the rules before it have added. -/
def followRound (g : Grammar) (recursionLimit : Nat) (follow : FollowSets) :
    Except (Failure GenerationError) FollowSets :=
  g.ruleList.foldlM
    (fun follow rule => do
      let additions ← g.followAdditions recursionLimit follow rule
      return additions.foldl (fun follow entry => follow.add entry.1 entry.2) follow)
    follow

/-- Makes rounds until one of them changes nothing, at most `rounds` of them. -/
def settleFollow (g : Grammar) (recursionLimit : Nat) :
    (rounds : Nat) → FollowSets → Except (Failure GenerationError) FollowSets
  | 0, _ => throw (.fault (.endless 0))
  | rounds + 1, follow => do
    let next ← g.followRound recursionLimit follow
    if next = follow then return follow else g.settleFollow recursionLimit rounds next

/-- More rounds than can change something: every round but the last adds a value of the universe to
the set of some rule or called name. -/
def followRounds (g : Grammar) : Nat :=
  (g.rules.length + g.nodes.size) * (maxChar.toNat + 3) + 2

/-- The least follow sets of all rules. -/
def followSets (g : Grammar) (recursionLimit : Nat) :
    Except (Failure GenerationError) FollowSets := do
  let follow ← g.initialFollow
  g.settleFollow recursionLimit g.followRounds follow

end Grammar

end PredictiveParser
