import PredictiveParser.Analysis.Iterate
import PredictiveParser.Grammar.Basic

/-!
# Looking ahead

A configuration is one way in which the input can continue: what is left to match, and the checks
passed on the way. `Lookahead.steps` finds the terminal sets that can be matched next from a
configuration, each with the configuration left after it.

The search takes configurations off a stack. The top frame of each is replaced by what it stands
for: a sequence by its items, an alternative set by its arms and its exit, a gate by its predicted
side, a call by the body of the rule. A configuration that was met before is dropped, so loops that
match nothing end; calls that nest deeper than a limit are an error.
-/
namespace PredictiveParser

/-- One entry of what is left to match. -/
inductive Frame where
  | node (id : NodeId)
  /-- The return from a called rule. -/
  | ruleEnd
deriving DecidableEq

/-- One way in which the input can continue. -/
structure Config where
  /-- What is left to match, next thing first. -/
  stack : List Frame
  /-- The checks passed on the way. -/
  checks : CheckSet
  /-- The end of the rule was passed once already. -/
  pastEnd : Bool
deriving DecidableEq

namespace Config

/-- What is left to match at the start of a search. -/
def ofStack (stack : List Frame) : Config where
  stack
  checks := []
  pastEnd := false

/-- The number of calls that have not returned. -/
def callDepth (stack : List Frame) : Nat :=
  stack.count .ruleEnd

end Config

/-- Puts nodes on top of a stack, the first of them topmost. -/
def pushNodes (nodes : List NodeId) (stack : List Frame) : List Frame :=
  nodes.map Frame.node ++ stack

/-- What looking ahead depends on. -/
structure Lookahead where
  grammar : Grammar
  /-- The rule whose choices are examined. -/
  rule : String
  /-- What may follow the end of that rule. -/
  follow : CharSet
  /-- How deeply calls may nest before a terminal. -/
  recursionLimit : Nat

/-- What comes next from a configuration. -/
inductive Expansion where
  /-- A terminal of the set is matched, which leaves the configuration. -/
  | terminal (set : CharSet) (next : Config)
  /-- One of these configurations is the next to look at; the first is looked at first. -/
  | configs (next : List Config)

namespace Lookahead

/-- Replaces the top frame of a configuration by what it stands for. Behind the end of the rule the
follow set comes once, and anything afterwards. -/
def expand (la : Lookahead) (offset : Nat) (config : Config) :
    Except (Failure GenerationError) Expansion :=
  match config.stack with
  | [] =>
    if config.pastEnd then return .terminal .everything config
    else return .terminal la.follow { config with pastEnd := true }
  | .ruleEnd :: stack => return .configs [{ config with stack }]
  | .node id :: stack => do
    let node ← la.grammar.node id
    match node.kind with
    | .sequence items => return .configs [{ config with stack := pushNodes items stack }]
    | .alternatives alts =>
      let after := if alts.mode = .star then .node id :: stack else stack
      let arms := alts.arms.map fun arm => { config with stack := .node arm :: after }
      let exit := if alts.hasExit then [{ config with stack }] else []
      return .configs (exit ++ arms)
    | .gate predict _ => return .configs [{ config with stack := .node predict :: stack }]
    | .check _ =>
      return .configs [{ config with stack, checks := config.checks.insert ⟨id, offset⟩ }]
    | .call callee =>
      if la.recursionLimit ≤ Config.callDepth stack then
        throw (.error (.recursionLimit la.rule la.recursionLimit))
      match la.grammar.rule? callee with
      | none => throw (.error (.unknownRule la.rule callee))
      | some rule =>
        return .configs [{ config with stack := .node rule.body :: .ruleEnd :: stack }]
    | .terminal set _ => return .terminal set { config with stack }

/-- The state of a search: the configurations still to look at, those met before, and what was
found, last one first. -/
structure Search where
  work : List Config
  seen : List Config
  found : List (CharSet × Config)

/-- One step of a search. The answer is what was found, in the order in which it was found. -/
def searchStep (la : Lookahead) (offset : Nat) (search : Search) :
    Except (Failure GenerationError) (Search ⊕ List (CharSet × Config)) :=
  match search.work with
  | [] => return .inr search.found.reverse
  | config :: work =>
    if search.seen.contains config then return .inl { search with work }
    else do
      let seen := config :: search.seen
      match ← la.expand offset config with
      | .terminal set next => return .inl ⟨work, seen, (set, next) :: search.found⟩
      | .configs next => return .inl ⟨next ++ work, seen, search.found⟩

def linkCount (g : Grammar) : Nat :=
  g.nodes.foldl (fun count node => count + node.children.length) 0

/-- A number of stages within which every search of a grammar of finite trees ends. A stack has at
most `height` frames out of `frames` different ones, so the configurations can be told apart by
`height * frames` bits for the stack and one for each check. -/
def searchStages (la : Lookahead) (config : Config) : Nat :=
  let nodes := la.grammar.nodes.size
  let links := linkCount la.grammar
  let frames := nodes + links + la.grammar.rules.length + config.stack.length + 3
  let height := config.stack.length + (la.recursionLimit + 1) * (nodes * (links + 2) + 2)
  height * frames + nodes + links + 6

/-- Each terminal set that can be matched next, `offset` terminals ahead of the decision, with the
configuration left after matching it. -/
def steps (la : Lookahead) (config : Config) (offset : Nat) :
    Except (Failure GenerationError) (List (CharSet × Config)) := do
  let start : Search := ⟨[config], [], []⟩
  match ← Iterate.run (la.searchStep offset) (la.searchStages config) start with
  | some found => return found
  | none => throw (.fault (.endless 0))

/-- Everything that can be matched next. -/
def first (la : Lookahead) (config : Config) : Except (Failure GenerationError) CharSet := do
  return .unionAll ((← la.steps config 0).map Prod.fst)

end Lookahead

/-! ## Continuations -/

/-- Each member of a list with the members behind it. -/
def withRests {α : Type} : List α → List (α × List α)
  | [] => []
  | a :: rest => (a, rest) :: withRests rest

namespace Grammar

/-- Visits the nodes that a rule matches, each with what comes after it, and collects what `visit`
finds there. Parents are visited before their children. -/
def visitDown {β : Type} (g : Grammar)
    (visit : NodeId → Node → List Frame → Except (Failure GenerationError) (List β)) :
    (depth : Nat) → NodeId → List Frame → Except (Failure GenerationError) (List β)
  | 0, id, _ => throw (.fault (.endless id))
  | depth + 1, id, after => do
    let node ← g.node id
    let here ← visit id node after
    let below : List (List β) ← match node.kind with
      | .sequence items =>
        (withRests items).mapM fun (item, rest) =>
          g.visitDown visit depth item (pushNodes rest after)
      | .alternatives alts =>
        let next := if alts.mode = .star then .node id :: after else after
        alts.arms.mapM fun arm => g.visitDown visit depth arm next
      | .gate _ matched => pure [← g.visitDown visit depth matched after]
      | _ => pure []
    return here ++ below.flatten

/-- Visits the nodes that a rule with this body matches, each with what comes after it. -/
def visitContinuations {β : Type} (g : Grammar) (body : NodeId)
    (visit : NodeId → Node → List Frame → Except (Failure GenerationError) (List β)) :
    Except (Failure GenerationError) (List β) :=
  g.visitDown visit g.depthBound body []

end Grammar

end PredictiveParser
