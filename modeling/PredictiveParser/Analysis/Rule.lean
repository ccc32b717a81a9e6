import PredictiveParser.Analysis.Follow
import PredictiveParser.Analysis.Prematch
import PredictiveParser.Analysis.Tree
import PredictiveParser.Diagnostics
import PredictiveParser.Options

/-!
# Analyzing a rule

`Grammar.analyzeRule` gives every alternative set that a rule matches its prediction tree, then
marks what prediction has already tested. All trees are built before the first one is attached.
-/
namespace PredictiveParser

/-- A step that changes a grammar and keeps a journal. When it fails, what it has changed and said
before stays. -/
abbrev Pass := ExceptT (Failure GenerationError) (StateM (Grammar × List Event))

namespace Pass

def grammar : Pass Grammar := do
  return (← get).1

def setGrammar (g : Grammar) : Pass Unit :=
  modify fun state => (g, state.2)

def say (event : Event) : Pass Unit :=
  modify fun state => (state.1, state.2 ++ [event])

def lift {α : Type} (result : Except (Failure GenerationError) α) : Pass α :=
  ExceptT.mk (pure result)

def liftFault {α : Type} (result : Except Fault α) : Pass α :=
  Pass.lift (result.mapError Failure.fault)

end Pass

/-- The prediction tree of one alternative set, and the warnings met while building it. -/
structure Analyzed where
  node : NodeId
  tree : Decision
  warnings : List String

namespace Grammar

/-- The prediction trees of all alternative sets that a rule with this body matches. -/
def predictions (g : Grammar) (la : Lookahead) (k : Nat) (body : NodeId) :
    Except (Failure GenerationError) (List Analyzed) :=
  g.visitContinuations body fun id node after => do
    match node.kind with
    | .alternatives alts =>
      if alts.arms.isEmpty then throw (.error (.emptyAlternatives la.rule id))
      let (tree, warnings) ← predictionOf la k id alts after
      return [⟨id, tree, warnings⟩]
    | _ => return []

/-- Reports the warnings of a tree and attaches it to its alternative set. -/
def attach (rule : String) (analyzed : Analyzed) : Pass Unit := do
  let g ← Pass.grammar
  analyzed.warnings.forM fun warning => Pass.say (.atNode g .warning rule analyzed.node warning)
  let node ← Pass.liftFault (g.node analyzed.node)
  match node.alternatives? with
  | none => return ()
  | some alts =>
    match analyzed.tree.invalidAlt? alts.arms.length alts.hasExit with
    | some alt => throw (.error (.armOutOfRange rule analyzed.node alt))
    | none =>
      Pass.setGrammar (← Pass.liftFault (g.setPrediction analyzed.node (some analyzed.tree)))

/-- Gives every alternative set of a rule its prediction tree, then marks what prediction has
already tested. -/
def analyzeRule (rule : String) (follow : FollowSets) (options : Options) : Pass Unit := do
  let g ← Pass.grammar
  match g.rule? rule with
  | none => throw (.error (.unknownRule rule rule))
  | some r =>
    let la : Lookahead := ⟨g, rule, follow.get rule, options.recursionLimit⟩
    let trees ← Pass.lift (g.predictions la (max (r.k.getD options.k) 1) r.body)
    trees.forM (attach rule)
    Pass.setGrammar (← Pass.liftFault ((← Pass.grammar).markPrematched r.body))

end Grammar

end PredictiveParser
