import PredictiveParser.Analysis.Rule
import PredictiveParser.Grammar.Recognizers
import PredictiveParser.Grammar.Validate
import PredictiveParser.Method.Basic
import PredictiveParser.Values.Save

/-!
# Generating the methods of a grammar

`Grammar.generate` takes a grammar through all steps: it checks settings and shape, gives checks
their recognizers, finds the follow sets, and then analyzes and writes one rule after the other. A
rule that fails is reported and left out. What was found out about the grammar stays in it.
-/
namespace PredictiveParser

structure Generation where
  grammar : Grammar
  tables : Tables
  events : List Event

abbrev Generate := ExceptT (Failure GenerationError) (StateM Generation)

namespace Generate

def lift {α : Type} (result : Except (Failure GenerationError) α) : Generate α :=
  ExceptT.mk (pure result)

def grammar : Generate Grammar := do
  return (← get).grammar

def setGrammar (g : Grammar) : Generate Unit :=
  modify ({ · with grammar := g })

def say (events : List Event) : Generate Unit :=
  modify fun state => { state with events := state.events ++ events }

/-- A step that changes the grammar and keeps a journal. -/
def pass {α : Type} (step : Pass α) : Generate α := do
  let state ← get
  let (result, g, events) := StateT.run (ExceptT.run step) (state.grammar, state.events)
  set { state with grammar := g, events }
  lift result

def makeMethod (rule : Rule) (form : Form) (options : Options) : Generate Method := do
  let state ← get
  let plan : MethodPlan := ⟨state.grammar, rule, form, options.switchThreshold⟩
  let (method, tables, events) := plan.make state.tables
  set { state with tables, events := state.events ++ events }
  lift method

/-- Makes one form of a rule if the rule has it. -/
def methodsOf (rule : Rule) (options : Options) (form : Form) : Generate (List Method) :=
  if rule.hasForm form then do return [← makeMethod rule form options] else return []

def rule (options : Options) (follow : FollowSets) (name : String) : Generate (List Method) := do
  pass (Grammar.analyzeRule name follow options)
  let (g, events) ← lift ((← grammar).saveValues name options)
  setGrammar g
  say events
  match g.rule? name with
  | none => throw (.error (.unknownRule name name))
  | some r =>
    let parser ← methodsOf r options .parser
    let recognizer ← methodsOf r options .recognizer
    return parser ++ recognizer

/-- The methods of one rule, or none when it fails. Then the failure is reported. -/
def ruleOrSkip (options : Options) (follow : FollowSets) (name : String) :
    Generate (List Method) :=
  tryCatch (rule options follow name) fun failure => do
    match failure with
    | .fault cause => throw (.fault cause)
    | .error cause =>
      say [.skipped name cause,
        .report { severity := .error, location := .ofRule name, body := cause.message }]
      return []

def all (options : Options) : Generate (List Method) := do
  lift (options.check.mapError .error)
  let inGrammar {α : Type} (result : Except (Failure GrammarError) α) : Generate α :=
    lift (result.mapError (.map .grammar))
  inGrammar (← grammar).validate
  setGrammar (← inGrammar (← grammar).synthesizeRecognizers)
  setGrammar (← lift (← grammar).assignRecognizers)
  let follow ← lift ((← grammar).followSets options.recursionLimit)
  let methods ← (← grammar).ruleNames.mapM (ruleOrSkip options follow)
  return methods.flatten

end Generate

namespace Grammar

/-- The methods of all rules or why there are none, and where generation stands afterwards. -/
def methods (g : Grammar) (options : Options) :
    Except (Failure GenerationError) (List Method) × Generation :=
  (Generate.all options).run ⟨g, .empty, []⟩

/-- Generates the methods of all rules, followed by the tables they refer to. The result is the code
or why there is none, the grammar with what was found out about it, and what there is to say. -/
def generate (g : Grammar) (options : Options) :
    Except (Failure GenerationError) (List Tokens) × Grammar × List Event :=
  let (methods, state) := g.methods options
  (methods.map fun methods => methods.map Method.code ++ state.tables.members,
    state.grammar, state.events)

end Grammar

end PredictiveParser
