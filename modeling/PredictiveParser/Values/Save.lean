import PredictiveParser.Options
import PredictiveParser.Values.References

/-!
# Saving the values that code refers to

Each node whose value some code refers to stores it in a variable that is declared at the start of
the rule, and the references become that variable. Variables are declared in the order of their
names; a later node that expects another type for the same variable is reported.
-/
namespace PredictiveParser

open Template

/-- A variable with the text of its type and its declaration. -/
structure Declared where
  name : String
  type : String
  code : Tokens

def Declared.insert (new : Declared) : List Declared → List Declared
  | [] => [new]
  | other :: rest =>
    if new.name < other.name then new :: other :: rest else other :: Declared.insert new rest

def variableType (listType type : Tokens) (isList : Bool) : Tokens × Tokens :=
  if isList then
    (listType ++ op "<" ++ type ++ op ">", listType ++ op "::" ++ word "new" ++ parens [])
  else if Tokens.text type == "i32" then (type, natLiteral 0)
  else (type, absolutePath ["std", "default", "Default", "default"] ++ parens [])

def declare (name : String) (type init : Tokens) : Tokens :=
  words ["let", "mut", name] ++ op ":" ++ type ++ op "=" ++ init ++ op ";"

/-- Where the saving of values stands. -/
structure Saving where
  grammar : Grammar
  events : List Event
  declared : List Declared
  /-- The keys of other references for which a terminal was found. -/
  found : List String

namespace Saving

def say (saving : Saving) (rule : String) (id : NodeId) (message : String) : Saving :=
  { saving with events := saving.events ++ [.atNode saving.grammar .error rule id message] }

/-- Declares a variable of the given type, or reports that it was declared with another one. -/
def declareAs (saving : Saving) (rule : String) (id : NodeId) (name : String)
    (type init : Tokens) : Saving :=
  let typeText := Tokens.text type
  match saving.declared.find? (·.name == name) with
  | none =>
    let new : Declared := ⟨name, typeText, declare name type init⟩
    { saving with declared := new.insert saving.declared }
  | some existing =>
    if existing.type == typeText then saving
    else saving.say rule id
      ("Type mismatch: Variable '" ++ name ++ "' was generated earlier with type " ++
        existing.type ++ ", but this predicate expects " ++ typeText ++ ".")

/-- The type of a value, or a placeholder when it is not known, which is reported. -/
def orUnknown (saving : Saving) (rule : String) (id : NodeId) (type : Option Tokens) :
    Saving × Tokens :=
  match type with
  | some type => (saving, type)
  | none => (saving.say rule id
      "The type of this expression is unknown (did you set the terminal_type option?)", word "_")

/-- Lets a node store its value in a variable, unless it already stores it somewhere. -/
def store (saving : Saving) (rule : String) (options : Options) (id : NodeId) (node : Node)
    (name : String) (type : Option Tokens) : Except Fault Saving := do
  if node.saver.isSome then return saving
  let (saving, type) := saving.orUnknown rule id type
  let name ← checkedName name
  let (type, init) := variableType options.listType type node.isList
  let saving := saving.declareAs rule id name type init
  return { saving with
    grammar := ← saving.grammar.modifyNode id ({ · with saver := some ⟨name, node.isList⟩ }) }

/-- The type of the value of a rule. -/
def ruleType? (g : Grammar) (rule : String) : Option Tokens :=
  (g.rule? rule).map Rule.valueType

/-- Lets one node store its value if some code refers to it. -/
def saveNode (refs : Referenced) (rule : String) (options : Options) (saving : Saving)
    (id : NodeId) : Except Fault Saving := do
  let node ← saving.grammar.node id
  match node.kind with
  | .call callee =>
    let type := ruleType? saving.grammar callee
    match node.label with
    | some label => saving.store rule options id node label type
    | none =>
      if refs.rules.contains callee then
        saving.store rule options id node ("got_" ++ callee) type
      else return saving
  | .terminal .. =>
    match node.label with
    | some label => saving.store rule options id node label options.terminalType
    | none =>
      match node.basis.bind refs.variableFor? with
      | some ⟨key, some name⟩ =>
        let saving := { saving with found := key :: saving.found }
        saving.store rule options id node name options.terminalType
      | _ => return saving
  | _ => return saving

/-- The variable that a reference becomes. -/
def resolve? (refs : Referenced) (found : List String) (reference : Reference) : Option String :=
  let key := reference.key
  if reference.isLookahead then none
  else if refs.labels.contains key then some key
  else if refs.rules.contains key then some ("got_" ++ key)
  else
    match refs.others.find? (·.key == key) with
    | some other => if found.contains key then other.varName? else none
    | none => none

/-- What is put in the place of a reference: its variable. The key of a reference that stays is
noted. -/
def substitute (refs : Referenced) (found : List String) (reference : Reference) :
    StateT (List String) (Except Fault) (Option Tokens) := do
  match resolve? refs found reference with
  | some name =>
    let name ← checkedName name
    return some (word name)
  | none =>
    if !reference.isLookahead then modify (· ++ [reference.key])
    return none

/-- Replaces the references of a code block by variables. The result is the new code and the keys
of the references that stay. -/
def substituteCode (refs : Referenced) (found : List String) (code : Tokens) :
    Except Fault (Tokens × List String) :=
  (References.replaceM (substitute refs found) code).run []

def substituteOption (refs : Referenced) (found : List String) (code : Option Tokens) :
    Except Fault (Option Tokens × List String) := do
  match code with
  | some code =>
    let (code, dangling) ← substituteCode refs found code
    return (some code, dangling)
  | none => return (none, [])

/-- Replaces the references in the code of a check. Other kinds stay as they are. -/
def substituteKind (refs : Referenced) (found : List String) :
    NodeKind → Except Fault (NodeKind × List String)
  | .check ⟨negate, .code code, prematched⟩ => do
    let (code, dangling) ← substituteCode refs found code
    return (.check ⟨negate, .code code, prematched⟩, dangling)
  | kind => return (kind, [])

/-- Replaces the references in the code blocks of a node. The result is the new grammar and the
keys of the references that stay. -/
def substituteNode (refs : Referenced) (found : List String) (g : Grammar) (id : NodeId) :
    Except Fault (Grammar × List String) := do
  let node ← g.node id
  let (preAction, first) ← substituteOption refs found node.preAction
  let (postAction, second) ← substituteOption refs found node.postAction
  let (kind, third) ← substituteKind refs found node.kind
  return (← g.modifyNode id ({ · with kind, preAction, postAction }), first ++ second ++ third)

/-- Replaces the references in the code blocks of nodes. The result is the new grammar and the
references that stay, each with its node. -/
def substituteAll (refs : Referenced) (found : List String) :
    List NodeId → Grammar → Except Fault (Grammar × List (NodeId × String))
  | [], g => return (g, [])
  | id :: rest, g => do
    let (g, keys) ← substituteNode refs found g id
    let (g, more) ← substituteAll refs found rest g
    return (g, keys.map (id, ·) ++ more)

end Saving

namespace Grammar

def declareVariables (g : Grammar) (id : NodeId) (declared : List Declared) : Except Fault Grammar :=
  if declared.isEmpty then .ok g
  else g.modifyNode id fun node => { node with
    preAction := joinActions (some (declared.flatMap (·.code))) node.preAction }

/-- Saves the values that the code of a rule refers to: the result is the grammar with variables,
and what there is to say about it. -/
def saveValues (g : Grammar) (rule : String) (options : Options) :
    Except (Failure GenerationError) (Grammar × List Event) := do
  match g.rule? rule with
  | none => throw (.error (.unknownRule rule rule))
  | some r =>
    let ids ← g.walkMatched r.body
    let (g, moved) ← moveLabels rule ids g
    let ids ← g.walkMatched r.body
    let nodes ← ids.mapM fun id => (g.node id : Except (Failure GenerationError) Node)
    let refs ← Referenced.ofNodes g.ruleNames nodes
    let start : Saving := ⟨g, moved, [], []⟩
    let saved : Saving ← ids.foldlM
      (fun saving id => (Saving.saveNode refs rule options saving id : Except _ Saving)) start
    let (g, dangling) ← Saving.substituteAll refs saved.found ids saved.grammar
    let reports := dangling.map fun (id, key) => Event.atNode g .error rule id
      ("'$" ++ key ++ "' does not refer to a label, a rule or anything this rule matches.")
    return (← g.declareVariables r.body saved.declared, saved.events ++ reports)

end Grammar

end PredictiveParser
