import PredictiveParser.Proofs.Values.Rewritten

/-!
# The values that references become are declared

Saving the values of a rule turns references into variables. Which node stores its value in which
variable is decided by all labels and references of the rule (`Grammar.scopeOf`). The rule declares a
variable once, before anything else, if a node stores its value in it from now on
(`SavingSteps.declared_of_newlyStored`).

So the variable that a reference becomes is declared, with two exceptions
(`declaresReferences_saveValues`). It may be for the value of a rule that is called under labels only, or
not at all. And the nodes that stand for it may all have stored their values before. Where none did, only
the first is left (`declares_saveValues`).
-/
namespace PredictiveParser

open References Template

/-! ## Nodes of a walk -/

namespace Grammar

variable {g g' : Grammar} {name value : String} {options : Options} {events : List Event}
  {ids : List NodeId} {id : NodeId}

def nodesOf (g : Grammar) (ids : List NodeId) : List Node :=
  ids.filterMap fun id => g.nodes[id]?

theorem map_nodesOf_of_agrees {α : Type} {f : Node → α} (h : Agrees f g g') (ids : List NodeId) :
    (g'.nodesOf ids).map f = (g.nodesOf ids).map f := by
  simp only [nodesOf, List.map_filterMap, h.nodes]

theorem eq_nodesOf {nodes : List Node} (h : ids.mapM g.node = .ok nodes) : nodes = g.nodesOf ids := by
  have hall := mapM_eq_ok.1 h
  clear h
  induction hall with
  | nil => rfl
  | cons hnode _ ih => rw [nodesOf, List.filterMap_cons, node_eq_ok.1 hnode, ← nodesOf, ih]

/-- What the code of these nodes can refer to, where labels have moved in the second grammar. -/
def scopeOf (g g' : Grammar) (ids : List NodeId) : Scope where
  labels := (g'.nodesOf ids).filterMap (·.label)
  ruleNames := g.ruleNames
  references := (g.nodesOf ids).flatMap Node.references

/-- One of these nodes stores its value in the variable. -/
def StoresIn (g : Grammar) (ids : List NodeId) (value : String) : Prop :=
  ∃ id ∈ ids, ∃ node saver, g.node id = .ok node ∧ node.saver = some saver ∧ saver.name = value

/-- Some of these nodes are to store their values in the variable, and all of them that are did store
values before. -/
def StoredBefore (g g' : Grammar) (ids : List NodeId) (value : String) : Prop :=
  (∃ id ∈ ids, ∃ node, g'.node id = .ok node ∧ (g.scopeOf g' ids).variableOf? node = some value) ∧
    ∀ id ∈ ids, ∀ node node', g.node id = .ok node → g'.node id = .ok node' →
      (g.scopeOf g' ids).variableOf? node' = some value → node.saver ≠ none

/-- All calls of the rule that this body matches have labels. -/
def CallsLabeled (g : Grammar) (body : NodeId) (callee : String) : Prop :=
  ∀ id node, g.MatchedBy body id → g.node id = .ok node → node.kind = .call callee →
    node.label ≠ none

/-! ## Steps -/

namespace SavingSteps

variable (steps : SavingSteps g name options g' events)

theorem first_eq : steps.first = steps.ids := by
  have hwalks := steps.shape_moved.shapeIn.walkDown (fun _ _ => Node.matchedChildren_of_bare)
    (Nat.succ_le_succ steps.shape_moved.shapeIn.size) steps.walksFirst
  exact Except.ok.inj (hwalks.symm.trans steps.walks)

theorem walks_ids : g.walkMatched steps.rule.body = .ok steps.ids :=
  steps.first_eq ▸ steps.walksFirst

theorem labelsValue {node : Node} (hid : id ∈ steps.ids) (hnode : steps.moved.node id = .ok node) :
    node.LabelsValue :=
  labelsValue_moveLabels (· ∈ steps.ids) (followed_walkDown steps.walksFirst)
    (fun _ hid _ _ => Or.inr (steps.first_eq ▸ hid)) steps.moves id hid node hnode

theorem nodes_eq_nodesOf : steps.nodes = steps.moved.nodesOf steps.ids :=
  eq_nodesOf steps.reads

theorem agrees_label : Agrees Node.label steps.moved g' :=
  (Saving.agrees_saveNodes (fun _ _ => rfl) steps.saves).trans
    (steps.agrees_codeless.comp Node.label)

/-- What the code can refer to is the same once labels have moved. -/
theorem scopeOf_eq : g.scopeOf g' steps.ids =
    ⟨steps.nodes.filterMap (·.label), steps.moved.ruleNames, steps.nodes.flatMap Node.references⟩ := by
  have hlabels : (g'.nodesOf steps.ids).filterMap (·.label) = steps.nodes.filterMap (·.label) := by
    have hmap := map_nodesOf_of_agrees steps.agrees_label steps.ids
    rw [← steps.nodes_eq_nodesOf] at hmap
    exact (List.filterMap_map (f := Node.label) (g := id)).symm.trans
      ((congrArg (List.filterMap id) hmap).trans List.filterMap_map)
  have hreferences : (g.nodesOf steps.ids).flatMap Node.references =
      steps.nodes.flatMap Node.references := by
    have hmap := map_nodesOf_of_agrees
      (agrees_moveLabels (f := Node.references) (fun _ _ _ => rfl) steps.moves) steps.ids
    rw [List.flatMap_def, ← hmap, ← steps.nodes_eq_nodesOf, List.flatMap_def]
  have hrules : g.ruleNames = steps.moved.ruleNames := by
    rw [ruleNames, ruleNames, (relabels_moveLabels steps.moves).rules]
  rw [scopeOf, hlabels, hreferences, hrules]

theorem reads_scopeOf : steps.refs.Reads (g.scopeOf g' steps.ids) := by
  rw [steps.scopeOf_eq]
  exact Referenced.reads_ofNodes steps.refers

/-- Each node had its turn. -/
theorem savedThrough : Saving.SavedThrough steps.refs name options ⟨steps.moved, steps.messages, [], []⟩
    steps.ids steps.saved :=
  Saving.savedThrough_saveNodes rfl rfl steps.saves

/-- What becomes of a node that the rule matches once labels have moved. -/
theorem codeless_eq (hid : id ∈ steps.ids) : g'.nodes[id]?.map Node.codeless =
    steps.moved.nodes[id]?.map fun node => (steps.refs.storing node).codeless := by
  rw [steps.agrees_codeless.nodes, steps.savedThrough.nodes, Option.map_map]
  simp only [if_pos hid]
  rfl

theorem exists_stored {node : Node} (hid : id ∈ steps.ids) (hnode : steps.moved.node id = .ok node) :
    ∃ node', g'.node id = .ok node' ∧ node'.codeless = (steps.refs.storing node).codeless := by
  have hsame := steps.codeless_eq hid
  rw [node_eq_ok.1 hnode] at hsame
  obtain ⟨node', hnode', heq⟩ := Option.map_eq_some_iff.1 hsame
  exact ⟨node', node_eq_ok.2 hnode', heq⟩

theorem exists_moved {node' : Node} (hid : id ∈ steps.ids) (hnode' : g'.node id = .ok node') :
    ∃ node, steps.moved.node id = .ok node ∧
      node'.codeless = (steps.refs.storing node).codeless := by
  have hsame := steps.codeless_eq hid
  rw [node_eq_ok.1 hnode'] at hsame
  obtain ⟨node, hnode, heq⟩ := Option.map_eq_some_iff.1 hsame.symm
  exact ⟨node, node_eq_ok.2 hnode, heq.symm⟩

include steps in
theorem sameShape : g.SameShape g' :=
  (steps.relabels.annotates.trans steps.annotates_saved).kinds.sameShape

/-- What was walked is what the body still matches. -/
theorem matchedBy_saved (hid : id ∈ steps.ids) : g'.MatchedBy steps.rule.body id :=
  steps.sameShape.matchedBy (steps.mem_ids.1 hid)

/-- In the end, too, labels are only where values are. -/
theorem labelsValue_saved {node' : Node} (hid : id ∈ steps.ids) (hnode' : g'.node id = .ok node') :
    node'.LabelsValue := by
  obtain ⟨node, hnode, hcodeless⟩ := steps.exists_moved hid hnode'
  have hmoved : (steps.refs.storing node).LabelsValue := by
    have hvalue := steps.labelsValue hid hnode
    exact hvalue
  rwa [← Node.labelsValue_codeless, hcodeless, Node.labelsValue_codeless]

theorem variableOf?_scopeOf {node node' : Node}
    (h : node'.codeless = (steps.refs.storing node).codeless) :
    (g.scopeOf g' steps.ids).variableOf? node' = steps.refs.storedIn? node := by
  rw [← Scope.variableOf?_codeless, h, Scope.variableOf?_codeless, ← steps.reads_scopeOf.storedIn?]
  rfl

/-- A node expects the same declaration when it has its turn and in the end. -/
theorem declarationOf_stored {node node' : Node}
    (h : node'.codeless = (steps.refs.storing node).codeless) (value : String) :
    g'.declarationOf options node' value = steps.moved.declarationOf options node value := by
  have hrules : g'.rules = steps.moved.rules :=
    steps.agrees_codeless.rules.trans steps.savedThrough.rules
  rw [declarationOf_of_rules hrules, ← declarationOf_codeless, h, declarationOf_codeless]
  rfl

/-- What a node is to declare can be read off the grammars before and after saving. -/
theorem newlySavedAt?_eq (hid : id ∈ steps.ids) :
    g.newlySavedAt? g' options id = steps.moved.newAt? steps.refs options id := by
  obtain ⟨node, hnode⟩ := node_of_walkDown steps.walks hid
  obtain ⟨node', hnode', hcodeless⟩ := steps.exists_stored hid hnode
  obtain ⟨old, hold, hsame⟩ :=
    (agrees_moveLabels (f := Node.saver) (fun _ _ _ => rfl) steps.moves).node hnode
  have hsaver : node'.saver = (steps.refs.storing node).saver := (congrArg Node.saver hcodeless :)
  rw [newlySavedAt?, savedAt?, newAt?, node_eq_ok.1 hold, node_eq_ok.1 hnode, node_eq_ok.1 hnode',
    Option.bind_some, Option.bind_some, Option.bind_some, hsaver, hsame, Referenced.newlyStored?,
    Referenced.storing]
  cases node.saver with
  | some saver => rfl
  | none =>
    rw [Option.none_or, Option.map_map]
    exact congrFun (congrArg Option.map (funext (steps.declarationOf_stored hcodeless))) _

/-- What is declared is what some node expects that stores its value. -/
theorem exists_newAt {new : Declared} (hnew : new ∈ steps.saved.declared) :
    ∃ id ∈ steps.ids, steps.moved.newAt? steps.refs options id = some new := by
  have hfind := steps.savedThrough.ascending.find?_eq_some hnew
  rw [steps.savedThrough.declares] at hfind
  exact List.mem_filterMap.1 (List.mem_of_find?_eq_some hfind)

theorem exists_newlyStored {new : Declared} (hnew : new ∈ steps.saved.declared) :
    ∃ id ∈ steps.ids, ∃ node value, steps.moved.node id = .ok node ∧
      steps.refs.newlyStored? node = some value ∧
      new = steps.moved.declarationOf options node value := by
  obtain ⟨id, hid, hat⟩ := steps.exists_newAt hnew
  obtain ⟨node, hnode, hat⟩ := Option.bind_eq_some_iff.1 hat
  obtain ⟨value, hvalue, rfl⟩ := Option.map_eq_some_iff.1 hat
  exact ⟨id, hid, node, value, node_eq_ok.2 hnode, hvalue, rfl⟩

theorem exists_savedAt {new : Declared} (hnew : new ∈ steps.saved.declared) :
    ∃ id ∈ steps.ids, g'.savedAt? options id = some new := by
  obtain ⟨id, hid, hat⟩ := steps.exists_newAt hnew
  exact ⟨id, hid, savedAt?_of_newlySavedAt? ((steps.newlySavedAt?_eq hid).trans hat)⟩

/-- **The variable of a node that stores its value from now on** is declared once. -/
theorem declared_of_newlyStored {node : Node} (hid : id ∈ steps.ids)
    (hnode : steps.moved.node id = .ok node) (hnew : steps.refs.newlyStored? node = some value) :
    (steps.saved.declared.map Declared.name).count value = 1 ∧ g'.StoresIn steps.ids value := by
  have hat : steps.moved.newAt? steps.refs options id =
      some (steps.moved.declarationOf options node value) := by
    rw [newAt?, node_eq_ok.1 hnode, Option.bind_some, hnew, Option.map_some]
  have hsome := steps.savedThrough.isSome_find? hid hat
  refine ⟨List.count_eq_one_of_mem steps.savedThrough.ascending.nodup
    (Declared.mem_names_iff.2 hsome), id, hid, ?_⟩
  obtain ⟨node', hnode', hcodeless⟩ := steps.exists_stored hid hnode
  refine ⟨node', ⟨value, node.isList⟩, hnode', ?_, rfl⟩
  rw [Referenced.storing_of_newlyStored? hnew] at hcodeless
  exact congrArg Node.saver hcodeless

/-- A reference becomes a variable that a node is to store its value in, or one for the value of a rule
that is called under labels only. -/
theorem stored_of_resolve {reference : Reference}
    (h : Saving.resolve? steps.refs steps.saved.found reference = some value) :
    (∃ id ∈ steps.ids, ∃ node, steps.moved.node id = .ok node ∧
      steps.refs.storedIn? node = some value) ∨
    value = "got_" ++ reference.key ∧ ∀ id ∈ steps.ids, ∀ node, steps.moved.node id = .ok node →
      node.kind = .call reference.key → node.label ≠ none := by
  rcases Saving.resolve?_cases h with ⟨rfl, hlabel⟩ | ⟨rfl, hrule⟩ | ⟨other, hother, hfound, hname⟩
  · rw [(Referenced.reads_ofNodes steps.refers).labels, steps.nodes_eq_nodesOf] at hlabel
    obtain ⟨node, hm, hlabel⟩ := List.mem_filterMap.1 hlabel
    obtain ⟨id, hid, hnode⟩ := List.mem_filterMap.1 hm
    have hnode := node_eq_ok.2 hnode
    refine Or.inl ⟨id, hid, node, hnode, ?_⟩
    rw [steps.reads_scopeOf.storedIn?]
    exact Scope.variableOf?_of_label hlabel (steps.labelsValue hid hnode)
  · by_cases hcalled : ∃ id ∈ steps.ids, ∃ node, steps.moved.node id = .ok node ∧
        node.kind = .call reference.key ∧ node.label = none
    · obtain ⟨id, hid, node, hnode, hkind, hlabel⟩ := hcalled
      refine Or.inl ⟨id, hid, node, hnode, ?_⟩
      simp only [Referenced.storedIn?, hkind, hlabel, Option.none_or,
        if_pos (List.contains_iff_mem.2 hrule)]
    · exact Or.inr ⟨rfl, fun id hid node hnode hkind hlabel =>
        hcalled ⟨id, hid, node, hnode, hkind, hlabel⟩⟩
  · obtain ⟨id, hid, hat⟩ := (steps.savedThrough.found _).1 hfound
    obtain ⟨node, hnode, hat⟩ := Option.bind_eq_some_iff.1 hat
    obtain ⟨value', hfind, hstored⟩ := Referenced.storedIn?_of_foundBy? hat
    cases hother.symm.trans hfind
    cases hname
    exact Or.inl ⟨id, hid, node, node_eq_ok.2 hnode, hstored⟩

/-- **The variable that a reference becomes** is declared, with two exceptions. -/
theorem declared_of_resolve {reference : Reference}
    (h : Saving.resolve? steps.refs steps.saved.found reference = some value) :
    (steps.saved.declared.map Declared.name).count value = 1 ∧ g'.StoresIn steps.ids value ∨
      value = "got_" ++ reference.key ∧ g'.CallsLabeled steps.rule.body reference.key ∨
        g.StoredBefore g' steps.ids value := by
  rcases steps.stored_of_resolve h with ⟨id, hid, node, hnode, hstored⟩ | ⟨hvalue, hlabeled⟩
  · by_cases hnew : ∃ id ∈ steps.ids, ∃ node, steps.moved.node id = .ok node ∧
        steps.refs.newlyStored? node = some value
    · obtain ⟨id, hid, node, hnode, hnew⟩ := hnew
      exact Or.inl (steps.declared_of_newlyStored hid hnode hnew)
    · refine Or.inr (Or.inr ⟨?_, fun id hid old node' hold hnode' hvariable hsaver => hnew ?_⟩)
      · obtain ⟨node', hnode', hcodeless⟩ := steps.exists_stored hid hnode
        exact ⟨id, hid, node', hnode', (steps.variableOf?_scopeOf hcodeless).trans hstored⟩
      · obtain ⟨node, hnode, hcodeless⟩ := steps.exists_moved hid hnode'
        obtain ⟨old', hold', hsame⟩ :=
          (agrees_moveLabels (f := Node.saver) (fun _ _ _ => rfl) steps.moves).node hnode
        cases hold.symm.trans hold'
        refine ⟨id, hid, node, hnode, ?_⟩
        rw [Referenced.newlyStored?, ← hsame, hsaver, ← steps.variableOf?_scopeOf hcodeless, hvariable]
        rfl
  · refine Or.inr (Or.inl ⟨hvalue, fun id node' hmatched hnode' hkind => ?_⟩)
    have hid := steps.mem_ids.2 (steps.sameShape.symm.matchedBy hmatched)
    obtain ⟨node, hnode, hcodeless⟩ := steps.exists_moved hid hnode'
    have htext : node'.kind.textless = node.kind.textless := congrArg Node.kind hcodeless
    have hlabel : node'.label = node.label := (congrArg Node.label hcodeless :)
    rw [hlabel]
    refine hlabeled id hid node hnode (NodeKind.of_bare_call ?_)
    rw [← hkind, NodeKind.bare_of_textless htext]

end SavingSteps

/-! ## References -/

/-- In the second grammar, what the rule matches has variables in the place of references. Each of them is
declared once in front of the body, as a node expects it that stores its value in it. Or it is for the
value of a rule that is called under labels only, or all nodes that stand for it stored their values
before. -/
def DeclaresReferences (g : Grammar) (name : String) (options : Options) (g' : Grammar) : Prop :=
  ∃ rule ids resolve declared, g.rule? name = some rule ∧ g.walkMatched rule.body = .ok ids ∧
    g.CodeResolved rule.body ids resolve declared g' ∧
    (∀ new ∈ declared, ∃ id ∈ ids, g'.savedAt? options id = some new) ∧
    ∀ reference value, resolve reference = some value →
      (declared.map Declared.name).count value = 1 ∧ g'.StoresIn ids value ∨
        value = "got_" ++ reference.key ∧ g'.CallsLabeled rule.body reference.key ∨
          g.StoredBefore g' ids value

/-- **References become variables that are declared**, with two exceptions. -/
theorem declaresReferences_saveValues (h : g.saveValues name options = .ok (g', events)) :
    g.DeclaresReferences name options g' := by
  obtain ⟨steps⟩ := exists_savingSteps h
  exact ⟨steps.rule, steps.ids, _, steps.saved.declared, steps.found, steps.walks_ids,
    steps.codeResolved, fun _ => steps.exists_savedAt, fun _ _ => steps.declared_of_resolve⟩

end Grammar

/-- The rule `item` matches a letter and itself, both with labels. Its code refers to the first by the label
and to the second by the name of the rule. -/
def echoing : Grammar where
  nodes := #[{ Node.ofKind (.terminal (.ofRanges [(97, 98)]) none) with
      label := some "x"
      postAction := some [.punct '$' .alone, .ident "x"] },
    { Node.ofKind (.call "item") with label := some "y" },
    { Node.ofKind (.sequence [0, 1]) with postAction := some [.punct '$' .alone, .ident "item"] }]
  rules := [("item", .ofBody "item" 2)]

theorem echoing_declaresReferences : ∃ g' events,
    echoing.saveValues "item" .default = .ok (g', events) ∧
      echoing.DeclaresReferences "item" .default g' := by
  have hok : (echoing.saveValues "item" .default).toOption.isSome = true := by decide +kernel
  cases hrun : echoing.saveValues "item" .default with
  | error failure =>
    rw [hrun] at hok
    cases hok
  | ok saved => exact ⟨saved.1, saved.2, rfl, Grammar.declaresReferences_saveValues hrun⟩

/-- Nothing declares the variable for the value of `item`. -/
example : (echoing.saveValues "item" .default).toOption.map (fun saved =>
      saved.1.nodes.toList.map fun node =>
        (node.preAction.map Tokens.text, node.postAction.map Tokens.text)) =
    some [(none, some "x"), (none, none),
      (some ("let mut x : i32 = 0 ; " ++
        "let mut y : () = :: std :: default :: Default :: default () ;"), some "got_item")] := by
  decide +kernel

/-! ## The code of checks -/

namespace Grammar

variable {g g' : Grammar} {name : String} {rule : Rule} {options : Options} {events : List Event}
  {body id : NodeId}

def expressionAt? (g : Grammar) (id : NodeId) : Option Tokens :=
  (g.kindAt? id).bind NodeKind.expression?

/-- In the second grammar, the code of the checks that this body matches has variables in the place of
references. -/
def Resolves (g : Grammar) (body : NodeId) (resolve : Reference → Option String) (g' : Grammar) :
    Prop :=
  ∀ id code, g.MatchedBy body id → g.expressionAt? id = some code →
    g'.expressionAt? id = some (replace (fun reference => (resolve reference).map word) code)

/-- The code starts with declarations of variables in which nodes that the body matches store their values,
this variable among them. -/
def StartsDeclaring (g : Grammar) (options : Options) (body : NodeId) (code : Tokens) (name : String) :
    Prop :=
  ∃ (declared : List Declared) (action : Tokens), code = declared.flatMap Declared.code ++ action ∧
    (∀ new ∈ declared, ∃ id, g.MatchedBy body id ∧ g.savedAt? options id = some new) ∧
    name ∈ declared.map Declared.name

theorem StartsDeclaring.frame {code : Tokens} (h : g.StartsDeclaring options body code name)
    (hshape : g.SameShape g') (hrules : g'.rules = g.rules)
    (hsame : ∀ id, g.MatchedBy body id → g'.nodes[id]? = g.nodes[id]?) :
    g'.StartsDeclaring options body code name := by
  obtain ⟨declared, action, hcode, hsaved, hname⟩ := h
  refine ⟨declared, action, hcode, fun new hnew => ?_, hname⟩
  obtain ⟨id, hid, hat⟩ := hsaved new hnew
  exact ⟨id, hshape.matchedBy hid, (savedAt?_frame hrules (hsame id hid)).trans hat⟩

/-- The code in front of the body starts with declarations, this variable among them. -/
def DeclaresAt (g : Grammar) (options : Options) (body : NodeId) (name : String) : Prop :=
  ∃ node code, g.node body = .ok node ∧ node.preAction = some code ∧
    g.StartsDeclaring options body code name

theorem expressionAt?_of_node {node : Node} (h : g.node id = .ok node) :
    g.expressionAt? id = node.kind.expression? := by
  rw [expressionAt?, kindAt?_of_node h, Option.bind_some]

section

variable {ids : List NodeId} {resolve : Reference → Option String} {declared : List Declared}
  (h : g.CodeResolved body ids resolve declared g')
include h

/-- Code that is rewritten once has variables in the place of references. -/
theorem CodeResolved.resolves (hmatched : ∀ id, g.MatchedBy body id → ids.count id = 1) :
    g.Resolves body resolve g' := by
  intro id code hid hcode
  obtain ⟨kind, hkind, hcode⟩ := Option.bind_eq_some_iff.1 hcode
  obtain ⟨node, hnode, rfl⟩ := kindAt?_eq_some.1 hkind
  obtain ⟨node', hnode', -, hcheck, -⟩ := h id node hnode
  rw [expressionAt?_of_node hnode', hcheck, hcode, hmatched id hid]
  rfl

theorem CodeResolved.declaresAt (hbody : ∃ node, g.node body = .ok node)
    (hsaved : ∀ new ∈ declared, ∃ id, g'.MatchedBy body id ∧ g'.savedAt? options id = some new)
    (hname : name ∈ declared.map Declared.name) : g'.DeclaresAt options body name := by
  obtain ⟨node, hnode⟩ := hbody
  obtain ⟨node', hnode', -, -, haction⟩ := h body node hnode
  have hnonempty : declared.isEmpty = false := by
    cases declared with
    | nil => cases hname
    | cons new rest => rfl
  refine ⟨node', declared.flatMap Declared.code ++
    (node.preAction.map (Tokens.resolved resolve (ids.count body))).getD [], hnode', ?_, declared, _,
    rfl, hsaved, hname⟩
  rw [haction, if_pos rfl, declareFirst, hnonempty]
  cases node.preAction <;> simp [joinActions]

end

/-- **The variables that references become are declared**, where no value was stored before. -/
theorem declares_saveValues (hf : g.Forest) (hrule : g.rule? name = some rule)
    (hsavers : ∀ id node, g.MatchedBy rule.body id → g.node id = .ok node → node.saver = none)
    (h : g.saveValues name options = .ok (g', events)) :
    ∃ resolve, g.Resolves rule.body resolve g' ∧ ∀ reference value,
      resolve reference = some value → g'.DeclaresAt options rule.body value ∨
        value = "got_" ++ reference.key ∧ g'.CallsLabeled rule.body reference.key := by
  obtain ⟨steps⟩ := exists_savingSteps h
  cases hrule.symm.trans steps.found
  -- Each node that the rule matches is visited once.
  have hnodup := hf.nodup_of_walkMatched (SameShape.refl g).shapeIn hrule steps.walks_ids
  refine ⟨_, steps.codeResolved.resolves fun id hid =>
    List.count_eq_one_of_mem hnodup (steps.mem_ids.2 hid), fun reference value hvalue => ?_⟩
  rcases steps.declared_of_resolve hvalue with ⟨hcount, -⟩ | hlabeled | ⟨⟨id, hid, node', hnode', hat⟩,
    hbefore⟩
  · refine Or.inl (steps.codeResolved.declaresAt ?_ (fun new hnew => ?_) ?_)
    · exact node_of_walkDown steps.walks_ids (steps.mem_ids.2 .refl)
    · obtain ⟨id, hid, hat⟩ := steps.exists_savedAt hnew
      exact ⟨id, steps.matchedBy_saved hid, hat⟩
    · exact List.count_pos_iff.1 (hcount ▸ Nat.one_pos)
  · exact Or.inr hlabeled
  · obtain ⟨node, hnode⟩ := node_of_walkDown steps.walks_ids hid
    exact absurd (hsavers id node (steps.mem_ids.1 hid) hnode)
      (hbefore id hid node node' hnode hnode' hat)

end Grammar

end PredictiveParser
