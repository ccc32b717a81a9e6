import Mathlib.Data.List.Nodup
import PredictiveParser.Proofs.Generation.Declared
import PredictiveParser.Proofs.Grammar.Paths
import PredictiveParser.Proofs.Method.Authored
import PredictiveParser.Proofs.Method.Bindings
import PredictiveParser.Proofs.Values.Labels
import PredictiveParser.Proofs.Values.Left

/-!
# Names of declared variables

A parser declares the lookahead variables that it reads, and behind them the variables in which it stores
values. Each of the two lists has no name twice. Variables for values that have no label have names that
start like no lookahead variable, but a label can be anything: where one is the name of a lookahead
variable that the parser reads, this name is declared twice, and reading ahead overwrites the value.

No other name is declared twice (`Grammar.declaresOnce_of_methods`): the variables for values are just those
in which nodes store their values from now on (`Grammar.DeclaresFirst`), and behind them nothing but the
author's own code declares anything (`Method.StartsWith`).
-/
namespace PredictiveParser

open Grammar References Relation Template

/-! ## Names of variables -/

/-- The declaration of the variable for the terminal `offset` places ahead. -/
def lookaheadDeclaration (offset : Nat) : Tokens :=
  Template.words ["let", "mut", lookaheadName offset] ++ op ":" ++ lookaheadType ++ op ";"

/-- What is read ahead is stored under the name that is declared for it. -/
theorem render_lookahead (offset : Nat) :
    (Snippet.declareLookahead offset).render = lookaheadDeclaration offset ∧
      (Snippet.readLookahead offset).render =
        word (lookaheadName offset) ++ op "=" ++ lookaheadCall offset ++ op ";" :=
  ⟨rfl, rfl⟩

theorem lookaheadName_injective : Function.Injective lookaheadName := by
  intro m n h
  have hlist := congrArg String.toList h
  unfold lookaheadName at hlist
  rw [String.toList_append, String.toList_append, List.append_cancel_left_eq] at hlist
  exact toString_nat_injective (String.toList_inj.1 hlist)

theorem not_divergesFrom_lookaheadName (offset : Nat) : ¬ DivergesFrom (lookaheadName offset) "la" := by
  intro h
  refine h.1 ?_
  rw [lookaheadName, String.toList_append]
  exact List.prefix_append _ _

/-- No mark starts like a lookahead variable. -/
theorem divergesFrom_mark : ∀ mark ∈ VariableSource.marks, DivergesFrom mark "la" := by
  unfold DivergesFrom
  decide

/-- A variable that is named after a reference is no lookahead variable. -/
theorem divergesFrom_variableName {reference : Reference} {name : String}
    (h : reference.variableName? = some name) : DivergesFrom name "la" := by
  obtain ⟨source, -, rfl⟩ := Reference.exists_source (Reference.varName?_of_variableName? h)
  rw [source.varName_eq]
  exact (divergesFrom_mark _ source.mark_mem).append _

/-- A variable in which a node stores its value is the label of the node, or else no lookahead variable. -/
theorem Scope.label_of_variableOf? {scope : Scope} {node : Node} {value : String}
    (h : scope.variableOf? node = some value) :
    node.label = some value ∨ DivergesFrom value "la" := by
  have hcall : DivergesFrom "got_" "la" := divergesFrom_mark _ (by decide)
  unfold variableOf? at h
  split at h
  · rcases Option.or_eq_some_iff.1 h with hlabel | ⟨-, h⟩
    · exact Or.inl hlabel
    · split at h
      · cases h
        exact Or.inr (hcall.append _)
      · cases h
  · rcases Option.or_eq_some_iff.1 h with hlabel | ⟨-, h⟩
    · exact Or.inl hlabel
    · obtain ⟨basis, -, h⟩ := Option.bind_eq_some_iff.1 h
      obtain ⟨reference, -, hname⟩ := Option.bind_eq_some_iff.1 h
      exact Or.inr (divergesFrom_variableName hname)
  · cases h

/-! ## What is declared in front of a rule -/

/-- These variables are declared in front of the body, and behind them stands its action with variables in
the place of references. They are in the order of their names, and each is declared as the first node in
the walk expects it that stores its value in it from now on. A variable that is called like a lookahead
variable is the label of something that the body matches. -/
structure Grammar.DeclaresFirst (g : Grammar) (options : Options) (body : NodeId) (g' : Grammar)
    (declared : List Declared) (action : Option Tokens) : Prop where
  resolved : ∃ (node node' : Node) (resolve : Reference → Option String), g.node body = .ok node ∧
    action = node.preAction.map (replace fun reference => (resolve reference).map word) ∧
    g'.node body = .ok node' ∧ node'.preAction = declareFirst declared action
  ascending : Declared.Ascending declared
  declares : ∃ ids, g.walkMatched body = .ok ids ∧ ∀ value, Declared.find? declared value =
    Declared.find? (ids.filterMap (g.newlySavedAt? g' options)) value
  labels : ∀ new ∈ declared, ∀ offset, new.name = lookaheadName offset →
    ∃ id node, g.MatchedBy body id ∧ g.node id = .ok node ∧ node.label = some new.name

namespace Grammar

variable {g g' g'' : Grammar} {name : String} {rule : Rule} {options : Options} {events : List Event}
  {declared : List Declared} {action : Option Tokens} {body : NodeId}

theorem exists_labelAt {id : NodeId} {label : String} (h : g.labelAt? id = some label) :
    ∃ node, g.node id = .ok node ∧ node.label = some label := by
  obtain ⟨node, hnode, hlabel⟩ := Option.bind_eq_some_iff.1 h
  exact ⟨node, node_eq_ok.2 hnode, hlabel⟩

theorem SavingSteps.exists_label (steps : SavingSteps g name options g' events) {new : Declared}
    (hnew : new ∈ steps.saved.declared) {offset : Nat} (hoffset : new.name = lookaheadName offset) :
    ∃ id node, g.MatchedBy steps.rule.body id ∧ g.node id = .ok node ∧ node.label = some new.name := by
  obtain ⟨id, hid, moved, value, hmoved, hvalue, rfl⟩ := steps.exists_newlyStored hnew
  have hstored : steps.refs.storedIn? moved = some value := by
    unfold Referenced.newlyStored? at hvalue
    split at hvalue
    · cases hvalue
    · exact hvalue
  rw [steps.reads_scopeOf.storedIn?] at hstored
  have hlabel := (Scope.label_of_variableOf? hstored).resolve_right fun hapart =>
    not_divergesFrom_lookaheadName offset (hoffset ▸ hapart)
  obtain ⟨source, hsource, hlabel⟩ :=
    labelAt?_of_moveLabels steps.moves ((labelAt?_of_node hmoved).trans hlabel)
  obtain ⟨node, hnode, hlabel⟩ := exists_labelAt hlabel
  refine ⟨source, node, steps.mem_ids.1 ?_, hnode, hlabel⟩
  rcases hsource with rfl | hsource
  · exact hid
  · exact steps.first_eq ▸ hsource

/-- **Saving values** declares variables in front of the body. -/
theorem exists_declaresFirst (hf : g.Forest) (hrule : g.rule? name = some rule)
    (h : g.saveValues name options = .ok (g', events)) :
    ∃ declared action, g.DeclaresFirst options rule.body g' declared action := by
  obtain ⟨steps⟩ := exists_savingSteps h
  cases hrule.symm.trans steps.found
  have hbody := steps.mem_ids.2 .refl
  obtain ⟨node, hnode⟩ := node_of_walkDown steps.walks_ids hbody
  obtain ⟨node', hnode', -, -, haction⟩ := steps.codeResolved _ node hnode
  have hnodup := hf.nodup_of_walkMatched (SameShape.refl g).shapeIn hrule steps.walks_ids
  rw [if_pos rfl, List.count_eq_one_of_mem hnodup hbody] at haction
  refine ⟨_, _, ⟨node, node', _, hnode, rfl, hnode', haction⟩, steps.savedThrough.ascending,
    ⟨steps.ids, steps.walks_ids, fun value => ?_⟩, fun new hnew offset => steps.exists_label hnew⟩
  rw [steps.savedThrough.declares, List.filterMap_congr fun id hid => steps.newlySavedAt?_eq hid]

/-- What stands in front of the body can be read off any grammar in which labels, actions and variables are
the same there. -/
theorem DeclaresFirst.of_same (h : g'.DeclaresFirst options body g'' declared action)
    (hwalk : ∀ ids, g'.walkMatched body = .ok ids → g.walkMatched body = .ok ids)
    (hsame : ∀ id node', g'.MatchedBy body id → g'.node id = .ok node' → ∃ node, g.node id = .ok node ∧
      (node.label, node.preAction, node.saver) = (node'.label, node'.preAction, node'.saver)) :
    g.DeclaresFirst options body g'' declared action where
  resolved := by
    obtain ⟨node', last, resolve, hnode', rfl, hlast, haction⟩ := h.resolved
    obtain ⟨node, hnode, heq⟩ := hsame body node' .refl hnode'
    simp only [Prod.mk.injEq] at heq
    exact ⟨node, last, resolve, hnode, by rw [heq.2.1], hlast, haction⟩
  ascending := h.ascending
  declares := by
    obtain ⟨ids, hids, hdeclares⟩ := h.declares
    refine ⟨ids, hwalk ids hids, fun value => (hdeclares value).trans ?_⟩
    rw [List.filterMap_congr fun id hid => ?_]
    obtain ⟨node', hnode'⟩ := node_of_walkDown hids hid
    obtain ⟨node, hnode, heq⟩ := hsame id node' ((mem_walkDown hids).1 hid) hnode'
    simp only [Prod.mk.injEq] at heq
    rw [newlySavedAt?, newlySavedAt?, node_eq_ok.1 hnode', node_eq_ok.1 hnode, Option.bind_some,
      Option.bind_some, heq.2.2]
  labels new hnew offset hoffset := by
    obtain ⟨ids, hids, -⟩ := h.declares
    obtain ⟨id, node', hid, hnode', hlabel⟩ := h.labels new hnew offset hoffset
    obtain ⟨node, hnode, heq⟩ := hsame id node' hid hnode'
    simp only [Prod.mk.injEq] at heq
    exact ⟨id, node, (mem_walkDown (hwalk ids hids)).1 ((mem_walkDown hids).2 hid), hnode,
      heq.1.trans hlabel⟩

/-- What later happens elsewhere does not matter. -/
theorem DeclaresFirst.later (h : g.DeclaresFirst options body g' declared action)
    (hrules : g''.rules = g'.rules)
    (hsame : ∀ id, g.MatchedBy body id → g''.nodes[id]? = g'.nodes[id]?) :
    g.DeclaresFirst options body g'' declared action where
  resolved := by
    obtain ⟨node, node', resolve, hnode, haction, hnode', hdeclared⟩ := h.resolved
    refine ⟨node, node', resolve, hnode, haction, ?_, hdeclared⟩
    rwa [node_eq_ok, hsame body .refl, ← node_eq_ok]
  ascending := h.ascending
  declares := by
    obtain ⟨ids, hids, hdeclares⟩ := h.declares
    refine ⟨ids, hids, fun value => (hdeclares value).trans ?_⟩
    rw [List.filterMap_congr fun id hid => ?_]
    rw [newlySavedAt?, newlySavedAt?, savedAt?_frame hrules (hsame id ((mem_walkDown hids).1 hid))]
  labels := h.labels

end Grammar

/-! ## Code of the author -/

/-- The code is the grammar's, with something else in the place of references. -/
def Grammar.Wrote (g : Grammar) (code : Tokens) : Prop :=
  ∃ id node block, g.node id = .ok node ∧ block ∈ node.codeBlocks ∧ block.Rewrites code

theorem Node.codeBlocks_of_stem {node copied : Node} (h : copied.stem = node.stem) :
    copied.codeBlocks = node.codeBlocks := by
  have hstem : ∀ node : Node, node.stem.codeBlocks = node.codeBlocks := by
    rintro ⟨_ | _ | _ | ⟨_, _ | _, _⟩ | _ | _, _, _, _, _, _, _⟩ <;> rfl
  rw [← hstem copied, h, hstem]

theorem Node.codeBlocks_withCheckRule (rule : String) (node : Node) :
    (node.withCheckRule rule).codeBlocks = node.codeBlocks := by
  obtain ⟨kind, label, isList, saver, pre, post, basis⟩ := node
  rcases kind with _ | _ | _ | ⟨_, _ | _, _⟩ | _ | _ <;> rfl

theorem Decision.testsOnly_anything (tree : Decision) : tree.TestsOnly fun _ => True := by
  induction tree using Decision.induction with
  | pick alt => exact .pick alt
  | level offset isAssertion branches coverage ih => exact .level (fun _ _ _ _ _ _ => trivial) ih

namespace Grammar

variable {g base : Grammar} {name : String} {rule : Rule}

/-- The body of a rule is not below itself. -/
theorem Forest.not_matchedBy_body (hf : g.Forest) (hrule : g.rule? name = some rule) {node : Node}
    (hnode : g.node rule.body = .ok node) {child : NodeId} (hchild : child ∈ node.matchedChildren) :
    ¬g.MatchedBy child rule.body := by
  intro hmatched
  obtain ⟨ids, hwalk, hnodup, -⟩ := hf.tree rule (mem_ruleList_of_rule? hrule)
  have hunshared := (unshared_iff_nodup hwalk).2 hnodup
  exact (hunshared.children hnode).1 child ((Node.matchedChildren_sublist node).subset hchild)
    (reaches_of_matched hmatched)

/-- Completing a grammar takes all code from it. -/
theorem Completed.wrote (h : g.Completed base) (hkeyed : g.Keyed) {code : Tokens}
    (hcode : base.Wrote code) : g.Wrote code := by
  obtain ⟨g₁, hg₁, hnodes⟩ := h.synthesized
  obtain ⟨id, node, block, hnode, hblock, hrewrites⟩ := hcode
  have hall := nodes_synthesizeRecognizers
    (P := fun node => ∀ block ∈ node.codeBlocks, ∃ id old, g.node id = .ok old ∧ block ∈ old.codeBlocks)
    (fun node copied hstem hnode => by rwa [Node.codeBlocks_of_stem hstem])
    (fun rule node hnode => by rwa [Node.codeBlocks_withCheckRule]) hkeyed
    (fun id node hnode block hblock => ⟨id, node, hnode, hblock⟩) hg₁
  rw [node_eq_ok, hnodes, ← node_eq_ok] at hnode
  obtain ⟨source, old, hold, hblock⟩ := hall id node hnode block hblock
  exact ⟨source, old, block, hold, hblock, hrewrites⟩

end Grammar

/-! ## What a method starts with -/

/-- The code of the method declares its lookahead variables, each of them once, and behind them these
variables in front of an action. From there on, only code of the author binds names. -/
structure Method.StartsWith (method : Method) (declared : List Declared) (action : Option Tokens)
    (rest : List Stmt) : Prop where
  lookaheads : method.lookaheads.Nodup
  code : Stmt.renderAll method.body = method.lookaheads.flatMap lookaheadDeclaration ++
    ((declareFirst declared action).getD [] ++ Stmt.renderAll rest)
  binds : (Stmt.bindingsOf rest).Perm ((Stmt.authoredOf rest).flatMap Tokens.bindings)

theorem Stmt.renderAll_declarations (offsets : List Nat) (rest : List Stmt) :
    Stmt.renderAll (offsets.map (fun offset => .snippet (.declareLookahead offset)) ++ rest) =
      offsets.flatMap lookaheadDeclaration ++ Stmt.renderAll rest := by
  induction offsets with
  | nil => rfl
  | cons offset others ih =>
    rw [List.map_cons, List.cons_append, renderAll, ih, render, (render_lookahead offset).1,
      List.flatMap_cons, List.append_assoc]

theorem Method.Assembled.startsWith {method : Method} {m : MethodPlan} {node : Node} {rest : List Stmt}
    {declared : List Declared} {action : Option Tokens} (h : method.Assembled m node rest)
    (hnodup : method.lookaheads.Nodup) (haction : m.lowerAction node.preAction =
      (declareFirst declared action).toList.map fun code => .snippet (.code code)) :
    method.StartsWith declared action rest where
  lookaheads := hnodup
  code := by
    rw [h.code, haction, Stmt.renderAll_declarations]
    cases declareFirst declared action <;> rfl
  binds := by
    refine (Stmt.perm_bindingsOf rest).trans (.of_eq ?_)
    rw [Stmt.bound, h.labels]
    rfl

/-- A parser declares the variables in front of the body of its rule. A recognizer declares none. The code
behind them that is not put together from templates is that of the grammar. -/
structure Method.Declaring (method : Method) (g : Grammar) (options : Options) (g' : Grammar)
    (declared : List Declared) (action : Option Tokens) (rest : List Stmt) : Prop where
  starts : method.StartsWith declared action rest
  written : ∀ code ∈ Stmt.authoredOf rest, g.Wrote code
  parser : method.form = .parser → g.DeclaresFirst options method.rule.body g' declared action
  recognizer : method.form = .recognizer → declared = [] ∧ action = none

/-- **A name that is declared twice** is that of a lookahead variable, and a label is called like it. -/
theorem Method.Declaring.of_declaredTwice {method : Method} {g g' : Grammar} {options : Options}
    {declared : List Declared} {action : Option Tokens} {rest : List Stmt}
    (h : method.Declaring g options g' declared action rest) {name : String}
    (htwice : 1 < (method.lookaheads.map lookaheadName ++ declared.map Declared.name).count name) :
    ∃ offset ∈ method.lookaheads, name = lookaheadName offset ∧
      ∃ id node, g.MatchedBy method.rule.body id ∧ g.node id = .ok node ∧ node.label = some name := by
  have hlookaheads :=
    List.nodup_iff_count_le_one.1 (h.starts.lookaheads.map lookaheadName_injective) name
  cases hform : method.form with
  | recognizer =>
    obtain ⟨rfl, -⟩ := h.recognizer hform
    rw [List.map_nil, List.append_nil] at htwice
    exact absurd hlookaheads (Nat.not_le.2 htwice)
  | parser =>
    have hfirst := h.parser hform
    have hdeclared := List.nodup_iff_count_le_one.1 hfirst.ascending.nodup name
    rw [List.count_append] at htwice
    -- Neither list has it twice, so both have it.
    have hboth : 0 < (method.lookaheads.map lookaheadName).count name ∧
        0 < (declared.map Declared.name).count name := by omega
    obtain ⟨offset, hoffset, rfl⟩ := List.mem_map.1 (List.count_pos_iff.1 hboth.1)
    obtain ⟨new, hnew, heq⟩ := List.mem_map.1 (List.count_pos_iff.1 hboth.2)
    obtain ⟨id, node, hid, hnode, hlabel⟩ := hfirst.labels new hnew offset heq
    exact ⟨offset, hoffset, rfl, id, node, hid, hnode, hlabel.trans (congrArg some heq)⟩

namespace Generate

variable {s s' : Generation} {options : Options} {follow : FollowSets} {name : String} {rule : Rule}
  {base last g : Grammar} {methods : List Method} {method : Method} {events : List Event}

theorem wellScoped_methodsOf {form : Form} (h : Yields (methodsOf rule options form) s methods s')
    (hm : method ∈ methods) : method.WellScoped := by
  unfold methodsOf at h
  split at h
  · obtain ⟨own, s₁, hmethod, h⟩ := yields_bind.1 h
    obtain ⟨rfl, -⟩ := yields_pure.1 h
    rw [List.mem_singleton.1 hm]
    have hmethod := yields_get_bind.1 hmethod
    obtain ⟨_, s₂, -, hmethod⟩ := yields_bind.1 hmethod
    obtain ⟨hlowered, -⟩ := yields_lift.1 hmethod
    exact wellScoped_lowerMethod (Prod.ext hlowered rfl)
  · obtain ⟨rfl, -⟩ := yields_pure.1 h
    cases hm

/-- The methods of a rule are well scoped. -/
theorem wellScoped_rule (h : Yields (Generate.rule options follow name) s methods s')
    (hm : method ∈ methods) : method.WellScoped := by
  obtain ⟨_, _, _, _, _, _, _, _, -, -, -, hparsers, hrecognizers, rfl⟩ := yields_rule_iff.1 h
  rcases List.mem_append.1 hm with hm | hm
  · exact wellScoped_methodsOf hparsers hm
  · exact wellScoped_methodsOf hrecognizers hm

theorem HadTurn.reworks (hf : base.Forest)
    (h : HadTurn base options follow name rule methods s s' last) :
    base.Reworks (fun _ => True) s'.grammar := by
  have hrule := (Grammar.rule?_of_rules h.before.rules name).trans h.found
  have hstep := reworks_rule (h.before.forest hf) hrule options follow
  rw [h.generated] at hstep
  exact (h.before.mono fun _ _ => trivial).trans (hstep.mono fun _ _ => trivial)

/-- But for declarations in front of the body, actions come from the grammar. -/
theorem Analyzed.wrote (h : Analyzed base name rule g)
    (hsaved : g.saveValues name options = .ok (s'.grammar, events)) {id : NodeId} {node' : Node}
    {action : Tokens} (hid : s'.grammar.MatchedBy rule.body id) (hnode' : s'.grammar.node id = .ok node')
    (haction : id ≠ rule.body ∧ node'.preAction = some action ∨ node'.postAction = some action) :
    base.Wrote action := by
  obtain ⟨steps⟩ := exists_savingSteps hsaved
  cases h.found.symm.trans steps.found
  have hid := steps.sameShape.symm.matchedBy hid
  obtain ⟨node, hnode, -⟩ := h.forest.exists_node h.found (reaches_of_matched hid)
  obtain ⟨resolved, hresolved, hpost, -, hpre⟩ := steps.codeResolved id node hnode
  cases hnode'.symm.trans hresolved
  obtain ⟨old, hold, hsame⟩ := h.kept id node hid hnode
  have hpreAction : old.preAction = node.preAction := (congrArg Node.preAction hsame :)
  have hpostAction : old.postAction = node.postAction := (congrArg Node.postAction hsame :)
  rcases haction with ⟨hne, haction⟩ | haction
  · rw [hpre, if_neg hne] at haction
    obtain ⟨block, hblock, rfl⟩ := Option.map_eq_some_iff.1 haction
    refine ⟨id, old, block, hold, ?_, Tokens.rewrites_resolved _ _ _⟩
    rw [Node.codeBlocks_eq, hpreAction, hblock]
    exact List.mem_cons_self
  · rw [hpost] at haction
    obtain ⟨block, hblock, rfl⟩ := Option.map_eq_some_iff.1 haction
    refine ⟨id, old, block, hold, ?_, Tokens.rewrites_resolved _ _ _⟩
    rw [Node.codeBlocks_eq, hpostAction, hblock]
    exact List.mem_append_left _ (List.mem_append_right _ List.mem_cons_self)

/-- **Behind the action in front of the body**, a method takes its code from the grammar. -/
theorem wrote_assembled (hf : base.Forest)
    (hturn : HadTurn base options follow name rule methods s s' last) (hanalyzed : Analyzed base name rule g)
    (hsaved : g.saveValues name options = .ok (s'.grammar, events)) {m : MethodPlan} {node : Node}
    {rest : List Stmt} (hrule : method.rule = rule) (hm : m.grammar = s'.grammar)
    (h : method.Assembled m node rest) : ∀ code ∈ Stmt.authoredOf rest, base.Wrote code := by
  subst hrule
  obtain ⟨depth, inner, st, st', hinner, rfl⟩ := h.lowered
  have hreworks := hturn.reworks hf
  have hfound : s'.grammar.rule? name = some method.rule :=
    (Grammar.rule?_of_rules hreworks.rules name).trans hturn.found
  have htests : m.Tests base.Wrote (fun _ => True) method.rule.body := by
    refine ⟨fun id kind code offset _ hkind hcode => ?_, fun _ _ => trivial,
      fun _ _ tree _ _ _ => tree.testsOnly_anything⟩
    rw [hm] at hkind
    have hcode : s'.grammar.expressionAt? id = some code := by
      rw [expressionAt?, hkind, Option.bind_some, hcode]
    obtain ⟨block, hblock, hrewrites⟩ := hreworks.checks id code hcode
    obtain ⟨kind, hkind, hblock⟩ := Option.bind_eq_some_iff.1 hblock
    obtain ⟨node, hnode, rfl⟩ := kindAt?_eq_some.1 hkind
    refine ⟨id, node, block, hnode, ?_, hrewrites.trans (Tokens.rewrites_lookahead offset code)⟩
    rw [Node.codeBlocks_eq, hblock]
    exact List.mem_append_right _ List.mem_cons_self
  refine htests.lowerBelow h.found ?_ ?_ hinner
  · rw [hm]
    exact fun id node action hid hnode haction => hanalyzed.wrote hsaved hid hnode haction
  · have hnode := h.found
    rw [hm] at hnode ⊢
    exact fun child => (hreworks.forest hf).not_matchedBy_body hfound hnode

/-- **One rule**: what its methods declare. -/
theorem declaring_rule (hf : base.Forest)
    (hturn : HadTurn base options follow name rule methods s s' last) (hm : method ∈ methods) :
    method.rule = rule ∧ rule.hasForm method.form = true ∧
      ∃ declared action rest, method.Declaring base options s'.grammar declared action rest := by
  have hscoped := wellScoped_rule hturn.generated hm
  obtain ⟨g, events, hanalyzed, hsaved, hmethods⟩ := hturn.exists_analyzed hf
  obtain ⟨hrule, hhas, hlowered⟩ := hmethods.lowered method hm
  refine ⟨hrule, hhas, ?_⟩
  obtain ⟨m, node, rest, hgrammar, hassembled⟩ := hlowered.exists_assembled
  have hwrote := wrote_assembled hf hturn hanalyzed hsaved hrule hgrammar hassembled
  have hform := hassembled.form
  subst hrule
  cases hfinal : method.form with
  | recognizer =>
    have haction : m.lowerAction node.preAction = [] := by
      unfold MethodPlan.lowerAction
      rw [hform, hfinal]
    exact ⟨[], none, rest, hassembled.startsWith hscoped.nodup_lookaheads haction, hwrote,
      fun hparser => (nomatch hfinal.symm.trans hparser), fun _ => ⟨rfl, rfl⟩⟩
  | parser =>
    obtain ⟨declared, action, hfirst⟩ :=
      Grammar.exists_declaresFirst hanalyzed.forest hanalyzed.found hsaved
    obtain ⟨-, node', -, -, -, hnode', hdeclared⟩ := hfirst.resolved
    have hnode := hassembled.found
    rw [hgrammar] at hnode
    cases hnode.symm.trans hnode'
    have haction : m.lowerAction node.preAction =
        (declareFirst declared action).toList.map fun code => .snippet (.code code) := by
      unfold MethodPlan.lowerAction
      rw [hform, hfinal, hdeclared]
    refine ⟨declared, action, rest, hassembled.startsWith hscoped.nodup_lookaheads haction, hwrote,
      fun _ => ?_, fun hother => nomatch hfinal.symm.trans hother⟩
    refine hfirst.of_same (fun ids hids => ?_) fun id node' hid hnode' => ?_
    · exact hanalyzed.shape.symm.shapeIn.walkDown (fun _ _ => Node.matchedChildren_of_bare)
        (Nat.succ_le_succ hanalyzed.shape.symm.shapeIn.size) hids
    · obtain ⟨old, hold, hsame⟩ := hanalyzed.kept id node' hid hnode'
      have hlabel : old.label = node'.label := (congrArg Node.label hsame :)
      have haction : old.preAction = node'.preAction := (congrArg Node.preAction hsame :)
      have hsaver : old.saver = node'.saver := (congrArg Node.saver hsame :)
      exact ⟨old, hold, by rw [hlabel, haction, hsaver]⟩

end Generate

namespace Grammar

variable {g base : Grammar} {options : Options} {name : String} {rule : Rule}

theorem beforeBody_withCheckRule (rule : String) (node : Node) :
    ((node.withCheckRule rule).label, (node.withCheckRule rule).preAction,
      (node.withCheckRule rule).saver) = (node.label, node.preAction, node.saver) := by
  unfold Node.withCheckRule
  split <;> rfl

/-- What stands in front of the body of a rule that was there from the start can be read off the grammar as
it was then. -/
theorem Completed.declaresFirst (h : g.Completed base) (hkeyed : g.Keyed)
    (hrule : g.rule? name = some rule) {g' : Grammar} {declared : List Declared} {action : Option Tokens}
    (hfirst : base.DeclaresFirst options rule.body g' declared action) :
    g.DeclaresFirst options rule.body g' declared action := by
  have hkeeps := h.grown.keeps hkeyed
  obtain ⟨walked, hwalked, -⟩ := h.before.nodup_walkMatched (SameShape.refl g).shapeIn hrule
  refine hfirst.of_same (fun ids hids => ?_) fun id node' hid hnode' => ?_
  · -- The walk over the old nodes is that over the new grammar.
    have hwalked' := hkeeps.shape.walkDown (fun _ _ => Node.matchedChildren_of_bare)
      (Nat.succ_le_succ hkeeps.shape.size) hwalked
    cases hids.symm.trans hwalked'
    exact hwalked
  · have hid := hkeeps.matchedBy h.before hrule hid
    obtain ⟨g₁, hg₁, hnodes⟩ := h.synthesized
    obtain ⟨node, hnode, -⟩ := h.before.exists_node hrule (reaches_of_matched hid)
    obtain ⟨later, hlater, hsame⟩ := exists_node_synthesizeRecognizers
      (f := fun node => (node.label, node.preAction, node.saver)) beforeBody_withCheckRule hkeyed hg₁ hnode
    rw [node_eq_ok, ← hnodes, ← node_eq_ok] at hlater
    cases hnode'.symm.trans hlater
    exact ⟨node, hnode, hsame.symm⟩

/-- The method declares its lookahead variables and then the variables for values, and no more. A name that
it declares twice is that of a lookahead variable, and something that the rule matches has it as its
label. -/
def DeclaresOnce (g : Grammar) (options : Options) (g' : Grammar) (method : Method) : Prop :=
  ∃ declared action rest, method.Declaring g options g' declared action rest ∧ ∀ name,
    1 < (method.lookaheads.map lookaheadName ++ declared.map Declared.name).count name →
      ∃ offset ∈ method.lookaheads, name = lookaheadName offset ∧
        ∃ id node, g.MatchedBy method.rule.body id ∧ g.node id = .ok node ∧ node.label = some name

/-- **No name is declared twice** unless a label is called like a lookahead variable. -/
theorem declaresOnce_of_methods {methods : List Method} {state : Generation} {method : Method}
    (hkeyed : g.Keyed) (h : g.methods options = (.ok methods, state)) (hm : method ∈ methods) :
    g.DeclaresOnce options state.grammar method := by
  obtain ⟨base, follow, name, rule, own, s, s', hcompleted, hturn, hown⟩ := exists_hadTurn hkeyed h hm
  obtain ⟨rfl, hhas, declared, action, rest, hdeclaring⟩ :=
    Generate.declaring_rule hcompleted.forest hturn hown
  have hdeclaring : method.Declaring g options state.grammar declared action rest := by
    refine ⟨hdeclaring.starts, fun code hcode => hcompleted.wrote hkeyed (hdeclaring.written code hcode),
      fun hform => ?_, hdeclaring.recognizer⟩
    have hfirst := (hdeclaring.parser hform).later hturn.rules hturn.stays
    rw [hform] at hhas
    -- A rule that has a parser was there from the start.
    rcases hcompleted.grown.rules _ _ hturn.found with ⟨old, hold, hbody⟩ | ⟨-, hnone⟩
    · rw [hbody] at hfirst ⊢
      exact hcompleted.declaresFirst hkeyed hold hfirst
    · exact nomatch hhas.symm.trans hnone
  exact ⟨declared, action, rest, hdeclaring, fun _ => hdeclaring.of_declaredTwice⟩

end Grammar

/-- The rule `choice` matches an `a`, whose label is called like a lookahead variable, or a `b`. -/
def shadowing : Grammar where
  nodes := #[{ Node.ofKind (.terminal (.ofRanges [(97, 97)]) none) with label := some "la0" },
    .ofKind (.terminal (.ofRanges [(98, 98)]) none), .ofKind (.alternatives (.ofArms [0, 1] .once))]
  rules := [("choice", .ofBody "choice" 2)]

/-- The lookahead variables of the methods and the code that they take from the grammar. -/
def shadowingStarts : Option (List (List Nat × List String)) :=
  (shadowing.methods .default).1.toOption.map (List.map fun method =>
    (method.lookaheads, (Stmt.authoredOf method.body).map Tokens.text))

set_option maxRecDepth 20000 in
/-- The only method declares `la0` for what it reads ahead, and declares it again for the `a`. -/
theorem shadowing_starts : shadowingStarts = some [([0], ["let mut la0 : i32 = 0 ;"])] := by
  cbv

theorem shadowing_declaresOnce : ∃ methods state method,
    shadowing.methods .default = (.ok methods, state) ∧ method ∈ methods ∧
    method.lookaheads = [0] ∧ shadowing.DeclaresOnce .default state.grammar method := by
  have hstarts := shadowing_starts
  unfold shadowingStarts at hstarts
  cases hrun : shadowing.methods .default with
  | mk result state =>
    rw [hrun] at hstarts
    cases result with
    | error failure => cases hstarts
    | ok methods =>
      obtain ⟨method, others, rfl, hmethod, -⟩ := List.map_eq_cons_iff.1 (Option.some.inj hstarts)
      exact ⟨_, state, method, rfl, List.mem_cons_self, congrArg Prod.fst hmethod,
        Grammar.declaresOnce_of_methods ⟨by decide, by decide⟩ hrun List.mem_cons_self⟩

end PredictiveParser
