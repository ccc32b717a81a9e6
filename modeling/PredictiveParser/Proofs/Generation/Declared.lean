import PredictiveParser.Proofs.Generation.Frame
import PredictiveParser.Proofs.Grammar.Blank
import PredictiveParser.Proofs.Method.Scoped
import PredictiveParser.Proofs.Values.Declared

/-!
# Parsers declare the variables that references become

In the code of its checks a rule has variables in the place of references. Its parser declares them
before anything else (`Grammar.declares_of_methods`), unless a variable is for the value of a rule that
is called under labels only, or not at all.

That holds of the parser of the rule itself. Its recognizer runs no actions, so it declares nothing, and
neither does another rule whose prediction tests the check.
-/
namespace PredictiveParser

open Grammar References Relation Template

/-! ## From actions to methods -/

/-- The method declares the variable, in which some node stores its value, before it does anything but
declare what lies ahead. -/
def Method.Declares (method : Method) (g : Grammar) (options : Options) (name : String) : Prop :=
  ∃ (offsets : List Nat) (code : Tokens) (rest : List Stmt),
    method.body = offsets.map (fun offset => .snippet (.declareLookahead offset)) ++
      .snippet (.code code) :: rest ∧ g.StartsDeclaring options method.rule.body code name

/-- The body of the method was put together from its lookahead variables, the action in front of this node,
and the rest of what was lowered for the node. -/
structure Method.Assembled (method : Method) (m : MethodPlan) (node : Node) (rest : List Stmt) :
    Prop where
  form : m.form = method.form
  found : m.grammar.node method.rule.body = .ok node
  code : method.body = method.lookaheads.map (fun offset => .snippet (.declareLookahead offset)) ++
    (m.lowerAction node.preAction ++ rest)
  lowered : ∃ depth inner st st', Yields
    (m.lowerKind (m.lowerDown depth) method.rule.body node.saver node.kind) st inner st' ∧
      rest = inner ++ m.lowerAction node.postAction
  labels : (Stmt.introducedOf rest).filterMap Introduced.offset? = []

theorem Method.LoweredIn.exists_assembled {method : Method} {g : Grammar} (h : method.LoweredIn g) :
    ∃ (m : MethodPlan) (node : Node) (rest : List Stmt), m.grammar = g ∧ method.Assembled m node rest := by
  obtain ⟨threshold, st, st', hlowered⟩ := h
  obtain ⟨-, -, st₁, hbody⟩ := yields_lowerMethod hlowered
  obtain ⟨code, st₂, hdown, h⟩ := yields_bind.1 hbody
  have h := yields_get_bind.1 h
  obtain ⟨hcode, -⟩ := yields_pure.1 h
  have hclosed := closed_lowerDown hdown
  have hoffsets := hclosed.lookaheads hcode
  obtain ⟨node, below, hnode, hbelow, rfl⟩ := yields_lowerDown hdown
  rw [List.append_assoc (MethodPlan.lowerAction _ _)] at hcode hclosed
  refine ⟨⟨g, method.rule, method.form, threshold⟩, node, _, rfl, rfl, hnode, hoffsets ▸ hcode,
    ⟨_, below, _, _, hbelow, rfl⟩, ?_⟩
  have hlabels := hclosed.introduces.filterMap_offset
  rw [Stmt.introducedOf_append, List.filterMap_append] at hlabels
  exact (List.append_eq_nil_iff.1 hlabels).2

/-- What stands in front of the body of a rule comes first in its parser. -/
theorem Method.LoweredIn.declares {method : Method} {g : Grammar} {options : Options} {name : String}
    (h : method.LoweredIn g) (hform : method.form = .parser)
    (hname : g.DeclaresAt options method.rule.body name) : method.Declares g options name := by
  obtain ⟨m, node, rest, rfl, hassembled⟩ := h.exists_assembled
  obtain ⟨node', action, hnode', haction, hdeclares⟩ := hname
  cases hassembled.found.symm.trans hnode'
  have hfirst : m.lowerAction node.preAction = [.snippet (.code action)] := by
    simp [MethodPlan.lowerAction, hassembled.form, hform, haction]
  have hbody := hassembled.code
  rw [hfirst] at hbody
  exact ⟨method.lookaheads, action, rest, hbody, hdeclares⟩

/-! ## What stays -/

namespace Grammar

variable {g g' base : Grammar} {body : NodeId} {resolve : Reference → Option String} {callee : String}

/-- What nodes are can be read off them. -/
theorem expressionAt?_of_nodes {id : NodeId} (h : g'.nodes[id]? = g.nodes[id]?) :
    g'.expressionAt? id = g.expressionAt? id := by
  rw [expressionAt?, kindAt?, h, expressionAt?, kindAt?]

theorem Resolves.frame (h : base.Resolves body resolve g)
    (hsame : ∀ id, base.MatchedBy body id → g'.nodes[id]? = g.nodes[id]?) :
    base.Resolves body resolve g' := by
  intro id code hid hcode
  rw [expressionAt?_of_nodes (hsame id hid)]
  exact h id code hid hcode

theorem CallsLabeled.frame (h : g.CallsLabeled body callee) (hshape : g.SameShape g')
    (hsame : ∀ id, g.MatchedBy body id → g'.nodes[id]? = g.nodes[id]?) :
    g'.CallsLabeled body callee := by
  intro id node hid hnode
  have hid := hshape.symm.matchedBy hid
  rw [node_eq_ok, hsame id hid, ← node_eq_ok] at hnode
  exact h id node hid hnode

end Grammar

/-! ## One rule -/

/-- In the second grammar the checks of the rule have variables in the place of the references they have
in the first, and the method declares these variables. Those for the values of rules that are called
under labels only need not be declared. -/
def Method.DeclaresResolved (method : Method) (g g' : Grammar) (options : Options) : Prop :=
  ∃ resolve, g.Resolves method.rule.body resolve g' ∧ ∀ reference value,
    resolve reference = some value → method.Declares g' options value ∨
      value = "got_" ++ reference.key ∧ g'.CallsLabeled method.rule.body reference.key

namespace Generate

variable {s s' : Generation} {options : Options} {follow : FollowSets} {name : String}
  {names : List String} {rule : Rule} {base : Grammar} {methods : List Method}

/-- **One rule**: its parser declares the variables. -/
theorem declaresResolved_rule {last : Grammar} (hf : base.Forest)
    (hsavers : ∀ id node, base.node id = .ok node → node.saver = none)
    (hturn : HadTurn base options follow name rule methods s s' last) {method : Method}
    (hm : method ∈ methods) (hform : method.form = .parser) :
    method.rule = rule ∧ rule.generatesParser = true ∧
      method.DeclaresResolved base s'.grammar options := by
  obtain ⟨g, events, hanalyzed, hsaved, hmethods⟩ := hturn.exists_analyzed hf
  have hsavers' : ∀ id node, g.MatchedBy rule.body id → g.node id = .ok node → node.saver = none := by
    intro id node hid hnode
    obtain ⟨old, hold, hsame⟩ := hanalyzed.kept id node hid hnode
    have hsaver := congrArg Node.saver hsame
    exact hsaver.symm.trans (hsavers id old hold)
  obtain ⟨resolve, hresolves, hdeclared⟩ :=
    declares_saveValues hanalyzed.forest hanalyzed.found hsavers' hsaved
  obtain ⟨rfl, hhas, hlowered⟩ := hmethods.lowered method hm
  rw [hform] at hhas
  refine ⟨rfl, hhas, resolve, fun id code hid hcode => ?_, fun reference value hvalue => ?_⟩
  · have hid := (hanalyzed.matched id).2 hid
    obtain ⟨node, hnode, -⟩ :=
      hanalyzed.forest.exists_node hanalyzed.found (reaches_of_matched hid)
    obtain ⟨old, hold, hsame⟩ := hanalyzed.kept id node hid hnode
    have hkind : old.kind.unanalyzed = node.kind.unanalyzed := congrArg Node.kind hsame
    rw [expressionAt?_of_node hold, ← NodeKind.expression?_unanalyzed, hkind,
      NodeKind.expression?_unanalyzed, ← expressionAt?_of_node hnode] at hcode
    exact hresolves id code hid hcode
  · exact (hdeclared reference value hvalue).imp_left (hlowered.declares hform)

/-- What later rules do to the grammar does not concern the method. -/
theorem declaresResolved_later {g g' : Grammar} {method : Method}
    (h : method.DeclaresResolved base g options) (hshape : base.SameShape g)
    (hshape' : g.SameShape g') (hrules : g'.rules = g.rules)
    (hsame : ∀ id, base.MatchedBy method.rule.body id → g'.nodes[id]? = g.nodes[id]?) :
    method.DeclaresResolved base g' options := by
  obtain ⟨resolve, hresolves, hdeclared⟩ := h
  have hsame' : ∀ id, g.MatchedBy method.rule.body id → g'.nodes[id]? = g.nodes[id]? :=
    fun id hid => hsame id (hshape.symm.matchedBy hid)
  refine ⟨resolve, hresolves.frame hsame, fun reference value hvalue => ?_⟩
  refine (hdeclared reference value hvalue).imp ?_ (And.imp_right fun hlabeled => ?_)
  · rintro ⟨offsets, code, rest, hbody, hdeclares⟩
    exact ⟨offsets, code, rest, hbody, hdeclares.frame hshape' hrules hsame'⟩
  · exact hlabeled.frame hshape' hsame'

end Generate

/-! ## All rules of a grammar -/

namespace Grammar

variable {g g' : Grammar} {id : NodeId} {code : Tokens}

theorem expression?_withCheckRule (rule : String) (node : Node) :
    (node.withCheckRule rule).kind.expression? = node.kind.expression? := by
  unfold Node.withCheckRule
  split
  · rename_i hkind
    rw [hkind]
    rfl
  · rfl

/-- **Parsers declare the variables that references become.** -/
theorem declares_of_methods {options : Options} {methods : List Method} {state : Generation}
    (hbuilt : g.Built) (h : g.methods options = (.ok methods, state)) {method : Method}
    (hm : method ∈ methods) (hform : method.form = .parser) :
    (∃ rule, g.rule? method.rule.name = some rule ∧ method.rule.body = rule.body) ∧
      method.DeclaresResolved g state.grammar options := by
  have hkeyed := hbuilt.fresh.keyed
  obtain ⟨base, follow, name, rule, own, s, s', hcompleted, hturn, hown⟩ := exists_hadTurn hkeyed h hm
  obtain ⟨g₁, hg₁, hnodes⟩ := hcompleted.synthesized
  have hsavers : ∀ id node, base.node id = .ok node → node.saver = none := by
    intro id node hnode
    rw [node_eq_ok, hnodes, ← node_eq_ok] at hnode
    exact nodes_synthesizeRecognizers (fun node copied hstem hnode =>
      (congrArg Node.saver hstem).trans hnode)
      (fun rule node hnode => (node.saver_withCheckRule rule).trans hnode) hkeyed
      (fun id node hnode => (hbuilt.blank id node hnode).saver) hg₁ id node hnode
  have hcodes : ∀ id code, g.expressionAt? id = some code → base.expressionAt? id = some code := by
    intro id code hcode
    rw [expressionAt?_of_nodes (congrArg (·[id]?) hnodes)]
    obtain ⟨kind, hkind, hcode⟩ := Option.bind_eq_some_iff.1 hcode
    obtain ⟨node, hnode, rfl⟩ := kindAt?_eq_some.1 hkind
    obtain ⟨node', hnode', hsame⟩ := exists_node_synthesizeRecognizers
      (f := fun node => node.kind.expression?) expression?_withCheckRule hkeyed hg₁ hnode
    rw [expressionAt?_of_node hnode', hsame, hcode]
  obtain ⟨rfl, hparser, hdeclares⟩ :=
    Generate.declaresResolved_rule hcompleted.forest hsavers hturn hown hform
  obtain ⟨resolve, hresolves, hdeclared⟩ :=
    Generate.declaresResolved_later hdeclares hturn.reached hturn.shape hturn.rules hturn.stays
  have hrule := hturn.found
  rw [← hcompleted.keyed.name_of_rule? hrule] at hrule
  constructor
  · rcases hcompleted.grown.rules _ _ hrule with hold | ⟨-, hnone⟩
    · exact hold
    · rw [hparser] at hnone
      cases hnone
  · exact ⟨resolve, fun id code hid hcode => hresolves id code
      ((hcompleted.grown.keeps hkeyed).shape.matchedBy hid) (hcodes id code hcode), hdeclared⟩

end Grammar

/-! ## An instance -/

/-- The rule `item` matches a letter and then checks it. -/
def guarded : Grammar where
  nodes := #[{ Node.ofKind (.terminal (.ofRanges [(97, 98)]) none) with label := some "x" },
    .ofKind (.check ⟨false, .code [.punct '$' .alone, .ident "x", .punct '>' .alone, .literal "97"],
      none⟩), .ofKind (.sequence [0, 1])]
  rules := [("item", .ofBody "item" 2)]

theorem guarded_built : guarded.Built := by
  have hlabel := (Grammar.Built.empty.terminal (.ofRanges [(97, 98)])).label
    (show Grammar.label _ 0 "x" false = .ok _ from rfl)
  have hbody := (hlabel.checkCode false
    [.punct '$' .alone, .ident "x", .punct '>' .alone, .literal "97"]).sequence [0, 1]
  exact hbody.addRule (show Grammar.addRule _ (.ofBody "item" 2) = .ok _ from rfl)

/-- The forms that generation gives for the only rule. -/
def guardedForms : Option (List Form) :=
  (guarded.methods .default).1.toOption.map (List.map Method.form)

theorem guarded_forms : guardedForms = some [.parser] := by decide +kernel

theorem guarded_declares : ∃ methods state method, guarded.methods .default = (.ok methods, state) ∧
    method ∈ methods ∧ method.form = .parser ∧
    (∃ rule, guarded.rule? method.rule.name = some rule ∧ method.rule.body = rule.body) ∧
    method.DeclaresResolved guarded state.grammar .default := by
  have hforms := guarded_forms
  unfold guardedForms at hforms
  cases hrun : guarded.methods .default with
  | mk result state =>
    rw [hrun] at hforms
    cases result with
    | error failure => cases hforms
    | ok methods =>
      obtain ⟨method, others, rfl, hform, -⟩ := List.map_eq_cons_iff.1 (Option.some.inj hforms)
      exact ⟨_, state, method, rfl, List.mem_cons_self, hform,
        Grammar.declares_of_methods guarded_built hrun List.mem_cons_self hform⟩

end PredictiveParser
