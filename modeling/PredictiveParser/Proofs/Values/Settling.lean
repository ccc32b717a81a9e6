import PredictiveParser.Proofs.Analysis.Rule
import PredictiveParser.Proofs.Code.Only
import PredictiveParser.Proofs.Values.Declared

/-!
# Saving values resolves references

Where the values of a rule are saved and nothing is reported, each node that the rule matches is
settled: its code has no references left but those to what lies ahead (`settles_saveValues`). The code of
all other nodes stays as it is, also where a rule is analyzed (`sameCode_analyzeRule`).

`Grammar.Settles` says this of two grammars, and such steps can be put behind each other.
-/
namespace PredictiveParser

open Template References

/-! ## The code of a node -/

/-- The nodes hold the same code. -/
structure Node.SameCode (node node' : Node) : Prop where
  pre : node'.preAction = node.preAction
  post : node'.postAction = node.postAction
  expression : node'.kind.expression? = node.kind.expression?

/-- Each dollar sign in the code of the node begins a reference. -/
structure Node.Tidy (node : Node) : Prop where
  actions : ∀ action, node.HasAction action → Only (fun _ => True) action
  expression : ∀ code, node.kind.expression? = some code → Only (fun _ => True) code

/-- The second node holds the code of the first with all references resolved but those to what lies
ahead. -/
structure Node.Settles (node node' : Node) : Prop where
  actions : ∀ action', node'.HasAction action' →
    Only (fun r => r.isLookahead = true ∧ ∃ action, node.HasAction action ∧ r ∈ find action) action'
  expression : ∀ code, node'.kind.expression? = some code → Only (fun r => r.isLookahead = true) code

namespace Node

variable {node node' node'' : Node}

theorem SameCode.refl (node : Node) : node.SameCode node := ⟨rfl, rfl, rfl⟩

theorem SameCode.trans (h : node.SameCode node') (h' : node'.SameCode node'') :
    node.SameCode node'' :=
  ⟨h'.pre.trans h.pre, h'.post.trans h.post, h'.expression.trans h.expression⟩

theorem SameCode.hasAction (h : node.SameCode node') {action : Tokens} :
    node'.HasAction action ↔ node.HasAction action := by
  rw [HasAction, HasAction, h.pre, h.post]

theorem SameCode.tidy (h : node.SameCode node') (htidy : node.Tidy) : node'.Tidy where
  actions action haction := htidy.actions action (h.hasAction.1 haction)
  expression code hcode := htidy.expression code (h.expression ▸ hcode)

theorem Tidy.of_no_expression (h : ∀ action, node.HasAction action → Only (fun _ => True) action)
    (hkind : node.kind.expression? = none) : node.Tidy where
  actions := h
  expression code hcode := by
    rw [hkind] at hcode
    cases hcode

theorem Settles.tidy (h : node.Settles node') : node'.Tidy where
  actions action haction := (h.actions action haction).imp fun _ _ _ => trivial
  expression code hcode := (h.expression code hcode).imp fun _ _ _ => trivial

theorem Settles.sameCode (h : node.Settles node') (h' : node'.SameCode node'') :
    node.Settles node'' where
  actions action haction := h.actions action (h'.hasAction.1 haction)
  expression code hcode := h.expression code (h'.expression ▸ hcode)

theorem SameCode.settles (h : node.SameCode node') (h' : node'.Settles node'') :
    node.Settles node'' where
  actions action haction := by
    simpa only [h.hasAction] using h'.actions action haction
  expression := h'.expression

theorem Settles.trans (h : node.Settles node') (h' : node'.Settles node'') :
    node.Settles node'' where
  actions action haction := by
    refine (h'.actions action haction).imp fun r _ hr => ?_
    obtain ⟨hlookahead, middle, hmiddle, hfound⟩ := hr
    exact (h.actions middle hmiddle).find r hfound
  expression := h'.expression

/-- Code without references may be put in front. -/
theorem Settles.declare (h : node.Settles node') {code : Tokens} (hcode : NoDollar code) :
    node.Settles { node' with preAction := joinActions (some code) node'.preAction } where
  actions action haction := by
    rcases haction with haction | haction
    · cases hpre : node'.preAction with
      | none =>
        rw [hpre] at haction
        cases haction
        exact hcode.only
      | some old =>
        rw [hpre] at haction
        cases haction
        exact hcode.only.append (h.actions old (Or.inl hpre))
    · exact h.actions action (Or.inr haction)
  expression := h.expression

end Node

/-! ## The code of a grammar -/

namespace Grammar

variable {g g' g'' : Grammar} {ids ids' : NodeId → Prop} {id : NodeId}

/-- All nodes of the second grammar have the code they have in the first. -/
def SameCode (g g' : Grammar) : Prop :=
  ∀ id node', g'.node id = .ok node' → ∃ node, g.node id = .ok node ∧ node.SameCode node'

/-- Each dollar sign in the code of the grammar begins a reference. -/
def Tidy (g : Grammar) : Prop :=
  ∀ id node, g.node id = .ok node → node.Tidy

/-- These nodes are settled, and all others have the code they had. -/
structure Settles (g : Grammar) (ids : NodeId → Prop) (g' : Grammar) : Prop where
  settled : ∀ id node', ids id → g'.node id = .ok node' →
    ∃ node, g.node id = .ok node ∧ node.Settles node'
  kept : ∀ id node', ¬ids id → g'.node id = .ok node' →
    ∃ node, g.node id = .ok node ∧ node.SameCode node'

theorem SameCode.refl (g : Grammar) : g.SameCode g := fun _ node' h => ⟨node', h, .refl node'⟩

theorem SameCode.settles (h : g.SameCode g') : g.Settles (fun _ => False) g' where
  settled _ _ hid := hid.elim
  kept id node' _ hnode' := h id node' hnode'

theorem Settles.tidy (h : g.Settles ids g') (htidy : g.Tidy) : g'.Tidy := by
  intro id node' hnode'
  by_cases hid : ids id
  · obtain ⟨node, -, hsettles⟩ := h.settled id node' hid hnode'
    exact hsettles.tidy
  · obtain ⟨node, hnode, hsame⟩ := h.kept id node' hid hnode'
    exact hsame.tidy (htidy id node hnode)

/-- **Steps behind each other.** -/
theorem Settles.trans (h : g.Settles ids g') (h' : g'.Settles ids' g'') :
    g.Settles (fun id => ids id ∨ ids' id) g'' where
  settled id node'' hid hnode'' := by
    by_cases hlater : ids' id
    · obtain ⟨node', hnode', hsettles'⟩ := h'.settled id node'' hlater hnode''
      by_cases hearlier : ids id
      · obtain ⟨node, hnode, hsettles⟩ := h.settled id node' hearlier hnode'
        exact ⟨node, hnode, hsettles.trans hsettles'⟩
      · obtain ⟨node, hnode, hsame⟩ := h.kept id node' hearlier hnode'
        exact ⟨node, hnode, hsame.settles hsettles'⟩
    · obtain ⟨node', hnode', hsame'⟩ := h'.kept id node'' hlater hnode''
      obtain ⟨node, hnode, hsettles⟩ := h.settled id node' (hid.resolve_right hlater) hnode'
      exact ⟨node, hnode, hsettles.sameCode hsame'⟩
  kept id node'' hid hnode'' := by
    rw [not_or] at hid
    obtain ⟨node', hnode', hsame'⟩ := h'.kept id node'' hid.2 hnode''
    obtain ⟨node, hnode, hsame⟩ := h.kept id node' hid.1 hnode'
    exact ⟨node, hnode, hsame.trans hsame'⟩

theorem Settles.congr (h : g.Settles ids g') (hids : ∀ id, ids id ↔ ids' id) :
    g.Settles ids' g' := by
  rwa [← funext fun id => propext (hids id)]

theorem sameCode_modifyNode {f : Node → Node} (h : g.modifyNode id f = .ok g')
    (hf : ∀ node : Node, node.SameCode (f node)) : g.SameCode g' := by
  intro other node' hnode'
  obtain ⟨node, hnode, rfl⟩ := node_modifyNode h hnode'
  refine ⟨node, hnode, ?_⟩
  split
  · exact hf node
  · exact .refl node

theorem Agrees.sameCode (h : g.Relabels g') : g.SameCode g' := by
  intro id node' hnode'
  obtain ⟨node, hnode, heq⟩ := h.node hnode'
  have hsame : node.unlabeled.SameCode node'.unlabeled := heq ▸ .refl _
  exact ⟨node, hnode, hsame.pre, hsame.post, hsame.expression⟩

/-! ## Analysis -/

/-- **Analyzing a rule changes no code.** -/
theorem sameCode_analyzeRule {journal journal' : List Event} {name : String} {follow : FollowSets}
    {options : Options}
    (h : Yields (analyzeRule name follow options) (g, journal) ⟨⟩ (g', journal')) :
    g.SameCode g' := by
  intro id node' hnode'
  obtain ⟨node, hnode, heq⟩ := (agrees_analyzeRule h).node hnode'
  have hsame : node.unanalyzed.SameCode node'.unanalyzed := heq ▸ .refl _
  have hexpression := hsame.expression
  rw [Node.unanalyzed, Node.unanalyzed, NodeKind.expression?_unanalyzed,
    NodeKind.expression?_unanalyzed] at hexpression
  exact ⟨node, hnode, hsame.pre, hsame.post, hexpression⟩

end Grammar

/-! ## Replacing references by variables -/

namespace Saving

variable {refs : Referenced} {found : List String} {g g' : Grammar} {id : NodeId}

/-- When no reference dangles, only those to what lies ahead stay. -/
theorem only_substituteCode {code code' : Tokens} {dangling : List String}
    (hcode : Only (fun _ => True) code)
    (h : substituteCode refs found code = .ok (code', dangling)) (hnone : dangling = []) :
    Only (fun r => r.isLookahead = true ∧ r ∈ find code) code' := by
  rw [substituteCode_eq] at h
  obtain ⟨names, -, h⟩ := bind_eq_ok.1 h
  cases pure_eq_ok.1 h
  have hresolved : ∀ r ∈ find code, r.isLookahead = true ∨ (resolve? refs found r).isSome := by
    intro r hr
    have hfilter := List.filter_eq_nil_iff.1 (List.map_eq_nil_iff.1 hnone) r hr
    cases hlookahead : r.isLookahead with
    | true => exact Or.inl rfl
    | false =>
      refine Or.inr ?_
      cases hresolve : resolve? refs found r with
      | some name => rfl
      | none => simp [hlookahead, hresolve] at hfilter
  refine (hcode.imp fun r hr _ => And.intro hr (hresolved r hr)).replace ?_ ?_
  · intro r new _ hnew
    obtain ⟨name, -, rfl⟩ := Option.map_eq_some_iff.1 hnew
    exact only_word name
  · rintro r ⟨hr, hlookahead | hsome⟩ hkept
    · exact ⟨hlookahead, hr⟩
    · rw [Option.map_eq_none_iff.1 hkept] at hsome
      cases hsome

theorem only_substituteOption {code code' : Option Tokens} {dangling : List String}
    (hcode : ∀ old, code = some old → Only (fun _ => True) old)
    (h : substituteOption refs found code = .ok (code', dangling)) (hnone : dangling = [])
    {new : Tokens} (hnew : code' = some new) :
    ∃ old, code = some old ∧ Only (fun r => r.isLookahead = true ∧ r ∈ find old) new := by
  cases code with
  | none =>
    cases pure_eq_ok.1 h
    cases hnew
  | some old =>
    obtain ⟨⟨code, keys⟩, hsubstitute, h⟩ := bind_eq_ok.1 h
    cases pure_eq_ok.1 h
    cases hnew
    exact ⟨old, rfl, only_substituteCode (hcode old rfl) hsubstitute hnone⟩

theorem only_substituteKind {kind kind' : NodeKind} {dangling : List String}
    (hcode : ∀ code, kind.expression? = some code → Only (fun _ => True) code)
    (h : substituteKind refs found kind = .ok (kind', dangling)) (hnone : dangling = [])
    {code : Tokens} (hnew : kind'.expression? = some code) :
    Only (fun r => r.isLookahead = true) code := by
  rcases substituteKind_cases h with ⟨_, _, _, _, hsubstitute, rfl, rfl⟩ | ⟨hkind, rfl, -⟩
  · cases hnew
    exact (only_substituteCode (hcode _ rfl) hsubstitute hnone).imp fun _ _ hr => hr.1
  · cases hkind.symm.trans hnew

theorem settles_substituteNode (htidy : g.Tidy) {keys : List String}
    (h : substituteNode refs found g id = .ok (g', keys)) (hnone : keys = []) :
    g.Settles (· = id) g' := by
  obtain ⟨node, pre, first, post, second, kind, third, hnode, hpre, hpost, hkind, rfl, hg'⟩ :=
    substituteNode_eq_ok h
  obtain ⟨hnone, hthird⟩ := List.append_eq_nil_iff.1 hnone
  obtain ⟨hfirst, hsecond⟩ := List.append_eq_nil_iff.1 hnone
  have hold := htidy id node hnode
  constructor
  · rintro other node' rfl hnode'
    obtain ⟨node₁, hnode₁, rfl⟩ := Grammar.node_modifyNode hg' hnode'
    rw [hnode] at hnode₁
    cases hnode₁
    refine ⟨node, hnode, ?_, ?_⟩
    · rw [if_pos rfl]
      rintro action (haction | haction)
      · obtain ⟨old, hold', honly⟩ := only_substituteOption
          (fun old h => hold.actions old (Or.inl h)) hpre hfirst haction
        exact honly.imp fun r _ hr => ⟨hr.1, old, Or.inl hold', hr.2⟩
      · obtain ⟨old, hold', honly⟩ := only_substituteOption
          (fun old h => hold.actions old (Or.inr h)) hpost hsecond haction
        exact honly.imp fun r _ hr => ⟨hr.1, old, Or.inr hold', hr.2⟩
    · rw [if_pos rfl]
      exact fun code hcode => only_substituteKind hold.expression hkind hthird hcode
  · intro other node' hne hnode'
    obtain ⟨node₁, hnode₁, rfl⟩ := Grammar.node_modifyNode hg' hnode'
    rw [if_neg hne]
    exact ⟨node₁, hnode₁, .refl node₁⟩

theorem settles_substituteAll {ids : List NodeId} (htidy : g.Tidy)
    {dangling : List (NodeId × String)}
    (h : substituteAll refs found ids g = .ok (g', dangling)) (hnone : dangling = []) :
    g.Settles (· ∈ ids) g' := by
  induction ids generalizing g dangling with
  | nil =>
    cases pure_eq_ok.1 h
    exact (Grammar.SameCode.refl _).settles.congr fun id => by simp
  | cons id rest ih =>
    rw [substituteAll] at h
    obtain ⟨⟨g₁, keys⟩, hfirst, h⟩ := bind_eq_ok.1 h
    obtain ⟨⟨g₂, more⟩, hrest, h⟩ := bind_eq_ok.1 h
    cases pure_eq_ok.1 h
    obtain ⟨hkeys, hmore⟩ := List.append_eq_nil_iff.1 hnone
    have hone := settles_substituteNode htidy hfirst (List.map_eq_nil_iff.1 hkeys)
    exact (hone.trans (ih (hone.tidy htidy) hrest hmore)).congr fun id => List.mem_cons.symm

end Saving

/-! ## Declarations -/

/-- No type holds a dollar sign. -/
structure Grammar.PlainTypes (g : Grammar) (options : Options) : Prop where
  terminal : ∀ type, options.terminalType = some type → NoDollar type
  list : NoDollar options.listType
  rules : ∀ name rule, g.rule? name = some rule → NoDollar rule.valueType

theorem Grammar.PlainTypes.of_rules {g g' : Grammar} {options : Options} (h : g.PlainTypes options)
    (hrules : g'.rules = g.rules) : g'.PlainTypes options :=
  ⟨h.terminal, h.list, fun name rule hrule => h.rules name rule (rule?_of_rules hrules name ▸ hrule)⟩

theorem Grammar.PlainTypes.valueType {g : Grammar} {options : Options} (h : g.PlainTypes options)
    {node : Node} {type : Tokens} (htype : g.valueType? options node = some type) :
    NoDollar type := by
  unfold Grammar.valueType? at htype
  split at htype
  · obtain ⟨rule, hrule, rfl⟩ := Option.map_eq_some_iff.1 htype
    exact h.rules _ rule hrule
  · exact h.terminal type htype
  · cases htype

theorem noDollar_variableType {listType type : Tokens} (hlist : NoDollar listType)
    (htype : NoDollar type) (isList : Bool) :
    NoDollar (variableType listType type isList).1 ∧
      NoDollar (variableType listType type isList).2 := by
  unfold variableType
  split
  · constructor <;> apply_rules [only_parens, only_word, only_op, Only.nil, Only.append]
  · split
    · exact ⟨htype, only_natLiteral _⟩
    · exact ⟨htype, (only_absolutePath _).append (only_parens .nil)⟩

theorem noDollar_declare (name : String) {type init : Tokens} (htype : NoDollar type)
    (hinit : NoDollar init) : NoDollar (declare name type init) := by
  unfold declare
  apply_rules [only_words, only_op, Only.append]

theorem Grammar.PlainTypes.declarationOf {g : Grammar} {options : Options} (h : g.PlainTypes options)
    (node : Node) (name : String) : NoDollar (g.declarationOf options node name).code := by
  have htype : NoDollar ((g.valueType? options node).getD (word "_")) := by
    cases hvalue : g.valueType? options node with
    | none => exact only_word _
    | some type => exact h.valueType hvalue
  obtain ⟨hvariable, hinit⟩ := noDollar_variableType h.list htype node.isList
  exact noDollar_declare name hvariable hinit

namespace Grammar

variable {g g' : Grammar} {ids : NodeId → Prop} {options : Options}

theorem Settles.declareVariables (h : g.Settles ids g') {g'' : Grammar} {body : NodeId}
    (hbody : ids body) {declared : List Declared} (hplain : ∀ new ∈ declared, NoDollar new.code)
    (hdeclare : g'.declareVariables body declared = .ok g'') : g.Settles ids g'' := by
  unfold Grammar.declareVariables at hdeclare
  split at hdeclare
  · cases hdeclare
    exact h
  · have hcode : NoDollar (declared.flatMap (·.code)) := by
      refine Only.flatten fun code hm => ?_
      obtain ⟨new, hnew, rfl⟩ := List.mem_map.1 hm
      exact hplain new hnew
    constructor
    · intro id node' hid hnode'
      obtain ⟨node₁, hnode₁, rfl⟩ := node_modifyNode hdeclare hnode'
      obtain ⟨node, hnode, hsettles⟩ := h.settled id node₁ hid hnode₁
      refine ⟨node, hnode, ?_⟩
      split
      · exact hsettles.declare hcode
      · exact hsettles
    · intro id node' hid hnode'
      obtain ⟨node₁, hnode₁, rfl⟩ := node_modifyNode hdeclare hnode'
      rw [if_neg fun heq : id = body => hid (heq ▸ hbody)]
      exact h.kept id node₁ hid hnode₁

/-- **Saving values settles the nodes of the rule**, unless it has an error to report. -/
theorem settles_saveValues {name : String} {events : List Event} (htidy : g.Tidy)
    (htypes : g.PlainTypes options) (h : g.saveValues name options = .ok (g', events))
    (hquiet : ∀ message, .report message ∈ events → message.severity ≠ .error) :
    ∃ rule, g.rule? name = some rule ∧ g.Settles (g.MatchedBy rule.body) g' := by
  obtain ⟨steps⟩ := exists_savingSteps h
  have hnone : steps.dangling = [] := by
    cases hdangling : steps.dangling with
    | nil => rfl
    | cons entry rest =>
      obtain ⟨message, hm, herror⟩ := steps.reports entry (by simp [hdangling])
      exact (hquiet message hm herror).elim
  have hsame := steps.relabels.sameCode.settles
  have hsettles := Saving.settles_substituteAll (hsame.tidy htidy) steps.replaces hnone
  have hall : g.Settles (g.MatchedBy steps.rule.body) steps.replaced :=
    (hsame.trans hsettles).congr fun id => by rw [false_or, steps.mem_ids]
  have hplain : ∀ new ∈ steps.saved.declared, NoDollar new.code := by
    intro new hnew
    obtain ⟨id, -, node, value, -, -, rfl⟩ := steps.exists_newlyStored hnew
    exact (htypes.of_rules (relabels_moveLabels steps.moves).rules).declarationOf node value
  exact ⟨steps.rule, steps.found, hall.declareVariables .refl hplain steps.declares⟩

end Grammar

end PredictiveParser
