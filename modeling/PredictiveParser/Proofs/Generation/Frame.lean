import PredictiveParser.Proofs.Analysis.OnlyLimit
import PredictiveParser.Proofs.Generation.Run
import PredictiveParser.Proofs.Grammar.Naming
import PredictiveParser.Proofs.Values.Declared

/-!
# Generating a rule leaves the other rules alone

Whether a rule is generated or left out, only nodes that it matches come to differ
(`Generate.reworks_ruleOrSkip`), and no rule shares a node with another. So a rule is as it was until its
turn comes, and afterwards it stays as it is then (`Grammar.Reworks`, `Generate.reworks_mapM`).

Of the code of checks nothing is ever lost or added, but something else may come to stand in the place of
references (`Tokens.Rewrites`).
-/
namespace PredictiveParser

open Relation

/-! ## Rewritten code -/

/-- Names, or what references to what lies ahead stand for, have come in the place of some references. -/
def Tokens.RewritesOnce (code code' : Tokens) : Prop :=
  ∃ f : Reference → Option Tokens, code' = References.replace f code ∧ ∀ r new, f r = some new →
    (∃ name, new = Template.word name) ∨ ∃ offset, MethodPlan.lookaheadCode offset r = some new

/-- So it has come about by one replacement after the other. -/
abbrev Tokens.Rewrites : Tokens → Tokens → Prop :=
  ReflTransGen Tokens.RewritesOnce

theorem Tokens.rewrites_resolved (resolve : Reference → Option String) (times : Nat) (code : Tokens) :
    code.Rewrites (code.resolved resolve times) := by
  induction times generalizing code with
  | zero => exact .refl
  | succ times ih =>
    refine .head ⟨_, rfl, fun r new hnew => Or.inl ?_⟩ (ih _)
    obtain ⟨name, -, rfl⟩ := Option.map_eq_some_iff.1 hnew
    exact ⟨name, rfl⟩

theorem Tokens.rewrites_lookahead (offset : Nat) (code : Tokens) :
    code.Rewrites (References.replace (MethodPlan.lookaheadCode offset) code) :=
  .single ⟨_, rfl, fun _ _ hnew => Or.inr ⟨offset, hnew⟩⟩

namespace Grammar

variable {g g' g'' base : Grammar} {ids ids' : NodeId → Prop} {id : NodeId} {name : String}
  {names : List String} {rule : Rule} {options : Options}

/-- Only annotations, predictions and code differ, and only at these nodes. The code of checks has come
about by rewriting. -/
structure Reworks (g : Grammar) (ids : NodeId → Prop) (g' : Grammar) : Prop where
  shape : g.SameShape g'
  rules : g'.rules = g.rules
  frame : ∀ id, ¬ ids id → g'.nodes[id]? = g.nodes[id]?
  checks : ∀ id code', g'.expressionAt? id = some code' →
    ∃ code, g.expressionAt? id = some code ∧ code.Rewrites code'

theorem Reworks.refl (g : Grammar) (ids : NodeId → Prop) : g.Reworks ids g :=
  ⟨.refl g, rfl, fun _ _ => rfl, fun _ code' hcode => ⟨code', hcode, .refl⟩⟩

theorem Reworks.trans (h : g.Reworks ids g') (h' : g'.Reworks ids g'') : g.Reworks ids g'' where
  shape := h.shape.trans h'.shape
  rules := h'.rules.trans h.rules
  frame id hid := (h'.frame id hid).trans (h.frame id hid)
  checks id code'' hcode'' := by
    obtain ⟨code', hcode', hrewrites'⟩ := h'.checks id code'' hcode''
    obtain ⟨code, hcode, hrewrites⟩ := h.checks id code' hcode'
    exact ⟨code, hcode, hrewrites.trans hrewrites'⟩

theorem Reworks.mono (h : g.Reworks ids g') (hsub : ∀ id, ids id → ids' id) : g.Reworks ids' g' :=
  ⟨h.shape, h.rules, fun id hid => h.frame id fun hm => hid (hsub id hm), h.checks⟩

theorem Reworks.forest (h : g.Reworks ids g') (hf : g.Forest) : g'.Forest :=
  hf.of_sameShape h.shape (by rw [ruleList, h.rules, ruleList])
    fun name => Exists.imp fun _ => (rule?_of_rules h.rules name).trans

/-- One of these rules matches the node, so its values are saved with those of the rule. -/
def SavedWith (g : Grammar) (names : List String) (id : NodeId) : Prop :=
  ∃ name ∈ names, ∃ rule, g.rule? name = some rule ∧ g.MatchedBy rule.body id

theorem Reworks.savedWith (h : g.Reworks ids g') (hid : g'.SavedWith names id) :
    g.SavedWith names id := by
  obtain ⟨name, hname, rule, hrule, hm⟩ := hid
  exact ⟨name, hname, rule, (rule?_of_rules h.rules name).symm.trans hrule, h.shape.symm.matchedBy hm⟩

/-- No other rule matches what a rule matches. -/
theorem not_savedWith (hf : g.Forest) (hrule : g.rule? name = some rule)
    (hid : g.MatchedBy rule.body id) (hname : name ∉ names) : ¬ g.SavedWith names id := by
  rintro ⟨other, hother, old, hold, hm⟩
  have heq := hf.rule_unique hrule hold (reaches_of_matched hid) (reaches_of_matched hm)
  exact hname (heq ▸ hother)

/-- Analysis leaves checks alone. -/
theorem Agrees.expressionAt? (h : Agrees Node.unanalyzed g g') (id : NodeId) :
    g'.expressionAt? id = g.expressionAt? id := by
  have hexpression : ∀ g : Grammar, g.expressionAt? id =
      (g.nodes[id]?.map Node.unanalyzed).bind fun node => node.kind.expression? := by
    intro g
    unfold Grammar.expressionAt? Grammar.kindAt?
    cases g.nodes[id]? with
    | none => rfl
    | some node => exact (NodeKind.expression?_unanalyzed node.kind).symm
  rw [hexpression, hexpression, h.nodes]

theorem reworks_analyzeRule {journal journal' : List Event} {follow : FollowSets}
    (hrule : g.rule? name = some rule)
    (h : Yields (analyzeRule name follow options) (g, journal) ⟨⟩ (g', journal')) :
    g.Reworks (g.MatchedBy rule.body) g' := by
  obtain ⟨own, hown, hshape, hrules, hframe⟩ := frame_analyzeRule h
  cases hrule.symm.trans hown
  refine ⟨hshape, hrules, hframe, fun id code hcode => ⟨code, ?_, .refl⟩⟩
  rwa [← (agrees_analyzeRule h).expressionAt? id]

theorem reworks_saveValues {events : List Event} (hrule : g.rule? name = some rule)
    (h : g.saveValues name options = .ok (g', events)) : g.Reworks (g.MatchedBy rule.body) g' := by
  obtain ⟨own, hown, htouches⟩ := touches_saveValues h
  cases hrule.symm.trans hown
  have hannotates := annotates_saveValues h
  refine ⟨hannotates.kinds.sameShape, hannotates.rules, htouches.frame, fun id code' hcode' => ?_⟩
  obtain ⟨steps⟩ := exists_savingSteps h
  obtain ⟨kind', hkind', -⟩ := Option.bind_eq_some_iff.1 hcode'
  obtain ⟨kind, hkind, -⟩ := hannotates.kinds.sameShape.symm.kindAt? hkind'
  obtain ⟨node, hnode, rfl⟩ := kindAt?_eq_some.1 hkind
  obtain ⟨node', hnode', -, hcheck, -⟩ := steps.codeResolved id node hnode
  rw [expressionAt?_of_node hnode', hcheck] at hcode'
  obtain ⟨code, hcode, rfl⟩ := Option.map_eq_some_iff.1 hcode'
  exact ⟨code, (expressionAt?_of_node hnode).trans hcode, Tokens.rewrites_resolved _ _ _⟩

/-- A rule is analyzed, and then its values are saved. -/
theorem reworks_saved {journal journal' events : List Event} {follow : FollowSets}
    (hrule : g.rule? name = some rule)
    (hanalysis : Yields (analyzeRule name follow options) (g, journal) ⟨⟩ (g', journal'))
    (hsaved : g'.saveValues name options = .ok (g'', events)) :
    g.Reworks (g.MatchedBy rule.body) g'' := by
  have hanalyzed := reworks_analyzeRule hrule hanalysis
  have hrule' : g'.rule? name = some rule := (rule?_of_rules hanalyzed.rules name).trans hrule
  exact hanalyzed.trans ((reworks_saveValues hrule' hsaved).mono
    fun id => hanalyzed.shape.symm.matchedBy)

/-- Nothing has changed that these rules match. -/
def Spares (base : Grammar) (names : List String) (g : Grammar) : Prop :=
  base.Reworks (fun id => ¬ base.SavedWith names id) g

theorem Spares.node (h : base.Spares names g) (hname : name ∈ names)
    (hrule : base.rule? name = some rule) (hid : base.MatchedBy rule.body id) :
    g.nodes[id]? = base.nodes[id]? :=
  h.frame id fun hnot => hnot ⟨name, hname, rule, hrule, hid⟩

/-- **One rule less to come.** -/
theorem Spares.step (hf : base.Forest) (h : base.Spares (name :: names) g)
    (hname : name ∉ names) (hrule : base.rule? name = some rule)
    (hstep : g.Reworks (g.MatchedBy rule.body) g') : base.Spares names g' := by
  have hearlier : base.Reworks (fun id => ¬ base.SavedWith names id) g := by
    refine h.mono fun id hid hm => hid ?_
    obtain ⟨other, hother, hm⟩ := hm
    exact ⟨other, List.mem_cons_of_mem _ hother, hm⟩
  have hnow : g.Reworks (fun id => ¬ base.SavedWith names id) g' := by
    refine hstep.mono fun id hid => ?_
    exact not_savedWith hf hrule (h.shape.symm.matchedBy hid) hname
  exact hearlier.trans hnow

end Grammar

/-! ## Runs -/

namespace Generate

variable {α β : Type} {s s' : Generation} {options : Options} {follow : FollowSets} {name : String}
  {names : List String} {rule : Rule}

theorem run_pass (step : Pass α) (s : Generation) : StateT.run (ExceptT.run (pass step)) s =
    ((StateT.run (ExceptT.run step) (s.grammar, s.events)).1,
      { s with grammar := (StateT.run (ExceptT.run step) (s.grammar, s.events)).2.1,
               events := (StateT.run (ExceptT.run step) (s.grammar, s.events)).2.2 }) := rfl

theorem run_lift_bind {result : Except (Failure GenerationError) α} {a : α} (h : result = .ok a)
    (f : α → Generate β) (s : Generation) :
    StateT.run (ExceptT.run (lift result >>= f)) s = StateT.run (ExceptT.run (f a)) s := by
  rw [h]
  rfl

theorem run_grammar_bind (f : Grammar → Generate β) (s : Generation) :
    StateT.run (ExceptT.run (grammar >>= f)) s = StateT.run (ExceptT.run (f s.grammar)) s := rfl

theorem run_setGrammar_bind (g : Grammar) (f : Unit → Generate β) (s : Generation) :
    StateT.run (ExceptT.run (setGrammar g >>= f)) s =
      StateT.run (ExceptT.run (f ())) { s with grammar := g } := rfl

/-- The step leaves the grammar as it is, also where it fails. -/
def Reads (x : Generate α) : Prop :=
  ∀ s, (StateT.run (ExceptT.run x) s).2.grammar = s.grammar

theorem Reads.bind {x : Generate α} {f : α → Generate β} (hx : Reads x) (hf : ∀ a, Reads (f a)) :
    Reads (x >>= f) := by
  intro s
  have hs := hx s
  rw [run_bind]
  revert hs
  rcases StateT.run (ExceptT.run x) s with ⟨e | a, m⟩
  · exact id
  · exact (hf a m).trans

theorem reads_methodsOf (rule : Rule) (options : Options) (form : Form) :
    Reads (methodsOf rule options form) := by
  unfold methodsOf
  split
  · exact Reads.bind (fun _ => rfl) fun _ _ => rfl
  · exact fun _ => rfl

theorem reworks_rule (hf : s.grammar.Forest) (hrule : s.grammar.rule? name = some rule)
    (options : Options) (follow : FollowSets) :
    s.grammar.Reworks (s.grammar.MatchedBy rule.body)
      (StateT.run (ExceptT.run (Generate.rule options follow name)) s).2.grammar := by
  unfold Generate.rule
  rw [run_bind, run_pass]
  rcases Grammar.run_analyzeRule_limit hf hrule follow options s.events with
    hlimit | ⟨⟨g₁, journal⟩, hanalysis⟩
  · rw [hlimit]
    exact .refl _ _
  · rw [hanalysis]
    show s.grammar.Reworks _ (StateT.run (ExceptT.run (grammar >>= _)) _).2.grammar
    rw [run_grammar_bind]
    cases hsaved : g₁.saveValues name options with
    | error failure => exact Grammar.reworks_analyzeRule hrule hanalysis
    | ok saved =>
      obtain ⟨g₂, events⟩ := saved
      rw [run_lift_bind rfl]
      dsimp only
      rw [run_setGrammar_bind]
      have hall := Grammar.reworks_saved hrule hanalysis hsaved
      -- From here on the grammar is only read.
      have hreads : ∀ x : Generate (List Method), Reads x → ∀ s₁ : Generation, s₁.grammar = g₂ →
          s.grammar.Reworks (s.grammar.MatchedBy rule.body)
            (StateT.run (ExceptT.run x) s₁).2.grammar := by
        intro x hx s₁ hs₁
        rwa [hx, hs₁]
      refine hreads _ (Reads.bind (fun _ => rfl) fun _ => ?_) _ rfl
      split
      · exact fun _ => rfl
      · exact (reads_methodsOf _ options .parser).bind fun _ =>
          (reads_methodsOf _ options .recognizer).bind fun _ _ => rfl

/-- **One rule**, whether it is generated or left out. -/
theorem reworks_ruleOrSkip {methods : List Method} (hf : s.grammar.Forest)
    (hrule : s.grammar.rule? name = some rule)
    (h : Yields (ruleOrSkip options follow name) s methods s') :
    s.grammar.Reworks (s.grammar.MatchedBy rule.body) s'.grammar := by
  have hreworks := reworks_rule hf hrule options follow
  unfold Yields ruleOrSkip at h
  rw [run_tryCatch] at h
  split at h
  · rename_i methods' s₁ hrun
    rw [hrun] at hreworks
    cases h
    exact hreworks
  · rename_i failure s₁ hrun
    rw [hrun] at hreworks
    cases failure with
    | fault cause => cases h
    | error cause =>
      obtain ⟨_, s₂, hsay, h⟩ := yields_bind.1 h
      obtain ⟨-, rfl⟩ := yields_pure.1 h
      rwa [yields_modify.1 hsay]

/-- A rule with methods is not left out. -/
theorem yields_rule_of_mem {methods : List Method} {method : Method}
    (h : Yields (ruleOrSkip options follow name) s methods s') (hm : method ∈ methods) :
    Yields (Generate.rule options follow name) s methods s' := by
  unfold Yields ruleOrSkip at h
  rw [run_tryCatch] at h
  split at h
  · rename_i methods' s₁ hrun
    cases h
    exact hrun
  · rename_i failure s₁ hrun
    cases failure with
    | fault cause => cases h
    | error cause =>
      obtain ⟨_, s₂, -, h⟩ := yields_bind.1 h
      obtain ⟨rfl, -⟩ := yields_pure.1 h
      cases hm

/-- **All rules**, by induction on those still to come. -/
theorem reworks_mapM {parts : List (List Method)} (hf : s.grammar.Forest)
    (hrules : ∀ name ∈ names, ∃ rule, s.grammar.rule? name = some rule)
    (h : Yields (names.mapM (ruleOrSkip options follow)) s parts s') :
    s.grammar.Reworks (s.grammar.SavedWith names) s'.grammar := by
  induction names generalizing s parts with
  | nil =>
    obtain ⟨-, rfl⟩ := yields_mapM_nil.1 h
    exact .refl _ _
  | cons name names ih =>
    obtain ⟨methods, s₁, parts, hfirst, hrest, rfl⟩ := yields_mapM_cons.1 h
    obtain ⟨rule, hrule⟩ := hrules name List.mem_cons_self
    have hone := reworks_ruleOrSkip hf hrule hfirst
    have hothers := ih (hone.forest hf) (fun other hother => by
      obtain ⟨rule, hrule⟩ := hrules other (List.mem_cons_of_mem _ hother)
      exact ⟨rule, (Grammar.rule?_of_rules hone.rules other).trans hrule⟩) hrest
    refine (hone.mono fun id hid => ?_).trans (hothers.mono fun id hid => ?_)
    · exact ⟨name, List.mem_cons_self, rule, hrule, hid⟩
    · obtain ⟨other, hother, hm⟩ := hone.savedWith hid
      exact ⟨other, List.mem_cons_of_mem _ hother, hm⟩

/-- A rule was generated between two states: what it matches was still as in the grammar at first, and is
in the last grammar what it was then. -/
structure HadTurn (base : Grammar) (options : Options) (follow : FollowSets) (name : String)
    (rule : Rule) (methods : List Method) (s s' : Generation) (last : Grammar) : Prop where
  found : base.rule? name = some rule
  before : base.Spares [name] s.grammar
  generated : Yields (Generate.rule options follow name) s methods s'
  reached : base.SameShape s'.grammar
  shape : s'.grammar.SameShape last
  rules : last.rules = s'.grammar.rules
  stays : ∀ id, base.MatchedBy rule.body id → last.nodes[id]? = s'.grammar.nodes[id]?

/-- The second grammar is as the first where the rule matches, but for what analysis writes. -/
structure Analyzed (base : Grammar) (name : String) (rule : Rule) (g : Grammar) : Prop where
  forest : g.Forest
  found : g.rule? name = some rule
  shape : base.SameShape g
  kept : ∀ id node, g.MatchedBy rule.body id → g.node id = .ok node →
    ∃ old, base.node id = .ok old ∧ old.unanalyzed = node.unanalyzed

theorem Analyzed.matched {base g : Grammar} (h : Analyzed base name rule g) (id : NodeId) :
    g.MatchedBy rule.body id ↔ base.MatchedBy rule.body id :=
  ⟨h.shape.symm.matchedBy, h.shape.matchedBy⟩

/-- In its turn a rule is analyzed, its values are saved, and its methods are lowered. -/
theorem HadTurn.exists_analyzed {base last : Grammar} {methods : List Method} (hf : base.Forest)
    (h : HadTurn base options follow name rule methods s s' last) :
    ∃ g events, Analyzed base name rule g ∧ g.saveValues name options = .ok (s'.grammar, events) ∧
      MethodsOf s'.grammar rule methods := by
  obtain ⟨g, journal, events, own, hanalysis, hsaved, -, hown, hmethods⟩ := yields_rule h.generated
  have hrule : s.grammar.rule? name = some rule :=
    (Grammar.rule?_of_rules h.before.rules name).trans h.found
  have hanalyzed := Grammar.reworks_analyzeRule hrule hanalysis
  have hrule : g.rule? name = some rule :=
    (Grammar.rule?_of_rules hanalyzed.rules name).trans hrule
  have hannotates := Grammar.annotates_saveValues hsaved
  cases hrule.symm.trans ((Grammar.rule?_of_rules hannotates.rules name).symm.trans hown)
  have hshape := h.before.shape.trans hanalyzed.shape
  refine ⟨g, events, ⟨hanalyzed.forest (h.before.forest hf), hrule, hshape,
    fun id node hid hnode => ?_⟩, hsaved, hmethods⟩
  obtain ⟨old, hold, hsame⟩ := (Grammar.agrees_analyzeRule hanalysis).node hnode
  rw [Grammar.node_eq_ok, h.before.node List.mem_cons_self h.found (hshape.symm.matchedBy hid),
    ← Grammar.node_eq_ok] at hold
  exact ⟨old, hold, hsame⟩

/-- **Each method** comes from the turn of a rule. -/
theorem exists_hadTurn {base : Grammar} {parts : List (List Method)} {method : Method}
    (hf : base.Forest) (hspares : base.Spares names s.grammar) (hnodup : names.Nodup)
    (hrules : ∀ name ∈ names, ∃ rule, base.rule? name = some rule)
    (h : Yields (names.mapM (ruleOrSkip options follow)) s parts s') (hm : method ∈ parts.flatten) :
    ∃ name rule methods s₁ s₂, HadTurn base options follow name rule methods s₁ s₂ s'.grammar ∧
      method ∈ methods := by
  induction names generalizing s parts with
  | nil =>
    obtain ⟨rfl, -⟩ := yields_mapM_nil.1 h
    cases hm
  | cons name names ih =>
    obtain ⟨own, s₁, parts, hfirst, hrest, rfl⟩ := yields_mapM_cons.1 h
    obtain ⟨hname, hnodup⟩ := List.nodup_cons.1 hnodup
    obtain ⟨rule, hrule⟩ := hrules name List.mem_cons_self
    have hothers : ∀ other ∈ names, ∃ rule, base.rule? other = some rule :=
      fun other hother => hrules other (List.mem_cons_of_mem _ hother)
    have hforest := hspares.forest hf
    have hrule' := (Grammar.rule?_of_rules hspares.rules name).trans hrule
    have hstep := reworks_ruleOrSkip hforest hrule' hfirst
    have hspares₁ := hspares.step hf hname hrule hstep
    rcases List.mem_append.1 hm with hm | hm
    · have hlater := reworks_mapM (hstep.forest hforest) (fun other hother => by
        obtain ⟨rule, hrule⟩ := hothers other hother
        exact ⟨rule, (Grammar.rule?_of_rules hspares₁.rules other).trans hrule⟩) hrest
      refine ⟨name, rule, own, s, s₁, ?_, hm⟩
      constructor
      case found => exact hrule
      case before =>
        refine hspares.mono fun id hid hsaved => hid ?_
        obtain ⟨other, hother, hsaved⟩ := hsaved
        rw [List.mem_singleton.1 hother] at hsaved
        exact ⟨name, List.mem_cons_self, hsaved⟩
      case generated => exact yields_rule_of_mem hfirst hm
      case reached => exact hspares₁.shape
      case shape => exact hlater.shape
      case rules => exact hlater.rules
      case stays =>
        intro id hid
        exact hlater.frame id fun hsaved =>
          Grammar.not_savedWith hf hrule hid hname (hspares₁.savedWith hsaved)
    · exact ih hspares₁ hnodup hothers hrest hm

end Generate

/-- The second grammar is the first, completed with rules for its checks and names of recognizers. -/
structure Grammar.Completed (g base : Grammar) : Prop where
  before : g.Forest
  grown : g.Grown base
  forest : base.Forest
  keyed : base.Keyed
  synthesized : ∃ g₁, g.synthesizeRecognizers = .ok g₁ ∧ base.nodes = g₁.nodes

/-- **Each method of a grammar** comes from the turn of a rule, once the grammar is completed. -/
theorem Grammar.exists_hadTurn {g : Grammar} {options : Options} {methods : List Method}
    {state : Generation} {method : Method} (hkeyed : g.Keyed)
    (h : g.methods options = (.ok methods, state)) (hm : method ∈ methods) :
    ∃ base follow name rule own s s', g.Completed base ∧
      Generate.HadTurn base options follow name rule own s s' state.grammar ∧ method ∈ own := by
  obtain ⟨hvalid, g₁, g₂, follow, parts, s₂, hg₁, hg₂, rfl, hparts, rfl⟩ := Generate.yields_all h
  have hgrown : g.Grown s₂.grammar := (grown_synthesizeRecognizers hg₁).assignRecognizers hg₂
  have hkeyed₂ := hgrown.keyed hkeyed
  have hforest := forest_of_validate hvalid
  have hforest₂ : s₂.grammar.Forest := by
    obtain ⟨g₁', hg₁', hforest₁, -⟩ := exists_synthesizeRecognizers hforest hkeyed
    cases hg₁.symm.trans hg₁'
    exact hforest₁.assignRecognizers hg₂
  have hrules : ∀ name ∈ s₂.grammar.ruleNames, ∃ rule, s₂.grammar.rule? name = some rule := by
    intro name hname
    obtain ⟨entry, hentry, rfl⟩ := List.mem_map.1 hname
    exact ⟨entry.2, hkeyed₂.rule?_of_mem hentry⟩
  obtain ⟨name, rule, own, s, s', hturn, hown⟩ :=
    Generate.exists_hadTurn hforest₂ (.refl _ _) hkeyed₂.nodup hrules hparts hm
  exact ⟨s₂.grammar, follow, name, rule, own, s, s',
    ⟨hforest, hgrown, hforest₂, hkeyed₂, g₁, hg₁, (rule?_assignRecognizers hg₂).1⟩, hturn, hown⟩

end PredictiveParser
