import PredictiveParser.Proofs.Generation.Frame
import PredictiveParser.Proofs.Grammar.Blank
import PredictiveParser.Proofs.Method.Total
import PredictiveParser.Proofs.Values.Messages
import PredictiveParser.Proofs.Values.Total

/-!
# Generation fails at the recursion limit only

A grammar that passes validation and has plain names is ready for generation once its checks have their
rules and its rules their recognizers (`exists_ready`), and it stays ready while one rule after the
other is generated (`Underway`). So a rule of it is left out only where its analysis reaches the
recursion limit, and besides that only the search for what may follow a rule can end there.
-/
namespace PredictiveParser

open Relation

/-! ## Plain grammars -/

theorem Node.Plain.of_stem {node copied : Node} (h : node.Plain) (hstem : copied.stem = node.stem) :
    copied.Plain := by
  have hblocks : ∀ node : Node, node.stem.codeBlocks = node.codeBlocks := by
    rintro ⟨kind, label, isList, saver, pre, post, basis⟩
    rcases kind with items | alts | ⟨predict, matched⟩ | ⟨negate, ⟨tokens⟩ | ⟨payload, rule⟩, mark⟩ |
      callee | ⟨set, mark⟩ <;> rfl
  constructor
  · intro label hlabel
    exact h.label label ((congrArg Node.label hstem).symm.trans hlabel)
  · rw [← hblocks, hstem, hblocks]
    exact h.references

theorem Node.Plain.withCheckRule {node : Node} (h : node.Plain) (rule : String) :
    (node.withCheckRule rule).Plain := by
  unfold Node.withCheckRule
  split
  · rename_i negate payload made mark hkind
    refine ⟨h.label, fun code hcode => h.references code ?_⟩
    unfold Node.codeBlocks at hcode ⊢
    rw [hkind]
    exact hcode
  · exact h

theorem Node.Plain.mapAlternatives {node : Node} (h : node.Plain) (f : Alternatives → Alternatives) :
    (node.mapAlternatives f).Plain := by
  obtain ⟨kind, label, isList, saver, pre, post, basis⟩ := node
  cases kind <;> exact ⟨h.label, h.references⟩

theorem Node.Plain.withPrematched {node : Node} (h : node.Plain) (mark : Option Bool) :
    (node.withPrematched mark).Plain := by
  obtain ⟨kind, label, isList, saver, pre, post, basis⟩ := node
  rcases kind with _ | _ | _ | ⟨_, _ | _, _⟩ | _ | _ <;> exact ⟨h.label, h.references⟩

namespace Grammar

variable {g g' : Grammar}

/-- The rules, recognizers and labels have plain names, and so do the variables for references. -/
structure PlainNames (g : Grammar) : Prop where
  rules : g.PlainRules
  nodes : ∀ id node, g.node id = .ok node → node.Plain

/-- A check without a rule of its own has none at first. -/
theorem Blank.named (h : g.Blank) : g.Named := by
  intro id negate payload made mark hk
  obtain ⟨node, hnode, hkind⟩ := kindAt?_eq_some.1 hk
  exact ((h id node hnode).unmade made (by rw [hkind]; rfl)).elim

theorem plain_of_synthesizeRecognizers (hkeyed : g.Keyed)
    (hplain : ∀ id node, g.node id = .ok node → node.Plain)
    (h : g.synthesizeRecognizers = .ok g') : ∀ id node, g'.node id = .ok node → node.Plain :=
  nodes_synthesizeRecognizers (fun _ _ hstem hnode => hnode.of_stem hstem)
    (fun rule _ hnode => hnode.withCheckRule rule) hkeyed hplain h

/-! ## One rule -/

variable {name : String} {rule : Rule} {follow : FollowSets} {options : Options}
  {journal journal' events : List Event} {g₁ g₂ : Grammar}

/-- A rule that was analyzed has its trees when its values are saved. -/
theorem decided_of_analyzed (hf : g.Forest) (hrule : g.rule? name = some rule)
    (hanalysis : Yields (analyzeRule name follow options) (g, journal) ⟨⟩ (g₁, journal'))
    (hsaved : g₁.saveValues name options = .ok (g₂, events)) : g₂.Decided rule.body := by
  intro id alts hmatched hk
  have hannotates := annotates_saveValues hsaved
  have hnodup : ∀ rule ids, g.rule? name = some rule → g.walkMatched rule.body = .ok ids →
      ids.Nodup := by
    intro rule ids hrule hids
    obtain ⟨ids', hids', hnodup⟩ := hf.nodup_walkMatched (SameShape.refl g).shapeIn hrule
    cases hids.symm.trans hids'
    exact hnodup
  obtain ⟨rule', said, hrule', -, hanalyzed⟩ := analyzeRule_eq hnodup hanalysis
  cases hrule.symm.trans hrule'
  have hshape : g.SameShape g₂ := hanalyzed.shape.trans hannotates.kinds.sameShape
  have hrules : g₂.rules = g.rules := hannotates.rules.trans hanalyzed.rules
  have hmatched₀ : g.MatchedBy rule.body id := hshape.symm.matchedBy hmatched
  obtain ⟨before, hk₀⟩ : ∃ before, g.kindAt? id = some (.alternatives before) := by
    obtain ⟨kind, hkind, hbare⟩ := hshape.symm.kindAt? hk
    obtain ⟨prediction, rfl⟩ := NodeKind.of_bare_alternatives hbare
    exact ⟨_, hkind⟩
  obtain ⟨place, hoccurs, rfl⟩ := exists_occurs hmatched₀
  obtain ⟨tree, ⟨warnings, -, -, hvalid⟩, hk₁⟩ := hanalyzed.predicted place _ hoccurs hk₀
  cases (hannotates.kinds.alternatives hk₁).symm.trans hk
  refine ⟨tree, rfl, hvalid, ?_⟩
  refine (testsOnly_of_analyzeRule hanalysis hrule hmatched₀ hk₁ rfl).imp fun id hid => ?_
  exact hshape.predicted hrules (predicted_of_shows hrule hid)

theorem Ready.isIdentifier_of_mem (hg : g.Ready) (hname : name ∈ g.ruleNames) :
    Text.isIdentifier name = true := by
  obtain ⟨⟨name, rule⟩, hentry, rfl⟩ := List.mem_map.1 hname
  have hrule := hg.keyed.rule?_of_mem hentry
  rw [← hg.keyed.name_of_rule? hrule]
  exact hg.rules.names name rule hrule

/-- Where generation stands before it generates the rules of these names: the grammar is ready, and what
these rules match is as it was. -/
structure Underway (base : Grammar) (names : List String) (g : Grammar) : Prop where
  start : base.Ready
  ready : g.Ready
  spares : base.Spares names g

variable {base : Grammar} {names : List String}

theorem Ready.underway (hg : g.Ready) (names : List String) : Underway g names g :=
  ⟨hg, hg, .refl g _⟩

theorem Underway.rule? (h : Underway base names g) (name : String) :
    g.rule? name = base.rule? name :=
  rule?_of_rules h.spares.rules name

/-- **Generating a rule leaves what other rules match as it is.** -/
theorem Underway.step (h : Underway base (name :: names) g) (hname : name ∉ names)
    (hrule : base.rule? name = some rule)
    (hanalysis : Yields (analyzeRule name follow options) (g, journal) ⟨⟩ (g₁, journal'))
    (hsaved : g₁.saveValues name options = .ok (g₂, events)) : Underway base names g₂ where
  start := h.start
  ready := (h.ready.analyzeRule hanalysis).saveValues hsaved
  spares := h.spares.step h.start.forest hname hrule
    (reworks_saved ((h.rule? name).trans hrule) hanalysis hsaved)

/-- A rule that is left out has changed nothing. -/
theorem Underway.skip (h : Underway base (name :: names) g) (hname : name ∉ names)
    (hrule : base.rule? name = some rule) : Underway base names g where
  start := h.start
  ready := h.ready
  spares := h.spares.step h.start.forest hname hrule (.refl g _)

end Grammar

/-! ## Generating one rule -/

namespace Generate

variable {α β : Type} {s s' : Generation} {options : Options} {follow : FollowSets} {name : String}
  {names : List String} {base : Grammar} {rule : Rule}

theorem run_makeMethod (rule : Rule) (form : Form) (options : Options) (s : Generation) :
    StateT.run (ExceptT.run (makeMethod rule form options)) s =
      ((MethodPlan.make ⟨s.grammar, rule, form, options.switchThreshold⟩ s.tables).1,
        { s with
          tables := (MethodPlan.make ⟨s.grammar, rule, form, options.switchThreshold⟩ s.tables).2.1,
          events := s.events ++
            (MethodPlan.make ⟨s.grammar, rule, form, options.switchThreshold⟩ s.tables).2.2 }) := rfl

theorem exists_makeMethod {form : Form}
    (h : MethodPlan.Lowerable ⟨s.grammar, rule, form, options.switchThreshold⟩ name) :
    ∃ method s', Yields (makeMethod rule form options) s method s' ∧
      Adds Event.IsReport s.events s'.events := by
  obtain ⟨method, st, hmethod, hmessages⟩ :=
    MethodPlan.total_lowerMethod h ⟨s.tables, [], [], 0, 0⟩
  have hmake : MethodPlan.make ⟨s.grammar, rule, form, options.switchThreshold⟩ s.tables =
      (.ok method, st.tables, st.events) :=
    congrArg (fun made => (made.1, made.2.tables, made.2.events)) hmethod
  refine ⟨method, { s with tables := st.tables, events := s.events ++ st.events }, ?_, ?_⟩
  · unfold Yields
    rw [run_makeMethod, hmake]
  · obtain ⟨more, rfl, hmore⟩ := hmessages
    exact .append hmore

theorem exists_methodsOf (form : Form) (options : Options) (hg : s.grammar.Ready)
    (hrule : s.grammar.rule? name = some rule) (hdecided : s.grammar.Decided rule.body) :
    ∃ methods s', Yields (methodsOf rule options form) s methods s' ∧
      Adds Event.IsReport s.events s'.events := by
  unfold methodsOf
  split
  · rename_i hform
    have hlowerable : MethodPlan.Lowerable ⟨s.grammar, rule, form, options.switchThreshold⟩ name :=
      ⟨hg, hrule, hform, hdecided⟩
    obtain ⟨method, s', hmethod, hlog⟩ := exists_makeMethod hlowerable
    exact ⟨[method], s', yields_bind.2 ⟨method, s', hmethod, rfl⟩, hlog⟩
  · exact ⟨[], s, rfl, .refl _ _⟩

/-- **A rule is generated, or its analysis reaches the recursion limit.** -/
theorem run_rule (h : Grammar.Underway base (name :: names) s.grammar)
    (hplain : ∀ id node, base.node id = .ok node → node.Plain)
    (hrule : base.rule? name = some rule) (options : Options) (follow : FollowSets) :
    StateT.run (ExceptT.run (Generate.rule options follow name)) s =
        (.error (.error (.recursionLimit name options.recursionLimit)), s) ∨
      ∃ methods s', Yields (Generate.rule options follow name) s methods s' ∧
        Adds Event.IsReport s.events s'.events := by
  have hrule₀ : s.grammar.rule? name = some rule := (h.rule? name).trans hrule
  have hplain₀ : ∀ id node, base.MatchedBy rule.body id → s.grammar.node id = .ok node →
      node.Plain := by
    intro id node hid hnode
    refine hplain id node (Grammar.node_eq_ok.2 ?_)
    rw [← h.spares.node List.mem_cons_self hrule hid]
    exact Grammar.node_eq_ok.1 hnode
  rcases Grammar.run_analyzeRule_limit h.ready.forest hrule₀ follow options s.events with
    hlimit | ⟨⟨g₁, journal⟩, hanalysis⟩
  · refine Or.inl ?_
    unfold Generate.rule
    rw [run_bind, run_pass, hlimit]
  · refine Or.inr ?_
    obtain ⟨-, -, hshape₁, hrules₁, -⟩ := Grammar.frame_analyzeRule hanalysis
    have hready₁ := h.ready.analyzeRule hanalysis
    have hrule₁ : g₁.rule? name = some rule := (Grammar.rule?_of_rules hrules₁ name).trans hrule₀
    have hplain₁ := Grammar.nodes_analyzeRule (fun _ f hnode => hnode.mapAlternatives f)
      (fun _ mark hnode => hnode.withPrematched mark) hplain₀ hanalysis
    obtain ⟨g₂, events, hsaved⟩ := Grammar.exists_saveValues hready₁.forest hrule₁
      (fun name hname => hready₁.isIdentifier_of_mem hname)
      (fun id node hid => hplain₁ id node (h.spares.shape.symm.matchedBy (hshape₁.symm.matchedBy hid))) options
    have hrule₂ : g₂.rule? name = some rule :=
      (Grammar.rule?_of_rules (Grammar.annotates_saveValues hsaved).rules name).trans hrule₁
    have hready₂ := hready₁.saveValues hsaved
    have hdecided := Grammar.decided_of_analyzed h.ready.forest hrule₀ hanalysis hsaved
    obtain ⟨parser, s₃, hparser, hlog₃⟩ := exists_methodsOf .parser options
      (s := { s with grammar := g₂, events := journal ++ events }) hready₂ hrule₂ hdecided
    have hgrammar₃ : s₃.grammar = g₂ := (yields_methodsOf hparser).1
    rw [← hgrammar₃] at hready₂ hrule₂ hdecided
    obtain ⟨recognizer, s₄, hrecognizer, hlog₄⟩ :=
      exists_methodsOf .recognizer options hready₂ hrule₂ hdecided
    rw [hgrammar₃] at hrule₂
    refine ⟨parser ++ recognizer, s₄, ?_, ?_⟩
    · exact yields_rule_iff.2 ⟨g₁, journal, g₂, events, _, parser, s₃, recognizer, hanalysis, hsaved, hrule₂,
        hparser, hrecognizer, rfl⟩
    · have hlog : Adds Event.IsReport s.events journal :=
        ((Grammar.logs_analyzeRule name follow options).yields hanalysis).imp
          fun _ => Event.Concerns.isReport
      have hmessages : ∀ event ∈ events, event.IsReport := fun event hevent =>
        (Grammar.concerns_saveValues hsaved event hevent).isReport
      exact ((hlog.trans (.append hmessages)).trans hlog₃).trans hlog₄

/-! ## Generating all rules -/

/-- Every rule that was left out reached the recursion limit, and that is reported as an error. -/
def SkipsAtLimit (limit : Nat) (events : List Event) : Prop :=
  ∀ name cause, .skipped name cause ∈ events → cause = .recursionLimit name limit ∧
    .report ⟨.error, .ofRule name, cause.message⟩ ∈ events

variable {limit : Nat} {old new : List Event}

theorem skipsAtLimit_nil (limit : Nat) : SkipsAtLimit limit [] := by
  intro name cause hm
  cases hm

theorem SkipsAtLimit.adds (h : SkipsAtLimit limit old) (hadds : Adds Event.IsReport old new) :
    SkipsAtLimit limit new := by
  intro name cause hm
  have hsubset := hadds.subset
  obtain ⟨more, rfl, hmore⟩ := hadds
  rcases List.mem_append.1 hm with hm | hm
  · obtain ⟨hcause, hreport⟩ := h name cause hm
    exact ⟨hcause, hsubset hreport⟩
  · obtain ⟨message, hmessage⟩ := hmore _ hm
    cases hmessage

theorem SkipsAtLimit.skip (h : SkipsAtLimit limit old) (name : String) :
    SkipsAtLimit limit (old ++ [.skipped name (.recursionLimit name limit),
      .report ⟨.error, .ofRule name, (GenerationError.recursionLimit name limit).message⟩]) := by
  intro other cause hm
  rcases List.mem_append.1 hm with hm | hm
  · obtain ⟨hcause, hreport⟩ := h other cause hm
    exact ⟨hcause, List.mem_append_left _ hreport⟩
  · simp only [List.mem_cons, Event.skipped.injEq, reduceCtorEq, List.not_mem_nil, or_false] at hm
    obtain ⟨rfl, rfl⟩ := hm
    exact ⟨rfl, List.mem_append_right _ (by simp)⟩

theorem exists_ruleOrSkip (h : Grammar.Underway base (name :: names) s.grammar)
    (hname : name ∉ names) (hplain : ∀ id node, base.node id = .ok node → node.Plain)
    (hrule : base.rule? name = some rule)
    (hskips : SkipsAtLimit options.recursionLimit s.events) (follow : FollowSets) :
    ∃ methods s', Yields (ruleOrSkip options follow name) s methods s' ∧
      Grammar.Underway base names s'.grammar ∧ SkipsAtLimit options.recursionLimit s'.events := by
  rcases run_rule h hplain hrule options follow with hlimit | ⟨methods, s', hmethods, hlog⟩
  · refine ⟨[], { s with events := s.events ++ [.skipped name (.recursionLimit name _), _] }, ?_,
      h.skip hname hrule, hskips.skip name⟩
    unfold Yields ruleOrSkip
    rw [run_tryCatch, hlimit]
    rfl
  · refine ⟨methods, s', ?_, ?_, hskips.adds hlog⟩
    · unfold Yields ruleOrSkip
      rw [run_tryCatch, hmethods]
    · obtain ⟨g₁, journal, events, r, hanalysis, hsaved, -⟩ := yields_rule hmethods
      exact h.step hname hrule hanalysis hsaved

/-- **All rules**, by induction on those still to come. -/
theorem exists_mapM_ruleOrSkip (h : Grammar.Underway base names s.grammar) (hnodup : names.Nodup)
    (hplain : ∀ id node, base.node id = .ok node → node.Plain)
    (hrules : ∀ name ∈ names, ∃ rule, base.rule? name = some rule)
    (hskips : SkipsAtLimit options.recursionLimit s.events) (follow : FollowSets) :
    ∃ parts s', Yields (names.mapM (ruleOrSkip options follow)) s parts s' ∧
      SkipsAtLimit options.recursionLimit s'.events := by
  induction names generalizing s with
  | nil => exact ⟨[], s, yields_mapM_nil.2 ⟨rfl, rfl⟩, hskips⟩
  | cons name names ih =>
    obtain ⟨hname, hnodup⟩ := List.nodup_cons.1 hnodup
    obtain ⟨rule, hrule⟩ := hrules name List.mem_cons_self
    obtain ⟨methods, s₁, hmethods, h₁, hskips₁⟩ :=
      exists_ruleOrSkip h hname hplain hrule hskips follow
    obtain ⟨parts, s', hparts, hskips'⟩ :=
      ih h₁ hnodup (fun name hm => hrules name (List.mem_cons_of_mem _ hm)) hskips₁
    exact ⟨methods :: parts, s', yields_mapM_cons.2 ⟨_, _, _, hmethods, hparts, rfl⟩, hskips'⟩

/-- Once the grammar has its recognizers, generation looks for what may follow its rules, and generates
them. -/
theorem run_all {g g₁ g₂ : Grammar} (hoptions : options.check = .ok ()) (hvalid : g.validate = .ok ())
    (hg₁ : g.synthesizeRecognizers = .ok g₁) (hg₂ : g₁.assignRecognizers = .ok g₂) :
    StateT.run (ExceptT.run (all options)) ⟨g, .empty, []⟩ =
      StateT.run (ExceptT.run (lift (g₂.followSets options.recursionLimit) >>= fun follow =>
        g₂.ruleNames.mapM (ruleOrSkip options follow) >>= fun parts => pure parts.flatten))
        ⟨g₂, .empty, []⟩ := by
  unfold all
  refine (run_lift_bind (mapError_eq_ok.2 hoptions) _ _).trans ((run_grammar_bind _ _).trans ?_)
  refine (run_lift_bind (mapError_eq_ok.2 hvalid) _ _).trans ((run_grammar_bind _ _).trans ?_)
  refine (run_lift_bind (mapError_eq_ok.2 hg₁) _ _).trans ((run_setGrammar_bind _ _ _).trans ?_)
  refine (run_grammar_bind _ _).trans ?_
  refine (run_lift_bind (liftM_eq_ok.2 hg₂) _ _).trans ((run_setGrammar_bind _ _ _).trans ?_)
  refine (run_grammar_bind _ _).trans ?_
  cases hfollow : g₂.followSets options.recursionLimit with
  | error failure => rfl
  | ok follow => rfl

end Generate

open Generate in
/-- **Generation succeeds or reaches the recursion limit.** -/
theorem Grammar.generates_or_recursionLimit {g : Grammar} {options : Options} (hbuilt : g.Built)
    (hplain : g.PlainNames) (hoptions : options.check = .ok ()) (hvalid : g.validate = .ok ()) :
    ((∃ items, (g.generate options).1 = .ok items) ∨ ∃ name,
      (g.generate options).1 = .error (.error (.recursionLimit name options.recursionLimit))) ∧
    SkipsAtLimit options.recursionLimit (g.generate options).2.2 := by
  have hkeyed := hbuilt.fresh.keyed
  obtain ⟨g₁, g₂, hg₁, hg₂, hready⟩ :=
    exists_ready (forest_of_validate hvalid) hkeyed hplain.rules hbuilt.blank.named
  have hrun := run_all hoptions hvalid hg₁ hg₂
  rcases (failsOnly_followSets_limit hready.keyed hready.forest).ok_or_error with
    ⟨follow, hfollow⟩ | ⟨failure, hfailure, name, rfl⟩
  · have hplain₂ : ∀ id node, g₂.node id = .ok node → node.Plain := by
      intro id node hnode
      refine plain_of_synthesizeRecognizers hkeyed hplain.nodes hg₁ id node ?_
      rwa [Grammar.node, ← (rule?_assignRecognizers hg₂).1]
    have hrules : ∀ name ∈ g₂.ruleNames, ∃ rule, g₂.rule? name = some rule := by
      intro name hname
      obtain ⟨entry, hentry, rfl⟩ := List.mem_map.1 hname
      exact ⟨entry.2, hready.keyed.rule?_of_mem hentry⟩
    obtain ⟨parts, s', hparts, hskips⟩ := exists_mapM_ruleOrSkip (s := ⟨g₂, .empty, []⟩)
      (hready.underway g₂.ruleNames) hready.keyed.nodup hplain₂ hrules
      (skipsAtLimit_nil _) follow
    have hall : g.methods options = (.ok parts.flatten, s') := by
      refine hrun.trans ((run_lift_bind hfollow _ _).trans ?_)
      rw [run_bind, hparts]
      rfl
    unfold generate
    rw [hall]
    exact ⟨Or.inl ⟨_, rfl⟩, hskips⟩
  · have hall : g.methods options =
        (.error (.error (.recursionLimit name options.recursionLimit)), ⟨g₂, .empty, []⟩) := by
      refine hrun.trans ?_
      rw [hfailure]
      rfl
    unfold generate
    rw [hall]
    exact ⟨Or.inr ⟨name, rfl⟩, skipsAtLimit_nil _⟩

/-! ## An instance -/

/-- The rule `item` looks for its terminal before it matches it, and refers to it by a label. The rule
`list` calls itself before anything else. -/
def leftRecursive : Grammar where
  nodes := #[.ofKind (.terminal (.ofRanges [(98, 98)]) none),
    .ofKind (.check ⟨false, .syntactic 0 none, none⟩),
    { Node.ofKind (.terminal (.ofRanges [(98, 98)]) none) with
      label := some "x", postAction := some [.punct '$' .alone, .ident "x"] },
    .ofKind (.sequence [1, 2]), .ofKind (.call "list"), .ofKind (.call "item"),
    .ofKind (.alternatives (.ofArms [4, 5] .once))]
  rules := [("item", .ofBody "item" 3), ("list", .ofBody "list" 6)]

theorem leftRecursive_built : leftRecursive.Built := by
  have hlook := ((Grammar.Built.empty.terminal (.ofRanges [(98, 98)])).checkMatch false 0).terminal
    (.ofRanges [(98, 98)])
  have hlabel := hlook.label (show Grammar.label _ 2 "x" false = .ok _ from rfl)
  have haction := hlabel.postAction
    (show Grammar.postAction _ 2 [.punct '$' .alone, .ident "x"] = .ok _ from rfl)
  have hbodies := (((haction.sequence [1, 2]).call "list").call "item").alternatives [4, 5]
  have hitem := hbodies.addRule (show Grammar.addRule _ (.ofBody "item" 3) = .ok _ from rfl)
  exact hitem.addRule (show Grammar.addRule _ (.ofBody "list" 6) = .ok _ from rfl)

theorem leftRecursive_plainNames : leftRecursive.PlainNames := by
  refine ⟨⟨fun name rule hrule => ?_, fun name rule recognizer hrule hrecognizer => ?_⟩,
    fun id node hnode => ?_⟩
  · have hm := Grammar.mem_rules_of_rule? hrule
    simp only [leftRecursive, List.mem_cons, Prod.mk.injEq, List.not_mem_nil, or_false] at hm
    obtain ⟨-, rfl⟩ | ⟨-, rfl⟩ := hm <;> decide
  · have hm := Grammar.mem_rules_of_rule? hrule
    simp only [leftRecursive, List.mem_cons, Prod.mk.injEq, List.not_mem_nil, or_false] at hm
    obtain ⟨-, rfl⟩ | ⟨-, rfl⟩ := hm <;> cases hrecognizer
  · have hm := Array.mem_of_getElem? (Grammar.node_eq_ok.1 hnode)
    simp only [leftRecursive, List.mem_toArray, List.mem_cons, List.not_mem_nil, or_false] at hm
    obtain rfl | rfl | rfl | rfl | rfl | rfl | rfl := hm
    case inr.inr.inl =>
      have hname : Text.isIdentifier "x" = true := by decide
      refine ⟨fun label hlabel => Option.some.inj hlabel ▸ hname, ?_⟩
      rw [show (Node.codeBlocks _) = [[.punct '$' .alone, .ident "x"]] from rfl]
      intro code hcode reference hreference
      rw [List.mem_singleton.1 hcode] at hreference
      cases List.mem_singleton.1 hreference
      exact Reference.plain_name hname
    all_goals exact ⟨nofun, List.forall_mem_nil _⟩

theorem leftRecursive_limit : leftRecursive.Built ∧ leftRecursive.PlainNames ∧
    Options.default.check = .ok () ∧ leftRecursive.validate = .ok () ∧
    ((∃ items, (leftRecursive.generate .default).1 = .ok items) ∨ ∃ name,
      (leftRecursive.generate .default).1 = .error (.error (.recursionLimit name 32))) ∧
    Generate.SkipsAtLimit 32 (leftRecursive.generate .default).2.2 :=
  ⟨leftRecursive_built, leftRecursive_plainNames, rfl, rfl,
    Grammar.generates_or_recursionLimit leftRecursive_built leftRecursive_plainNames rfl rfl⟩

end PredictiveParser
