import PredictiveParser.Proofs.Generation.Rule
import PredictiveParser.Proofs.Grammar.Recognizers

/-!
# Generating the methods of all rules

Generation changes the grammar while it goes over the rules, so each rule is lowered in a grammar of
its own. `Generated` says what all these grammars have in common and what the methods are.

The invariant of the run is `Upcoming`: nothing is marked in the rules that are still to come. One
step keeps it since no other rule shares a node with a rule that was there from the start
(`Upcoming.step`). `generated_of_methods` is the result for a whole run in which no rule was left out.
-/
namespace PredictiveParser

open Grammar

/-- Generation stands before these rules. -/
structure Upcoming (g : Grammar) (names : List String) (g' : Grammar) : Prop where
  keeps : g.Keeps g'
  unmarked : ∀ name ∈ names, ∀ old, g.rule? name = some old → g'.Unmarked old.body

/-- What generation has made of the rule under a name, where `g'` is the grammar in which it was
lowered. -/
structure RuleMade (g : Grammar) (name : String) (methods : List Method) (g' : Grammar)
    (rule : Rule) : Prop where
  keeps : g.Keeps g'
  found : g'.rule? name = some rule
  prepared : rule.hasForm .parser = true → g'.Prepared rule.body
  methods : MethodsOf g' rule methods

def methodsUnder (name : String) (methods : List Method) : List Method :=
  methods.filter fun method => method.rule.name == name

/-- The methods are those of the rules under these names. -/
structure Generated (g : Grammar) (rules : List (String × Rule)) (names : List String)
    (methods : List Method) : Prop where
  named : ∀ method ∈ methods, method.rule.name ∈ names
  made : ∀ name ∈ names, ∃ g' rule, g'.rules = rules ∧
    RuleMade g name (methodsUnder name methods) g' rule

variable {g g' : Grammar} {name : String} {names : List String} {methods : List Method}
  {options : Options} {follow : FollowSets} {s s' : Generation}

/-- The rules that come later are as they were. -/
theorem unmarked_of_other {g₁ : Grammar} {journal journal' : List Event} {other : String} {old : Rule}
    (hforest : g.Forest) (hkeeps : g.Keeps g')
    (hanalysis : Yields (analyzeRule name follow options) (g', journal) ⟨⟩ (g₁, journal'))
    (hold : g.rule? other = some old) (hother : other ≠ name) (h : g'.Unmarked old.body) :
    g₁.Unmarked old.body := by
  intro id kind hid hk
  obtain ⟨rule, hrule, hshape, -, hframe⟩ := frame_analyzeRule hanalysis
  have hid := hshape.symm.matchedBy hid
  have hsame : g₁.nodes[id]? = g'.nodes[id]? := by
    apply hframe
    intro hmatched
    exact hother (hkeeps.apart hforest hold hrule hid hmatched)
  unfold kindAt? at hk
  rw [hsame] at hk
  exact h id kind hid hk

theorem Grammar.Unmarked.sameKinds {body : NodeId} (h : g.Unmarked body) (hsame : g.SameKinds g') :
    g'.Unmarked body := by
  intro id kind hid hk
  obtain ⟨kind', hk', htext⟩ := hsame.symm.kindAt? hk
  rw [← NodeKind.isMarked_of_textless htext]
  exact h id kind' (hsame.sameShape.symm.matchedBy hid) hk'

/-- The rule that is generated is prepared for it. -/
theorem prepared_of_analyzeRule {g₁ : Grammar} {journal journal' : List Event} {old : Rule}
    (hforest : g.Forest) (hkeeps : g.Keeps g') (hold : g.rule? name = some old)
    (hsame : ∀ rule, g'.rule? name = some rule → rule.body = old.body)
    (hunmarked : g'.Unmarked old.body)
    (hanalysis : Yields (analyzeRule name follow options) (g', journal) ⟨⟩ (g₁, journal')) :
    g₁.Prepared old.body := by
  obtain ⟨ids, hids, hnodup⟩ := hforest.nodup_walkMatched hkeeps.shape hold
  have hnodup : ∀ rule ids, g'.rule? name = some rule → g'.walkMatched rule.body = .ok ids →
      ids.Nodup := by
    intro rule ids' hrule hids'
    rw [hsame rule hrule, hids] at hids'
    cases hids'
    exact hnodup
  obtain ⟨rule, events, hrule, -, hanalyzed⟩ := analyzeRule_eq hnodup hanalysis
  rw [hsame rule hrule] at hanalyzed
  exact hanalyzed.prepared (hanalyzed.shape.rooted (hkeeps.rooted hforest hold)) hunmarked

/-- **One rule.** -/
theorem Upcoming.step (hforest : g.Forest)
    (h : Upcoming g (name :: names) s.grammar) (hname : name ∉ names)
    (hrule : Yields (Generate.rule options follow name) s methods s') :
    Upcoming g names s'.grammar ∧ s'.grammar.rules = s.grammar.rules ∧
      ∃ rule, RuleMade g name methods s'.grammar rule := by
  obtain ⟨g₁, journal, events, rule, hanalysis, hsaved, -, hfound, hmethods⟩ :=
    Generate.yields_rule hrule
  have hannotates := annotates_saveValues hsaved
  obtain ⟨rule', hrule', hshape, hrules, -⟩ := frame_analyzeRule hanalysis
  have hrules' : s'.grammar.rules = s.grammar.rules := hannotates.rules.trans hrules
  have hkeeps : g.Keeps s'.grammar :=
    h.keeps.later (hshape.trans hannotates.kinds.sameShape) hrules'
  refine ⟨⟨hkeeps, ?_⟩, hrules', rule, hkeeps, hfound, ?_, hmethods⟩
  · intro other hother old hold
    refine Unmarked.sameKinds ?_ hannotates.kinds
    refine unmarked_of_other hforest h.keeps hanalysis hold (fun heq => ?_) ?_
    · exact hname (heq ▸ hother)
    · exact h.unmarked other (List.mem_cons_of_mem _ hother) old hold
  · intro hparser
    -- New rules have no parser, so the rule was there from the start.
    obtain ⟨old, hold, hbody⟩ | ⟨-, hnone⟩ := hkeeps.rules name rule hfound
    · rw [hbody]
      refine Prepared.sameKinds ?_ hannotates.kinds
      refine prepared_of_analyzeRule hforest h.keeps hold (fun rule' hrule' => ?_) ?_ hanalysis
      · rw [← rule?_of_rules hrules' name, hfound] at hrule'
        cases hrule'
        exact hbody
      · exact h.unmarked name List.mem_cons_self old hold
    · rw [Rule.hasForm, hnone] at hparser
      cases hparser

theorem RuleMade.name_eq {rule : Rule} (h : RuleMade g name methods g' rule) {method : Method}
    (hm : method ∈ methods) : method.rule.name = name := by
  rw [(h.methods.lowered method hm).1]
  exact h.keeps.keyed.name_of_rule? h.found

/-- Each method was lowered from the rule it belongs to. -/
theorem Generated.of_mem {rules : List (String × Rule)} (h : Generated g rules names methods)
    {method : Method} (hm : method ∈ methods) : ∃ g', g'.rules = rules ∧
      RuleMade g method.rule.name (methodsUnder method.rule.name methods) g' method.rule ∧
      method.rule.hasForm method.form = true ∧ method.LoweredIn g' := by
  obtain ⟨g', rule, hrules, hmade⟩ := h.made _ (h.named method hm)
  have hunder : method ∈ methodsUnder method.rule.name methods :=
    List.mem_filter.2 ⟨hm, beq_self_eq_true _⟩
  obtain ⟨rfl, hform, hlowered⟩ := hmade.methods.lowered method hunder
  exact ⟨g', hrules, hmade, hform, hlowered⟩

theorem Generated.nil (g : Grammar) (rules : List (String × Rule)) : Generated g rules [] [] where
  named := nofun
  made := nofun

theorem Generated.cons {rules : List (String × Rule)} {own others : List Method} {rule : Rule}
    (h : Generated g rules names others) (hname : name ∉ names)
    (hown : RuleMade g name own g' rule) (hrules : g'.rules = rules) :
    Generated g rules (name :: names) (own ++ others) where
  named method hm := by
    rcases List.mem_append.1 hm with hm | hm
    · rw [hown.name_eq hm]
      exact List.mem_cons_self
    · exact List.mem_cons_of_mem _ (h.named method hm)
  made other hother := by
    unfold methodsUnder
    rw [List.filter_append]
    rcases List.mem_cons.1 hother with rfl | hother
    · have hall : own.filter (fun method => method.rule.name == other) = own :=
        List.filter_eq_self.2 fun method hm => beq_iff_eq.2 (hown.name_eq hm)
      have hnone : others.filter (fun method => method.rule.name == other) = [] :=
        List.filter_eq_nil_iff.2 fun method hm heq => hname (beq_iff_eq.1 heq ▸ h.named method hm)
      rw [hall, hnone, List.append_nil]
      exact ⟨g', rule, hrules, hown⟩
    · have hnone : own.filter (fun method => method.rule.name == other) = [] := by
        refine List.filter_eq_nil_iff.2 fun method hm heq => hname ?_
        rw [← hown.name_eq hm, beq_iff_eq.1 heq]
        exact hother
      rw [hnone, List.nil_append]
      exact h.made other hother

/-- **All rules**, by induction on those still to come. -/
theorem Upcoming.generated {parts : List (List Method)} (hforest : g.Forest)
    (h : Upcoming g names s.grammar) (hnames : names.Nodup)
    (hrun : Yields (names.mapM (Generate.ruleOrSkip options follow)) s parts s')
    (hskip : ∀ name cause, .skipped name cause ∉ s'.events) :
    Generated g s.grammar.rules names parts.flatten := by
  induction names generalizing s parts with
  | nil =>
    obtain ⟨rfl, -⟩ := yields_mapM_nil.1 hrun
    exact .nil g _
  | cons name names ih =>
    obtain ⟨own, s₁, parts, hown, hrest, rfl⟩ := yields_mapM_cons.1 hrun
    obtain ⟨hname, hnames⟩ := List.nodup_cons.1 hnames
    have hevents : s₁.events ⊆ s'.events :=
      ((logs_mapM (Generate.logs_ruleOrSkip options follow) names).yields hrest).subset
    have hrule := Generate.yields_rule_of_ruleOrSkip hown fun cause hm =>
      hskip name cause (hevents hm)
    obtain ⟨hupcoming, hrules, rule, hmade⟩ := h.step hforest hname hrule
    have hothers := ih hupcoming hnames hrest
    rw [hrules] at hothers
    rw [List.flatten_cons]
    exact hothers.cons hname hmade hrules

theorem Generate.yields_all (h : Yields (Generate.all options) s methods s') :
    s.grammar.validate = .ok () ∧ ∃ g₁ g₂ follow parts s₂, s.grammar.synthesizeRecognizers = .ok g₁ ∧
      g₁.assignRecognizers = .ok g₂ ∧ s₂.grammar = g₂ ∧
      Yields (g₂.ruleNames.mapM (ruleOrSkip options follow)) s₂ parts s' ∧
      methods = parts.flatten := by
  unfold Generate.all at h
  obtain ⟨_, -, h⟩ := yields_lift_bind.1 h
  have h := yields_grammar_bind.1 h
  obtain ⟨_, hvalid, h⟩ := yields_lift_bind.1 h
  have h := yields_grammar_bind.1 h
  obtain ⟨g₁, hg₁, h⟩ := yields_lift_bind.1 h
  obtain ⟨_, s₁, hs₁, h⟩ := yields_bind.1 h
  have hgrammar₁ : s₁.grammar = g₁ := by rw [yields_modify.1 hs₁]
  have h := yields_grammar_bind.1 h
  obtain ⟨g₂, hg₂, h⟩ := yields_lift_bind.1 h
  obtain ⟨_, s₂, hs₂, h⟩ := yields_bind.1 h
  have hgrammar₂ : s₂.grammar = g₂ := by rw [yields_modify.1 hs₂]
  have h := yields_grammar_bind.1 h
  obtain ⟨follow, -, h⟩ := yields_lift_bind.1 h
  have h := yields_grammar_bind.1 h
  obtain ⟨parts, s₃, hparts, h⟩ := yields_bind.1 h
  obtain ⟨rfl, rfl⟩ := yields_pure.1 h
  rw [hgrammar₁] at hg₂
  rw [hgrammar₂] at hparts
  exact ⟨mapError_eq_ok.1 hvalid, g₁, g₂, follow, parts, s₂, mapError_eq_ok.1 hg₁, liftM_eq_ok.1 hg₂,
    hgrammar₂, hparts, rfl⟩

/-- **What generation makes of a grammar**, when no rule is left out. The grammar has grown by rules for
checks before its methods are made. -/
theorem generated_of_methods {state : Generation} (hkeyed : g.Keyed) (hclean : g.Clean)
    (h : g.methods options = (.ok methods, state))
    (hskip : ∀ name cause, .skipped name cause ∉ state.events) :
    g.Forest ∧ ∃ g₂, g.Grown g₂ ∧ g₂.Recognized ∧ Generated g g₂.rules g₂.ruleNames methods := by
  obtain ⟨hvalid, g₁, g₂, follow, parts, s₂, hg₁, hg₂, rfl, hparts, rfl⟩ := Generate.yields_all h
  have hgrown₁ := grown_synthesizeRecognizers hg₁
  have hgrown : g.Grown s₂.grammar := hgrown₁.assignRecognizers hg₂
  have hupcoming : Upcoming g s₂.grammar.ruleNames s₂.grammar := by
    refine ⟨hgrown.keeps hkeyed, fun name _ old _ id kind _ hk => ?_⟩
    exact hgrown.clean hclean id kind hk
  have hforest := forest_of_validate hvalid
  exact ⟨hforest, s₂.grammar, hgrown, recognized_assignRecognizers hg₂ (hgrown₁.keyed hkeyed),
    hupcoming.generated hforest (hgrown.keyed hkeyed).nodup hparts hskip⟩

end PredictiveParser
