import Mathlib
import PredictiveParser.Proofs.Analysis.Follow
import PredictiveParser.Proofs.Analysis.Plain
import PredictiveParser.Proofs.Analysis.Rule

/-!
# Prediction is complete

In a grammar without gates and checks whose rules were all analyzed without a warning, predictive
parsing follows every derivation that ends where the follow set of its rule allows
(`prediction_complete`).

The proof has three parts. `predicted_of_analyzed` is an invariant of the run over the rules: the
tree of each alternative set of an analyzed rule was built for its place, and no later rule touches
it. `matches_predicted` goes along a derivation within a rule: what comes after each node can be read
off the stack of its place, so the trees select the choices of the derivation. Calls are covered by
induction on their depth, where `follow_of_call` hands the condition on the follow set down.
-/
namespace PredictiveParser

open Relation

namespace Grammar

variable {g g₁ g₂ g' : Grammar} {follow : FollowSets} {options : Options} {name : String}
  {rule : Rule}

/-! ## The run over the rules -/

/-- Each alternative set of the rule has a tree that was built for its place without a warning, in a
grammar of the same shape. -/
def PredictedRule (g : Grammar) (follow : FollowSets) (options : Options) (name : String)
    (g' : Grammar) : Prop :=
  ∀ rule place alts, g.rule? name = some rule → g.Occurs rule.body place →
    g.kindAt? place.node = some (.alternatives alts) → ∃ now alts' tree, g.SameShape now ∧
      now.rules = g.rules ∧ now.kindAt? place.node = some (.alternatives alts') ∧
      TreeAt (now.lookaheadOf name follow options) (lookaheadDepth rule options) place alts' True
        tree ∧
      g'.kindAt? place.node = some (.alternatives { alts' with prediction := some tree })

/-- Analyzing a rule gives its alternative sets their trees and leaves those of other rules alone. -/
theorem predictedRule_step (hf : g.Forest) (hshape : g.SameShape g₁)
    (hrules : g₁.rules = g.rules) {quiet : Prop} (hquiet : quiet)
    (hrule : g₁.rule? name = some rule)
    (h : g₁.RuleAnalyzed (g₁.lookaheadOf name follow options) (lookaheadDepth rule options)
      rule.body quiet g₂) {other : String}
    (hother : other = name ∨ g.PredictedRule follow options other g₁) :
    g.PredictedRule follow options other g₂ := by
  have hrule' := rule?_of_rules hrules name ▸ hrule
  intro r place alts hr hoccurs hk
  by_cases heq : other = name
  · subst heq
    rw [hrule'] at hr
    cases hr
    obtain ⟨kind, hk₁, hbare⟩ := hshape.kindAt? hk
    obtain ⟨prediction, rfl⟩ := NodeKind.of_bare_alternatives hbare
    obtain ⟨tree, ⟨warnings, hpred, hwarn, hvalid⟩, hk₂⟩ :=
      h.predicted place _ (hshape.occurs hoccurs) hk₁
    exact ⟨g₁, _, tree, hshape, hrules, hk₁, ⟨warnings, hpred, fun _ => hwarn hquiet, hvalid⟩, hk₂⟩
  · obtain ⟨now, alts', tree, hnow, hnowRules, hkNow, htree, hk₁⟩ :=
      hother.resolve_left heq r place alts hr hoccurs hk
    refine ⟨now, alts', tree, hnow, hnowRules, hkNow, htree, ?_⟩
    rw [← hk₁]
    unfold kindAt?
    rw [h.frame place.node fun hm => heq ?_]
    exact hf.rule_unique hr hrule' hoccurs.reaches (reaches_of_matched (hshape.symm.matchedBy hm))

/-- **Every analyzed rule has its trees.** -/
theorem predicted_of_analyzed (hf : g.Forest) {names : List String}
    (done : String → Prop) {journal journal' : List Event} (hshape : g.SameShape g₁)
    (hrules : g₁.rules = g.rules)
    (h : Yields (names.forM fun name => analyzeRule name follow options) (g₁, journal) ⟨⟩
      (g', journal'))
    (hdone : ∀ name, done name → g.PredictedRule follow options name g₁) :
    g.SameShape g' ∧ g'.rules = g.rules ∧ ∃ events, journal' = journal ++ events ∧
      (events = [] → ∀ name, name ∈ names ∨ done name →
        g.PredictedRule follow options name g') := by
  induction names generalizing g₁ journal done with
  | nil =>
    cases yields_forM_nil.1 h
    refine ⟨hshape, hrules, [], (List.append_nil _).symm, fun _ name hname => ?_⟩
    exact hdone name (hname.resolve_left nofun)
  | cons first rest ih =>
    obtain ⟨⟨g₂, journal₂⟩, hfirst, h⟩ := yields_forM_cons.1 h
    obtain ⟨rule, events, hrule, rfl, han⟩ := analyzeRule_eq (fun rule ids hr =>
      hf.nodup_of_walkMatched hshape.shapeIn (rule?_of_rules hrules first ▸ hr)) hfirst
    have hshape₂ := hshape.trans han.shape
    have hrules₂ := han.rules.trans hrules
    by_cases hquiet : events = []
    · obtain ⟨hshape', hrules', events', rfl, hall⟩ :=
        ih (fun name => name = first ∨ done name) hshape₂ hrules₂ h fun name hname =>
          predictedRule_step hf hshape hrules hquiet hrule han (hname.imp_right (hdone name))
      refine ⟨hshape', hrules', events ++ events', List.append_assoc _ _ _, fun hnil name hname => ?_⟩
      refine hall (List.append_eq_nil_iff.1 hnil).2 name ?_
      rw [List.mem_cons] at hname
      tauto
    · obtain ⟨hshape', hrules', events', rfl, -⟩ :=
        ih (fun _ => False) hshape₂ hrules₂ h fun _ => False.elim
      refine ⟨hshape', hrules', events ++ events', List.append_assoc _ _ _, fun hnil => ?_⟩
      exact (hquiet (List.append_eq_nil_iff.1 hnil).1).elim

end Grammar

/-- The goal stands in a rule with this body, with `after` behind it. -/
def Goal.OccursIn (g : Grammar) (body : NodeId) (after : List Frame) : Goal → Prop
  | .node id => g.Occurs body ⟨id, after⟩
  | .all ids => ∀ before id rest, ids = before ++ id :: rest →
      g.Occurs body ⟨id, pushNodes rest after⟩

/-! ## Trees at their places -/

section

variable {σ : Type} [Source σ] {id : NodeId} {alts : Alternatives} {after : List Frame}

theorem has_initialLive_arm {index : Nat} {arm : NodeId} (h : alts.arms[index]? = some arm) :
    (initialLive id alts after).Has (.arm index)
      (.ofStack (.node arm :: alts.behindArm id after)) := by
  refine ⟨_, List.mem_append_left _ ?_, List.mem_singleton.2 rfl⟩
  rw [List.mem_mapIdx]
  obtain ⟨hlt, rfl⟩ := List.getElem?_eq_some_iff.1 h
  exact ⟨index, hlt, rfl⟩

theorem has_initialLive_exit (h : alts.hasExit = true) :
    (initialLive id alts after).Has .exit (.ofStack after) := by
  refine ⟨_, List.mem_append_right _ ?_, List.mem_singleton.2 rfl⟩
  rw [if_pos h]
  exact List.mem_singleton.2 rfl

theorem of_has_initialLive {alt : Alt} {config : Config}
    (h : (initialLive id alts after).Has alt config) :
    (∃ arm ∈ alts.arms, config = .ofStack (.node arm :: alts.behindArm id after)) ∨
      config = .ofStack after := by
  obtain ⟨configs, hm, hc⟩ := h
  rcases List.mem_append.1 hm with hm | hm
  · rw [List.mem_mapIdx] at hm
    obtain ⟨index, hlt, heq⟩ := hm
    cases heq
    exact Or.inl ⟨_, List.getElem_mem hlt, List.mem_singleton.1 hc⟩
  · split at hm
    · cases List.mem_singleton.1 hm
      exact Or.inr (List.mem_singleton.1 hc)
    · cases hm

namespace Grammar

variable [LawfulSource σ] {la : Lookahead} {k : Nat} {place : Place} {tree : Decision} {s : σ}
  {holds : CheckRef → Bool}

/-- A tree that was built without a warning selects what a configuration that admits the input leads
to. -/
theorem TreeAt.select (hg : la.grammar.Plain) (h : TreeAt la k place alts True tree)
    (hk : la.grammar.kindAt? place.node = some (.alternatives alts))
    (hhere : la.grammar.InUse place.node)
    (hafter : ∀ id, .node id ∈ place.after → la.grammar.InUse id) {alt : Alt} {config : Config}
    (hlive : (initialLive place.node alts place.after).Has alt config)
    (hadmits : la.Admits config s) : tree.select (Source.lookahead s) holds = some alt := by
  obtain ⟨warnings, hpred, hquiet, -⟩ := h
  cases hquiet trivial
  refine select_buildLevel (hg.greedy _ _ hhere hk) (Lookahead.unchecked_of_plain hg)
    (fun n => by rw [Nat.zero_add]) (isTerminal s) ?_ hlive hadmits hpred
  intro alt config hconfig
  rcases of_has_initialLive hconfig with ⟨arm, harm, rfl⟩ | rfl
  · refine ⟨rfl, fun id hid => ?_⟩
    rcases List.mem_cons.1 hid with heq | hid
    · cases heq
      exact hhere.arm hk harm
    · unfold Alternatives.behindArm at hid
      split at hid
      · rcases List.mem_cons.1 hid with heq | hid
        · cases heq
          exact hhere
        · exact hafter id hid
      · exact hafter id hid
  · exact ⟨rfl, hafter⟩

/-! ## Along a derivation -/

/-- What is left of the rule can be read, up to where its follow set allows it to end. -/
def CanEnd (g : Grammar) (follow : CharSet) (after : List Frame) (s : σ) : Prop :=
  ∃ t, g.Reads after s t ∧ follow.contains (Source.lookahead t 0) = true

variable {g g' : Grammar} {follow : FollowSets} {options : Options} {name : String} {rule : Rule}
  {values : CheckValues σ} {call call' : Calling σ}

/-- At an alternative set of an analyzed rule the tree selects a choice whose configuration can be
read to an end of the rule. -/
theorem predictedChoice_of_reads (values : CheckValues σ) (hg : g.Plain)
    (hrule : g.rule? name = some rule)
    (htrees : g.PredictedRule follow options name g')
    (hoccurs : g.Occurs rule.body place) {alts : Alternatives}
    (hk : g.kindAt? place.node = some (.alternatives alts)) :
    ∃ prediction, g'.kindAt? place.node = some (.alternatives { alts with prediction }) ∧
      ∀ alt stack s, (initialLive place.node alts place.after).Has alt (.ofStack stack) →
        g.CanEnd (follow.get name) stack s →
        g'.predictedChoice values { alts with prediction } s alt := by
  obtain ⟨now, alts', tree, hshape, hrules, hnow, htree, hk'⟩ :=
    htrees rule place alts hrule hoccurs hk
  obtain ⟨kind, hnow', hbare⟩ := hshape.kindAt? hk
  obtain ⟨prediction, rfl⟩ := NodeKind.of_bare_alternatives hbare
  rw [hnow] at hnow'
  cases hnow'
  refine ⟨some tree, hk', ?_⟩
  rintro alt stack s hlive ⟨t, hreads, hend⟩
  refine ⟨tree, rfl, ?_⟩
  have hhere : g.InUse place.node := ⟨name, rule, hrule, hoccurs.reaches⟩
  exact htree.select (hshape.plain hrules hg) hnow
    (hshape.inUse hrules hhere)
    (fun id hid => hshape.inUse hrules (hoccurs.inUse_after hrule id hid)) hlive
    (Lookahead.admits_ofStack.2 ⟨t, hshape.reads hrules hreads, hend⟩)

/-- Within a rule, prediction makes the choices of a derivation that leaves input which the rest of
the rule can read. -/
theorem matches_predicted (hkeyed : g.Keyed) (hg : g.Plain) (hshape : g.SameShape g')
    (hfollow : g.followSets options.recursionLimit = .ok follow)
    (hrule : g.rule? name = some rule) (htrees : g.PredictedRule follow options name g')
    (hreads : CallReads g call)
    (hcall : ∀ callee s c t, call callee s c t →
      (follow.get callee).contains (Source.lookahead t 0) = true → call' callee s c t)
    {goal : Goal} {s t : σ} {c : List Choice} (h : Matches g values anyChoice call goal s c t)
    {after : List Frame} (hoccurs : goal.OccursIn g rule.body after)
    (hend : g.CanEnd (follow.get name) after t) :
    Matches g' values (g'.predictedChoice values) call' goal s c t := by
  have inUse : ∀ {place : Place}, g.Occurs rule.body place → g.InUse place.node :=
    fun ho => ⟨name, rule, hrule, ho.reaches⟩
  have push : ∀ {goal : Goal} {s t : σ} {c : List Choice} {after : List Frame},
      Matches g values anyChoice call goal s c t → goal.InUse g →
      g.CanEnd (follow.get name) after t → g.CanEnd (follow.get name) (goal.push after) s := by
    rintro goal s t c after h huse ⟨u, hread, hu⟩
    exact ⟨u, h.reads hg hreads huse hread, hu⟩
  induction h generalizing after with
  | nil => exact .nil
  | @cons id rest s m t c₁ c₂ first others ih₁ ih₂ =>
    have hrest : ∀ before other later, rest = before ++ other :: later →
        g.Occurs rule.body ⟨other, pushNodes later after⟩ :=
      fun before other later heq => hoccurs (id :: before) other later (heq ▸ rfl)
    have huse : ∀ other ∈ rest, g.InUse other := by
      intro other hm
      obtain ⟨before, later, heq⟩ := List.append_of_mem hm
      exact inUse (hrest before other later heq)
    exact .cons (ih₁ (hoccurs [] id rest rfl) (push others huse hend)) (ih₂ hrest hend)
  | @sequence id items s t c kind below ih =>
    obtain ⟨kind', hk', hbare⟩ := hshape.kindAt? kind
    rw [NodeKind.of_bare_sequence hbare] at hk'
    refine .sequence hk' (ih ?_ hend)
    intro before item rest heq
    refine ReflTransGen.tail hoccurs ⟨_, kind, List.mem_map.2 ⟨(item, rest), ?_, rfl⟩⟩
    exact mem_withRests.2 ⟨before, heq⟩
  | @arm id arm alts index s t c kind mode at_ allowed below ih =>
    have hm := List.mem_of_getElem? at_
    have harm : g.Occurs rule.body ⟨arm, alts.behindArm id after⟩ :=
      ReflTransGen.tail hoccurs ⟨_, kind, List.mem_map.2 ⟨arm, hm, rfl⟩⟩
    have hbehind : alts.behindArm id after = after := if_neg mode
    obtain ⟨prediction, hk', hselect⟩ :=
      predictedChoice_of_reads values hg hrule htrees hoccurs kind
    refine .arm hk' mode at_ (hselect _ _ s (has_initialLive_arm at_) ?_) (ih ?_ hend)
    · rw [hbehind]
      exact push below (inUse harm) hend
    · rw [hbehind] at harm
      exact harm
  | @again id arm alts index s m t c₁ c₂ kind mode at_ allowed below next ih₁ ih₂ =>
    have hm := List.mem_of_getElem? at_
    have harm : g.Occurs rule.body ⟨arm, alts.behindArm id after⟩ :=
      ReflTransGen.tail hoccurs ⟨_, kind, List.mem_map.2 ⟨arm, hm, rfl⟩⟩
    have hbehind : alts.behindArm id after = .node id :: after := if_pos mode
    have hnext : g.CanEnd (follow.get name) (alts.behindArm id after) m := by
      rw [hbehind]
      exact push next (inUse hoccurs) hend
    obtain ⟨prediction, hk', hselect⟩ :=
      predictedChoice_of_reads values hg hrule htrees hoccurs kind
    exact .again hk' mode at_
      (hselect _ _ s (has_initialLive_arm at_) (push below (inUse harm) hnext)) (ih₁ harm hnext)
      (ih₂ hoccurs hend)
  | @exit id alts s kind hasExit allowed =>
    obtain ⟨prediction, hk', hselect⟩ :=
      predictedChoice_of_reads values hg hrule htrees hoccurs kind
    exact .exit hk' hasExit (hselect _ _ s (has_initialLive_exit hasExit) hend)
  | @gate id predict matched s t c kind below ih =>
    exact (hg.gate id predict matched (inUse hoccurs) kind).elim
  | @check id test s kind holds => exact (hg.check id test (inUse hoccurs) kind).elim
  | @call id callee s t c kind called =>
    obtain ⟨kind', hk', hbare⟩ := hshape.kindAt? kind
    rw [NodeKind.of_bare_call hbare] at hk'
    obtain ⟨u, hread, hu⟩ := hend
    refine .call hk' (hcall callee s c t called ?_)
    exact follow_of_call hkeyed hfollow hrule hoccurs kind
      (Lookahead.admits_ofStack.2 ⟨u, hread, hu⟩)
  | @terminal id set mark s kind accepted =>
    obtain ⟨kind', hk', hbare⟩ := hshape.kindAt? kind
    obtain ⟨mark', rfl⟩ := NodeKind.of_bare_terminal hbare
    exact .terminal hk' accepted

/-- **Prediction is complete.** Take a grammar without gates and checks that passes validation and
whose alternative sets do not say how to treat ambiguous input, and analyze its rules without a
warning. Whenever a rule derives a piece of the input and the next terminal is in the follow set of
the rule, the prediction trees make exactly the choices of that derivation, and predictive parsing
ends where it ends. -/
theorem prediction_complete {names : List String} (hkeyed : g.Keyed) (hvalid : g.validate = .ok ())
    (hplain : g.Plain) (hfollow : g.followSets options.recursionLimit = .ok follow)
    (hnames : ∀ name ∈ g.ruleNames, name ∈ names)
    (hanalyzed : Yields (names.forM fun name => analyzeRule name follow options) (g, []) ⟨⟩ (g', []))
    {rule : String} {s t : σ} {c : List Choice} (hderives : g.Derives values rule s c t)
    (hnext : (follow.get rule).contains (Source.lookahead t 0) = true) :
    g'.Predicts values rule s c t ∧
      ∀ c' t', g'.Predicts values rule s c' t' → c' = c ∧ t' = t := by
  have hforest := forest_of_validate hvalid
  obtain ⟨hshape, hrules, events, hevents, htrees⟩ :=
    predicted_of_analyzed hforest (fun _ => False) (.refl g) rfl hanalyzed
      fun _ => False.elim
  have htrees : ∀ name ∈ g.ruleNames, g.PredictedRule follow options name g' := fun name hname =>
    htrees (List.nil_eq_append_iff.1 hevents).2 name (Or.inl (hnames name hname))
  obtain ⟨depth, hderives⟩ := hderives
  -- The two parses nest their calls equally deep.
  have hpredicts : ∀ depth name s c t, g.MatchesRule values anyChoice depth name s c t →
      (follow.get name).contains (Source.lookahead t 0) = true →
      g'.MatchesRule values (g'.predictedChoice values) depth name s c t := by
    intro depth
    induction depth with
    | zero =>
      intro name s c t h
      exact h.elim
    | succ depth ih =>
      rintro name s c t ⟨rule, hrule, h⟩ hnext
      refine ⟨rule, rule?_of_rules hrules name ▸ hrule, ?_⟩
      exact matches_predicted hkeyed hplain hshape hfollow hrule
        (htrees name (mem_ruleNames_of_rule? hrule)) (callReads_matchesRule hplain depth) ih h
        ReflTransGen.refl ⟨t, .nil, hnext⟩
  have hparse : g'.Predicts values rule s c t := ⟨depth, hpredicts depth rule s c t hderives hnext⟩
  exact ⟨hparse, fun c' t' h => predicts_unique h hparse⟩

end Grammar

end

/-! ## An instance -/

/-- Any number of `a` and `b`, then `c`. -/
def letters : Grammar where
  nodes := #[.ofKind (.terminal (.ofRanges [(97, 97)]) none),
    .ofKind (.terminal (.ofRanges [(98, 98)]) none),
    .ofKind (.alternatives (.ofArms [0, 1] .star)),
    .ofKind (.terminal (.ofRanges [(99, 99)]) none), .ofKind (.sequence [2, 3])]
  rules := [("letters", .ofBody "letters" 4)]

def lettersFollow : FollowSets := [("letters", .endOfInput)]

/-- `letters` with its prediction tree. -/
def lettersAnalyzed : Grammar :=
  (StateT.run (ExceptT.run (Grammar.analyzeRule "letters" lettersFollow .default)) (letters, [])).2.1

theorem letters_plain : letters.Plain := by
  have kinds : ∀ id kind, letters.kindAt? id = some kind →
      kind ∈ letters.nodes.toList.map Node.kind := by
    intro id kind hk
    obtain ⟨node, hnode, rfl⟩ := Option.map_eq_some_iff.1 hk
    exact List.mem_map.2 ⟨node, (Array.mem_of_getElem? hnode).val, rfl⟩
  constructor
  · intro id predict matched _ hk
    simpa [letters, Node.ofKind] using kinds id _ hk
  · intro id test _ hk
    simpa [letters, Node.ofKind] using kinds id _ hk
  · intro id alts _ hk
    have halts : alts = .ofArms [0, 1] .star := by
      simpa [letters, Node.ofKind] using kinds id _ hk
    rw [halts]
    rfl

/-- The places in the text `bc`. -/
def lettersAt : Nat → TextSource
  | 0 => .ofString "bc"
  | n + 1 => Source.advance (lettersAt n)

theorem letters_derives : letters.Derives (fun _ _ => true) "letters" (lettersAt 0)
    [⟨2, .arm 1⟩, ⟨2, .exit⟩] (lettersAt 2) := by
  refine ⟨1, .ofBody "letters" 4, rfl, ?_⟩
  have hb : (CharSet.ofRanges [(98, 98)]).contains (Source.lookahead (lettersAt 0) 0) = true := by cbv
  have hc : (CharSet.ofRanges [(99, 99)]).contains (Source.lookahead (lettersAt 1) 0) = true := by cbv
  have hloop : Matches letters (fun _ _ => true) anyChoice
      (letters.MatchesRule (fun _ _ => true) anyChoice 0) (.node 2) (lettersAt 0)
      [⟨2, .arm 1⟩, ⟨2, .exit⟩] (lettersAt 1) :=
    .again rfl rfl rfl trivial (.terminal rfl hb) (.exit rfl rfl trivial)
  exact .sequence rfl (.cons hloop (.cons (.terminal rfl hc) .nil))

/-- The loop is entered for `b` and left before `c`. -/
theorem letters_predicts : lettersAnalyzed.Predicts (fun _ _ => true) "letters" (lettersAt 0)
    [⟨2, .arm 1⟩, ⟨2, .exit⟩] (lettersAt 2) := by
  have hkeyed : letters.Keyed := ⟨List.pairwise_singleton _ _, by simp [letters, Rule.ofBody]⟩
  have hanalyzed : Yields (["letters"].forM fun name =>
      Grammar.analyzeRule name lettersFollow .default) (letters, []) ⟨⟩ (lettersAnalyzed, []) := by
    unfold Yields lettersAnalyzed
    cbv
  exact (Grammar.prediction_complete hkeyed (by decide +kernel) letters_plain (by cbv)
    (fun name h => h) hanalyzed letters_derives (by cbv)).1

end PredictiveParser
