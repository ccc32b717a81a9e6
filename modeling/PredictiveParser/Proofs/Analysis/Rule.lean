import PredictiveParser.Proofs.Analysis.Attach
import PredictiveParser.Proofs.Analysis.Prematch
import PredictiveParser.Proofs.Lookahead.Within

/-!
# What analyzing a rule changes

`Grammar.analyzeRule` attaches a prediction tree to each alternative set of a rule and then marks
what prediction has tested. `Grammar.RuleAnalyzed` says all that it changes, and
`analyzeRule_eq` that it does so.
-/
namespace PredictiveParser

open Relation

namespace Grammar

/-- How lookahead goes about when a rule is analyzed. -/
def lookaheadOf (g : Grammar) (rule : String) (follow : FollowSets) (options : Options) :
    Lookahead :=
  ⟨g, rule, follow.get rule, options.recursionLimit⟩

/-- How many terminals the alternative sets of a rule may look at. -/
def lookaheadDepth (rule : Rule) (options : Options) : Nat :=
  max (rule.k.getD options.k) 1

/-- The tree of an alternative set at a place, which was built without a warning if `quiet`. -/
def TreeAt (la : Lookahead) (k : Nat) (place : Place) (alts : Alternatives) (quiet : Prop)
    (tree : Decision) : Prop :=
  ∃ warnings, predictionOf la k place.node alts place.after = .ok (tree, warnings) ∧
    (quiet → warnings = []) ∧ tree.invalidAlt? alts.arms.length alts.hasExit = none

/-- What analyzing a rule changes: trees are attached to its alternative sets, and proven leads are
marked. If `quiet`, nothing was warned about. -/
structure RuleAnalyzed (g : Grammar) (la : Lookahead) (k : Nat) (body : NodeId) (quiet : Prop)
    (g' : Grammar) : Prop where
  shape : g.SameShape g'
  rules : g'.rules = g.rules
  frame : ∀ id, ¬ g.MatchedBy body id → g'.nodes[id]? = g.nodes[id]?
  predicted : ∀ place alts, g.Occurs body place →
    g.kindAt? place.node = some (.alternatives alts) → ∃ tree, TreeAt la k place alts quiet tree ∧
      g'.kindAt? place.node = some (.alternatives { alts with prediction := some tree })
  marked : ∀ id, (∀ alts, g.kindAt? id ≠ some (.alternatives alts)) →
    g'.nodes[id]? = g.nodes[id]? ∨ ∃ set, g.MatchedBy body set ∧ g'.ProvenLead set id

variable {g g' : Grammar} {journal journal' : List Event} {name : String} {follow : FollowSets}
  {options : Options}

/-- A rule is analyzed in three steps: its trees are built, they are attached, and marks are set. -/
theorem yields_analyzeRule :
    Yields (analyzeRule name follow options) (g, journal) ⟨⟩ (g', journal') ↔
    ∃ rule trees g₁, g.rule? name = some rule ∧
      g.predictions (g.lookaheadOf name follow options) (lookaheadDepth rule options) rule.body =
        .ok trees ∧
      Yields (trees.forM (attach name)) (g, journal) ⟨⟩ (g₁, journal') ∧
      g₁.markPrematched rule.body = .ok g' := by
  unfold analyzeRule
  rw [Pass.yields_grammar_bind]
  constructor
  · intro h
    split at h
    · exact (not_yields_throw h).elim
    · rename_i rule hrule
      obtain ⟨trees, htrees, h⟩ := yields_lift_bind.1 h
      obtain ⟨_, ⟨g₁, journal₁⟩, hattach, h⟩ := yields_bind.1 h
      obtain ⟨g₂, hmark, h⟩ := Pass.yields_liftFault_bind.1 (Pass.yields_grammar_bind.1 h)
      cases yields_modify.1 h
      exact ⟨rule, trees, g₁, hrule, htrees, hattach, hmark⟩
  · rintro ⟨rule, trees, g₁, hrule, htrees, hattach, hmark⟩
    simp only [hrule]
    refine yields_lift_bind.2 ⟨trees, htrees, yields_bind.2 ⟨⟨⟩, _, hattach, ?_⟩⟩
    exact Pass.yields_grammar_bind.2 (Pass.yields_liftFault_bind.2 ⟨g', hmark, yields_modify.2 rfl⟩)

/-- What attaching trees and marking nodes keep, the analysis of a rule keeps. -/
theorem analyzeRule_invariant {P : Grammar → Prop}
    (hpredict : ∀ g id prediction g', P g → g.setPrediction id prediction = .ok g' → P g')
    (hmark : ∀ g id mark g', P g → g.setPrematched id mark = .ok g' → P g') (hP : P g)
    (h : Yields (analyzeRule name follow options) (g, journal) ⟨⟩ (g', journal')) : P g' := by
  obtain ⟨rule, trees, g₁, -, -, hattach, hmarks⟩ := yields_analyzeRule.1 h
  have hattached : P g₁ := by
    clear hmarks h
    induction trees generalizing g journal with
    | nil =>
      cases yields_forM_nil.1 hattach
      exact hP
    | cons analyzed rest ih =>
      obtain ⟨⟨g₂, journal₂⟩, hfirst, hrest⟩ := yields_forM_cons.1 hattach
      refine ih ?_ hrest
      obtain ⟨-, ⟨-, rfl⟩ | ⟨alts, -, -, hset⟩⟩ := attach_eq hfirst
      · exact hP
      · exact hpredict _ _ _ _ hP hset
  obtain ⟨ids, -, hmarks⟩ := bind_eq_ok.1 hmarks
  obtain ⟨marks, -, hmarks⟩ := bind_eq_ok.1 hmarks
  exact foldlM_invariant (fun id _ now next hnow hnext => hmark now id _ next hnow hnext) hattached
    hmarks

/-- What settings of a prediction and of a mark keep of nodes, the analysis of a rule keeps of them. -/
theorem nodes_analyzeRule {P : Node → Prop} {ids : NodeId → Prop}
    (hset : ∀ (node : Node) f, P node → P (node.mapAlternatives f))
    (hmark : ∀ (node : Node) mark, P node → P (node.withPrematched mark))
    (hP : ∀ id node, ids id → g.node id = .ok node → P node)
    (h : Yields (analyzeRule name follow options) (g, journal) ⟨⟩ (g', journal')) :
    ∀ id node, ids id → g'.node id = .ok node → P node := by
  have modified : ∀ {now next : Grammar} {id : NodeId} {f : Node → Node},
      (∀ node, P node → P (f node)) → now.modifyNode id f = .ok next →
      (∀ id node, ids id → now.node id = .ok node → P node) →
      ∀ id node, ids id → next.node id = .ok node → P node := by
    intro now next id f hf hnext hnow other node hother hnode
    obtain ⟨old, hold, rfl⟩ := node_modifyNode hnext hnode
    split
    · exact hf old (hnow other old hother hold)
    · exact hnow other old hother hold
  refine analyzeRule_invariant (P := fun now : Grammar =>
    ∀ id node, ids id → now.node id = .ok node → P node) ?_ ?_ hP h
  · exact fun now id prediction next hnow hnext => modified (fun node => hset node _) hnext hnow
  · exact fun now id mark next hnow hnext => modified (fun node => hmark node mark) hnext hnow

/-- Analyzing a rule changes nothing elsewhere. -/
theorem frame_analyzeRule
    (h : Yields (analyzeRule name follow options) (g, journal) ⟨⟩ (g', journal')) :
    ∃ rule, g.rule? name = some rule ∧ g.SameShape g' ∧ g'.rules = g.rules ∧
      ∀ id, ¬ g.MatchedBy rule.body id → g'.nodes[id]? = g.nodes[id]? := by
  obtain ⟨rule, trees, g₁, hrule, htrees, hattach, hmark⟩ := yields_analyzeRule.1 h
  obtain ⟨ids, hids, hsub, -⟩ := predictions_eq_ok htrees
  obtain ⟨hshape, hrules⟩ := sameShape_forM hattach
  have hmarks := marksOnly_markPrematched hmark
  refine ⟨rule, hrule, hshape.trans hmarks.shape, hmarks.rules.trans hrules, fun id hid => ?_⟩
  rw [hmarks.frame id, nodes_forM hattach]
  · intro analyzed ha heq
    exact hid ((mem_walkDown hids).1 (hsub.subset (heq ▸ List.mem_map.2 ⟨analyzed, ha, rfl⟩)))
  · rintro ⟨set, hset, hlead⟩
    exact hid (hshape.symm.matchedBy (ReflTransGen.trans hset hlead.matched))

/-- **What analyzing a rule changes**, when no node is matched twice. -/
theorem analyzeRule_eq
    (hnodup : ∀ rule ids, g.rule? name = some rule → g.walkMatched rule.body = .ok ids → ids.Nodup)
    (h : Yields (analyzeRule name follow options) (g, journal) ⟨⟩ (g', journal')) :
    ∃ rule events, g.rule? name = some rule ∧ journal' = journal ++ events ∧
      g.RuleAnalyzed (g.lookaheadOf name follow options) (lookaheadDepth rule options) rule.body
        (events = []) g' := by
  obtain ⟨rule, trees, g₁, hrule, htrees, hattach, hmark⟩ := yields_analyzeRule.1 h
  obtain ⟨ids, hids, hsub, hall⟩ := predictions_eq_ok htrees
  obtain ⟨hattached, events, rfl, hquiet⟩ :=
    attaches_forM (hsub.nodup (hnodup rule ids hrule hids)) hattach
  have hmarks := marksOnly_markPrematched hmark
  obtain ⟨rule', hrule', hshape, hrules, hframe⟩ := frame_analyzeRule h
  cases hrule.symm.trans hrule'
  refine ⟨rule, events, hrule, rfl, hshape, hrules, hframe, ?_, ?_⟩
  · intro place alts hoccurs hk
    obtain ⟨tree, warnings, hpred, hm⟩ := hall place alts hoccurs hk
    obtain ⟨hvalid, hk₁⟩ := hattached.attached _ hm alts hk
    exact ⟨tree, ⟨warnings, hpred, fun hnil => hquiet hnil _ hm, hvalid⟩,
      hmarks.alternatives _ _ hk₁⟩
  · intro id hid
    rw [← hattached.others id hid]
    by_cases hm : ∃ set, ReflTransGen (g₁.Link Node.matchedChildren) rule.body set ∧
        g₁.ProvenLead set id
    · obtain ⟨set, hset, hlead⟩ := hm
      exact Or.inr ⟨set, hattached.shape.symm.matchedBy hset, hmarks.provenLead hlead⟩
    · exact Or.inl (hmarks.frame id hm)

/-! ## Analyzed alternative sets -/

/-- The node is as a run of the analysis has left it, in a rule that the run was for. -/
inductive AnalyzedAt (g : Grammar) (id : NodeId) : Prop where
  | intro {before after : Grammar} {journal journal' : List Event} {name : String} {rule : Rule}
      {follow : FollowSets} {options : Options}
      (run : Yields (analyzeRule name follow options) (before, journal) ⟨⟩ (after, journal'))
      (found : before.rule? name = some rule) (matched : before.MatchedBy rule.body id)
      (same : after.kindAt? id = g.kindAt? id) : AnalyzedAt g id

theorem exists_occurs {body id : NodeId} (h : g.MatchedBy body id) :
    ∃ place, g.Occurs body place ∧ place.node = id := by
  induction h with
  | refl => exact ⟨⟨body, []⟩, .refl, rfl⟩
  | tail _ hlink ih =>
    obtain ⟨place, hoccurs, rfl⟩ := ih
    obtain ⟨node, hnode, hchild⟩ := hlink
    rw [← map_node_placesBelow place] at hchild
    obtain ⟨place', hplace, rfl⟩ := List.mem_map.1 hchild
    exact ⟨place', hoccurs.tail ⟨_, kindAt?_of_node hnode, hplace⟩, rfl⟩

/-- The tree of an alternative set that was analyzed is one that was built for the rule. -/
theorem exists_predictionOf_of_prediction {rule : Rule} {id : NodeId} {alts : Alternatives}
    {tree : Decision} (h : Yields (analyzeRule name follow options) (g, journal) ⟨⟩ (g', journal'))
    (hrule : g.rule? name = some rule) (hmatched : g.MatchedBy rule.body id)
    (hk : g'.kindAt? id = some (.alternatives alts)) (htree : alts.prediction = some tree) :
    ∃ place alts warnings, g.Occurs rule.body place ∧
      g.kindAt? place.node = some (.alternatives alts) ∧
      predictionOf (g.lookaheadOf name follow options) (lookaheadDepth rule options) place.node alts
        place.after = .ok (tree, warnings) := by
  obtain ⟨rule, trees, g₁, hrule', htrees, hattach, hmark⟩ := yields_analyzeRule.1 h
  cases hrule.symm.trans hrule'
  have hmarks := marksOnly_markPrematched hmark
  -- The set is the same before marks were set.
  have hk₁ : g₁.kindAt? id = some (.alternatives alts) := by
    obtain ⟨kind, hkind, hbare⟩ := hmarks.shape.symm.kindAt? hk
    obtain ⟨prediction, rfl⟩ := NodeKind.of_bare_alternatives hbare
    rw [hmarks.alternatives _ _ hkind] at hk
    rw [hkind, hk]
  obtain ⟨kind, hkind, hbare⟩ := (sameShape_forM hattach).1.symm.kindAt? hk₁
  obtain ⟨prediction, rfl⟩ := NodeKind.of_bare_alternatives hbare
  obtain ⟨place, hoccurs, rfl⟩ := exists_occurs hmatched
  obtain ⟨ids, -, -, hall⟩ := predictions_eq_ok htrees
  obtain ⟨tree', warnings, -, hm⟩ := hall place _ hoccurs hkind
  obtain ⟨analyzed, ha, hpred⟩ := prediction_of_forM hattach hk₁ ⟨_, hm, rfl⟩
  rw [htree] at hpred
  rw [Option.some.inj hpred]
  obtain ⟨place, alts, hoccurs, -, hk, hpred⟩ := exists_predictionOf_of_mem htrees ha
  exact ⟨place, alts, _, hoccurs, hk, hpred⟩

/-- Attached trees test only checks that the rule shows. -/
theorem testsOnly_of_analyzeRule {rule : Rule} {id : NodeId} {alts : Alternatives} {tree : Decision}
    (h : Yields (analyzeRule name follow options) (g, journal) ⟨⟩ (g', journal'))
    (hrule : g.rule? name = some rule) (hmatched : g.MatchedBy rule.body id)
    (hk : g'.kindAt? id = some (.alternatives alts)) (htree : alts.prediction = some tree) :
    tree.TestsOnly (g.Shows rule.body) := by
  obtain ⟨place, alts, warnings, hoccurs, hk, hpred⟩ :=
    exists_predictionOf_of_prediction h hrule hmatched hk htree
  have hclosed := g.closed_shows rule.body
  obtain ⟨hhere, hafter⟩ := hclosed.occurs .refl hoccurs
  exact testsOnly_buildLevel hclosed (hclosed.initialLive hhere hk hafter) hpred

/-- **Attached trees are well-formed.** -/
theorem AnalyzedAt.wellFormed {id : NodeId} (h : g.AnalyzedAt id) {alts : Alternatives}
    {tree : Decision} (hk : g.kindAt? id = some (.alternatives alts))
    (htree : alts.prediction = some tree) : tree.WellFormed := by
  obtain ⟨run, hrule, hmatched, hsame⟩ := h
  rw [← hsame] at hk
  obtain ⟨place, alts, warnings, -, -, hpred⟩ :=
    exists_predictionOf_of_prediction run hrule hmatched hk htree
  exact wellFormed_buildLevel hpred

end Grammar

end PredictiveParser
