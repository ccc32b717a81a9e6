import PredictiveParser.Proofs.Analysis.OnlyLimit
import PredictiveParser.Proofs.Analysis.Repeated
import PredictiveParser.Proofs.Values.Frame

/-!
# Analyzing a rule is all or nothing

Trees are attached one after the other, and a tree that does not fit its alternative set would stop this
half way. In a validated grammar every tree fits, so the analysis of a rule either fails before it has
changed or said anything, or comes to its end (`analyzeRule_atomic`). Then it has changed what it is for,
and that only in the rule (`Grammar.AnalyzedOnly`).
-/
namespace PredictiveParser

namespace Grammar

variable {g g' : Grammar} {name : String} {follow : FollowSets} {options : Options}
  {journal journal' : List Event}

/-- Nothing differs but predictions and marks of nodes that the body matches, and the alternative sets
among these have predictions. -/
structure AnalyzedOnly (g : Grammar) (body : NodeId) (g' : Grammar) : Prop where
  agrees : Agrees Node.unanalyzed g g'
  frame : ∀ id, ¬ g.MatchedBy body id → g'.nodes[id]? = g.nodes[id]?
  predicted : ∀ id alts, g.MatchedBy body id → g'.kindAt? id = some (.alternatives alts) →
    ∃ tree, alts.prediction = some tree

/-- Each alternative set of an analyzed rule has a prediction. -/
theorem RuleAnalyzed.exists_prediction {la : Lookahead} {k : Nat} {body id : NodeId} {quiet : Prop}
    {alts : Alternatives} (h : g.RuleAnalyzed la k body quiet g') (hid : g.MatchedBy body id)
    (hk : g'.kindAt? id = some (.alternatives alts)) : ∃ tree, alts.prediction = some tree := by
  obtain ⟨kind, hkind, hbare⟩ := h.shape.symm.kindAt? hk
  obtain ⟨prediction, rfl⟩ := NodeKind.of_bare_alternatives hbare
  obtain ⟨place, hoccurs, rfl⟩ := exists_occurs hid
  obtain ⟨tree, -, hk'⟩ := h.predicted place _ hoccurs hkind
  have halts := NodeKind.alternatives.inj (Option.some.inj (hk.symm.trans hk'))
  exact ⟨tree, by rw [halts]⟩

theorem analyzedOnly_of_analyzeRule (hf : g.Forest)
    (h : Yields (analyzeRule name follow options) (g, journal) ⟨⟩ (g', journal')) :
    ∃ rule, g.rule? name = some rule ∧ g.AnalyzedOnly rule.body g' := by
  obtain ⟨rule, events, hrule, -, hanalyzed⟩ := analyzeRule_eq
    (fun rule ids hrule => hf.nodup_of_walkMatched (SameShape.refl g).shapeIn hrule) h
  exact ⟨rule, hrule, agrees_analyzeRule h, hanalyzed.frame, fun _ _ => hanalyzed.exists_prediction⟩

/-- A rule that is not there cannot be analyzed. -/
theorem run_analyzeRule_unknown (hrule : g.rule? name = none) (follow : FollowSets)
    (options : Options) (journal : List Event) :
    StateT.run (ExceptT.run (analyzeRule name follow options)) (g, journal) =
      (.error (.error (.unknownRule name name)), (g, journal)) := by
  have hgrammar : StateT.run (ExceptT.run Pass.grammar) (g, journal) = (.ok g, (g, journal)) := rfl
  unfold analyzeRule
  rw [run_bind, hgrammar]
  simp only [hrule]
  rfl

/-- **The analysis of a rule is all or nothing.** In a validated grammar, for any follow sets and options,
there are two ends. It fails since there is no such rule or since it is at the recursion limit; then the
grammar and the journal are as they were. Or it succeeds; then it has said something about the rule, and
of the grammar it has changed predictions and marks that the rule matches, and nothing else, and each
alternative set that the rule matches has a prediction. -/
theorem analyzeRule_atomic (hvalid : g.validate = .ok ()) (name : String) (follow : FollowSets)
    (options : Options) (journal : List Event) :
    (∃ cause, StateT.run (ExceptT.run (analyzeRule name follow options)) (g, journal) =
        (.error (.error cause), (g, journal)) ∧
      (g.rule? name = none ∧ cause = .unknownRule name name ∨
        cause = .recursionLimit name options.recursionLimit)) ∨
    ∃ rule g' events, g.rule? name = some rule ∧
      StateT.run (ExceptT.run (analyzeRule name follow options)) (g, journal) =
        (.ok ⟨⟩, (g', journal ++ events)) ∧
      (∀ event ∈ events, event.Concerns name) ∧ g.AnalyzedOnly rule.body g' := by
  have hforest := forest_of_validate hvalid
  cases hrule : g.rule? name with
  | none => exact Or.inl ⟨_, run_analyzeRule_unknown hrule follow options journal, Or.inl ⟨rfl, rfl⟩⟩
  | some rule =>
    rcases run_analyzeRule_limit hforest hrule follow options journal with
      hlimit | ⟨⟨g', journal'⟩, hyields⟩
    · exact Or.inl ⟨_, hlimit, Or.inr rfl⟩
    · obtain ⟨own, hown, honly⟩ := analyzedOnly_of_analyzeRule hforest hyields
      cases hrule.symm.trans hown
      obtain ⟨events, hjournal, hevents⟩ := (logs_analyzeRule name follow options).yields hyields
      refine Or.inr ⟨rule, g', events, rfl, ?_, hevents, honly⟩
      rw [← hjournal]
      exact hyields

end Grammar

/-- The choice between an `a` and a `b` gets its prediction, its second terminal a mark, and a rule that
is not there gets nothing. -/
theorem choice_atomic :
    (∃ events, StateT.run (ExceptT.run
        (Grammar.analyzeRule "choice" [("choice", .endOfInput)] .default)) (choiceWith none none none, []) =
      (.ok ⟨⟩, (choiceWith none (some true) (some choiceDefaultTree), events))) ∧
    (choiceWith none none none).AnalyzedOnly 2 (choiceWith none (some true) (some choiceDefaultTree)) ∧
    ∃ cause, StateT.run (ExceptT.run (Grammar.analyzeRule "choose" [("choice", .endOfInput)] .default))
      (choiceWith none none none, []) = (.error (.error cause), (choiceWith none none none, [])) := by
  have hvalid : (choiceWith none none none).validate = .ok () := by decide +kernel
  refine ⟨⟨_, choice_analyzed⟩, ?_, ?_⟩
  · obtain ⟨cause, hfailed, -⟩ | ⟨rule, g', events, hrule, hrun, -, honly⟩ :=
      Grammar.analyzeRule_atomic hvalid "choice" [("choice", .endOfInput)] .default []
    · cases hfailed.symm.trans choice_analyzed
    · cases hrule
      cases hrun.symm.trans choice_analyzed
      exact honly
  · obtain ⟨cause, hfailed, -⟩ | ⟨rule, g', events, hrule, -⟩ :=
      Grammar.analyzeRule_atomic hvalid "choose" [("choice", .endOfInput)] .default []
    · exact ⟨cause, hfailed⟩
    · cases hrule

end PredictiveParser
