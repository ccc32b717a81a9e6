import PredictiveParser.Proofs.Analysis.Failing
import PredictiveParser.Proofs.Analysis.Total
import PredictiveParser.Proofs.Lookahead.Bound

/-!
# The only failure of the analysis

In a grammar whose rules are trees, follow sets and prediction trees fail only at the recursion limit:
every search starts from what rules match or predict with, so it finds all nodes and rules that it
looks at and ends within its bound (`Lookahead.failsOnly_steps`).

* `failsOnly_followSets_limit`: follow sets.
* `run_analyzeRule_limit`: a rule is analyzed, or its analysis fails at the limit and changes nothing.
-/
namespace PredictiveParser

open Relation

theorem Lookahead.advances_searchable {la : Lookahead} (hf : la.grammar.Forest) (last : Nat) :
    la.Advances last (fun _ config => la.Searchable config) la.AtLimit where
  fails _ _ _ h := failsOnly_steps hf h
  next _ _ _ _ h hfound := h.steps hfound

namespace Grammar

variable {g : Grammar} {rule : Rule} {name : String} {limit : Nat}

/-- What comes after a place in a rule is in trees of rules. -/
theorem searchable_after {la : Lookahead} (hrule : la.grammar.rule? name = some rule)
    {place : Place} (hoccurs : la.grammar.Occurs rule.body place) :
    la.Searchable (.ofStack place.after) where
  inUse := hoccurs.inUse_after hrule
  ascending := List.Pairwise.nil

/-- Every choice of a decision begins in trees of rules. -/
theorem searchable_initialLive {la : Lookahead} (hrule : la.grammar.rule? name = some rule)
    {place : Place} (hoccurs : la.grammar.Occurs rule.body place) {alts : Alternatives}
    (hk : la.grammar.kindAt? place.node = some (.alternatives alts)) {alt : Alt} {config : Config}
    (h : (initialLive place.node alts place.after).Has alt config) : la.Searchable config where
  inUse := by
    have hclosed := closed_inUse la.grammar
    obtain ⟨hnode, hafter⟩ := hclosed.occurs (.body hrule) hoccurs
    exact (hclosed.initialLive hnode hk hafter alt config h).stack
  ascending := by
    rcases has_initialLive h with ⟨arm, -, rfl⟩ | ⟨-, rfl⟩ <;> exact List.Pairwise.nil

/-- Follow sets fail only at the recursion limit. -/
theorem failsOnly_followSets_limit (hkeyed : g.Keyed) (hf : g.Forest) :
    FailsOnly (fun failure => ∃ name, failure = .error (.recursionLimit name limit))
      (g.followSets limit) := by
  refine failsOnly_followSets hkeyed hf fun rule hrule place callee follow hoccurs _ => ?_
  have hstart : (⟨g, rule.name, follow, limit⟩ : Lookahead).Searchable (.ofStack place.after) :=
    searchable_after (hkeyed.rule?_of_mem_ruleList hrule) hoccurs
  exact fun failure hfailure => ⟨rule.name, Lookahead.failsOnly_steps hf hstart failure hfailure⟩

/-- The trees of a rule fail only at the recursion limit. -/
theorem failsOnly_predictions_limit (la : Lookahead) {k : Nat} (hf : la.grammar.Forest)
    (hrule : la.grammar.rule? name = some rule) :
    FailsOnly la.AtLimit (la.grammar.predictions la k rule.body) :=
  failsOnly_predictions hf hrule (Nat.le_refl _) fun _ _ hoccurs hk =>
    ⟨_, Lookahead.advances_searchable hf _, fun _ _ h => searchable_initialLive hrule hoccurs hk h⟩

/-- A rule is analyzed, or its analysis fails at the recursion limit and changes nothing. -/
theorem run_analyzeRule_limit (hf : g.Forest) (hrule : g.rule? name = some rule)
    (follow : FollowSets) (options : Options) (journal : List Event) :
    StateT.run (ExceptT.run (analyzeRule name follow options)) (g, journal) =
        (.error (.error (.recursionLimit name options.recursionLimit)), (g, journal)) ∨
      ∃ s', Yields (analyzeRule name follow options) (g, journal) ⟨⟩ s' := by
  rcases run_analyzeRule follow options hf hrule journal with ⟨failure, hfailure, hrun⟩ | hyields
  · have hlimit : failure = .error (.recursionLimit name options.recursionLimit) :=
      failsOnly_predictions_limit (g.lookaheadOf name follow options) hf hrule failure hfailure
    rw [hrun, hlimit]
    exact Or.inl rfl
  · exact Or.inr hyields

end Grammar

end PredictiveParser
