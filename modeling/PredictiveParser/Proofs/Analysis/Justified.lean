import Mathlib
import PredictiveParser.Proofs.Analysis.Prepared

/-!
# Marks are justified

Prediction marks a terminal or check as tested, so that it is not tested again. `Grammar.Justified` is
what such a mark has to rest on. The node is what an arm starts with, and whenever the tree of the arm's
alternative set selects the arm, evaluating the tree has tested the node: a terminal since the next
terminal is in its set, a check since a branch was taken for checks that all contain it.

`justified_of_analyzeRule` shows this for every rule of a validated grammar. Marks are put only on
proven leads (`RuleAnalyzed.prepared`), and what is proven is tested (`Decision.tested_of_isProven`).
-/
namespace PredictiveParser

namespace Grammar

/-- An arm of a set that the body matches starts with the node, and where the prediction of the set
selects the arm it has tested the node. -/
def Justified (g : Grammar) (body id : NodeId) (kind : NodeKind) : Prop :=
  ∃ set alts tree index arm, g.MatchedBy body set ∧ g.kindAt? set = some (.alternatives alts) ∧
    alts.prediction = some tree ∧ alts.arms[index]? = some arm ∧ g.Starts arm id ∧
    ∀ ahead holds, tree.select ahead holds = some (.arm index) → tree.Tested ahead holds id kind

variable {g g' : Grammar} {body id : NodeId} {kind : NodeKind} {journal journal' : List Event}
  {name : String} {follow : FollowSets} {options : Options}

theorem Prepared.justified (h : g.Prepared body) (hid : g.MatchedBy body id)
    (hkind : g.kindAt? id = some kind) (hmarked : kind.isMarked = true) :
    g.Justified body id kind := by
  obtain ⟨set, hset, alts, tree, index, arm, lead, hk, htree, harm, hstarts, hlead, hproven⟩ :=
    h.marks id kind hid hkind hmarked
  rw [kindAt?_of_node hlead] at hkind
  cases hkind
  exact ⟨set, alts, tree, index, arm, hset, hk, htree, harm, hstarts, fun ahead holds hselect =>
    Decision.tested_of_isProven (h.predicted set alts tree hset hk htree) hselect hproven⟩

/-- **Marks are justified by the tree.** In a rule of a validated grammar in which nothing was marked
before it is analyzed, all that is marked then is tested wherever its arm is selected. -/
theorem justified_of_analyzeRule (hvalid : g.validate = .ok ())
    (hclean : ∀ rule, g.rule? name = some rule → g.Unmarked rule.body)
    (h : Yields (analyzeRule name follow options) (g, journal) ⟨⟩ (g', journal')) :
    ∃ rule, g.rule? name = some rule ∧ ∀ id kind, g'.MatchedBy rule.body id →
      g'.kindAt? id = some kind → kind.isMarked = true → g'.Justified rule.body id kind := by
  have hforest := forest_of_validate hvalid
  obtain ⟨rule, events, hrule, -, hanalyzed⟩ := analyzeRule_eq
    (fun rule ids hrule => hforest.nodup_of_walkMatched (SameShape.refl g).shapeIn hrule) h
  obtain ⟨ids, hids, hnodup⟩ := hforest.nodup_walkMatched hanalyzed.shape.shapeIn hrule
  have hprepared := hanalyzed.prepared (rooted_of_walkDown hids hnodup) (hclean rule hrule)
  exact ⟨rule, hrule, fun id kind hid => hprepared.justified hid⟩

end Grammar

/-- An `x` with a check before it, an `x`, or a `y`. -/
def flaggedWith (mark : Option Bool) (prediction : Option Decision) : Grammar where
  nodes := #[.ofKind (.check ⟨false, .code (Template.word "flag"), mark⟩),
    .ofKind (.terminal (.ofRanges [(120, 120)]) none), .ofKind (.sequence [0, 1]),
    .ofKind (.terminal (.ofRanges [(120, 120)]) mark),
    .ofKind (.terminal (.ofRanges [(121, 121)]) mark),
    .ofKind (.alternatives { Alternatives.ofArms [2, 3, 4] .once with errorBranch := true, prediction })]
  rules := [("flagged", .ofBody "flagged" 5)]

/-- Behind an `x` and the end of the input, the check decides. -/
def flaggedTree : Decision :=
  .level 0 false [
    ⟨.ofRanges [(120, 120)], [], .empty, .level 1 false [
      ⟨.endOfInput, [], .empty, .level 1 true [
        ⟨.endOfInput, [[⟨0, 0⟩]], .empty, .pick (.arm 0)⟩,
        ⟨.endOfInput, [], .empty, .pick (.arm 1)⟩] .endOfInput⟩,
      ⟨.ofRanges [(0, maxChar)], [], .endOfInput, .pick .error⟩] .endOfInput⟩,
    ⟨.ofRanges [(121, 121)], [], .ofRanges [(120, 120)], .pick (.arm 2)⟩,
    ⟨.ofRanges [(eof, 119), (122, maxChar)], [], .ofRanges [(120, 121)], .pick .error⟩]
    (.ofRanges [(120, 121)])

theorem flagged_analyzed : Yields (Grammar.analyzeRule "flagged" [("flagged", .endOfInput)] .default)
    (flaggedWith none none, []) ⟨⟩ (flaggedWith (some true) (some flaggedTree), []) := by
  unfold Yields
  cbv

theorem unmarked_flagged : (flaggedWith none none).Unmarked 5 := by
  have hall : ∀ node ∈ (flaggedWith none none).nodes.toList, node.kind.isMarked = false := by decide
  intro id kind _ hk
  obtain ⟨node, hnode, rfl⟩ := Option.map_eq_some_iff.1 hk
  exact hall node (Array.mem_toList_iff.2 (Array.mem_of_getElem? hnode))

/-- Where the first arm is selected the check was evaluated, and where the last one is the `y` was
seen. -/
theorem flagged_justified :
    (flaggedWith (some true) (some flaggedTree)).Justified 5 0
        (.check ⟨false, .code (Template.word "flag"), some true⟩) ∧
      (flaggedWith (some true) (some flaggedTree)).Justified 5 4
        (.terminal (.ofRanges [(121, 121)]) (some true)) := by
  obtain ⟨rule, hrule, hall⟩ := Grammar.justified_of_analyzeRule (by decide +kernel)
    (fun rule hrule => by cases hrule; exact unmarked_flagged) flagged_analyzed
  cases hrule
  exact ⟨hall 0 _ (.tail (.tail .refl ⟨_, rfl, .head _⟩) ⟨_, rfl, .head _⟩) rfl rfl,
    hall 4 _ (.tail .refl ⟨_, rfl, .tail _ (.tail _ (.head _))⟩) rfl rfl⟩

end PredictiveParser
