import Mathlib
import PredictiveParser.Proofs.Analysis.Paired
import PredictiveParser.Proofs.Values.Saving

/-!
# Analysis after earlier analysis

Two grammars that differ in predictions and marks only are what earlier analyses leave, with other options
or other settings of the alternative sets, and what copies of analyzed trees bring along. A rule is analyzed
in both alike (`analyzeRule_of_agrees`): with the same messages, to the same predictions, and the same marks
are set. But marks are set only and never taken back. One that was there before stays, also where the new
prediction has not tested the node (`choice_reanalyzed`).
-/
namespace PredictiveParser

namespace Grammar

variable {g g' h : Grammar} {id : NodeId} {name : String} {follow : FollowSets} {options : Options}
  {journal journal' : List Event}

def predictionAt? (g : Grammar) (id : NodeId) : Option Decision :=
  (g.kindAt? id).bind NodeKind.prediction?

theorem Agrees.size {α : Type} {f : Node → α} (hsame : Agrees f g h) : h.nodes.size = g.nodes.size := by
  have hnone : ∀ id : NodeId, h.nodes.size ≤ id ↔ g.nodes.size ≤ id := fun id => by
    rw [← Array.getElem?_eq_none_iff, ← Array.getElem?_eq_none_iff, ← Option.map_eq_none_iff,
      hsame.nodes id, Option.map_eq_none_iff]
  exact Nat.le_antisymm ((hnone _).2 (Nat.le_refl _)) ((hnone _).1 (Nat.le_refl _))

theorem Agrees.agreeing (hsame : Agrees Node.unanalyzed g h) :
    g.Agreeing (fun _ => True) (fun _ => False) (fun _ => False) h where
  size := hsame.size
  related {id n m} hn hm := by
    have heq := hsame.nodes id
    rw [node_eq_ok.1 hn, node_eq_ok.1 hm] at heq
    have heq : m.unanalyzed = n.unanalyzed := Option.some.inj heq
    exact ⟨NodeKind.bare_of_unanalyzed (congrArg Node.kind heq), fun _ => heq, nofun, nofun⟩
  rules := hsame.rules

/-- **A rule is analyzed alike, whatever was analyzed before.** Its predictions come out the same. Its
marks come out the same where they are set now. Elsewhere each grammar keeps the mark that it had. -/
theorem analyzeRule_of_agrees (hsame : Agrees Node.unanalyzed g h)
    (hrun : Yields (analyzeRule name follow options) (g, journal) ⟨⟩ (g', journal')) :
    ∃ rule h' events, g.rule? name = some rule ∧ journal' = journal ++ events ∧
      (∀ journal₂, Yields (analyzeRule name follow options) (h, journal₂) ⟨⟩
        (h', journal₂ ++ events)) ∧
      Agrees Node.unanalyzed g' h' ∧
      (∀ id, g.MatchedBy rule.body id → h'.predictionAt? id = g'.predictionAt? id) ∧
      ∀ id, (g'.markAt? id = some true ∧ h'.markAt? id = some true) ∨
        (g'.markAt? id = g.markAt? id ∧ h'.markAt? id = h.markAt? id) := by
  obtain ⟨rule, proven, h', events, hrule, hjournal, hp, hset, hset', hrun'⟩ :=
    hsame.agreeing.analyzeRule (fun _ _ _ _ => trivial) hrun
  refine ⟨rule, h', events, hrule, hjournal, hrun', ⟨fun id => ?_, hp.rules⟩, fun id hid => ?_,
    fun id => ?_⟩
  · exact hp.map_eq id _ fun n m hn => hn.own trivial
  · have hpredictions := hp.map_eq id (fun node => node.kind.prediction?)
      fun n m hn => hn.predicted (Or.inl hid)
    have hread : ∀ g : Grammar, g.predictionAt? id =
        (g.nodes[id]?.map fun node => node.kind.prediction?).bind fun prediction => prediction := by
      intro g
      rw [predictionAt?, kindAt?, Option.bind_map, Option.bind_map]
      rfl
    rw [hread, hread, hpredictions]
  · by_cases hid : id ∈ proven
    · exact Or.inl ⟨hset.set id hid, hset'.set id hid⟩
    · exact Or.inr ⟨hset.kept id hid, hset'.kept id hid⟩

end Grammar

/-- An `a`, which is taken by default, or a `b`. -/
def choiceWith (first second : Option Bool) (prediction : Option Decision) : Grammar where
  nodes := #[.ofKind (.terminal (.ofRanges [(97, 97)]) first),
    .ofKind (.terminal (.ofRanges [(98, 98)]) second), .ofKind (.alternatives
      { Alternatives.ofArms [0, 1] .once with defaultArm := some 0, prediction })]
  rules := [("choice", .ofBody "choice" 2)]

/-- The tree without a default arm. -/
def choiceTree : Decision :=
  .level 0 false [
    ⟨.ofRanges [(97, 97)], [], .empty, .pick (.arm 0)⟩,
    ⟨.ofRanges [(eof, 96), (98, maxChar)], [], .ofRanges [(97, 97)], .pick (.arm 1)⟩] .everything

/-- Anything but a `b` chooses the default arm. -/
def choiceDefaultTree : Decision :=
  .level 0 false [
    ⟨.ofRanges [(98, 98)], [], .empty, .pick (.arm 1)⟩,
    ⟨.ofRanges [(eof, 97), (99, maxChar)], [], .ofRanges [(98, 98)], .pick (.arm 0)⟩] .everything

theorem choice_analyzed : Yields (Grammar.analyzeRule "choice" [("choice", .endOfInput)] .default)
    (choiceWith none none none, []) ⟨⟩ (choiceWith none (some true) (some choiceDefaultTree), []) := by
  unfold Yields
  cbv

/-- The set was analyzed without a default arm before, and the `a` was marked. It stays marked, although
the new prediction also takes its arm for other terminals. Without the earlier analysis it has no mark. -/
theorem choice_reanalyzed : ∃ h' events,
    Yields (Grammar.analyzeRule "choice" [("choice", .endOfInput)] .default)
      (choiceWith none none none, []) ⟨⟩ (choiceWith none (some true) (some choiceDefaultTree), events) ∧
    Yields (Grammar.analyzeRule "choice" [("choice", .endOfInput)] .default)
      (choiceWith (some true) none (some choiceTree), []) ⟨⟩ (h', events) ∧
    h'.predictionAt? 2 = some choiceDefaultTree ∧ h'.markAt? 1 = some true ∧
    h'.markAt? 0 = some true ∧
    (choiceWith none (some true) (some choiceDefaultTree)).markAt? 0 = none := by
  have hsame : Grammar.Agrees Node.unanalyzed (choiceWith none none none)
      (choiceWith (some true) none (some choiceTree)) := by
    refine ⟨fun id : Nat => ?_, rfl⟩
    by_cases hid : id < 3
    · have : id = 0 ∨ id = 1 ∨ id = 2 := by omega
      obtain rfl | rfl | rfl := this <;> rfl
    · rw [Array.getElem?_eq_none (Nat.le_of_not_lt hid), Array.getElem?_eq_none (Nat.le_of_not_lt hid)]
  obtain ⟨rule, h', events, hrule, hjournal, hrun, -, hpredicted, hmarks⟩ :=
    Grammar.analyzeRule_of_agrees hsame choice_analyzed
  cases hrule
  cases hjournal
  refine ⟨h', [], choice_analyzed, hrun [], hpredicted 2 .refl, ?_, ?_, rfl⟩
  · obtain ⟨-, hmark⟩ | ⟨hnew, -⟩ := hmarks 1
    · exact hmark
    · cases hnew
  · obtain ⟨hnew, -⟩ | ⟨-, hmark⟩ := hmarks 0
    · cases hnew
    · exact hmark

end PredictiveParser
