import PredictiveParser.Analysis.Rule
import PredictiveParser.Proofs.Grammar.Shape
import PredictiveParser.Proofs.Lookahead.Reading

/-!
# Annotations do not show to lookahead

In two grammars that agree up to what analysis attaches to nodes, and that have the same rules, looking
ahead does the same, whether it succeeds or fails. So one step of a search does the same in both
(`Lookahead.expand_in`), a search does (`Lookahead.steps_in`), and the trees of a rule come out the same
(`Grammar.SameShape.predictions`).
-/
namespace PredictiveParser

namespace Grammar

variable {g g' : Grammar} {id : NodeId}

theorem node_eq_error (h : g.kindAt? id = none) : g.node id = .error (.noSuchNode id) := by
  rw [node, Option.map_eq_none_iff.1 h]

theorem SameShape.node_eq_error (h : g.SameShape g') (hk : g.kindAt? id = none) :
    g'.node id = .error (.noSuchNode id) := by
  have hid := h id
  rw [hk, Option.map_none] at hid
  exact Grammar.node_eq_error (Option.map_eq_none_iff.1 hid.symm)

theorem SameShape.linkCount (h : g.SameShape g') : Lookahead.linkCount g' = Lookahead.linkCount g := by
  have hlengths : g'.nodes.toList.map (·.children.length) = g.nodes.toList.map (·.children.length) := by
    apply List.ext_getElem?
    intro i
    rw [List.getElem?_map, List.getElem?_map, Array.getElem?_toList, Array.getElem?_toList]
    cases hk : g.kindAt? i with
    | none =>
      have hnone := h i
      rw [hk, Option.map_none] at hnone
      rw [Option.map_eq_none_iff.1 hk,
        Option.map_eq_none_iff.1 (Option.map_eq_none_iff.1 hnone.symm)]
    | some kind =>
      obtain ⟨node, hnode, rfl⟩ := kindAt?_eq_some.1 hk
      obtain ⟨node', hnode', hbare⟩ := h.node hnode
      rw [node_eq_ok.1 hnode, node_eq_ok.1 hnode', Option.map_some, Option.map_some,
        Node.children_of_bare hbare]
  have sum : ∀ nodes : List Node, nodes.foldl (fun count node => count + node.children.length) 0 =
      (nodes.map (·.children.length)).foldl (· + ·) 0 := fun nodes => by rw [List.foldl_map]
  rw [Lookahead.linkCount, Lookahead.linkCount, ← Array.foldl_toList, ← Array.foldl_toList, sum, sum,
    hlengths]

/-- Visits that do the same at nodes of one shape do the same in both grammars. -/
theorem SameShape.visitDown {β : Type}
    {visit visit' : NodeId → Node → List Frame → Except (Failure GenerationError) (List β)}
    (h : g.SameShape g') (hvisit : ∀ id node node' after, node'.kind.bare = node.kind.bare →
      visit' id node' after = visit id node after) (depth : Nat) (id : NodeId) (after : List Frame) :
    g'.visitDown visit' depth id after = g.visitDown visit depth id after := by
  induction depth generalizing id after with
  | zero => rfl
  | succ depth ih =>
    rw [visitDown_succ, visitDown_succ]
    cases hk : g.kindAt? id with
    | none =>
      rw [Grammar.node_eq_error hk, h.node_eq_error hk]
      rfl
    | some kind =>
      obtain ⟨node, hnode, rfl⟩ := kindAt?_eq_some.1 hk
      obtain ⟨node', hnode', hbare⟩ := h.node hnode
      rw [hnode, hnode']
      show (visit' id node' after >>= _) = (visit id node after >>= _)
      simp only [hvisit id node node' after hbare, NodeKind.placesBelow_of_bare hbare, ih]

end Grammar

/-! ## Searches -/

namespace Lookahead

variable {la : Lookahead} {g' : Grammar} {offset : Nat} {config : Config}

theorem expandKind_of_bare {id : NodeId} {stack : List Frame} {checks : CheckSet} {past : Bool}
    {kind kind' : NodeKind} (h : kind'.bare = kind.bare) :
    la.expandKind offset id stack checks past kind' = la.expandKind offset id stack checks past kind := by
  have forget : ∀ kind : NodeKind, la.expandKind offset id stack checks past kind.bare =
      la.expandKind offset id stack checks past kind := by
    rintro (_ | _ | _ | _ | _ | _) <;> rfl
  rw [← forget kind', h, forget kind]

section

variable (h : la.grammar.SameShape g') (hrules : g'.rules = la.grammar.rules)

include h hrules

theorem expand_in :
    ({ la with grammar := g' } : Lookahead).expand offset config = la.expand offset config := by
  obtain ⟨stack, checks, past⟩ := config
  match stack with
  | [] => rfl
  | .ruleEnd :: below => rfl
  | .node id :: below =>
    cases hk : la.grammar.kindAt? id with
    | none =>
      unfold expand
      simp only [Grammar.node_eq_error hk, h.node_eq_error hk]
      rfl
    | some kind =>
      obtain ⟨kind', hk', hbare⟩ := h.kindAt? hk
      have hsame : ({ la with grammar := g' } : Lookahead).expand offset
          ⟨.node id :: below, checks, past⟩ = _ := expand_node hk'
      rw [hsame, expandKind_of_bare hbare, expand_node hk]
      cases kind with
      | call callee =>
        simp only [expandKind, Grammar.rule?_of_rules hrules]
      | _ => rfl

theorem searchStages_in :
    ({ la with grammar := g' } : Lookahead).searchStages config = la.searchStages config := by
  unfold searchStages
  simp only [h.size, h.linkCount, hrules]

/-- **A search does the same.** -/
theorem steps_in :
    ({ la with grammar := g' } : Lookahead).steps config offset = la.steps config offset := by
  have hexpand : ∀ config, ({ la with grammar := g' } : Lookahead).expand offset config =
      la.expand offset config := fun _ => expand_in h hrules
  have hstep : ({ la with grammar := g' } : Lookahead).searchStep offset = la.searchStep offset := by
    funext search
    unfold searchStep
    simp only [hexpand]
  rw [steps, steps, hstep, searchStages_in h hrules]

theorem regionsOf_in (live : Live) :
    regionsOf { la with grammar := g' } live offset = regionsOf la live offset := by
  unfold regionsOf
  simp only [steps_in h hrules]

theorem buildLevel_in (alts : Alternatives) (left offset : Nat) (path : List CharSet) (live : Live) :
    buildLevel { la with grammar := g' } alts left offset path live =
      buildLevel la alts left offset path live := by
  induction left generalizing offset path live with
  | zero =>
    unfold buildLevel levelOf
    rw [regionsOf_in h hrules]
  | succ left ih =>
    have hdeeper : buildLevel { la with grammar := g' } alts left (offset + 1) =
        buildLevel la alts left (offset + 1) := funext fun path => funext fun live => ih _ path live
    unfold buildLevel levelOf
    rw [regionsOf_in h hrules, hdeeper]

end

/-- The tree that an alternative set has does not count for the one that it gets. -/
theorem buildLevel_setPrediction (alts : Alternatives) (prediction : Option Decision)
    (left offset : Nat) (path : List CharSet) (live : Live) :
    buildLevel la { alts with prediction } left offset path live =
      buildLevel la alts left offset path live := by
  induction left generalizing offset path live with
  | zero => rfl
  | succ left ih =>
    have hdeeper : buildLevel la { alts with prediction } left (offset + 1) =
        buildLevel la alts left (offset + 1) := funext fun path => funext fun live => ih _ path live
    rw [buildLevel, buildLevel, hdeeper]
    rfl

theorem predictionOf_setPrediction {k : Nat} {id : NodeId} (alts : Alternatives)
    (prediction : Option Decision) (after : List Frame) :
    predictionOf la k id { alts with prediction } after = predictionOf la k id alts after := by
  rw [predictionOf, buildLevel_setPrediction]
  rfl

theorem predictionOf_in (h : la.grammar.SameShape g') (hrules : g'.rules = la.grammar.rules) (k : Nat)
    (id : NodeId) (alts : Alternatives) (after : List Frame) :
    predictionOf { la with grammar := g' } k id alts after = predictionOf la k id alts after :=
  buildLevel_in h hrules alts _ _ _ _

end Lookahead

/-- **The trees of a rule come out the same.** -/
theorem Grammar.SameShape.predictions {la : Lookahead} {g' : Grammar}
    (h : la.grammar.SameShape g') (hrules : g'.rules = la.grammar.rules) (k : Nat) (body : NodeId) :
    g'.predictions { la with grammar := g' } k body = la.grammar.predictions la k body := by
  unfold Grammar.predictions visitContinuations depthBound
  rw [h.size]
  refine h.visitDown (fun id node node' after hbare => ?_) _ _ _
  have hpredict : ∀ (alts : Alternatives) after, predictionOf { la with grammar := g' } k id alts after =
      predictionOf la k id alts after := fun alts after => Lookahead.predictionOf_in h hrules k id alts after
  simp only [hpredict]
  generalize node'.kind = kind' at hbare
  cases hkind : node.kind with
  | alternatives alts =>
    rw [hkind] at hbare
    obtain ⟨prediction, rfl⟩ := NodeKind.of_bare_alternatives hbare
    simp only [Lookahead.predictionOf_setPrediction]
  | _ =>
    rw [hkind] at hbare
    cases kind' <;> first | rfl | cases hbare

end PredictiveParser
