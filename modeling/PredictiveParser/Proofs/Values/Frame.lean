import PredictiveParser.Proofs.Analysis.Paired
import PredictiveParser.Proofs.Grammar.Blank
import PredictiveParser.Proofs.Grammar.Naming
import PredictiveParser.Proofs.Values.Saving

/-!
# What analyzing and saving a rule leave as they are

Analyzing a rule and saving its values change nodes that the rule matches, and no check comes to run
another rule (`Grammar.Touches`, `touches_analyzeRule`, `touches_saveValues`). So a grammar that is
ready for generation stays so: `Ready.touches`.
-/
namespace PredictiveParser

open Relation

namespace Grammar

variable {g g' g'' : Grammar} {ids : NodeId → Prop} {id : NodeId} {name : String}

/-- At most these nodes change, and every check runs the rule that it ran. -/
structure Touches (g : Grammar) (ids : NodeId → Prop) (g' : Grammar) : Prop where
  frame : ∀ id, ¬ ids id → g'.nodes[id]? = g.nodes[id]?
  runs : ∀ id, (g'.kindAt? id).map NodeKind.checkRule? = (g.kindAt? id).map NodeKind.checkRule?

theorem Touches.refl (g : Grammar) (ids : NodeId → Prop) : g.Touches ids g := ⟨fun _ _ => rfl, fun _ => rfl⟩

theorem Touches.trans (h : g.Touches ids g') (h' : g'.Touches ids g'') : g.Touches ids g'' where
  frame id hid := (h'.frame id hid).trans (h.frame id hid)
  runs id := (h'.runs id).trans (h.runs id)

theorem touches_modifyNode {f : Node → Node} (hid : ids id) (h : g.modifyNode id f = .ok g')
    (hf : ∀ node, g.node id = .ok node → (f node).kind.checkRule? = node.kind.checkRule?) :
    g.Touches ids g' where
  frame other hother := by
    rw [(modifyNode_eq_ok h).2, if_neg]
    rintro rfl
    exact hother hid
  runs other := by
    rw [kindAt?_modifyNode h]
    split
    · rename_i heq
      subst heq
      cases hnode : g.nodes[other]? with
      | none => simp [kindAt?, hnode]
      | some node => simp [kindAt?, hnode, hf node (node_eq_ok.2 hnode)]
    · rfl

/-! ## Labels -/

theorem touches_passLabel {rule label : String} {node : Node} {events : List Event}
    (harms : ∀ child ∈ node.matchedChildren, ids child)
    (h : g.passLabel rule id node label = .ok (g', events)) : g.Touches ids g' := by
  unfold passLabel at h
  split at h
  · rename_i alts halts
    obtain ⟨g₁, hg₁, h⟩ := bind_eq_ok.1 h
    cases pure_eq_ok.1 h
    rw [Node.matchedChildren, Node.alternatives?_eq_some.1 halts] at harms
    refine foldlM_invariant (P := fun now => g.Touches ids now) ?_ (.refl g ids) hg₁
    intro arm harm now next hnow hnext
    exact hnow.trans (touches_modifyNode (harms arm harm) hnext fun _ _ => rfl)
  · cases pure_eq_ok.1 h
    exact .refl _ _

theorem touches_moveLabel {rule : String} {events : List Event} (hid : ids id)
    (hbelow : ∀ child, g.Link Node.matchedChildren id child → ids child)
    (h : g.moveLabel rule id = .ok (g', events)) : g.Touches ids g' := by
  unfold moveLabel at h
  obtain ⟨node, hnode, h⟩ := bind_eq_ok.1 h
  split at h
  · cases pure_eq_ok.1 h
    exact .refl _ _
  · split at h
    · cases pure_eq_ok.1 h
      exact .refl _ _
    · obtain ⟨⟨g₁, events₁⟩, hpass, h⟩ := bind_eq_ok.1 h
      obtain ⟨g₂, hg₂, h⟩ := bind_eq_ok.1 h
      cases pure_eq_ok.1 h
      have harms := touches_passLabel (fun child hchild => hbelow child ⟨node, hnode, hchild⟩) hpass
      exact harms.trans (touches_modifyNode hid hg₂ fun _ _ => rfl)

theorem touches_moveLabels {rule : String} {list : List NodeId} {events : List Event}
    (hids : ∀ id ∈ list, ids id)
    (hbelow : ∀ id child, ids id → g.Link Node.matchedChildren id child → ids child)
    (h : moveLabels rule list g = .ok (g', events)) : g.Touches ids g' := by
  induction list generalizing g events with
  | nil =>
    cases pure_eq_ok.1 h
    exact .refl _ _
  | cons id rest ih =>
    rw [moveLabels] at h
    obtain ⟨⟨g₁, events₁⟩, hfirst, h⟩ := bind_eq_ok.1 h
    obtain ⟨⟨g₂, events₂⟩, hrest, h⟩ := bind_eq_ok.1 h
    cases pure_eq_ok.1 h
    obtain ⟨hid, hothers⟩ := List.forall_mem_cons.1 hids
    have hshape := (relabels_moveLabel hfirst).annotates.kinds.sameShape
    exact (touches_moveLabel hid (fun child => hbelow id child hid) hfirst).trans
      (ih hothers (fun id child hid hlink => hbelow id child hid (hshape.symm.link hlink)) hrest)

end Grammar

/-! ## Variables -/

namespace Saving

variable {saving saving' : Saving} {refs : Referenced} {rule : String} {options : Options}
  {id : NodeId} {ids : NodeId → Prop} {found : List String} {g g' : Grammar}

theorem touches_saveNode (hid : ids id) (h : saveNode refs rule options saving id = .ok saving') :
    saving.grammar.Touches ids saving'.grammar := by
  rcases grammar_saveNode h with hsame | ⟨saver, hmodify⟩
  · rw [hsame]
    exact .refl _ _
  · exact Grammar.touches_modifyNode hid hmodify fun _ _ => rfl

theorem checkRule?_substituteKind {kind kind' : NodeKind} {keys : List String}
    (h : substituteKind refs found kind = .ok (kind', keys)) : kind'.checkRule? = kind.checkRule? := by
  rcases substituteKind_cases h with ⟨_, _, _, _, -, rfl, rfl⟩ | ⟨-, rfl, -⟩ <;> rfl

theorem touches_substituteNode {keys : List String} (hid : ids id)
    (h : substituteNode refs found g id = .ok (g', keys)) : g.Touches ids g' := by
  obtain ⟨node, pre, _, post, _, kind, third, hnode, -, -, hkind, -, hmodify⟩ := substituteNode_eq_ok h
  refine Grammar.touches_modifyNode hid hmodify fun node' hnode' => ?_
  cases hnode.symm.trans hnode'
  exact checkRule?_substituteKind hkind

theorem touches_substituteAll {list : List NodeId} {dangling : List (NodeId × String)}
    (hids : ∀ id ∈ list, ids id) (h : substituteAll refs found list g = .ok (g', dangling)) :
    g.Touches ids g' := by
  induction list generalizing g dangling with
  | nil =>
    cases pure_eq_ok.1 h
    exact .refl _ _
  | cons id rest ih =>
    rw [substituteAll] at h
    obtain ⟨⟨g₁, keys⟩, hfirst, h⟩ := bind_eq_ok.1 h
    obtain ⟨⟨g₂, more⟩, hrest, h⟩ := bind_eq_ok.1 h
    cases pure_eq_ok.1 h
    obtain ⟨hid, hothers⟩ := List.forall_mem_cons.1 hids
    exact (touches_substituteNode hid hfirst).trans (ih hothers hrest)

end Saving

namespace Grammar

variable {g g' : Grammar} {ids : NodeId → Prop} {id : NodeId} {name : String} {options : Options}

theorem touches_declareVariables {declared : List Declared} (hid : ids id)
    (h : g.declareVariables id declared = .ok g') : g.Touches ids g' := by
  unfold declareVariables at h
  split at h
  · cases h
    exact .refl _ _
  · exact touches_modifyNode hid h fun _ _ => rfl

/-- **Saving the values of a rule changes what the rule matches.** -/
theorem touches_saveValues {events : List Event} (h : g.saveValues name options = .ok (g', events)) :
    ∃ rule, g.rule? name = some rule ∧ g.Touches (g.MatchedBy rule.body) g' := by
  obtain ⟨steps⟩ := exists_savingSteps h
  have hlabels : g.Touches (g.MatchedBy steps.rule.body) steps.moved :=
    touches_moveLabels (fun _ => steps.mem_first.1) (fun _ _ hid hlink => hid.tail hlink) steps.moves
  have hsaves : steps.moved.Touches (g.MatchedBy steps.rule.body) steps.saved.grammar :=
    foldlM_invariant
      (P := fun now : Saving => steps.moved.Touches (g.MatchedBy steps.rule.body) now.grammar)
      (fun id hid now next hnow hnext => hnow.trans
        (Saving.touches_saveNode (steps.mem_ids.1 hid) (liftM_eq_ok.1 hnext))) (.refl _ _) steps.saves
  have hreplaces := Saving.touches_substituteAll (fun _ => steps.mem_ids.1) steps.replaces
  have hdeclares : steps.replaced.Touches (g.MatchedBy steps.rule.body) g' :=
    touches_declareVariables .refl steps.declares
  exact ⟨steps.rule, steps.found, hlabels.trans (hsaves.trans (hreplaces.trans hdeclares))⟩

/-! ## Analysis -/

/-- **Analyzing a rule changes predictions and marks only.** -/
theorem agrees_analyzeRule {journal journal' : List Event} {follow : FollowSets}
    (h : Yields (analyzeRule name follow options) (g, journal) ⟨⟩ (g', journal')) :
    Agrees Node.unanalyzed g g' :=
  analyzeRule_invariant (P := fun now => Agrees Node.unanalyzed g now)
    (fun _ _ prediction _ hnow hset =>
      hnow.trans (agrees_modifyNode hset fun node => node.unanalyzed_withPrediction prediction))
    (fun _ _ mark _ hnow hset =>
      hnow.trans (agrees_modifyNode hset fun node => node.unanalyzed_withPrematched mark))
    (.refl _ g) h

/-- **Analyzing a rule changes what the rule matches.** -/
theorem touches_analyzeRule {journal journal' : List Event} {follow : FollowSets}
    (h : Yields (analyzeRule name follow options) (g, journal) ⟨⟩ (g', journal')) :
    ∃ rule, g.rule? name = some rule ∧ g.Touches (g.MatchedBy rule.body) g' := by
  obtain ⟨rule, hrule, -, -, hframe⟩ := frame_analyzeRule h
  refine ⟨rule, hrule, hframe, fun id => ?_⟩
  have hsame := ((agrees_analyzeRule h).comp fun node => node.kind.checkRule?).nodes id
  have hread : ∀ g : Grammar, (g.kindAt? id).map NodeKind.checkRule? =
      g.nodes[id]?.map ((fun node => node.kind.checkRule?) ∘ Node.unanalyzed) := by
    intro g
    rw [kindAt?, Option.map_map]
    exact congrFun (congrArg Option.map (funext fun node => node.kind.checkRule?_unanalyzed.symm)) _
  rw [hread, hread, hsame]

/-! ## Readiness -/

theorem SameShape.predicted (h : g.SameShape g') (hrules : g'.rules = g.rules)
    (hid : g.Predicted id) : g'.Predicted id := by
  obtain ⟨name, rule, hrule, hreach⟩ := hid
  refine ⟨name, rule, (rule?_of_rules hrules name).trans hrule, ReflTransGen.mono ?_ _ _ hreach⟩
  exact fun parent child hlink => h.shapeIn.link (fun _ _ => Node.predictedChildren_of_bare) hlink

/-- **A grammar stays ready.** -/
theorem Ready.touches (hg : g.Ready) (hshape : g.SameShape g') (hrules : g'.rules = g.rules)
    (h : g.Touches ids g') : g'.Ready where
  forest := hg.forest.of_sameShape hshape (by rw [ruleList, hrules, ruleList])
    fun name => Exists.imp fun _ => (rule?_of_rules hrules name).trans
  keyed := hg.keyed.of_rules hrules
  rules := by
    obtain ⟨hnames, hrecognizers⟩ := hg.rules
    refine ⟨fun name rule hrule => ?_, fun name rule recognizer hrule => ?_⟩
    · exact hnames name rule (rule?_of_rules hrules name ▸ hrule)
    · exact hrecognizers name rule recognizer (rule?_of_rules hrules name ▸ hrule)
  recognized := by
    intro name callee rule called hcalls hrule hcalled
    obtain ⟨caller, id, hcaller, hid, hk⟩ := hcalls
    rw [rule?_of_rules hrules] at hcaller hrule hcalled
    obtain ⟨kind, hkind, hbare⟩ := hshape.symm.kindAt? hk
    rw [NodeKind.of_bare_call hbare] at hkind
    exact hg.recognized name callee rule called
      ⟨caller, id, hcaller, hshape.symm.matchedBy hid, hkind⟩ hrule hcalled
  checked := by
    intro id negate payload made mark hid hk
    have hruns := h.runs id
    rw [hk] at hruns
    obtain ⟨kind, hkind, hsame⟩ := Option.map_eq_some_iff.1 hruns.symm
    have hpredicted := hshape.symm.predicted hrules.symm hid
    obtain ⟨negate', payload', mark', rfl⟩ : ∃ negate' payload' mark',
        kind = .check ⟨negate', .syntactic payload' made, mark'⟩ := by
      rcases kind with _ | _ | _ | ⟨negate', _ | ⟨payload', made'⟩, mark'⟩ | _ | _ <;> cases hsame
      exact ⟨_, _, _, rfl⟩
    obtain ⟨name, rule, rfl, hrule, hsome⟩ :=
      hg.checked id negate' payload' made mark' hpredicted hkind
    exact ⟨name, rule, rfl, (rule?_of_rules hrules name).trans hrule, hsome⟩

theorem Ready.analyzeRule (hg : g.Ready) {journal journal' : List Event} {follow : FollowSets}
    (h : Yields (Grammar.analyzeRule name follow options) (g, journal) ⟨⟩ (g', journal')) :
    g'.Ready := by
  obtain ⟨rule, -, hshape, hrules, -⟩ := frame_analyzeRule h
  obtain ⟨rule', -, htouches⟩ := touches_analyzeRule h
  exact hg.touches hshape hrules htouches

theorem Ready.saveValues (hg : g.Ready) {events : List Event}
    (h : g.saveValues name options = .ok (g', events)) : g'.Ready := by
  have hannotates := annotates_saveValues h
  obtain ⟨rule, -, htouches⟩ := touches_saveValues h
  exact hg.touches hannotates.kinds.sameShape hannotates.rules htouches

end Grammar

end PredictiveParser
