import PredictiveParser.Analysis.Rule
import PredictiveParser.Proofs.Grammar.Shape
import PredictiveParser.Proofs.Lookahead.Levels
import PredictiveParser.Proofs.Yields

/-!
# Attaching prediction trees

* `predictions_eq_ok`: the trees of a rule are those of its alternative sets, each built for the place
  of its set, and no two of them are for one node.
* `attaches_forM`: attaching trees changes the predictions of their nodes and nothing else. If
  nothing is said on the way, the trees were built without a warning.
* `logs_analyzeRule`: what analysis says are messages about the rule.
-/
namespace PredictiveParser

open Relation

/-- The event is a message, and not that a rule is left out. -/
def Event.IsReport (event : Event) : Prop :=
  ∃ message, event = .report message

/-- The event is a message about the rule or about a node of it. -/
def Event.Concerns (rule : String) (event : Event) : Prop :=
  ∃ message, event = .report message ∧ message.location.rule = rule

theorem Event.Concerns.isReport {rule : String} {event : Event} (h : event.Concerns rule) :
    event.IsReport :=
  h.imp fun _ => And.left

theorem Event.concerns_atNode (g : Grammar) (severity : Severity) (rule : String) (id : NodeId)
    (body : String) : (Event.atNode g severity rule id body).Concerns rule :=
  ⟨_, rfl, rfl⟩

namespace Pass

variable {α β : Type} {s s' : Grammar × List Event}

theorem yields_grammar_bind {f : Grammar → Pass β} {b : β} :
    Yields (Pass.grammar >>= f) s b s' ↔ Yields (f s.1) s b s' := by
  unfold Pass.grammar
  rw [bind_assoc, yields_get_bind, pure_bind]

theorem yields_liftFault_bind {result : Except Fault α} {f : α → Pass β} {b : β} :
    Yields (Pass.liftFault result >>= f) s b s' ↔ ∃ a, result = .ok a ∧ Yields (f a) s b s' := by
  refine yields_lift_bind.trans (exists_congr fun a => and_congr_left' mapError_eq_ok)

end Pass

namespace Grammar

variable {g g' : Grammar} {journal journal' : List Event} {rule : String}

/-! ## Attaching trees -/

theorem yields_warnings {warnings : List String} {f : String → Event} {s s' : Grammar × List Event} :
    Yields (warnings.forM fun warning => Pass.say (f warning)) s ⟨⟩ s' ↔
      s' = (s.1, s.2 ++ warnings.map f) := by
  induction warnings generalizing s with
  | nil => rw [yields_forM_nil, List.map_nil, List.append_nil]
  | cons warning rest ih =>
    rw [yields_forM_cons, List.map_cons, List.append_cons]
    constructor
    · rintro ⟨m, hm, h⟩
      rw [ih.1 h, yields_modify.1 hm]
    · rintro rfl
      exact ⟨_, yields_modify.2 rfl, ih.2 rfl⟩

/-- What attaching one tree does. -/
theorem yields_attach {analyzed : Analyzed} :
    Yields (attach rule analyzed) (g, journal) ⟨⟩ (g', journal') ↔
      journal' = journal ++ analyzed.warnings.map
        (fun warning => .atNode g .warning rule analyzed.node warning) ∧
      ∃ node, g.node analyzed.node = .ok node ∧
        (node.alternatives? = none ∧ g' = g ∨ ∃ alts, node.alternatives? = some alts ∧
          analyzed.tree.invalidAlt? alts.arms.length alts.hasExit = none ∧
          g.setPrediction analyzed.node (some analyzed.tree) = .ok g') := by
  unfold attach
  rw [Pass.yields_grammar_bind, yields_bind]
  constructor
  · rintro ⟨_, m, hwarn, h⟩
    cases yields_warnings.1 hwarn
    obtain ⟨node, hnode, h⟩ := Pass.yields_liftFault_bind.1 h
    split at h
    · rename_i hnone
      cases (yields_pure.1 h).2
      exact ⟨rfl, node, hnode, Or.inl ⟨hnone, rfl⟩⟩
    · rename_i alts halts
      split at h
      · exact (not_yields_throw h).elim
      · rename_i hvalid
        obtain ⟨g₁, hset, h⟩ := Pass.yields_liftFault_bind.1 h
        cases yields_modify.1 h
        exact ⟨rfl, node, hnode, Or.inr ⟨alts, halts, hvalid, hset⟩⟩
  · rintro ⟨rfl, node, hnode, hattached⟩
    refine ⟨⟨⟩, _, yields_warnings.2 rfl, Pass.yields_liftFault_bind.2 ⟨node, hnode, ?_⟩⟩
    obtain ⟨hnone, rfl⟩ | ⟨alts, halts, hvalid, hset⟩ := hattached
    · simp only [hnone]
      exact yields_pure.2 ⟨rfl, rfl⟩
    · simp only [halts, hvalid]
      exact Pass.yields_liftFault_bind.2 ⟨g', hset, yields_modify.2 rfl⟩

/-- Attaching a tree sets the prediction of its node, if that is an alternative set, and it says something
if the tree was built with warnings. -/
theorem attach_eq {analyzed : Analyzed}
    (h : Yields (attach rule analyzed) (g, journal) ⟨⟩ (g', journal')) :
    (∃ events, journal' = journal ++ events ∧ (events = [] → analyzed.warnings = [])) ∧
    ((∀ alts, g.kindAt? analyzed.node ≠ some (.alternatives alts)) ∧ g' = g ∨
      ∃ alts, g.kindAt? analyzed.node = some (.alternatives alts) ∧
        analyzed.tree.invalidAlt? alts.arms.length alts.hasExit = none ∧
        g.setPrediction analyzed.node (some analyzed.tree) = .ok g') := by
  obtain ⟨rfl, node, hnode, hattached⟩ := yields_attach.1 h
  have hkind := kindAt?_of_node hnode
  refine ⟨⟨_, rfl, List.map_eq_nil_iff.1⟩, ?_⟩
  obtain ⟨hnone, rfl⟩ | ⟨alts, halts, hvalid, hset⟩ := hattached
  · refine Or.inl ⟨fun alts halts => ?_, rfl⟩
    rw [hkind] at halts
    rw [Node.alternatives?_eq_some.2 (Option.some.inj halts)] at hnone
    cases hnone
  · rw [hkind, Node.alternatives?_eq_some.1 halts]
    exact Or.inr ⟨alts, rfl, hvalid, hset⟩

theorem sameShape_attach {analyzed : Analyzed}
    (h : Yields (attach rule analyzed) (g, journal) ⟨⟩ (g', journal')) :
    g.SameShape g' ∧ g'.rules = g.rules := by
  obtain ⟨-, ⟨-, rfl⟩ | ⟨alts, -, -, hset⟩⟩ := attach_eq h
  · exact ⟨.refl g', rfl⟩
  · exact ⟨sameShape_setPrediction hset, (modifyNode_eq_ok hset).1⟩

theorem node_attach {analyzed : Analyzed}
    (h : Yields (attach rule analyzed) (g, journal) ⟨⟩ (g', journal')) {id : NodeId}
    (hid : id ≠ analyzed.node) : g'.nodes[id]? = g.nodes[id]? := by
  obtain ⟨-, ⟨-, rfl⟩ | ⟨alts, -, -, hset⟩⟩ := attach_eq h
  · rfl
  · rw [(modifyNode_eq_ok hset).2 id, if_neg hid]

/-- Only alternative sets get trees. -/
theorem node_attach_of_ne {analyzed : Analyzed}
    (h : Yields (attach rule analyzed) (g, journal) ⟨⟩ (g', journal')) {id : NodeId}
    (hid : ∀ alts, g.kindAt? id ≠ some (.alternatives alts)) : g'.nodes[id]? = g.nodes[id]? := by
  obtain ⟨-, ⟨-, rfl⟩ | ⟨alts, hk, -, -⟩⟩ := attach_eq h
  · rfl
  · exact node_attach h fun heq => hid alts (heq ▸ hk)

theorem kindAt?_setPrediction {id : NodeId} {alts : Alternatives} {prediction : Option Decision}
    (hk : g.kindAt? id = some (.alternatives alts)) (h : g.setPrediction id prediction = .ok g') :
    g'.kindAt? id = some (.alternatives { alts with prediction }) := by
  obtain ⟨node, hnode, hkind⟩ := kindAt?_eq_some.1 hk
  rw [kindAt?_modifyNode h, if_pos rfl, node_eq_ok.1 hnode, Option.map_some, kind_mapAlternatives,
    hkind]

theorem nodes_forM {trees : List Analyzed} {id : NodeId}
    (h : Yields (trees.forM (attach rule)) (g, journal) ⟨⟩ (g', journal'))
    (hid : ∀ analyzed ∈ trees, id ≠ analyzed.node) : g'.nodes[id]? = g.nodes[id]? := by
  induction trees generalizing g journal with
  | nil =>
    cases yields_forM_nil.1 h
    rfl
  | cons first rest ih =>
    obtain ⟨⟨g₁, journal₁⟩, hfirst, h⟩ := yields_forM_cons.1 h
    rw [ih h fun analyzed ha => hid analyzed (List.mem_cons_of_mem _ ha),
      node_attach hfirst (hid first List.mem_cons_self)]

theorem sameShape_forM {trees : List Analyzed}
    (h : Yields (trees.forM (attach rule)) (g, journal) ⟨⟩ (g', journal')) :
    g.SameShape g' ∧ g'.rules = g.rules := by
  induction trees generalizing g journal with
  | nil =>
    cases yields_forM_nil.1 h
    exact ⟨.refl _, rfl⟩
  | cons first rest ih =>
    obtain ⟨⟨g₁, journal₁⟩, hfirst, h⟩ := yields_forM_cons.1 h
    obtain ⟨hshape, hrules⟩ := sameShape_attach hfirst
    obtain ⟨hshape', hrules'⟩ := ih h
    exact ⟨hshape.trans hshape', hrules'.trans hrules⟩

/-- What attaching several trees to different nodes does. -/
structure Attaches (g : Grammar) (trees : List Analyzed) (g' : Grammar) : Prop where
  shape : g.SameShape g'
  rules : g'.rules = g.rules
  frame : ∀ id, (∀ analyzed ∈ trees, id ≠ analyzed.node) → g'.nodes[id]? = g.nodes[id]?
  others : ∀ id, (∀ alts, g.kindAt? id ≠ some (.alternatives alts)) → g'.nodes[id]? = g.nodes[id]?
  attached : ∀ analyzed ∈ trees, ∀ alts, g.kindAt? analyzed.node = some (.alternatives alts) →
    analyzed.tree.invalidAlt? alts.arms.length alts.hasExit = none ∧
    g'.kindAt? analyzed.node = some (.alternatives { alts with prediction := some analyzed.tree })

theorem attaches_forM {trees : List Analyzed} (hnodup : (trees.map Analyzed.node).Nodup)
    (h : Yields (trees.forM (attach rule)) (g, journal) ⟨⟩ (g', journal')) :
    g.Attaches trees g' ∧ ∃ events, journal' = journal ++ events ∧
      (events = [] → ∀ analyzed ∈ trees, analyzed.warnings = []) := by
  induction trees generalizing g journal with
  | nil =>
    cases yields_forM_nil.1 h
    exact ⟨⟨.refl _, rfl, fun _ _ => rfl, fun _ _ => rfl, nofun⟩, [], (List.append_nil _).symm,
      fun _ => nofun⟩
  | cons first rest ih =>
    obtain ⟨⟨g₁, journal₁⟩, hfirst, h⟩ := yields_forM_cons.1 h
    rw [List.map_cons, List.nodup_cons] at hnodup
    obtain ⟨hrest, events, rfl, hquiet⟩ := ih hnodup.2 h
    obtain ⟨hshape, hrules⟩ := sameShape_attach hfirst
    obtain ⟨⟨events₁, rfl, hquiet₁⟩, hset⟩ := attach_eq hfirst
    have apart : ∀ analyzed ∈ rest, analyzed.node ≠ first.node := fun analyzed ha heq =>
      hnodup.1 (heq ▸ List.mem_map.2 ⟨analyzed, ha, rfl⟩)
    refine ⟨⟨hshape.trans hrest.shape, hrest.rules.trans hrules,
      fun id => nodes_forM (yields_forM_cons.2 ⟨_, hfirst, h⟩), ?_, ?_⟩, events₁ ++ events,
      List.append_assoc _ _ _, ?_⟩
    · intro id hid
      have hkeep := node_attach_of_ne hfirst hid
      refine (hrest.others id fun alts hk => hid alts ?_).trans hkeep
      unfold kindAt? at hk ⊢
      rw [← hkeep]
      exact hk
    · intro analyzed ha alts hk
      rcases List.mem_cons.1 ha with rfl | ha
      · rcases hset with ⟨hnone, -⟩ | ⟨alts', hk', hvalid, hset⟩
        · exact (hnone alts hk).elim
        · rw [hk] at hk'
          cases hk'
          refine ⟨hvalid, ?_⟩
          have hkeep := hrest.frame analyzed.node fun other ho => (apart other ho).symm
          unfold kindAt?
          rw [hkeep]
          exact kindAt?_setPrediction hk hset
      · have hkeep := node_attach hfirst (apart analyzed ha)
        refine hrest.attached analyzed ha alts ?_
        rw [← hk]
        unfold kindAt?
        rw [hkeep]
    · intro hnil analyzed ha
      obtain ⟨hnil₁, hnil⟩ := List.append_eq_nil_iff.1 hnil
      rcases List.mem_cons.1 ha with rfl | ha
      · exact hquiet₁ hnil₁
      · exact hquiet hnil analyzed ha

/-- Each node that gets trees has one of them afterwards, the last. -/
theorem prediction_of_forM {trees : List Analyzed} {id : NodeId} {alts : Alternatives}
    (h : Yields (trees.forM (attach rule)) (g, journal) ⟨⟩ (g', journal'))
    (hk : g'.kindAt? id = some (.alternatives alts)) (hid : ∃ analyzed ∈ trees, analyzed.node = id) :
    ∃ analyzed ∈ trees, alts.prediction = some analyzed.tree := by
  induction trees generalizing g journal with
  | nil =>
    obtain ⟨analyzed, ha, -⟩ := hid
    cases ha
  | cons first rest ih =>
    obtain ⟨⟨g₁, journal₁⟩, hfirst, h⟩ := yields_forM_cons.1 h
    by_cases hrest : ∃ analyzed ∈ rest, analyzed.node = id
    · obtain ⟨analyzed, ha, hpred⟩ := ih h hrest
      exact ⟨analyzed, List.mem_cons_of_mem _ ha, hpred⟩
    · have hkeep := nodes_forM h fun analyzed ha heq => hrest ⟨analyzed, ha, heq.symm⟩
      obtain ⟨analyzed, ha, hnode⟩ := hid
      obtain rfl | ha := List.mem_cons.1 ha
      · refine ⟨analyzed, List.mem_cons_self, ?_⟩
        have hk₁ : g₁.kindAt? id = some (.alternatives alts) := by
          rw [← hk]
          unfold kindAt?
          rw [hkeep]
        subst hnode
        obtain ⟨-, ⟨hnone, rfl⟩ | ⟨alts', hk', -, hset⟩⟩ := attach_eq hfirst
        · exact (hnone alts hk₁).elim
        · rw [kindAt?_setPrediction hk' hset] at hk₁
          cases hk₁
          rfl
      · exact (hrest ⟨analyzed, ha, hnode⟩).elim

/-! ## The trees of a rule -/

/-- The trees of a rule, and that each alternative set of the rule has one. -/
theorem predictions_eq_ok {la : Lookahead} {k : Nat} {body : NodeId} {trees : List Analyzed}
    (h : g.predictions la k body = .ok trees) :
    ∃ ids, g.walkMatched body = .ok ids ∧ (trees.map Analyzed.node).Sublist ids ∧
      (∀ place alts, g.Occurs body place → g.kindAt? place.node = some (.alternatives alts) →
        ∃ tree warnings, predictionOf la k place.node alts place.after = .ok (tree, warnings) ∧
          ⟨place.node, tree, warnings⟩ ∈ trees) := by
  obtain ⟨places, found, hwalk, hfound, rfl, hmem⟩ := exists_places ⟨body, []⟩ h
  refine ⟨places.map Place.node, hwalk, ?_, ?_⟩
  · clear hwalk hmem h
    induction hfound with
    | nil => exact List.Sublist.refl _
    | @cons place trees places found hplace _ ih =>
      obtain ⟨node, hnode, hvisit⟩ := hplace
      rw [List.flatten_cons, List.map_append, List.map_cons]
      split at hvisit
      · split at hvisit
        · cases hvisit
        · obtain ⟨⟨tree, warnings⟩, -, hvisit⟩ := bind_eq_ok.1 hvisit
          cases hvisit
          exact ih.cons_cons place.node
      · cases hvisit
        exact ih.cons place.node
  · intro place alts hoccurs hk
    obtain ⟨trees, htrees, node, hnode, hvisit⟩ :=
      Forall₂.exists_of_mem_left hfound ((hmem place).2 hoccurs)
    have hkind := kindAt?_of_node hnode
    rw [hk] at hkind
    rw [← Option.some.inj hkind] at hvisit
    simp only at hvisit
    split at hvisit
    · cases hvisit
    · obtain ⟨⟨tree, warnings⟩, hpred, hvisit⟩ := bind_eq_ok.1 hvisit
      refine ⟨tree, warnings, hpred, List.mem_flatten.2 ⟨trees, htrees, ?_⟩⟩
      rw [← pure_eq_ok.1 hvisit]
      exact List.mem_singleton.2 rfl

/-- Each tree was built for an alternative set of the rule. -/
theorem exists_predictionOf_of_mem {la : Lookahead} {k : Nat} {body : NodeId}
    {trees : List Analyzed} (h : g.predictions la k body = .ok trees) {analyzed : Analyzed}
    (ha : analyzed ∈ trees) : ∃ place alts, g.Occurs body place ∧ analyzed.node = place.node ∧
      g.kindAt? place.node = some (.alternatives alts) ∧
      predictionOf la k place.node alts place.after = .ok (analyzed.tree, analyzed.warnings) := by
  obtain ⟨places, found, -, hfound, rfl, hmem⟩ := exists_places ⟨body, []⟩ h
  obtain ⟨part, hpart, ha⟩ := List.mem_flatten.1 ha
  obtain ⟨place, hplace, node, hnode, hvisit⟩ := Forall₂.exists_of_mem_right hfound hpart
  split at hvisit
  · rename_i alts hkind
    split at hvisit
    · cases hvisit
    · obtain ⟨⟨tree, warnings⟩, hpred, hvisit⟩ := bind_eq_ok.1 hvisit
      rw [← pure_eq_ok.1 hvisit, List.mem_singleton] at ha
      rw [ha]
      exact ⟨place, alts, (hmem place).1 hplace, rfl, hkind ▸ kindAt?_of_node hnode, hpred⟩
  · rw [← pure_eq_ok.1 hvisit] at ha
    cases ha

/-! ## What analysis says -/

variable {P : Event → Prop}

theorem logs_say {event : Event} (h : P event) : Logs Prod.snd P (Pass.say event) :=
  logs_modify fun _ => .append (List.forall_mem_singleton.2 h)

theorem logs_setGrammar (g : Grammar) : Logs Prod.snd P (Pass.setGrammar g) :=
  logs_modify fun state => .refl P state.2

theorem logs_liftFault {α : Type} (result : Except Fault α) :
    Logs Prod.snd P (Pass.liftFault result) :=
  logs_lift _

theorem logs_grammar : Logs Prod.snd P Pass.grammar :=
  logs_get.bind fun state => logs_pure state.1

theorem logs_attach (rule : String) (analyzed : Analyzed) :
    Logs Prod.snd (Event.Concerns rule) (attach rule analyzed) := by
  unfold attach
  refine logs_grammar.bind fun g => ?_
  refine (logs_forM (fun warning => logs_say (Event.concerns_atNode ..)) _).bind fun _ => ?_
  refine (logs_liftFault _).bind fun node => ?_
  split
  · exact logs_pure _
  · split
    · exact logs_throw _
    · exact (logs_liftFault _).bind fun g' => logs_setGrammar g'

/-- Analysis reports messages about the rule. -/
theorem logs_analyzeRule (rule : String) (follow : FollowSets) (options : Options) :
    Logs Prod.snd (Event.Concerns rule) (analyzeRule rule follow options) := by
  unfold analyzeRule
  refine logs_grammar.bind fun g => ?_
  split
  · exact logs_throw _
  · refine Logs.bind (logs_lift _) fun trees => ?_
    refine (logs_forM (logs_attach rule) trees).bind fun _ => ?_
    refine logs_grammar.bind fun g₁ => ?_
    exact (logs_liftFault _).bind fun g₂ => logs_setGrammar g₂

end Grammar

end PredictiveParser
