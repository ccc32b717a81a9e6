import PredictiveParser.Proofs.Grammar.Paired
import PredictiveParser.Proofs.Grammar.Parents
import PredictiveParser.Proofs.Values.Declared
import PredictiveParser.Proofs.Values.Messages

/-!
# Where labels go

A label on an alternative set goes to its arms, through as many sets as there are, and takes the place of
the labels that these have (`Grammar.Relabeled`). Any other label stays or goes on until it is at a value, or
an error names it (`label_moveLabels`): what is still to come does not take its place.

So once values are saved, a label that no other one took the place of is the variable of a terminal or call,
or an error names it (`keepsLabels_saveValues`). A terminal or call that stored its value before has its old
variable, whatever its label.
-/
namespace PredictiveParser

open Relation

/-- The event is the error that this label cannot be attached. -/
def Event.RejectsLabel (rule label : String) (event : Event) : Prop :=
  ∃ g id, ∃ node : Node, event = .atNode g .error rule id
    ("Label '" ++ label ++ "' cannot be attached to a " ++ node.kindName ++ ".")

namespace Grammar

variable {g g' : Grammar} {rule label : String} {events : List Event} {id other : NodeId}
  {ids : List NodeId} {node : Node}

/-! ## One label -/

def labelAt? (g : Grammar) (id : NodeId) : Option String :=
  g.nodes[id]?.bind Node.label

def armsAt (g : Grammar) (id : NodeId) : List NodeId :=
  ((g.nodes[id]?.bind Node.alternatives?).map Alternatives.arms).getD []

theorem labelAt?_of_node (h : g.node id = .ok node) : g.labelAt? id = node.label := by
  rw [labelAt?, node_eq_ok.1 h, Option.bind_some]

theorem armsAt_of_agrees (h : Agrees Node.kind g g') (id : NodeId) : g'.armsAt id = g.armsAt id := by
  have hkinds : ∀ g : Grammar, g.armsAt id = (((g.nodes[id]?.map Node.kind).bind fun kind =>
      (Node.ofKind kind).alternatives?).map Alternatives.arms).getD [] := by
    intro g
    rw [armsAt, Option.bind_map]
    rfl
  rw [hkinds, hkinds, h.nodes]

/-- An arm is matched with its set. -/
theorem link_of_mem_armsAt (h : other ∈ g.armsAt id) : g.Link Node.matchedChildren id other := by
  unfold armsAt at h
  cases hnode : g.nodes[id]? with
  | none => simp [hnode] at h
  | some node =>
    refine ⟨node, node_eq_ok.2 hnode, ?_⟩
    rw [hnode, Option.bind_some] at h
    cases halts : node.alternatives? with
    | none => simp [halts] at h
    | some alts =>
      rw [halts] at h
      rwa [Node.matchedChildren, Node.alternatives?_eq_some.1 halts]

theorem labelAt?_modifyNode {f : Node → Node} (h : g.modifyNode id f = .ok g') {label : Option String}
    (hf : ∀ node, (f node).label = label) (other : NodeId) :
    g'.labelAt? other = if other = id then label else g.labelAt? other := by
  rw [labelAt?, (modifyNode_eq_ok h).2]
  split
  · rename_i heq
    have hnode := Array.getElem?_eq_getElem (lt_of_modifyNode h)
    rw [heq, hnode, Option.map_some, Option.bind_some, hf]
  · rfl

theorem labelAt?_setLabels {arms : List NodeId} {isList : Bool}
    (h : arms.foldlM (fun g arm => g.modifyNode arm ({ · with label := some label, isList })) g = .ok g')
    (other : NodeId) : g'.labelAt? other = if other ∈ arms then some label else g.labelAt? other := by
  induction arms generalizing g with
  | nil =>
    cases pure_eq_ok.1 h
    rw [if_neg List.not_mem_nil]
  | cons arm arms ih =>
    obtain ⟨g₁, hfirst, hrest⟩ := foldlM_cons_eq_ok.1 h
    rw [ih hrest, labelAt?_modifyNode hfirst (fun _ => rfl)]
    by_cases harm : other = arm <;> simp [harm]

/-- A label that is where no value is goes to the arms of a set, or an error names it. -/
theorem moveLabel_cases (hnode : g.node id = .ok node) (h : g.moveLabel rule id = .ok (g', events)) :
    node.LabelsValue ∧ g' = g ∨ ∃ label, node.label = some label ∧ node.hasValue = false ∧
      (∀ other, g'.labelAt? other = if other = id then none else
        if other ∈ g.armsAt id then some label else g.labelAt? other) ∧
      (node.alternatives? = none → ∃ event ∈ events, event.RejectsLabel rule label) := by
  by_cases hvalue : node.LabelsValue
  · cases h.symm.trans (moveLabel_of_labelsValue hnode hvalue)
    exact Or.inl ⟨hvalue, rfl⟩
  obtain ⟨hlabel, hvalue⟩ := not_or.1 hvalue
  obtain ⟨label, hlabel⟩ := Option.ne_none_iff_exists'.1 hlabel
  rw [Bool.not_eq_true] at hvalue
  refine Or.inr ⟨label, hlabel, hvalue, ?_⟩
  unfold moveLabel at h
  obtain ⟨node', hnode', h⟩ := bind_eq_ok.1 h
  cases hnode.symm.trans hnode'
  rw [hlabel, hvalue] at h
  obtain ⟨⟨g₁, events₁⟩, hpass, h⟩ := bind_eq_ok.1 h
  obtain ⟨g₂, hg₂, h⟩ := bind_eq_ok.1 h
  cases pure_eq_ok.1 h
  have hcleared := labelAt?_modifyNode hg₂ (fun _ => rfl)
  have harms : g.armsAt id = (node.alternatives?.map Alternatives.arms).getD [] := by
    rw [armsAt, node_eq_ok.1 hnode, Option.bind_some]
  unfold passLabel at hpass
  split at hpass
  · rename_i alts halts
    obtain ⟨g₃, hset, hpass⟩ := bind_eq_ok.1 hpass
    cases pure_eq_ok.1 hpass
    refine ⟨fun other => ?_, fun hnone => by rw [halts] at hnone; cases hnone⟩
    rw [hcleared, labelAt?_setLabels hset, harms, halts]
    rfl
  · rename_i hnone
    cases pure_eq_ok.1 hpass
    refine ⟨fun other => ?_, fun _ => ⟨_, List.mem_singleton_self _, _, _, _, rfl⟩⟩
    rw [hcleared, harms, hnone]
    exact congrArg _ (if_neg List.not_mem_nil).symm

/-- A label that a node has afterwards, it had before, or it comes from this node. -/
theorem labelAt?_of_moveLabel (h : g.moveLabel rule id = .ok (g', events))
    (hlabel : g'.labelAt? other = some label) :
    g.labelAt? other = some label ∨ g.labelAt? id = some label := by
  obtain ⟨node, hnode, -⟩ := bind_eq_ok.1 h
  rcases moveLabel_cases hnode h with ⟨-, rfl⟩ | ⟨moved, hmoved, -, hlabels, -⟩
  · exact Or.inl hlabel
  · rw [hlabels] at hlabel
    split at hlabel
    · cases hlabel
    · split at hlabel
      · exact Or.inr ((labelAt?_of_node hnode).trans (hmoved.trans hlabel))
      · exact Or.inl hlabel

/-- **No label is new** when labels move. -/
theorem labelAt?_of_moveLabels (h : moveLabels rule ids g = .ok (g', events))
    (hlabel : g'.labelAt? id = some label) :
    ∃ source, (source = id ∨ source ∈ ids) ∧ g.labelAt? source = some label := by
  induction ids generalizing g events with
  | nil =>
    cases pure_eq_ok.1 h
    exact ⟨id, Or.inl rfl, hlabel⟩
  | cons first rest ih =>
    rw [moveLabels] at h
    obtain ⟨⟨g₁, events₁⟩, hfirst, h⟩ := bind_eq_ok.1 h
    obtain ⟨⟨g₂, events₂⟩, hrest, h⟩ := bind_eq_ok.1 h
    cases pure_eq_ok.1 h
    obtain ⟨source, hsource, hlabel⟩ := ih hrest
    rcases labelAt?_of_moveLabel hfirst hlabel with hlabel | hlabel
    · exact ⟨source, hsource.imp_right (List.mem_cons_of_mem _), hlabel⟩
    · exact ⟨first, Or.inr List.mem_cons_self, hlabel⟩

/-! ## Labels that take the place of others -/

/-- A label comes to the node from above: it is an arm of one of these sets, and this set has a label or gets
one. -/
inductive Relabeled (g : Grammar) (sets : NodeId → Prop) : NodeId → Prop where
  | labeled {parent arm : NodeId} (hset : sets parent) (harm : arm ∈ g.armsAt parent)
      (hlabel : g.labelAt? parent ≠ none) : Relabeled g sets arm
  | passed {parent arm : NodeId} (hset : sets parent) (harm : arm ∈ g.armsAt parent)
      (hparent : Relabeled g sets parent) : Relabeled g sets arm

/-- What comes to a node after the first label has moved comes to it before as well. -/
theorem Relabeled.of_moveLabel {first : NodeId} {rest : List NodeId}
    (hfirst : ∃ node, g.node first = .ok node)
    (hmove : g.moveLabel rule first = .ok (g', events)) (h : g'.Relabeled (· ∈ rest) id) :
    g.Relabeled (· ∈ first :: rest) id := by
  have hkinds : Agrees Node.kind g g' := agrees_moveLabel (fun _ _ _ => rfl) hmove
  obtain ⟨node, hnode⟩ := hfirst
  induction h with
  | @labeled parent arm hset harm hlabel =>
    rw [armsAt_of_agrees hkinds] at harm
    have hset := List.mem_cons_of_mem first hset
    by_cases hbefore : g.labelAt? parent = none
    · -- The label of the set came from the first node.
      rcases moveLabel_cases hnode hmove with ⟨-, rfl⟩ | ⟨label, hfirstLabel, -, hlabels, -⟩
      · exact absurd hbefore hlabel
      · rw [hlabels, hbefore] at hlabel
        have hparent : parent ∈ g.armsAt first := by
          by_contra hnot
          rw [if_neg hnot, ite_self] at hlabel
          exact hlabel rfl
        refine .passed hset harm (.labeled List.mem_cons_self hparent ?_)
        rw [labelAt?_of_node hnode, hfirstLabel]
        exact Option.some_ne_none _
    · exact .labeled hset harm hbefore
  | passed hset harm _ ih =>
    rw [armsAt_of_agrees hkinds] at harm
    exact .passed (List.mem_cons_of_mem first hset) harm ih

/-! ## All labels -/

/-- The nodes are listed like those of a tree: each once and before its arms, no two sets have a common arm,
and each set has an arm. -/
structure Treelike (g : Grammar) (ids : List NodeId) : Prop where
  there : ∀ id ∈ ids, ∃ node, g.node id = .ok node
  nodup : ids.Nodup
  followed : g.Followed Node.matchedChildren ids
  apart : ∀ id ∈ ids, ∀ other ∈ ids, ∀ arm, arm ∈ g.armsAt id → arm ∈ g.armsAt other → id = other
  nonempty : ∀ id ∈ ids, ∀ node, g.node id = .ok node → node.alternatives? ≠ none → g.armsAt id ≠ []

theorem Treelike.moveLabel {first : NodeId} {rest : List NodeId} (h : g.Treelike (first :: rest))
    (hmove : g.moveLabel rule first = .ok (g', events)) : g'.Treelike rest := by
  have hkinds : Agrees Node.kind g g' := agrees_moveLabel (fun _ _ _ => rfl) hmove
  have hshape : g.SameShape g' := (relabels_moveLabel hmove).annotates.kinds.sameShape
  obtain ⟨-, hthere⟩ := List.forall_mem_cons.1 h.there
  constructor
  case there =>
    intro id hid
    obtain ⟨node, hnode⟩ := hthere id hid
    obtain ⟨node', hnode', -⟩ := hkinds.symm.node hnode
    exact ⟨node', hnode'⟩
  case nodup => exact (List.nodup_cons.1 h.nodup).2
  case followed => exact h.followed.2.of_sameShape hshape
  case apart =>
    intro id hid other hother arm
    rw [armsAt_of_agrees hkinds, armsAt_of_agrees hkinds]
    exact h.apart id (List.mem_cons_of_mem _ hid) other (List.mem_cons_of_mem _ hother) arm
  case nonempty =>
    intro id hid node' hnode' halts
    obtain ⟨node, hnode, hkind⟩ := hkinds.node hnode'
    rw [armsAt_of_agrees hkinds]
    refine h.nonempty id (List.mem_cons_of_mem _ hid) node hnode ?_
    rwa [Node.alternatives?, hkind, ← Node.alternatives?]

def ValueAt (g : Grammar) (id : NodeId) : Prop :=
  ∃ node, g.node id = .ok node ∧ node.hasValue = true

theorem ValueAt.of_agrees (h : g.ValueAt id) (hkinds : Agrees Node.kind g g') : g'.ValueAt id := by
  obtain ⟨node, hnode, hvalue⟩ := h
  obtain ⟨node', hnode', hkind⟩ := hkinds.symm.node hnode
  exact ⟨node', hnode', by rwa [Node.hasValue, hkind, ← Node.hasValue]⟩

/-- Once the only set with an arm has had its turn, no label takes the place of the one at the arm. -/
theorem Treelike.not_relabeled {first arm : NodeId} {rest : List NodeId} (htree : g.Treelike (first :: rest))
    (hkinds : Agrees Node.kind g g') (harm : arm ∈ g.armsAt first) : ¬ g'.Relabeled (· ∈ rest) arm := by
  intro h
  obtain ⟨parent, hparent, hboth⟩ : ∃ parent ∈ rest, arm ∈ g'.armsAt parent := by
    cases h with
    | labeled hset harm' _ => exact ⟨_, hset, harm'⟩
    | passed hset harm' _ => exact ⟨_, hset, harm'⟩
  rw [armsAt_of_agrees hkinds] at hboth
  have hsame : first = parent :=
    htree.apart first List.mem_cons_self parent (List.mem_cons_of_mem _ hparent) arm harm hboth
  exact (List.nodup_cons.1 htree.nodup).1 (hsame ▸ hparent)

/-- **When the first node has its turn**, a label that nothing takes the place of stays where it is or goes to
an arm, where nothing takes its place either, or else an error names it. -/
theorem label_moveLabel {first : NodeId} {rest : List NodeId} (htree : g.Treelike (first :: rest))
    (hlabel : g.labelAt? id = some label) (hkept : ¬ g.Relabeled (· ∈ first :: rest) id)
    (hturn : id ∈ first :: rest ∨ g.ValueAt id)
    (hfirst : g.moveLabel rule first = .ok (g', events)) :
    (∃ event ∈ events, event.RejectsLabel rule label) ∨
      ∃ next, (next = id ∨ next ∈ rest) ∧ g'.labelAt? next = some label ∧
        ¬ g'.Relabeled (· ∈ rest) next ∧ (next ∈ rest ∨ g'.ValueAt next) := by
  obtain ⟨node, hnode⟩ := htree.there first List.mem_cons_self
  have hkinds : Agrees Node.kind g g' := agrees_moveLabel (fun _ _ _ => rfl) hfirst
  have hunique : first ∉ rest := (List.nodup_cons.1 htree.nodup).1
  have hstays : ¬ g'.Relabeled (· ∈ rest) id := fun h => hkept (h.of_moveLabel ⟨node, hnode⟩ hfirst)
  rcases moveLabel_cases hnode hfirst with ⟨hvalue, rfl⟩ | ⟨moved, hmoved, -, hlabels, hrejects⟩
  · refine Or.inr ⟨id, Or.inl rfl, hlabel, hstays, ?_⟩
    rcases hturn with hid | hvalueAt
    · rcases List.mem_cons.1 hid with rfl | hid
      · rw [labelAt?_of_node hnode] at hlabel
        exact Or.inr ⟨node, hnode, hvalue.resolve_left (by rw [hlabel]; exact Option.some_ne_none _)⟩
      · exact Or.inl hid
    · exact Or.inr hvalueAt
  by_cases heq : id = first
  · subst heq
    rw [labelAt?_of_node hnode, hmoved] at hlabel
    cases hlabel
    cases halts : node.alternatives? with
    | none => exact Or.inl (hrejects halts)
    | some alts =>
      obtain ⟨arm, harm⟩ := List.exists_mem_of_ne_nil _ (htree.nonempty id List.mem_cons_self node hnode
        (by rw [halts]; exact Option.some_ne_none _))
      have hrest : arm ∈ rest := htree.followed.1 arm (link_of_mem_armsAt harm)
      refine Or.inr ⟨arm, Or.inr hrest, ?_, htree.not_relabeled hkinds harm, Or.inl hrest⟩
      rw [hlabels, if_neg (fun heq : arm = id => hunique (heq ▸ hrest)), if_pos harm]
  · refine Or.inr ⟨id, Or.inl rfl, ?_, hstays, ?_⟩
    · have hnoArm : id ∉ g.armsAt first := fun harm => by
        refine hkept (.labeled List.mem_cons_self harm ?_)
        rw [labelAt?_of_node hnode, hmoved]
        exact Option.some_ne_none _
      rw [hlabels, if_neg heq, if_neg hnoArm, hlabel]
    · exact hturn.imp (fun hid => (List.mem_cons.1 hid).resolve_left heq) (·.of_agrees hkinds)

/-- **Labels move on until they are at a value**, or an error names them, unless another label takes their
place. -/
theorem label_moveLabels (htree : g.Treelike ids) (hlabel : g.labelAt? id = some label)
    (hkept : ¬ g.Relabeled (· ∈ ids) id) (hturn : id ∈ ids ∨ g.ValueAt id)
    (h : moveLabels rule ids g = .ok (g', events)) :
    (∃ event ∈ events, event.RejectsLabel rule label) ∨
      ∃ holder, (holder = id ∨ holder ∈ ids) ∧ g'.labelAt? holder = some label ∧ g'.ValueAt holder := by
  induction ids generalizing g events id with
  | nil =>
    cases pure_eq_ok.1 h
    exact Or.inr ⟨id, Or.inl rfl, hlabel, hturn.resolve_left List.not_mem_nil⟩
  | cons first rest ih =>
    rw [moveLabels] at h
    obtain ⟨⟨g₁, events₁⟩, hfirst, h⟩ := bind_eq_ok.1 h
    obtain ⟨⟨g₂, events₂⟩, hrest, h⟩ := bind_eq_ok.1 h
    cases pure_eq_ok.1 h
    rcases label_moveLabel htree hlabel hkept hturn hfirst with ⟨event, hevent, hrejects⟩ |
      ⟨next, hnext, hlabel, hkept, hturn⟩
    · exact Or.inl ⟨event, List.mem_append_left _ hevent, hrejects⟩
    rcases ih (htree.moveLabel hfirst) hlabel hkept hturn hrest with ⟨event, hevent, hrejects⟩ |
      ⟨holder, hholder, hheld⟩
    · exact Or.inl ⟨event, List.mem_append_right _ hevent, hrejects⟩
    · refine Or.inr ⟨holder, ?_, hheld⟩
      rcases hholder with rfl | hholder
      · exact hnext.imp_right (List.mem_cons_of_mem _)
      · exact Or.inr (List.mem_cons_of_mem _ hholder)

/-! ## Saving values -/

/-- In the second grammar, what this body matches has labels only at values. Each label of the first one that
no other takes the place of is the variable in which a matched node stores its value, unless an error names
it or that node stored its value before. -/
structure KeepsLabels (g : Grammar) (name : String) (body : NodeId) (events : List Event)
    (g' : Grammar) : Prop where
  values : ∀ id node, g.MatchedBy body id → g'.node id = .ok node → node.LabelsValue
  kept : ∀ id label, g.MatchedBy body id → g.labelAt? id = some label →
    ¬ g.Relabeled (g.MatchedBy body) id → (∃ event ∈ events, event.RejectsLabel name label) ∨
      ∃ holder node node', g.MatchedBy body holder ∧ g.node holder = .ok node ∧
        g'.node holder = .ok node' ∧ node'.hasValue = true ∧ node'.label = some label ∧
        (node.saver = none → node'.saver = some ⟨label, node'.isList⟩)

theorem treelike_of_walkMatched {name : String} {rule : Rule} (hvalid : g.validate = .ok ())
    (hrule : g.rule? name = some rule) (hwalk : g.walkMatched rule.body = .ok ids) :
    g.Treelike ids := by
  have hforest := forest_of_validate hvalid
  have hnodup := hforest.nodup_of_walkMatched (SameShape.refl g).shapeIn hrule hwalk
  have hrooted := rooted_of_walkDown hwalk hnodup
  constructor
  case there => exact fun id hid => node_of_walkDown hwalk hid
  case nodup => exact hnodup
  case followed => exact followed_walkDown hwalk
  case apart =>
    intro id hid other hother arm harm harm'
    exact hrooted.unique id other arm ((mem_walkDown hwalk).1 hid) ((mem_walkDown hwalk).1 hother)
      (link_of_mem_armsAt harm) (link_of_mem_armsAt harm')
  case nonempty =>
    intro id hid node hnode halts
    obtain ⟨node', hnode', hproblem⟩ :=
      hforest.exists_node hrule (reaches_of_matched ((mem_walkDown hwalk).1 hid))
    cases hnode.symm.trans hnode'
    obtain ⟨alts, halts⟩ := Option.ne_none_iff_exists'.1 halts
    rw [nodeProblem?, Node.alternatives?_eq_some.1 halts] at hproblem
    rw [armsAt, node_eq_ok.1 hnode, Option.bind_some, halts]
    rintro (hempty : alts.arms = [])
    simp [hempty] at hproblem

/-- **Labels are kept**, unless others take their place. -/
theorem keepsLabels_saveValues {g g' : Grammar} {name : String} {rule : Rule} {options : Options}
    {events : List Event} (hvalid : g.validate = .ok ()) (hrule : g.rule? name = some rule)
    (h : g.saveValues name options = .ok (g', events)) : g.KeepsLabels name rule.body events g' := by
  obtain ⟨steps⟩ := exists_savingSteps h
  cases hrule.symm.trans steps.found
  constructor
  case values => exact fun id node hid hnode => steps.labelsValue_saved (steps.mem_ids.2 hid) hnode
  case kept =>
    intro id label hid hlabel hkept
    have hsame : (· ∈ steps.first) = g.MatchedBy steps.rule.body :=
      funext fun _ => propext steps.mem_first
    rcases label_moveLabels (treelike_of_walkMatched hvalid hrule steps.walksFirst) hlabel
      (hsame ▸ hkept) (Or.inl (steps.mem_first.2 hid)) steps.moves with ⟨event, hevent, hrejects⟩ |
      ⟨holder, hholder, hmoved, node, hnode, hvalue⟩
    · exact Or.inl ⟨event, steps.messages_subset hevent, hrejects⟩
    rw [labelAt?_of_node hnode] at hmoved
    have hmatched : g.MatchedBy steps.rule.body holder := by
      rcases hholder with rfl | hholder
      · exact hid
      · exact steps.mem_first.1 hholder
    obtain ⟨node', hnode', hcodeless⟩ := steps.exists_stored (steps.mem_ids.2 hmatched) hnode
    obtain ⟨old, hold, hsaver⟩ :=
      (agrees_moveLabels (f := Node.saver) (fun _ _ _ => rfl) steps.moves).node hnode
    refine Or.inr ⟨holder, old, node', hmatched, hold, hnode', ?_, ?_, fun hnone => ?_⟩
    · rw [← Node.hasValue_codeless, hcodeless, Node.hasValue_codeless]
      exact hvalue
    · exact (congrArg Node.label hcodeless).trans hmoved
    · have hstored : steps.refs.storedIn? node = some label := by
        rw [steps.reads_scopeOf.storedIn?]
        exact Scope.variableOf?_of_label hmoved (Or.inr hvalue)
      have hlist : node'.isList = node.isList := (congrArg Node.isList hcodeless :)
      refine (congrArg Node.saver hcodeless :).trans ?_
      rw [Node.codeless, Referenced.storing, ← hsaver, hnone, hstored, hlist]
      rfl

end Grammar

/-- The rule `item` matches one of two letters under a label. One of them has a label of its own. -/
def relabeling : Grammar where
  nodes := #[{ Node.ofKind (.terminal (.ofRanges [(97, 98)]) none) with label := some "y" },
    .ofKind (.terminal (.ofRanges [(98, 99)]) none),
    { Node.ofKind (.alternatives (.ofArms [0, 1] .once)) with label := some "x" }]
  rules := [("item", .ofBody "item" 2)]

theorem relabeling_keepsLabels : relabeling.validate = .ok () ∧ ∃ g' events,
    relabeling.saveValues "item" .default = .ok (g', events) ∧
      relabeling.KeepsLabels "item" 2 events g' := by
  have hvalid : relabeling.validate.toOption = some () := by decide +kernel
  have hok : (relabeling.saveValues "item" .default).toOption.isSome = true := by decide +kernel
  refine ⟨toOption_eq_some.1 hvalid, ?_⟩
  cases hrun : relabeling.saveValues "item" .default with
  | error failure =>
    rw [hrun] at hok
    cases hok
  | ok saved =>
    exact ⟨saved.1, saved.2, rfl,
      Grammar.keepsLabels_saveValues (toOption_eq_some.1 hvalid) rfl hrun⟩

/-- The label `y` is lost, and nothing is said about it. -/
example : (relabeling.saveValues "item" .default).toOption.map (fun saved =>
      (saved.1.nodes.toList.map Node.saver, saved.2.length)) =
    some ([some ⟨"x", false⟩, some ⟨"x", false⟩, none], 0) := by
  decide +kernel

end PredictiveParser
