import PredictiveParser.Proofs.Values.Declared
import PredictiveParser.Proofs.Values.Left

/-!
# Nothing left to save

Saving the values of a rule changes nothing where each label is at a value, each node stores its value if it
is to, and no reference is to a value (`Grammar.Saved`, `Saved.saveValues`). All that is said then is about
the references that stay.
-/
namespace PredictiveParser

open References Template

/-! ## Reports -/

namespace Event

/-- The report of a reference with this key that stays. -/
def dangling (g : Grammar) (rule : String) (id : NodeId) (key : String) : Event :=
  .atNode g .error rule id
    ("'$" ++ key ++ "' does not refer to a label, a rule or anything this rule matches.")

/-- Whether the event is the report of a reference that stays. -/
def isDangling : Event → Bool
  | .report message => "'$".toList.isPrefixOf message.body.toList
  | .skipped .. => false

theorem isDangling_dangling (g : Grammar) (rule : String) (id : NodeId) (key : String) :
    (dangling g rule id key).isDangling = true := by
  refine List.isPrefixOf_iff_prefix.2 ?_
  rw [String.toList_append, String.toList_append, List.append_assoc]
  exact List.prefix_append _ _

theorem not_isDangling {g : Grammar} {severity : Severity} {rule body : String} {id : NodeId}
    (h : DivergesFrom body "'$") : (atNode g severity rule id body).isDangling = false :=
  Bool.eq_false_iff.2 fun hdangling => h.1 <| List.isPrefixOf_iff_prefix.1 hdangling

end Event

/-! ## Nothing left to save -/

namespace Grammar

variable {g g' : Grammar} {name : String} {rule : Rule} {options : Options} {ids : List NodeId}
  {refs : Referenced} {id : NodeId} {node : Node}

/-- These nodes have labels only for values, each of them stores its value if it is to, and no reference in
their code is to a value. -/
structure Saved (g : Grammar) (ids : List NodeId) (refs : Referenced) : Prop where
  there : ∀ id ∈ ids, ∃ node, g.node id = .ok node
  labels : ∀ id ∈ ids, ∀ node, g.node id = .ok node → node.LabelsValue
  stored : ∀ id ∈ ids, ∀ node, g.node id = .ok node →
    refs.newlyStored? node = none ∧ refs.foundBy? node = none
  left : ∀ id ∈ ids, ∀ r ∈ g.referencesAt id, Saving.resolve? refs [] r = none

namespace Saved

variable (h : g.Saved ids refs)
include h

theorem moveLabels (name : String) : moveLabels name ids g = .ok (g, []) := by
  have hall : ∀ id ∈ ids, g.moveLabel name id = .ok (g, []) := fun id hid => by
    obtain ⟨node, hnode⟩ := h.there id hid
    exact moveLabel_of_labelsValue hnode (h.labels id hid node hnode)
  clear h
  induction ids with
  | nil => rfl
  | cons id rest ih =>
    obtain ⟨hid, hrest⟩ := List.forall_mem_cons.1 hall
    exact bind_eq_ok.2 ⟨_, hid, bind_eq_ok.2 ⟨_, ih hrest, rfl⟩⟩

theorem saveNode (rule : String) (options : Options) (hid : id ∈ ids) (events : List Event) :
    Saving.saveNode refs rule options ⟨g, events, [], []⟩ id = .ok ⟨g, events, [], []⟩ := by
  obtain ⟨node, hnode⟩ := h.there id hid
  obtain ⟨hstored, hfound⟩ := h.stored id hid node hnode
  rw [Saving.saveNode_eq]
  refine bind_eq_ok.2 ⟨node, hnode, ?_⟩
  rw [hfound]
  cases hname : refs.storedIn? node with
  | none => rfl
  | some value =>
    cases hsaver : node.saver with
    | none =>
      rw [Referenced.newlyStored?, hsaver, hname] at hstored
      cases hstored
    | some saver => exact Saving.store_of_saver hsaver

theorem saveNodes (rule : String) (options : Options) (events : List Event) :
    ids.foldlM (fun saving id => (Saving.saveNode refs rule options saving id :
      Except (Failure GenerationError) Saving)) ⟨g, events, [], []⟩ = .ok ⟨g, events, [], []⟩ := by
  have hall : ∀ id ∈ ids, Saving.saveNode refs rule options ⟨g, events, [], []⟩ id =
      .ok ⟨g, events, [], []⟩ := fun _ hid => h.saveNode rule options hid events
  clear h
  induction ids with
  | nil => rfl
  | cons id rest ih =>
    obtain ⟨hid, hrest⟩ := List.forall_mem_cons.1 hall
    exact foldlM_cons_eq_ok.2 ⟨_, liftM_eq_ok.2 hid, ih hrest⟩

theorem substituteAll : Saving.substituteAll refs [] ids g = .ok (g, ids.flatMap fun id =>
    ((g.referencesAt id).filter (!·.isLookahead)).map fun r => (id, r.key)) := by
  obtain ⟨dangling, hdangling⟩ := Saving.substituteAll_eq_self h.there h.left
  have hcode : ∀ id ∈ ids, g.ReplacedOnceAt (fun r => (Saving.resolve? refs [] r).map word) id := by
    intro id hid node hnode code hcode
    refine replacedOnce_of_forall fun r hr => ?_
    rw [h.left id hid r, Option.map_none]
    rw [referencesAt_of_node hnode]
    exact List.mem_flatMap.2 ⟨code, hcode, hr⟩
  rw [hdangling, Saving.dangling_substituteAll hcode hdangling]
  refine congrArg (fun entries => Except.ok (g, entries)) (List.flatMap_congr fun id hid => ?_)
  refine congrArg _ (List.filter_congr fun r hr => ?_)
  rw [Saving.stays, h.left id hid r hr]
  exact Bool.and_true _

/-- **Where nothing is left to save**, nothing changes. -/
theorem saveValues (hrule : g.rule? name = some rule) (hwalk : g.walkMatched rule.body = .ok ids)
    (hrefs : Referenced.ofNodes g.ruleNames (g.nodesOf ids) = .ok refs) (options : Options) :
    g.saveValues name options = .ok (g, ids.flatMap fun id =>
      ((g.referencesAt id).filter (!·.isLookahead)).map fun r => Event.dangling g name id r.key) := by
  obtain ⟨nodes, hnodes⟩ := exists_mapM_eq_ok h.there
  obtain rfl := eq_nodesOf hnodes
  have hreads : ids.mapM (fun id => (g.node id : Except (Failure GenerationError) Node)) =
      .ok (g.nodesOf ids) := mapM_eq_ok.2 ((mapM_eq_ok.1 hnodes).imp fun _ _ => liftM_eq_ok.2)
  unfold Grammar.saveValues
  rw [hrule]
  refine bind_eq_ok.2 ⟨ids, liftM_eq_ok.2 hwalk, bind_eq_ok.2 ⟨_, liftM_eq_ok.2 (h.moveLabels name),
    bind_eq_ok.2 ⟨ids, liftM_eq_ok.2 hwalk, bind_eq_ok.2 ⟨_, hreads, bind_eq_ok.2 ⟨refs,
      liftM_eq_ok.2 hrefs, bind_eq_ok.2 ⟨_, h.saveNodes name options [], bind_eq_ok.2 ⟨_,
        liftM_eq_ok.2 h.substituteAll, bind_eq_ok.2 ⟨g, rfl, ?_⟩⟩⟩⟩⟩⟩⟩⟩
  simp only [List.nil_append, List.map_flatMap, List.map_map]
  rfl

end Saved

end Grammar

end PredictiveParser
