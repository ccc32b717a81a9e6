import Mathlib.Data.List.Perm.Subperm
import PredictiveParser.Proofs.Failure
import PredictiveParser.Proofs.Grammar.Shape

/-!
# Heights of trees

`g.HasDepth below depth id` says that a walk from a node ends within so many levels. It is decided
level by level (`hasDepth_succ_iff`), so what goes down a tree along some of its links ends within
the depth of the tree. A tree has no more levels than nodes: `hasDepth_length`.

* `failsOnly_visitDown`: a visit of a tree fails only as it does at one of the places.
-/
namespace PredictiveParser

open Relation

namespace Grammar

/-- The tree under a node has at most so many levels. -/
def HasDepth (g : Grammar) (below : Node → List NodeId) (depth : Nat) (id : NodeId) : Prop :=
  ∃ ids, g.walkDown below depth id = .ok ids

variable {g : Grammar} {below below' : Node → List NodeId} {depth depth' : Nat} {id : NodeId}

theorem not_hasDepth_zero : ¬ g.HasDepth below 0 id := by
  rintro ⟨ids, h⟩
  cases h

theorem hasDepth_succ_iff : g.HasDepth below (depth + 1) id ↔
    ∃ node, g.node id = .ok node ∧ ∀ child ∈ below node, g.HasDepth below depth child := by
  constructor
  · rintro ⟨ids, h⟩
    obtain ⟨node, parts, hnode, hparts, -⟩ := walkDown_succ_eq_ok.1 h
    refine ⟨node, hnode, fun child hchild => ?_⟩
    obtain ⟨part, -, hpart⟩ := Forall₂.exists_of_mem_left hparts hchild
    exact ⟨part, hpart⟩
  · rintro ⟨node, hnode, hbelow⟩
    obtain ⟨parts, hparts⟩ := exists_mapM_eq_ok hbelow
    exact ⟨_, walkDown_succ_eq_ok.2 ⟨node, parts, hnode, mapM_eq_ok.1 hparts, rfl⟩⟩

theorem HasDepth.exists_succ (h : g.HasDepth below depth id) : ∃ less, depth = less + 1 := by
  cases depth with
  | zero => exact absurd h not_hasDepth_zero
  | succ less => exact ⟨less, rfl⟩

theorem HasDepth.exists_node (h : g.HasDepth below depth id) : ∃ node, g.node id = .ok node := by
  obtain ⟨less, rfl⟩ := h.exists_succ
  obtain ⟨node, hnode, -⟩ := hasDepth_succ_iff.1 h
  exact ⟨node, hnode⟩

theorem HasDepth.child {node : Node} {child : NodeId} (h : g.HasDepth below (depth + 1) id)
    (hnode : g.node id = .ok node) (hchild : child ∈ below node) :
    g.HasDepth below depth child := by
  obtain ⟨node', hnode', hbelow⟩ := hasDepth_succ_iff.1 h
  rw [hnode] at hnode'
  cases hnode'
  exact hbelow child hchild

theorem HasDepth.mono (h : g.HasDepth below depth id) (hle : depth ≤ depth') :
    g.HasDepth below depth' id := by
  induction depth generalizing depth' id with
  | zero => exact absurd h not_hasDepth_zero
  | succ depth ih =>
    obtain ⟨more, rfl⟩ : ∃ more, depth' = more + 1 := ⟨depth' - 1, by omega⟩
    obtain ⟨node, hnode, hbelow⟩ := hasDepth_succ_iff.1 h
    exact hasDepth_succ_iff.2 ⟨node, hnode, fun child hchild => ih (hbelow child hchild) (by omega)⟩

/-- With fewer links a tree has no more levels. -/
theorem HasDepth.subset (h : g.HasDepth below depth id)
    (hsub : ∀ node, below' node ⊆ below node) : g.HasDepth below' depth id := by
  induction depth generalizing id with
  | zero => exact absurd h not_hasDepth_zero
  | succ depth ih =>
    obtain ⟨node, hnode, hbelow⟩ := hasDepth_succ_iff.1 h
    exact hasDepth_succ_iff.2 ⟨node, hnode, fun child hchild => ih (hbelow child (hsub node hchild))⟩

/-- What can be reached in a tree has no more levels than the tree. -/
theorem HasDepth.reached {other : NodeId} (h : g.HasDepth below depth id)
    (hreach : ReflTransGen (g.Link below) id other) : g.HasDepth below depth other := by
  induction hreach with
  | refl => exact h
  | tail _ hlink ih =>
    obtain ⟨node, hnode, hchild⟩ := hlink
    obtain ⟨less, rfl⟩ := ih.exists_succ
    exact (ih.child hnode hchild).mono (by omega)

/-- A tree has no more levels than nodes. -/
theorem hasDepth_length {ids : List NodeId} (h : g.walkDown below depth id = .ok ids) :
    g.HasDepth below ids.length id := by
  induction depth generalizing id ids with
  | zero => cases h
  | succ depth ih =>
    obtain ⟨node, parts, hnode, hparts, rfl⟩ := walkDown_succ_eq_ok.1 h
    rw [List.length_cons]
    refine hasDepth_succ_iff.2 ⟨node, hnode, fun child hchild => ?_⟩
    obtain ⟨part, hpart, hwalk⟩ := Forall₂.exists_of_mem_left hparts hchild
    exact (ih hwalk).mono (List.sublist_flatten_of_mem hpart).length_le

/-- The tree under the body of a rule is within the bound for walks. -/
theorem Forest.hasDepth (hf : g.Forest) {rule : Rule} (hrule : rule ∈ g.ruleList) :
    g.HasDepth Node.children g.depthBound rule.body := by
  obtain ⟨ids, hids, -⟩ := hf.tree rule hrule
  exact ⟨ids, hids⟩

theorem ShapeIn.hasDepth {g' : Grammar} (h : g.ShapeIn g')
    (hbelow : ∀ node node' : Node, node.kind.bare = node'.kind.bare → below node = below node')
    (hdepth : g.HasDepth below depth id) : g'.HasDepth below depth id := by
  obtain ⟨ids, hids⟩ := hdepth
  exact ⟨ids, h.walkDown hbelow (Nat.le_refl _) hids⟩

theorem matchedChildren_subset (node : Node) : node.matchedChildren ⊆ node.children :=
  node.matchedChildren_sublist.subset

theorem predictedChildren_subset (node : Node) : node.predictedChildren ⊆ node.children := by
  unfold Node.predictedChildren
  split
  · exact List.nil_subset _
  · exact List.Subset.refl _

theorem matchedChildren_subset_predicted (node : Node) :
    node.matchedChildren ⊆ node.predictedChildren := by
  unfold Node.matchedChildren Node.predictedChildren Node.children
  rcases node.kind with items | alts | ⟨predict, matched⟩ | check | callee | ⟨set, mark⟩ <;>
    simp

/-! ## What is predicted with -/

/-- A node that some rule matches or predicts with. -/
def Predicted (g : Grammar) (id : NodeId) : Prop :=
  ∃ name rule, g.rule? name = some rule ∧
    ReflTransGen (g.Link Node.predictedChildren) rule.body id

theorem predicted_of_matched {name : String} {rule : Rule} (hrule : g.rule? name = some rule)
    (h : g.MatchedBy rule.body id) : g.Predicted id := by
  induction h with
  | refl => exact ⟨name, rule, hrule, .refl⟩
  | tail _ hlink ih =>
    obtain ⟨node, hnode, hchild⟩ := hlink
    obtain ⟨name, rule, hrule, hreach⟩ := ih
    exact ⟨name, rule, hrule, hreach.tail ⟨node, hnode, matchedChildren_subset_predicted node hchild⟩⟩

theorem reaches_of_predicted {root : NodeId}
    (h : ReflTransGen (g.Link Node.predictedChildren) root id) : g.Reaches root id :=
  ReflTransGen.mono (fun _ _ ⟨node, hnode, hchild⟩ =>
    ⟨node, hnode, predictedChildren_subset node hchild⟩) _ _ h

theorem Predicted.inUse (h : g.Predicted id) : g.InUse id := by
  obtain ⟨name, rule, hrule, hreach⟩ := h
  exact ⟨name, rule, hrule, reaches_of_predicted hreach⟩

/-- A tree of a grammar has no more levels than the grammar has nodes. -/
theorem Forest.hasDepth_size (hf : g.Forest) (h : g.InUse id) :
    g.HasDepth Node.children g.nodes.size id := by
  obtain ⟨name, rule, hrule, hreach⟩ := h
  obtain ⟨ids, hwalk, hnodup, -⟩ := hf.tree rule (mem_ruleList_of_rule? hrule)
  have hsub : ids ⊆ List.range g.nodes.size := fun other hother => by
    obtain ⟨node, hnode⟩ := node_of_walkDown hwalk hother
    obtain ⟨hlt, -⟩ := Array.getElem?_eq_some_iff.1 (node_eq_ok.1 hnode)
    exact List.mem_range.2 hlt
  have hlength := (List.Nodup.subperm hnodup hsub).length_le
  rw [List.length_range] at hlength
  exact ((hasDepth_length hwalk).reached hreach).mono hlength

theorem Forest.hasDepth_predicted (hf : g.Forest) (h : g.InUse id) :
    g.HasDepth Node.predictedChildren g.nodes.size id :=
  (hf.hasDepth_size h).subset predictedChildren_subset

/-! ## Visits -/

section

variable {β : Type} {visit : NodeId → Node → List Frame → Except (Failure GenerationError) (List β)}
  {P : Failure GenerationError → Prop}

/-- The tree under each place right below one that has a depth has less. -/
theorem HasDepth.under {place place' : Place}
    (h : g.HasDepth Node.matchedChildren (depth + 1) place.node) (hunder : g.Under place place') :
    g.HasDepth Node.matchedChildren depth place'.node := by
  obtain ⟨kind, hkind, hplace⟩ := hunder
  obtain ⟨node, hnode, rfl⟩ := kindAt?_eq_some.1 hkind
  apply h.child hnode
  rw [← map_node_placesBelow place]
  exact List.mem_map_of_mem hplace

theorem failsOnly_visitDown (place : Place)
    (h : g.HasDepth Node.matchedChildren depth place.node)
    (hvisit : ∀ place' node, ReflTransGen g.Under place place' → g.node place'.node = .ok node →
      FailsOnly P (visit place'.node node place'.after)) :
    FailsOnly P (g.visitDown visit depth place.node place.after) := by
  induction depth generalizing place with
  | zero => exact absurd h not_hasDepth_zero
  | succ depth ih =>
    obtain ⟨node, hnode⟩ := h.exists_node
    have below : ∀ place', g.Under place place' →
        FailsOnly P (g.visitDown visit depth place'.node place'.after) := by
      intro place' hunder
      exact ih place' (h.under hunder) fun place'' node'' hreach => hvisit place'' node'' (.head hunder hreach)
    have under : ∀ place' ∈ node.kind.placesBelow place, g.Under place place' :=
      fun place' hplace => ⟨node.kind, kindAt?_of_node hnode, hplace⟩
    rw [visitDown]
    refine .bind (.of_exists ⟨node, liftM_eq_ok.2 hnode⟩) fun node' hnode' => ?_
    cases hnode.symm.trans (liftM_eq_ok.1 hnode')
    refine .bind (hvisit place node .refl hnode) fun here _ => ?_
    rcases hk : node.kind with items | alts | ⟨predict, matched⟩ | check | callee | ⟨set, mark⟩ <;>
      rw [hk] at under <;> dsimp only
    · refine .bind (.mapM fun entry hentry => ?_) fun parts _ => .ok _
      exact below ⟨entry.1, pushNodes entry.2 place.after⟩
        (under _ (List.mem_map.2 ⟨entry, hentry, rfl⟩))
    · refine .bind (.mapM fun arm harm => ?_) fun parts _ => .ok _
      exact below ⟨arm, alts.behindArm place.node place.after⟩
        (under _ (List.mem_map.2 ⟨arm, harm, rfl⟩))
    · exact .bind (below ⟨matched, place.after⟩ (under _ List.mem_cons_self)) fun found _ => .ok _
    all_goals exact .ok _

end

end Grammar

end PredictiveParser
