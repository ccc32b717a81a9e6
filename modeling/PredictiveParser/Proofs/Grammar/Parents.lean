import Mathlib.Data.List.Nodup
import Mathlib.Data.List.Pairwise
import PredictiveParser.Proofs.Grammar.Trees

/-!
# Parents

When a walk meets no node twice, what it meets is a tree: the root is below no node, no node is below
two others, and no node is twice below one (`Grammar.Rooted`). The reason is that a walk lists its
root and, for each node it lists, the nodes right below (`perm_walkDown`).
-/
namespace PredictiveParser

open Relation

namespace Grammar

def linksAt (g : Grammar) (below : Node → List NodeId) (id : NodeId) : List NodeId :=
  (g.nodes[id]?.map below).getD []

variable {g : Grammar} {below : Node → List NodeId} {depth : Nat} {root : NodeId}
  {ids : List NodeId}

theorem linksAt_of_node {id : NodeId} {node : Node} (h : g.node id = .ok node) :
    g.linksAt below id = below node := by
  unfold linksAt
  rw [node_eq_ok.1 h]
  rfl

/-- A walk lists its root and what is right below the nodes it lists. -/
theorem perm_walkDown (h : g.walkDown below depth root = .ok ids) :
    ids.Perm (root :: ids.flatMap (g.linksAt below)) := by
  induction depth generalizing root ids with
  | zero => cases h
  | succ depth ih =>
    obtain ⟨node, parts, hnode, hparts, rfl⟩ := walkDown_succ_eq_ok.1 h
    -- The same for the trees right below the root, all together.
    have level : ∀ {children : List NodeId} {parts : List (List NodeId)},
        List.Forall₂ (fun child part => g.walkDown below depth child = .ok part) children parts →
        parts.flatten.Perm (children ++ parts.flatten.flatMap (g.linksAt below)) := by
      intro children parts hall
      induction hall with
      | nil => exact .refl _
      | @cons child part children parts hpart _ ihall =>
        rw [List.flatten_cons, List.flatMap_append, List.cons_append]
        refine ((ih hpart).append ihall).trans ?_
        rw [List.cons_append, ← List.append_assoc, ← List.append_assoc]
        exact .cons child (List.perm_append_comm.append_right _)
    rw [List.flatMap_cons, linksAt_of_node hnode]
    exact .cons root (level hparts)

/-- What is below `root` is a tree. -/
structure Rooted (g : Grammar) (below : Node → List NodeId) (root : NodeId) : Prop where
  top : ∀ parent, ReflTransGen (g.Link below) root parent → ¬ g.Link below parent root
  unique : ∀ parent parent' child, ReflTransGen (g.Link below) root parent →
    ReflTransGen (g.Link below) root parent' → g.Link below parent child →
    g.Link below parent' child → parent = parent'
  nodup : ∀ parent node, ReflTransGen (g.Link below) root parent → g.node parent = .ok node →
    (below node).Nodup

theorem mem_linksAt {parent child : NodeId} :
    child ∈ g.linksAt below parent ↔ g.Link below parent child := by
  unfold linksAt Link
  simp only [node_eq_ok]
  cases g.nodes[parent]? with
  | none => simp
  | some node => simp

theorem rooted_of_walkDown (h : g.walkDown below depth root = .ok ids) (hnodup : ids.Nodup) :
    g.Rooted below root := by
  have hall := (perm_walkDown h).nodup hnodup
  rw [List.nodup_cons, List.nodup_flatMap] at hall
  obtain ⟨htop, hbelow, hapart⟩ := hall
  refine ⟨?_, ?_, ?_⟩
  · intro parent hparent hlink
    exact htop (List.mem_flatMap.2 ⟨parent, (mem_walkDown h).2 hparent, mem_linksAt.2 hlink⟩)
  · intro parent parent' child hparent hparent' hlink hlink'
    by_contra hne
    have hsymm : Std.Symm (Function.onFun List.Disjoint (g.linksAt below)) :=
      ⟨fun _ _ hdisjoint _ ha hb => hdisjoint hb ha⟩
    have hdisjoint : (g.linksAt below parent).Disjoint (g.linksAt below parent') :=
      hapart.forall ((mem_walkDown h).2 hparent) ((mem_walkDown h).2 hparent') hne
    exact hdisjoint (mem_linksAt.2 hlink) (mem_linksAt.2 hlink')
  · intro parent node hparent hnode
    have := hbelow parent ((mem_walkDown h).2 hparent)
    rwa [linksAt_of_node hnode] at this

end Grammar

end PredictiveParser
