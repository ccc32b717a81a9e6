import Mathlib.Data.List.Nodup
import PredictiveParser.Proofs.Grammar.Height

/-!
# Paths in trees

A path leads down a tree: it says for each step which of the nodes below to go to. What a path leads to is
what can be reached (`reaches_iff`). A tree shares no node when different paths lead to different nodes
(`Grammar.Unshared`). This is decided level by level (`unshared_iff_children`), and it is what a walk shows
that lists no node twice (`unshared_iff_nodup`).
-/
namespace PredictiveParser

open Relation

namespace Grammar

/-- The node at the end of a path from `root`. -/
def nodeAt? (g : Grammar) (root : NodeId) : (path : List Nat) → Option NodeId
  | [] => some root
  | step :: rest => do
    let node ← g.nodes[root]?
    let child ← node.children[step]?
    g.nodeAt? child rest

/-- No two paths in the tree under a node lead to the same node. -/
def Unshared (g : Grammar) (root : NodeId) : Prop :=
  ∀ path path' id, g.nodeAt? root path = some id → g.nodeAt? root path' = some id → path = path'

variable {g g' : Grammar} {root id : NodeId} {step : Nat} {path : List Nat} {depth : Nat}

theorem nodeAt?_cons {node : Node} (hnode : g.node root = .ok node) (step : Nat) (rest : List Nat) :
    g.nodeAt? root (step :: rest) = node.children[step]?.bind (g.nodeAt? · rest) := by
  rw [nodeAt?, node_eq_ok.1 hnode]
  rfl

theorem nodeAt?_cons_eq_some {rest : List Nat} : g.nodeAt? root (step :: rest) = some id ↔
    ∃ node child, g.node root = .ok node ∧ node.children[step]? = some child ∧
      g.nodeAt? child rest = some id := by
  constructor
  · intro h
    obtain ⟨node, hnode, h⟩ := Option.bind_eq_some_iff.1 h
    obtain ⟨child, hchild, h⟩ := Option.bind_eq_some_iff.1 h
    exact ⟨node, child, node_eq_ok.2 hnode, hchild, h⟩
  · rintro ⟨node, child, hnode, hchild, h⟩
    rw [nodeAt?_cons hnode, hchild]
    exact h

/-- Paths lead to what can be reached. -/
theorem reaches_iff : g.Reaches root id ↔ ∃ path, g.nodeAt? root path = some id := by
  constructor
  · intro h
    induction h using ReflTransGen.head_induction_on with
    | refl => exact ⟨[], rfl⟩
    | head hlink _ ih =>
      obtain ⟨node, hnode, hchild⟩ := hlink
      obtain ⟨step, hstep⟩ := List.mem_iff_getElem?.1 hchild
      obtain ⟨path, hpath⟩ := ih
      exact ⟨step :: path, nodeAt?_cons_eq_some.2 ⟨node, _, hnode, hstep, hpath⟩⟩
  · rintro ⟨path, hpath⟩
    induction path generalizing root with
    | nil =>
      cases hpath
      exact .refl
    | cons step rest ih =>
      obtain ⟨node, child, hnode, hchild, hrest⟩ := nodeAt?_cons_eq_some.1 hpath
      exact .head ⟨node, hnode, List.mem_of_getElem? hchild⟩ (ih hrest)

/-- The same paths lead to the same nodes when the nodes of the tree stay. -/
theorem HasDepth.nodeAt? (h : g.HasDepth Node.children depth root)
    (hkeep : ∀ i node, g.Reaches root i → g.node i = .ok node → g'.node i = .ok node) (path : List Nat) :
    g'.nodeAt? root path = g.nodeAt? root path := by
  induction path generalizing depth root with
  | nil => rfl
  | cons step rest ih =>
    obtain ⟨less, rfl⟩ := h.exists_succ
    obtain ⟨node, hnode, hchildren⟩ := hasDepth_succ_iff.1 h
    rw [nodeAt?_cons hnode, nodeAt?_cons (hkeep root node .refl hnode)]
    cases hchild : node.children[step]? with
    | none => rfl
    | some child =>
      have hmem := List.mem_of_getElem? hchild
      exact ih (hchildren child hmem) fun i node' hi => hkeep i node' (.head ⟨node, hnode, hmem⟩ hi)

theorem reaches_congr (h : ∀ path, g'.nodeAt? root path = g.nodeAt? root path) :
    g'.Reaches root id ↔ g.Reaches root id := by
  simp only [reaches_iff, h]

theorem unshared_congr (h : ∀ path, g'.nodeAt? root path = g.nodeAt? root path) :
    g'.Unshared root ↔ g.Unshared root := by
  simp only [Unshared, h]

/-! ## Trees that share no node -/

/-- The trees under two nodes have no node in common. -/
def ApartBelow (g : Grammar) (root root' : NodeId) : Prop :=
  ∀ id, g.Reaches root id → g.Reaches root' id → False

theorem Unshared.children {node : Node} (h : g.Unshared root) (hnode : g.node root = .ok node) :
    (∀ child ∈ node.children, ¬ g.Reaches child root) ∧ (∀ child ∈ node.children, g.Unshared child) ∧
      node.children.Pairwise g.ApartBelow := by
  have below : ∀ {step child path id}, node.children[step]? = some child →
      g.nodeAt? child path = some id → g.nodeAt? root (step :: path) = some id :=
    fun hchild hpath => nodeAt?_cons_eq_some.2 ⟨node, _, hnode, hchild, hpath⟩
  refine ⟨fun child hchild hreach => ?_, fun child hchild path path' id hpath hpath' => ?_, ?_⟩
  · obtain ⟨step, hstep⟩ := List.mem_iff_getElem?.1 hchild
    obtain ⟨path, hpath⟩ := reaches_iff.1 hreach
    cases h [] (step :: path) root rfl (below hstep hpath)
  · obtain ⟨step, hstep⟩ := List.mem_iff_getElem?.1 hchild
    exact (List.cons.inj (h _ _ id (below hstep hpath) (below hstep hpath'))).2
  · refine List.pairwise_iff_getElem.2 fun first second hfirst hsecond hlt id hid hid' => ?_
    obtain ⟨path, hpath⟩ := reaches_iff.1 hid
    obtain ⟨path', hpath'⟩ := reaches_iff.1 hid'
    have heq := h _ _ id (below (List.getElem?_eq_getElem hfirst) hpath)
      (below (List.getElem?_eq_getElem hsecond) hpath')
    exact Nat.ne_of_lt hlt (List.cons.inj heq).1

theorem unshared_of_children {node : Node} (hnode : g.node root = .ok node)
    (htop : ∀ child ∈ node.children, ¬ g.Reaches child root)
    (hown : ∀ child ∈ node.children, g.Unshared child)
    (hapart : node.children.Pairwise g.ApartBelow) : g.Unshared root := by
  intro path path' id hpath hpath'
  cases path with
  | nil =>
    cases hpath
    cases path' with
    | nil => rfl
    | cons step' rest' =>
      obtain ⟨node', child, hnode', hchild, hrest⟩ := nodeAt?_cons_eq_some.1 hpath'
      cases hnode.symm.trans hnode'
      exact (htop child (List.mem_of_getElem? hchild) (reaches_iff.2 ⟨rest', hrest⟩)).elim
  | cons step rest =>
    obtain ⟨node', child, hnode', hchild, hrest⟩ := nodeAt?_cons_eq_some.1 hpath
    cases hnode.symm.trans hnode'
    have hreach : g.Reaches child id := reaches_iff.2 ⟨rest, hrest⟩
    cases path' with
    | nil =>
      cases hpath'
      exact (htop child (List.mem_of_getElem? hchild) hreach).elim
    | cons step' rest' =>
      obtain ⟨node', child', hnode', hchild', hrest'⟩ := nodeAt?_cons_eq_some.1 hpath'
      cases hnode.symm.trans hnode'
      have hreach' : g.Reaches child' id := reaches_iff.2 ⟨rest', hrest'⟩
      obtain ⟨hstep, rfl⟩ := List.getElem?_eq_some_iff.1 hchild
      obtain ⟨hstep', rfl⟩ := List.getElem?_eq_some_iff.1 hchild'
      -- The same child was taken, since the trees under two children have no node in common.
      rcases Nat.lt_trichotomy step step' with hlt | rfl | hgt
      · exact (List.pairwise_iff_getElem.1 hapart _ _ hstep hstep' hlt id hreach hreach').elim
      · rw [hown _ (List.getElem_mem hstep) rest rest' id hrest hrest']
      · exact (List.pairwise_iff_getElem.1 hapart _ _ hstep' hstep hgt id hreach' hreach).elim

/-- A tree shares no node if its root is not below it and the trees right below share none, each in itself
and with the others. -/
theorem unshared_iff_children {node : Node} (hnode : g.node root = .ok node) :
    g.Unshared root ↔ (∀ child ∈ node.children, ¬ g.Reaches child root) ∧
      (∀ child ∈ node.children, g.Unshared child) ∧ node.children.Pairwise g.ApartBelow :=
  ⟨fun h => h.children hnode, fun h => unshared_of_children hnode h.1 h.2.1 h.2.2⟩

/-! ## Walks over the trees right below -/

section Below

variable {children : List NodeId} {parts : List (List NodeId)}
  (hparts : List.Forall₂ (fun child part => g.walkDown Node.children depth child = .ok part) children parts)

include hparts

theorem forall_not_reaches_iff : (∀ child ∈ children, ¬ g.Reaches child id) ↔ id ∉ parts.flatten := by
  induction hparts with
  | nil => simp
  | cons hpart _ ih =>
    rw [List.forall_mem_cons, List.flatten_cons, List.mem_append, not_or, ih, mem_walkDown hpart]
    rfl

theorem pairwise_apartBelow_iff : children.Pairwise g.ApartBelow ↔ parts.Pairwise List.Disjoint := by
  induction hparts with
  | nil => simp
  | cons hpart hrest ih =>
    rw [List.pairwise_cons, List.pairwise_cons, ih]
    refine and_congr_left' ⟨fun h part' hpart' id hid hid' => ?_, fun h child' hchild' id hid hid' => ?_⟩
    · obtain ⟨child', hchild', hwalk⟩ := Forall₂.exists_of_mem_right hrest hpart'
      exact h child' hchild' id ((mem_walkDown hpart).1 hid) ((mem_walkDown hwalk).1 hid')
    · obtain ⟨part', hpart', hwalk⟩ := Forall₂.exists_of_mem_left hrest hchild'
      exact h part' hpart' ((mem_walkDown hpart).2 hid) ((mem_walkDown hwalk).2 hid')

theorem forall_unshared_iff
    (hown : ∀ child part, g.walkDown Node.children depth child = .ok part →
      (g.Unshared child ↔ part.Nodup)) :
    (∀ child ∈ children, g.Unshared child) ↔ ∀ part ∈ parts, part.Nodup := by
  induction hparts with
  | nil => simp
  | cons hpart _ ih => rw [List.forall_mem_cons, List.forall_mem_cons, ih, hown _ _ hpart]

end Below

/-- **A walk that lists no node twice** goes over a tree that shares none. -/
theorem unshared_iff_nodup {ids : List NodeId}
    (h : g.walkDown Node.children depth root = .ok ids) : g.Unshared root ↔ ids.Nodup := by
  induction depth generalizing root ids with
  | zero => cases h
  | succ depth ih =>
    obtain ⟨node, parts, hnode, hparts, rfl⟩ := walkDown_succ_eq_ok.1 h
    rw [unshared_iff_children hnode, forall_not_reaches_iff hparts,
      forall_unshared_iff hparts fun _ _ => ih, pairwise_apartBelow_iff hparts, List.nodup_cons,
      List.nodup_flatten]

end Grammar

end PredictiveParser
