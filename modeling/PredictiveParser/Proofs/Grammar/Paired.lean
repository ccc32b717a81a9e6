import PredictiveParser.Proofs.Grammar.Shape

/-!
# Grammars compared node by node

`Grammar.Paired` says how the nodes of two grammars with the same rules are related, place by place. What
can be done to a node of the one can be done to the same node of the other, and the nodes stay related when
the change respects it (`Paired.modifyNode`).
-/
namespace PredictiveParser

namespace Grammar

variable {R R' : NodeId → Node → Node → Prop} {g g' h : Grammar} {id : NodeId} {n m : Node}

theorem exists_node_of_lt (hid : id < g.nodes.size) : ∃ n, g.node id = .ok n :=
  ⟨_, node_eq_ok.2 (Array.getElem?_eq_getElem hid)⟩

theorem lt_of_node (hn : g.node id = .ok n) : id < g.nodes.size :=
  (Array.getElem?_eq_some_iff.1 (node_eq_ok.1 hn)).1

theorem lt_of_modifyNode {f : Node → Node} (hg' : g.modifyNode id f = .ok g') :
    id < g.nodes.size := by
  unfold modifyNode at hg'
  split at hg'
  · assumption
  · cases hg'

theorem size_modifyNode {f : Node → Node} (hg' : g.modifyNode id f = .ok g') :
    g'.nodes.size = g.nodes.size := by
  unfold modifyNode at hg'
  split at hg'
  · cases hg'
    exact Array.size_modify
  · cases hg'

/-- The grammars have the same rules, and their nodes are related place by place. -/
structure Paired (R : NodeId → Node → Node → Prop) (g h : Grammar) : Prop where
  size : h.nodes.size = g.nodes.size
  related : ∀ {id n m}, g.node id = .ok n → h.node id = .ok m → R id n m
  rules : h.rules = g.rules

theorem Paired.imp (hp : Paired R g h) (himp : ∀ id n m, R id n m → R' id n m) : Paired R' g h where
  size := hp.size
  related hn hm := himp _ _ _ (hp.related hn hm)
  rules := hp.rules

theorem Paired.exists_node (hp : Paired R g h) (hn : g.node id = .ok n) :
    ∃ m, h.node id = .ok m ∧ R id n m := by
  obtain ⟨m, hm⟩ := exists_node_of_lt (hp.size ▸ lt_of_node hn)
  exact ⟨m, hm, hp.related hn hm⟩

/-- What reads the same of related nodes is the same at every place. -/
theorem Paired.map_eq {α : Type} (hp : Paired R g h) (id : NodeId) (f : Node → α)
    (hf : ∀ n m, R id n m → f m = f n) : h.nodes[id]?.map f = g.nodes[id]?.map f := by
  by_cases hid : id < g.nodes.size
  · obtain ⟨n, hn⟩ := exists_node_of_lt hid
    obtain ⟨m, hm, hrel⟩ := hp.exists_node hn
    rw [node_eq_ok.1 hn, node_eq_ok.1 hm]
    exact congrArg some (hf n m hrel)
  · rw [Array.getElem?_eq_none (Nat.le_of_not_lt hid),
      Array.getElem?_eq_none (hp.size ▸ Nat.le_of_not_lt hid)]

theorem Paired.sameShape (hp : Paired R g h)
    (hbare : ∀ id n m, R id n m → m.kind.bare = n.kind.bare) : g.SameShape h := by
  intro id
  have hsame := hp.map_eq id (fun node => node.kind.bare) (hbare id)
  rw [kindAt?, kindAt?, Option.map_map, Option.map_map]
  exact hsame.symm

/-- **A change of one node is made in both grammars.** -/
theorem Paired.modifyNode (hp : Paired R g h) {f : Node → Node} (hg' : g.modifyNode id f = .ok g')
    (hkeep : ∀ other n m, other ≠ id → R other n m → R' other n m)
    (hat : ∀ n m, R id n m → R' id (f n) (f m)) :
    ∃ h', h.modifyNode id f = .ok h' ∧ Paired R' g' h' := by
  obtain ⟨h', hh'⟩ := exists_modifyNode (g := h) (f := f)
    (exists_node_of_lt (hp.size ▸ lt_of_modifyNode hg'))
  refine ⟨h', hh', by rw [size_modifyNode hh', hp.size, size_modifyNode hg'],
    fun {other n' m'} hn' hm' => ?_,
    by rw [(modifyNode_eq_ok hh').1, hp.rules, (modifyNode_eq_ok hg').1]⟩
  obtain ⟨n, hn, rfl⟩ := node_modifyNode hg' hn'
  obtain ⟨m, hm, rfl⟩ := node_modifyNode hh' hm'
  have hrel := hp.related hn hm
  by_cases heq : other = id
  · subst heq
    rw [if_pos rfl, if_pos rfl]
    exact hat n m hrel
  · rw [if_neg heq, if_neg heq]
    exact hkeep other n m heq hrel

end Grammar

end PredictiveParser
