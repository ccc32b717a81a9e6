import PredictiveParser.Proofs.Grammar.Growth
import PredictiveParser.Proofs.Grammar.Height

/-!
# Copies of trees

A copy of a tree is a tree of new nodes (`Grammar.Copied`), and each of them shares with a node of the
copied tree all but its place: `Node.stem`. Copying a tree does not fail (`exists_copyDown`).
-/
namespace PredictiveParser

open Relation

/-! ## Nodes of a copy -/

def NodeKind.withChildren (news : List NodeId) : NodeKind → NodeKind
  | .sequence _ => .sequence news
  | .alternatives alts => .alternatives { alts with arms := news, prediction := none }
  | .gate _ _ => .gate (news.getD 0 0) (news.getD 1 0)
  | .check ⟨negate, .syntactic _ rule, prematched⟩ =>
    .check ⟨negate, .syntactic (news.getD 0 0) rule, prematched⟩
  | kind => kind

def Node.withChildren (news : List NodeId) (node : Node) : Node :=
  { node with kind := node.kind.withChildren news }

/-- What a node shares with its copies: everything but which nodes are below it, and its
prediction. -/
def Node.stem (node : Node) : Node :=
  node.withChildren (node.children.map fun _ => 0)

theorem Node.children_withChildren {node : Node} {news : List NodeId}
    (h : news.length = node.children.length) : (node.withChildren news).children = news := by
  obtain ⟨kind, label, isList, saver, pre, post, basis⟩ := node
  rcases kind with items | alts | ⟨predict, matched⟩ | ⟨negate, ⟨tokens⟩ | ⟨payload, rule⟩, mark⟩ |
    callee | ⟨set, mark⟩
  · rfl
  · rfl
  · obtain ⟨first, second, rfl⟩ := List.length_eq_two.1 h
    rfl
  · exact (List.length_eq_zero_iff.1 h).symm
  · obtain ⟨first, rfl⟩ := List.length_eq_one_iff.1 h
    rfl
  · exact (List.length_eq_zero_iff.1 h).symm
  · exact (List.length_eq_zero_iff.1 h).symm

theorem Node.stem_withChildren {node : Node} {news : List NodeId}
    (h : news.length = node.children.length) : (node.withChildren news).stem = node.stem := by
  have hzeros : (node.withChildren news).children.map (fun _ => (0 : NodeId)) =
      node.children.map fun _ => 0 := by
    rw [children_withChildren h]
    simp only [List.map_const', h]
  unfold stem
  rw [hzeros]
  obtain ⟨kind, label, isList, saver, pre, post, basis⟩ := node
  rcases kind with items | alts | ⟨predict, matched⟩ | ⟨negate, ⟨tokens⟩ | ⟨payload, rule⟩, mark⟩ |
    callee | ⟨set, mark⟩ <;> rfl

namespace Grammar

variable {g g' g'' : Grammar} {id new : NodeId} {depth : Nat}

/-- A node is copied behind the nodes below it. -/
theorem copyDown_succ (depth : Nat) (g : Grammar) (id : NodeId) :
    copyDown (depth + 1) g id = do
      let node ← g.node id
      let (g, news) ← copyAll (copyDown depth) g node.children
      return g.addNode (node.withChildren news) := by
  rw [copyDown]
  cases hnode : g.node id with
  | error fault => rfl
  | ok node =>
    obtain ⟨kind, label, isList, saver, pre, post, basis⟩ := node
    rcases kind with items | alts | ⟨predict, matched⟩ | ⟨negate, ⟨tokens⟩ | ⟨payload, rule⟩, mark⟩ |
      callee | ⟨set, mark⟩
    · rfl
    · rfl
    · simp only [Node.children, copyAll, bind, Except.bind, pure, Except.pure]
      cases copyDown depth g predict with
      | error fault => rfl
      | ok first =>
        simp only
        cases copyDown depth first.1 matched with
        | error fault => rfl
        | ok second => rfl
    · rfl
    · simp only [Node.children, copyAll, bind, Except.bind, pure, Except.pure]
      cases copyDown depth g payload with
      | error fault => rfl
      | ok first => rfl
    · rfl
    · rfl

/-- Every node shares its stem with one of the other grammar. -/
def StemsIn (g g' : Grammar) : Prop :=
  ∀ id node', g'.node id = .ok node' → ∃ source node, g.node source = .ok node ∧ node'.stem = node.stem

theorem StemsIn.refl (g : Grammar) : g.StemsIn g := fun id node h => ⟨id, node, h, rfl⟩

theorem StemsIn.trans (h : g.StemsIn g') (h' : g'.StemsIn g'') : g.StemsIn g'' := by
  intro id node'' hnode''
  obtain ⟨source', node', hnode', hstem'⟩ := h' id node'' hnode''
  obtain ⟨source, node, hnode, hstem⟩ := h source' node' hnode'
  exact ⟨source, node, hnode, hstem'.trans hstem⟩

theorem stemsIn_copyAll {copy : Grammar → NodeId → Except Fault (Grammar × NodeId)}
    (hcopy : ∀ g id g' new, copy g id = .ok (g', new) → g.StemsIn g') {ids news : List NodeId}
    (h : copyAll copy g ids = .ok (g', news)) : g.StemsIn g' ∧ news.length = ids.length := by
  induction ids generalizing g news with
  | nil =>
    cases pure_eq_ok.1 h
    exact ⟨.refl _, rfl⟩
  | cons id rest ih =>
    rw [copyAll] at h
    obtain ⟨⟨g₁, first⟩, hfirst, h⟩ := bind_eq_ok.1 h
    obtain ⟨⟨g₂, others⟩, hothers, h⟩ := bind_eq_ok.1 h
    cases pure_eq_ok.1 h
    obtain ⟨hstems, hlength⟩ := ih hothers
    exact ⟨(hcopy _ _ _ _ hfirst).trans hstems, congrArg Nat.succ hlength⟩

theorem stemsIn_copyDown (h : copyDown depth g id = .ok (g', new)) : g.StemsIn g' := by
  induction depth generalizing g id g' new with
  | zero => cases h
  | succ depth ih =>
    rw [copyDown_succ] at h
    obtain ⟨node, hnode, h⟩ := bind_eq_ok.1 h
    obtain ⟨⟨g₁, news⟩, hcopies, h⟩ := bind_eq_ok.1 h
    obtain ⟨hstems, hlength⟩ := stemsIn_copyAll (fun _ _ _ _ => ih) hcopies
    cases pure_eq_ok.1 h
    intro i node' hnode'
    rcases node_addNode hnode' with rfl | hold
    · exact ⟨id, node, hnode, Node.stem_withChildren hlength⟩
    · exact hstems i node' hold

/-! ## Trees of a larger grammar -/

theorem Extends.node (h : g.Extends g') {node : Node} (hnode : g.node id = .ok node) :
    g'.node id = .ok node := by
  rw [node_eq_ok, h.nodes id (lt_size_of_kindAt? (kindAt?_of_node hnode))]
  exact node_eq_ok.1 hnode

theorem size_addNode (g : Grammar) (added : Node) :
    (g.addNode added).1.nodes.size = g.nodes.size + 1 :=
  Array.size_push added

theorem node_addNode_last (g : Grammar) (added : Node) :
    (g.addNode added).1.node g.nodes.size = .ok added :=
  node_eq_ok.2 Array.getElem?_push_size

theorem node_addNode_of_node {node : Node} (hnode : g.node id = .ok node) (added : Node) :
    (g.addNode added).1.node id = .ok node := by
  have hlt := lt_size_of_kindAt? (kindAt?_of_node hnode)
  rw [node_eq_ok]
  show (g.nodes.push _)[id]? = _
  rw [Array.getElem?_push, if_neg (Nat.ne_of_lt hlt)]
  exact node_eq_ok.1 hnode

theorem Extends.shapeIn (h : g.Extends g') : g.ShapeIn g' := by
  intro id kind hk
  refine ⟨kind, ?_, rfl⟩
  rw [kindAt?, h.nodes id (lt_size_of_kindAt? hk)]
  exact hk

theorem shapeIn_addNode (node : Node) : g.ShapeIn (g.addNode node).1 := by
  intro id kind hk
  refine ⟨kind, ?_, rfl⟩
  have hlt := lt_size_of_kindAt? hk
  show Option.map _ (g.nodes.push node)[id]? = _
  rw [Array.getElem?_push, if_neg (Nat.ne_of_lt hlt)]
  exact hk

/-- Where there was a tree, nothing else is reached. -/
theorem ShapeIn.reached_iff (h : g.ShapeIn g') {below : Node → List NodeId}
    (hbelow : ∀ node node' : Node, node.kind.bare = node'.kind.bare → below node = below node')
    (hdepth : g.HasDepth below depth id) {other : NodeId} :
    ReflTransGen (g'.Link below) id other ↔ ReflTransGen (g.Link below) id other := by
  obtain ⟨ids, hids⟩ := hdepth
  have hids' := h.walkDown hbelow (Nat.le_refl depth) hids
  exact (mem_walkDown hids').symm.trans (mem_walkDown hids)

theorem lt_size_of_walkDown {below : Node → List NodeId} {ids : List NodeId}
    (h : g.walkDown below depth id = .ok ids) {other : NodeId} (hother : other ∈ ids) :
    other < g.nodes.size := by
  obtain ⟨node, hnode⟩ := node_of_walkDown h hother
  exact lt_size_of_kindAt? (kindAt?_of_node hnode)

/-! ## Twins -/

/-- The tree of at most so many levels under `new` has, node by node, what the tree under `id` has, and no
predictions. -/
def TwinOf (g g' : Grammar) : (depth : Nat) → (id new : NodeId) → Prop
  | 0, _, _ => False
  | depth + 1, id, new => ∃ node below, g.node id = .ok node ∧
      g'.node new = .ok (node.withChildren below) ∧ List.Forall₂ (TwinOf g g' depth) node.children below

theorem TwinOf.keep (hkeep : ∀ i node, g'.node i = .ok node → g''.node i = .ok node)
    (h : TwinOf g g' depth id new) : TwinOf g g'' depth id new := by
  induction depth generalizing id new with
  | zero => exact h
  | succ depth ih =>
    obtain ⟨node, below, hnode, hnew, hbelow⟩ := h
    exact ⟨node, below, hnode, hkeep new _ hnew, hbelow.imp fun _ _ => ih⟩

/-- What is a twin of a tree in a larger grammar is one of the tree that was there before. -/
theorem TwinOf.before (hkeep : ∀ i node, g.node i = .ok node → g'.node i = .ok node)
    (hdepth : g.HasDepth Node.children depth id) (h : TwinOf g' g'' depth id new) :
    TwinOf g g'' depth id new := by
  induction depth generalizing id new with
  | zero => exact h
  | succ depth ih =>
    obtain ⟨node, below, hnode, hnew, hbelow⟩ := h
    obtain ⟨old, hold, hchildren⟩ := hasDepth_succ_iff.1 hdepth
    cases hnode.symm.trans (hkeep id old hold)
    refine ⟨node, below, hold, hnew, ?_⟩
    have hboth := (List.forall₂_and_left _ _).2 ⟨hchildren, hbelow⟩
    exact hboth.imp fun _ _ hpair => ih hpair.1 hpair.2

/-! ## Copying -/

/-- The tree under `new` is a copy of the tree under `id`, and nothing else was added. -/
structure Copied (g : Grammar) (depth : Nat) (id : NodeId) (g' : Grammar) (new : NodeId) : Prop where
  extend : g.Extends g'
  twin : TwinOf g g' depth id new
  reached : ∀ i, g.nodes.size ≤ i → i < g'.nodes.size → g'.Reaches new i
  walk : ∃ ids, g'.walkDown Node.children depth new = .ok ids ∧ ids.Nodup ∧
    ∀ i ∈ ids, g.nodes.size ≤ i
  levels : ∀ d, g.HasDepth Node.children d id → g'.HasDepth Node.children d new
  stems : ∀ i node', g.nodes.size ≤ i → g'.node i = .ok node' →
    ∃ source node, g.Reaches id source ∧ g.node source = .ok node ∧ node'.stem = node.stem

/-- The trees under `news` are copies of the trees under `ids`, and nothing else was added. -/
structure CopiedAll (g : Grammar) (depth : Nat) (ids : List NodeId) (g' : Grammar)
    (news : List NodeId) : Prop where
  extend : g.Extends g'
  twins : List.Forall₂ (TwinOf g g' depth) ids news
  reached : ∀ i, g.nodes.size ≤ i → i < g'.nodes.size → ∃ new ∈ news, g'.Reaches new i
  walks : ∃ parts, List.Forall₂ (fun new part => g'.walkDown Node.children depth new = .ok part)
    news parts ∧ parts.flatten.Nodup ∧ ∀ i ∈ parts.flatten, g.nodes.size ≤ i
  levels : List.Forall₂ (fun id new => ∀ d, g.HasDepth Node.children d id →
    g'.HasDepth Node.children d new) ids news
  stems : ∀ i node', g.nodes.size ≤ i → g'.node i = .ok node' → ∃ id ∈ ids, ∃ source node,
    g.Reaches id source ∧ g.node source = .ok node ∧ node'.stem = node.stem

theorem CopiedAll.nil (g : Grammar) (depth : Nat) : CopiedAll g depth [] g [] where
  extend := .refl g
  twins := .nil
  reached i hi hlt := absurd hlt (Nat.not_lt.2 hi)
  walks := ⟨[], .nil, List.nodup_nil, fun _ hi => absurd hi List.not_mem_nil⟩
  levels := .nil
  stems i node' hi hnode' := by
    exact absurd (lt_size_of_kindAt? (kindAt?_of_node hnode')) (Nat.not_lt.2 hi)

theorem CopiedAll.cons {ids news : List NodeId}
    (hids : ∀ id ∈ ids, g.HasDepth Node.children depth id) (h : Copied g depth id g' new)
    (hrest : CopiedAll g' depth ids g'' news) : CopiedAll g depth (id :: ids) g'' (new :: news) where
  extend := h.extend.trans hrest.extend
  twins := by
    have hboth := (List.forall₂_and_left _ _).2 ⟨hids, hrest.twins⟩
    refine .cons (h.twin.keep fun _ _ => hrest.extend.node) (hboth.imp fun _ _ hpair => ?_)
    exact hpair.2.before (fun _ _ => h.extend.node) hpair.1
  reached i hi hlt := by
    rcases Nat.lt_or_ge i g'.nodes.size with hfirst | hge
    · exact ⟨new, List.mem_cons_self, ReflTransGen.mono (fun _ _ ⟨node, hnode, hchild⟩ =>
        ⟨node, hrest.extend.node hnode, hchild⟩) _ _ (h.reached i hi hfirst)⟩
    · obtain ⟨other, hother, hreach⟩ := hrest.reached i hge hlt
      exact ⟨other, List.mem_cons_of_mem _ hother, hreach⟩
  walks := by
    obtain ⟨part, hpart, hnodup, hpartNew⟩ := h.walk
    obtain ⟨parts, hparts, hpartsNodup, hpartsNew⟩ := hrest.walks
    have hwalk := hrest.extend.shapeIn.walkDown (fun _ _ => Node.children_of_bare)
      (Nat.le_refl depth) hpart
    refine ⟨part :: parts, .cons hwalk hparts, ?_, ?_⟩
    · -- The first copy lies below the size at which the others begin.
      refine List.nodup_append.2 ⟨hnodup, hpartsNodup, fun i hi j hj hij => ?_⟩
      have hge := hpartsNew j hj
      rw [← hij] at hge
      exact absurd (lt_size_of_walkDown hpart hi) (Nat.not_lt.2 hge)
    · intro i hi
      rcases List.mem_append.1 hi with hi | hi
      · exact hpartNew i hi
      · exact Nat.le_trans h.extend.size (hpartsNew i hi)
  levels := by
    have hshape := h.extend.shapeIn
    refine .cons (fun d hd => hrest.extend.shapeIn.hasDepth (fun _ _ => Node.children_of_bare)
      (h.levels d hd)) (hrest.levels.imp fun id new hnew d hd => hnew d ?_)
    exact hshape.hasDepth (fun _ _ => Node.children_of_bare) hd
  stems i node' hi hnode' := by
    rcases Nat.lt_or_ge i g'.nodes.size with hlt | hge
    · have hold : g'.node i = .ok node' := by
        rw [node_eq_ok] at hnode' ⊢
        rw [← hrest.extend.nodes i hlt, hnode']
      exact ⟨id, List.mem_cons_self, h.stems i node' hi hold⟩
    · obtain ⟨other, hother, source, node, hreach, hnode, hstem⟩ := hrest.stems i node' hge hnode'
      have hreach := (h.extend.shapeIn.reached_iff (fun _ _ => Node.children_of_bare)
        (hids other hother)).1 hreach
      obtain ⟨old, hold⟩ := ((hids other hother).reached hreach).exists_node
      have hlt := lt_size_of_kindAt? (kindAt?_of_node hold)
      refine ⟨other, List.mem_cons_of_mem _ hother, source, node, hreach, ?_, hstem⟩
      rw [node_eq_ok] at hnode ⊢
      rw [← h.extend.nodes source hlt, hnode]

theorem exists_copyAll (hcopy : ∀ (g : Grammar) (id : NodeId), g.HasDepth Node.children depth id →
      ∃ g' new, copyDown depth g id = .ok (g', new) ∧ Copied g depth id g' new)
    (g : Grammar) {ids : List NodeId} (hids : ∀ id ∈ ids, g.HasDepth Node.children depth id) :
    ∃ g' news, copyAll (copyDown depth) g ids = .ok (g', news) ∧ CopiedAll g depth ids g' news := by
  induction ids generalizing g with
  | nil => exact ⟨g, [], rfl, .nil g depth⟩
  | cons id rest ih =>
    obtain ⟨hid, hrest⟩ := List.forall_mem_cons.1 hids
    obtain ⟨g₁, new, hfirst, hcopied⟩ := hcopy g id hid
    obtain ⟨g₂, news, hothers, hcopiedAll⟩ := ih g₁ fun other hother =>
      hcopied.extend.shapeIn.hasDepth (fun _ _ => Node.children_of_bare) (hrest other hother)
    refine ⟨g₂, new :: news, ?_, .cons hrest hcopied hcopiedAll⟩
    rw [copyAll, hfirst]
    show (copyAll (copyDown depth) g₁ rest >>= _) = _
    rw [hothers]
    rfl

theorem CopiedAll.addNode {node : Node} {news : List NodeId} (hnode : g.node id = .ok node)
    (h : CopiedAll g depth node.children g' news)
    (hextend : g.Extends (g'.addNode (node.withChildren news)).1) :
    Copied g (depth + 1) id (g'.addNode (node.withChildren news)).1 g'.nodes.size where
  extend := hextend
  twin := by
    refine ⟨node, news, hnode, node_addNode_last g' _, ?_⟩
    exact h.twins.imp fun _ _ htwin => htwin.keep fun _ _ hold => node_addNode_of_node hold _
  reached i hi hlt := by
    rw [size_addNode] at hlt
    rcases Nat.lt_succ_iff_lt_or_eq.1 hlt with hbefore | rfl
    · obtain ⟨new, hnew, hreach⟩ := h.reached i hi hbefore
      refine .head ⟨_, node_addNode_last g' _, ?_⟩ (ReflTransGen.mono (fun _ _ ⟨old, hold, hchild⟩ =>
        ⟨old, node_addNode_of_node hold _, hchild⟩) _ _ hreach)
      rwa [Node.children_withChildren h.levels.length_eq.symm]
    · exact .refl
  walk := by
    obtain ⟨parts, hparts, hnodup, hnew⟩ := h.walks
    have hchildren : (node.withChildren news).children = news :=
      Node.children_withChildren h.levels.length_eq.symm
    refine ⟨g'.nodes.size :: parts.flatten,
      walkDown_succ_eq_ok.2 ⟨_, parts, node_addNode_last g' _, ?_, rfl⟩, ?_, ?_⟩
    · rw [hchildren]
      exact hparts.imp fun new part hpart => (shapeIn_addNode _).walkDown
        (fun _ _ => Node.children_of_bare) (Nat.le_refl depth) hpart
    · refine List.nodup_cons.2 ⟨fun hmem => ?_, hnodup⟩
      obtain ⟨part, hpart, hmem⟩ := List.mem_flatten.1 hmem
      obtain ⟨new, -, hwalk⟩ := Forall₂.exists_of_mem_right hparts hpart
      exact Nat.lt_irrefl _ (lt_size_of_walkDown hwalk hmem)
    · exact List.forall_mem_cons.2 ⟨h.extend.size, hnew⟩
  levels d hd := by
    obtain ⟨less, rfl⟩ := hd.exists_succ
    refine hasDepth_succ_iff.2 ⟨_, node_addNode_last g' _, fun child hchild => ?_⟩
    rw [Node.children_withChildren h.levels.length_eq.symm] at hchild
    obtain ⟨source, hsource, hlevels⟩ := Forall₂.exists_of_mem_right h.levels hchild
    exact (shapeIn_addNode _).hasDepth (fun _ _ => Node.children_of_bare)
      (hlevels less (hd.child hnode hsource))
  stems i node' hi hnode' := by
    rcases node_addNode hnode' with rfl | hold
    · exact ⟨id, node, .refl, hnode, Node.stem_withChildren h.levels.length_eq.symm⟩
    · obtain ⟨child, hchild, source, old, hreach, hrest⟩ := h.stems i node' hi hold
      exact ⟨source, old, .head ⟨node, hnode, hchild⟩ hreach, hrest⟩

/-- **A tree can be copied.** -/
theorem exists_copyDown (g : Grammar) (h : g.HasDepth Node.children depth id) :
    ∃ g' new, copyDown depth g id = .ok (g', new) ∧ Copied g depth id g' new := by
  induction depth generalizing g id with
  | zero => exact absurd h not_hasDepth_zero
  | succ depth ih =>
    obtain ⟨node, hnode, hchildren⟩ := hasDepth_succ_iff.1 h
    obtain ⟨g', news, hcopies, hcopied⟩ := exists_copyAll (fun g id hid => ih g hid) g hchildren
    have hcopy : copyDown (depth + 1) g id = .ok (g'.addNode (node.withChildren news)) := by
      rw [copyDown_succ, hnode]
      show (copyAll (copyDown depth) g node.children >>= _) = _
      rw [hcopies]
      rfl
    exact ⟨_, _, hcopy, hcopied.addNode hnode (extends_copyDown hcopy).1⟩

end Grammar

end PredictiveParser
