import PredictiveParser.Proofs.Grammar.Built
import PredictiveParser.Proofs.Grammar.Copies
import PredictiveParser.Proofs.Grammar.Paired

/-!
# Grammars in the order in which they are made

A builder is given nodes that are there and puts its own behind them, so each node stands behind the nodes
below it (`Grammar.Ordered`), and what is below a node is a finite tree (`Ordered.hasDepth`). No builder
breaks this order: a loop is made of a choice in its place, and a copy stands behind everything
(`Assembled.ordered`).
-/
namespace PredictiveParser

namespace Grammar

/-- The grammar was made with the builders, each of which was given only nodes that were there. Predictions
and marks may have been attached to nodes. -/
inductive Assembled : Grammar → Prop where
  | empty : Assembled empty
  | addNode {g : Grammar} (before : Assembled g) (node : Node)
      (there : ∀ child ∈ node.children, child < g.nodes.size) : Assembled (g.addNode node).1
  | terminal {g : Grammar} (before : Assembled g) (set : CharSet) : Assembled (g.terminal set).1
  | sequence {g : Grammar} (before : Assembled g) (items : List NodeId)
      (there : ∀ item ∈ items, item < g.nodes.size) : Assembled (g.sequence items).1
  | alternatives {g : Grammar} (before : Assembled g) (arms : List NodeId)
      (there : ∀ arm ∈ arms, arm < g.nodes.size) : Assembled (g.alternatives arms).1
  | call {g : Grammar} (before : Assembled g) (rule : String) : Assembled (g.call rule).1
  | gate {g : Grammar} (before : Assembled g) (predict matched : NodeId)
      (there : predict < g.nodes.size) (there' : matched < g.nodes.size) :
      Assembled (g.gate predict matched).1
  | checkCode {g : Grammar} (before : Assembled g) (negate : Bool) (code : Tokens) :
      Assembled (g.checkCode negate code).1
  | checkMatch {g : Grammar} (before : Assembled g) (negate : Bool) (payload : NodeId)
      (there : payload < g.nodes.size) : Assembled (g.checkMatch negate payload).1
  | star {g g' : Grammar} {inner new : NodeId} (before : Assembled g)
      (done : g.star inner = .ok (g', new)) : Assembled g'
  | opt {g g' : Grammar} {inner new : NodeId} (before : Assembled g)
      (done : g.opt inner = .ok (g', new)) : Assembled g'
  | plus {g g' : Grammar} {inner new : NodeId} (before : Assembled g)
      (done : g.plus inner = .ok (g', new)) : Assembled g'
  | deepClone {g g' : Grammar} {id new : NodeId} (before : Assembled g)
      (done : g.deepClone id = .ok (g', new)) : Assembled g'
  | label {g g' : Grammar} {id : NodeId} {name : String} {isList : Bool} (before : Assembled g)
      (done : g.label id name isList = .ok g') : Assembled g'
  | preAction {g g' : Grammar} {id : NodeId} {code : Tokens} (before : Assembled g)
      (done : g.preAction id code = .ok g') : Assembled g'
  | postAction {g g' : Grammar} {id : NodeId} {code : Tokens} (before : Assembled g)
      (done : g.postAction id code = .ok g') : Assembled g'
  | basis {g g' : Grammar} {id : NodeId} {code : Tokens} (before : Assembled g)
      (done : g.basis id code = .ok g') : Assembled g'
  | defaultArm {g g' : Grammar} {id : NodeId} {arm : Nat} (before : Assembled g)
      (done : g.defaultArm id arm = .ok g') : Assembled g'
  | errorBranch {g g' : Grammar} {id : NodeId} (before : Assembled g)
      (done : g.errorBranch id = .ok g') : Assembled g'
  | greedy {g g' : Grammar} {id : NodeId} {value : Bool} (before : Assembled g)
      (done : g.greedy id value = .ok g') : Assembled g'
  | prediction {g g' : Grammar} {id : NodeId} {prediction : Option Decision} (before : Assembled g)
      (done : g.setPrediction id prediction = .ok g') : Assembled g'
  | prematched {g g' : Grammar} {id : NodeId} {mark : Option Bool} (before : Assembled g)
      (done : g.setPrematched id mark = .ok g') : Assembled g'
  | addRule {g g' : Grammar} {rule : Rule} (before : Assembled g)
      (there : rule.body < g.nodes.size) (done : g.addRule rule = .ok g') : Assembled g'

/-- Each node stands behind the nodes below it, the bodies of the rules are nodes, and each rule is kept
under its own name. -/
structure Ordered (g : Grammar) : Prop where
  below : ∀ parent child, g.Link Node.children parent child → child < parent
  bodies : ∀ rule ∈ g.ruleList, rule.body < g.nodes.size
  keyed : g.Keyed

variable {g g' g'' : Grammar} {id new new' : NodeId}

/-- In an ordered grammar there is a finite tree under each node. -/
theorem Ordered.hasDepth (h : g.Ordered) (hid : id < g.nodes.size) :
    g.HasDepth Node.children (id + 1) id := by
  induction id using Nat.strongRecOn with
  | ind id ih =>
    obtain ⟨node, hnode⟩ := exists_node_of_lt hid
    refine hasDepth_succ_iff.2 ⟨node, hnode, fun child hchild => ?_⟩
    have hlt := h.below id child ⟨node, hnode, hchild⟩
    exact (ih child hlt (Nat.lt_trans hlt hid)).mono hlt

theorem Ordered.hasDepth_bound (h : g.Ordered) (hid : id < g.nodes.size) :
    g.HasDepth Node.children g.depthBound id :=
  (h.hasDepth hid).mono (Nat.succ_le_succ (Nat.le_of_lt hid))

theorem Ordered.le_of_reaches (h : g.Ordered) {root : NodeId} (hreach : g.Reaches root id) : id ≤ root := by
  induction hreach with
  | refl => exact Nat.le_refl _
  | tail _ hlink ih => exact Nat.le_trans (Nat.le_of_lt (h.below _ _ hlink)) ih

/-! ## Building -/

/-- A builder has made an ordered grammar, which has the nodes there were and the node that it returns. -/
structure Continues (g g' : Grammar) (new : NodeId) : Prop where
  ordered : g'.Ordered
  size : g.nodes.size ≤ g'.nodes.size
  there : new < g'.nodes.size

theorem Continues.trans (h : Continues g g' new) (h' : Continues g' g'' new') : Continues g g'' new' :=
  ⟨h'.ordered, Nat.le_trans h.size h'.size, h'.there⟩

theorem Ordered.addNode (h : g.Ordered) {node : Node}
    (hnode : ∀ child ∈ node.children, child < g.nodes.size) :
    Continues g (g.addNode node).1 (g.addNode node).2 := by
  have hsize := size_addNode g node
  refine ⟨⟨fun parent child hlink => ?_, fun rule hrule => ?_, h.keyed.of_rules rfl⟩, ?_, ?_⟩
  · obtain ⟨node', hnode', hchild⟩ := hlink
    have hat : (g.nodes.push node)[parent]? = some node' := node_eq_ok.1 hnode'
    rw [Array.getElem?_push] at hat
    split at hat
    · rename_i hlast
      cases hat
      exact hlast ▸ hnode child hchild
    · exact h.below parent child ⟨node', node_eq_ok.2 hat, hchild⟩
  · rw [hsize]
    exact Nat.lt_succ_of_lt (h.bodies rule hrule)
  · exact hsize ▸ Nat.le_succ _
  · exact hsize ▸ Nat.lt_succ_self _

theorem Ordered.addKind (h : g.Ordered) {kind : NodeKind}
    (hkind : ∀ child ∈ (Node.ofKind kind).children, child < g.nodes.size) : (g.addKind kind).1.Ordered :=
  (h.addNode hkind).ordered

theorem Ordered.modifyNode (h : g.Ordered) {f : Node → Node} (hg' : g.modifyNode id f = .ok g')
    (hf : ∀ node, (f node).children = node.children) : g'.Ordered where
  below parent child hlink := by
    obtain ⟨node', hnode', hchild⟩ := hlink
    obtain ⟨node, hnode, rfl⟩ := node_modifyNode hg' hnode'
    refine h.below parent child ⟨node, hnode, ?_⟩
    split at hchild
    · rwa [hf] at hchild
    · exact hchild
  bodies rule hrule := by
    rw [size_modifyNode hg']
    exact h.bodies rule (by rwa [ruleList, (modifyNode_eq_ok hg').1] at hrule)
  keyed := h.keyed.of_rules (modifyNode_eq_ok hg').1

theorem children_mapAlternatives {f : Alternatives → Alternatives}
    (hf : ∀ alts, (f alts).arms = alts.arms) (node : Node) :
    (node.mapAlternatives f).children = node.children := by
  unfold Node.mapAlternatives
  split
  · rename_i alts hkind
    simp only [Node.children, hkind, hf]
  · rfl

theorem children_withPrematched (mark : Option Bool) (node : Node) :
    (node.withPrematched mark).children = node.children := by
  obtain ⟨kind, label, isList, saver, pre, post, basis⟩ := node
  rcases kind with items | alts | ⟨predict, matched⟩ | ⟨negate, ⟨tokens⟩ | ⟨payload, rule⟩, mark'⟩ |
    callee | ⟨set, mark'⟩ <;> rfl

/-- What `loopOf` does: it makes a plain choice the loop, or adds a loop with the node as its only arm. -/
theorem loopOf_cases {inner : NodeId} {mode : Repetition} (h : g.loopOf inner mode = .ok (g', new)) :
    (∃ node alts, g.node inner = .ok node ∧ node.kind = .alternatives alts ∧ alts.mode = .once ∧
        node.label = none ∧ node.preAction = none ∧ node.postAction = none ∧ new = inner ∧
        g.modifyNode inner (Node.mapAlternatives ({ · with mode })) = .ok g') ∨
      (∃ node, g.node inner = .ok node) ∧
        (g', new) = g.addKind (.alternatives (.ofArms [inner] mode)) := by
  obtain ⟨node, hnode, h⟩ := bind_eq_ok.1 h
  split at h
  · rename_i alts hkind
    dsimp only at h
    split at h
    · rename_i hplain
      obtain ⟨g₁, hg₁, h⟩ := bind_eq_ok.1 h
      cases pure_eq_ok.1 h
      simp only [Bool.and_eq_true, Option.isNone_iff_eq_none, beq_iff_eq] at hplain
      obtain ⟨⟨⟨hlabel, hpre⟩, hpost⟩, hmode⟩ := hplain
      exact Or.inl ⟨node, alts, hnode, hkind, hmode, hlabel, hpre, hpost, rfl, hg₁⟩
    · exact Or.inr ⟨⟨node, hnode⟩, (pure_eq_ok.1 h).symm⟩
  · exact Or.inr ⟨⟨node, hnode⟩, (pure_eq_ok.1 h).symm⟩

theorem Ordered.loopOf (h : g.Ordered) {inner : NodeId} {mode : Repetition}
    (hg' : g.loopOf inner mode = .ok (g', new)) : Continues g g' new := by
  obtain ⟨node, alts, hnode, -, -, -, -, -, rfl, hg'⟩ | ⟨⟨node, hnode⟩, heq⟩ := loopOf_cases hg'
  · have hsize := size_modifyNode hg'
    refine ⟨h.modifyNode hg' (children_mapAlternatives fun _ => rfl), Nat.le_of_eq hsize.symm, ?_⟩
    exact hsize ▸ lt_of_node hnode
  · cases heq
    refine h.addNode fun child hchild => ?_
    rw [List.mem_singleton.1 hchild]
    exact lt_of_node hnode

theorem Ordered.copyAll {copy : Grammar → NodeId → Except Fault (Grammar × NodeId)}
    (hcopy : ∀ g id g' new, g.Ordered → copy g id = .ok (g', new) → Continues g g' new)
    {ids news : List NodeId} (h : g.Ordered) (hg' : copyAll copy g ids = .ok (g', news)) :
    g'.Ordered ∧ g.nodes.size ≤ g'.nodes.size ∧ ∀ new ∈ news, new < g'.nodes.size := by
  induction ids generalizing g news with
  | nil =>
    cases pure_eq_ok.1 hg'
    exact ⟨h, Nat.le_refl _, nofun⟩
  | cons id rest ih =>
    rw [Grammar.copyAll] at hg'
    obtain ⟨⟨g₁, first⟩, hfirst, hg'⟩ := bind_eq_ok.1 hg'
    obtain ⟨⟨g₂, others⟩, hothers, hg'⟩ := bind_eq_ok.1 hg'
    cases pure_eq_ok.1 hg'
    have hone := hcopy _ _ _ _ h hfirst
    obtain ⟨hordered, hsize, hall⟩ := ih hone.ordered hothers
    refine ⟨hordered, Nat.le_trans hone.size hsize, List.forall_mem_cons.2 ⟨?_, hall⟩⟩
    exact Nat.lt_of_lt_of_le hone.there hsize

theorem Ordered.copyDown {depth : Nat} (h : g.Ordered) (hg' : copyDown depth g id = .ok (g', new)) :
    Continues g g' new := by
  induction depth generalizing g id g' new with
  | zero => cases hg'
  | succ depth ih =>
    rw [copyDown_succ] at hg'
    obtain ⟨node, -, hg'⟩ := bind_eq_ok.1 hg'
    obtain ⟨⟨g₁, news⟩, hcopies, hg'⟩ := bind_eq_ok.1 hg'
    obtain ⟨hordered, hsize, hall⟩ := h.copyAll (fun _ _ _ _ => ih) hcopies
    obtain ⟨-, hlength⟩ := stemsIn_copyAll (fun _ _ _ _ => stemsIn_copyDown) hcopies
    have hlast : Continues g₁ (g₁.addNode (node.withChildren news)).1 _ :=
      hordered.addNode (by rwa [Node.children_withChildren hlength])
    cases pure_eq_ok.1 hg'
    exact ⟨hlast.ordered, Nat.le_trans hsize hlast.size, hlast.there⟩

theorem lt_of_copyDown {depth : Nat} (hg' : copyDown depth g id = .ok (g', new)) :
    id < g.nodes.size := by
  cases depth with
  | zero => cases hg'
  | succ depth =>
    rw [copyDown_succ] at hg'
    obtain ⟨node, hnode, -⟩ := bind_eq_ok.1 hg'
    exact lt_of_node hnode

theorem Ordered.plus (h : g.Ordered) {inner : NodeId} (hg' : g.plus inner = .ok (g', new)) :
    Continues g g' new := by
  obtain ⟨⟨g₁, again⟩, hagain, hg'⟩ := bind_eq_ok.1 hg'
  obtain ⟨⟨g₂, rest⟩, hrest, hg'⟩ := bind_eq_ok.1 hg'
  cases pure_eq_ok.1 hg'
  have hcopy := h.copyDown hagain
  have hloop := hcopy.ordered.loopOf hrest
  have hinner : inner < g₂.nodes.size :=
    Nat.lt_of_lt_of_le (lt_of_copyDown hagain) (Nat.le_trans hcopy.size hloop.size)
  refine (hcopy.trans hloop).trans (hloop.ordered.addNode ?_)
  exact List.forall_mem_cons.2 ⟨hinner, List.forall_mem_singleton.2 hloop.there⟩

theorem Ordered.addRule (h : g.Ordered) {rule : Rule} (hbody : rule.body < g.nodes.size)
    (hg' : g.addRule rule = .ok g') : g'.Ordered := by
  have hkeyed := h.keyed.addRule hg'
  obtain ⟨-, rfl⟩ := addRule_eq_ok.1 hg'
  refine ⟨h.below, fun other hother => ?_, hkeyed⟩
  rw [ruleList, List.map_append, List.mem_append] at hother
  rcases hother with hother | hother
  · exact h.bodies other hother
  · rw [List.mem_singleton.1 hother]
    exact hbody

/-- **Grammars made with the builders are ordered.** -/
theorem Assembled.ordered (h : g.Assembled) : g.Ordered := by
  induction h with
  | empty =>
    refine ⟨fun parent child hlink => ?_, nofun, List.nodup_nil, nofun⟩
    obtain ⟨node, hnode, -⟩ := hlink
    cases hnode
  | addNode _ node there ih => exact (ih.addNode there).ordered
  | terminal _ set ih => exact ih.addKind nofun
  | sequence _ items there ih => exact ih.addKind there
  | alternatives _ arms there ih => exact ih.addKind there
  | call _ rule ih => exact ih.addKind nofun
  | gate _ predict matched there there' ih =>
    exact ih.addKind (List.forall_mem_cons.2 ⟨there, List.forall_mem_singleton.2 there'⟩)
  | checkCode _ negate code ih => exact ih.addKind nofun
  | checkMatch _ negate payload there ih => exact ih.addKind (List.forall_mem_singleton.2 there)
  | star _ done ih => exact (ih.loopOf done).ordered
  | opt _ done ih => exact (ih.loopOf done).ordered
  | plus _ done ih => exact (ih.plus done).ordered
  | deepClone _ done ih => exact (ih.copyDown done).ordered
  | label _ done ih =>
    obtain ⟨_, -, done⟩ := bind_eq_ok.1 done
    obtain ⟨_, -, done⟩ := bind_eq_ok.1 done
    exact ih.modifyNode done fun _ => rfl
  | preAction _ done ih => exact ih.modifyNode done fun _ => rfl
  | postAction _ done ih => exact ih.modifyNode done fun _ => rfl
  | basis _ done ih => exact ih.modifyNode done fun _ => rfl
  | defaultArm _ done ih => exact ih.modifyNode done (children_mapAlternatives fun _ => rfl)
  | errorBranch _ done ih => exact ih.modifyNode done (children_mapAlternatives fun _ => rfl)
  | greedy _ done ih => exact ih.modifyNode done (children_mapAlternatives fun _ => rfl)
  | prediction _ done ih => exact ih.modifyNode done (children_mapAlternatives fun _ => rfl)
  | prematched _ done ih => exact ih.modifyNode done (children_withPrematched _)
  | addRule _ there done ih => exact ih.addRule there done

end Grammar

end PredictiveParser
