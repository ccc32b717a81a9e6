import PredictiveParser.Proofs.Grammar.Copies

/-!
# Grammars with more rules

`Grammar.Widens` says that a grammar has more rules and nodes than another. What is a tree there stays
one, and what is reached and predicted with stays so.

A grammar stays a forest when a copy of one of its trees becomes the body of a rule (`Forest.addCopy`),
and when only what does not belong to the shape of its nodes changes (`Forest.of_sameShape`).
-/
namespace PredictiveParser

open Relation

/-! ## Nodes without a problem -/

/-- A kind of node without a structural problem, where `known` are the rules there are. -/
def NodeKind.Flawless (known : String → Prop) : NodeKind → Prop
  | .alternatives alts => alts.arms ≠ [] ∧ ∀ arm, alts.defaultArm = some arm → arm < alts.arms.length
  | .call callee => known callee
  | _ => True

namespace NodeKind

variable {known known' : String → Prop} {kind kind' : NodeKind}

theorem Flawless.imp (h : kind.Flawless known) (hknown : ∀ name, known name → known' name) :
    kind.Flawless known' := by
  cases kind with
  | call callee => exact hknown callee h
  | sequence | alternatives | gate | check | terminal => exact h

theorem Flawless.of_bare (h : kind.Flawless known) (hbare : kind'.bare = kind.bare) :
    kind'.Flawless known := by
  cases kind with
  | sequence items => rw [of_bare_sequence hbare]; trivial
  | alternatives alts =>
    obtain ⟨prediction, rfl⟩ := of_bare_alternatives hbare
    exact h
  | gate predict matched => rw [of_bare_gate hbare]; trivial
  | check check =>
    obtain ⟨check', rfl, -⟩ := of_bare_check hbare
    trivial
  | call callee => rw [of_bare_call hbare]; exact h
  | terminal set mark =>
    obtain ⟨mark', rfl⟩ := of_bare_terminal hbare
    trivial

end NodeKind

theorem Node.flawless_stem {node : Node} {known : String → Prop} :
    node.stem.kind.Flawless known ↔ node.kind.Flawless known := by
  obtain ⟨kind, label, isList, saver, pre, post, basis⟩ := node
  rcases kind with items | alts | ⟨predict, matched⟩ | ⟨negate, ⟨tokens⟩ | ⟨payload, rule⟩, mark⟩ |
    callee | ⟨set, mark⟩
  · rfl
  · simp [Node.stem, Node.withChildren, NodeKind.withChildren, NodeKind.Flawless, Node.children]
  · rfl
  · rfl
  · rfl
  · rfl
  · rfl

namespace Grammar

variable {g g' g'' : Grammar} {id : NodeId} {name : String}

def Knows (g : Grammar) (name : String) : Prop :=
  ∃ rule, g.rule? name = some rule

theorem nodeProblem?_eq_none {rule : String} {node : Node} :
    g.nodeProblem? rule id node = none ↔ node.kind.Flawless g.Knows := by
  unfold nodeProblem? NodeKind.Flawless Knows
  cases node.kind with
  | alternatives alts =>
    simp only [List.isEmpty_iff]
    by_cases harms : alts.arms = []
    · simp [harms]
    · cases hdefault : alts.defaultArm <;> simp [harms]
  | call callee => cases hcallee : g.rule? callee <;> simp [hcallee]
  | sequence | gate | check | terminal => simp

theorem Forest.flawless (hf : g.Forest) {rule : Rule} (hrule : g.rule? name = some rule)
    (hid : g.Reaches rule.body id) :
    ∃ node, g.node id = .ok node ∧ node.kind.Flawless g.Knows := by
  obtain ⟨node, hnode, hproblem⟩ := hf.exists_node hrule hid
  exact ⟨node, hnode, nodeProblem?_eq_none.1 hproblem⟩

/-! ## More rules and nodes -/

/-- Nothing was taken away, and the nodes there were have the shape they had. -/
structure Widens (g g' : Grammar) : Prop where
  shape : g.ShapeIn g'
  rules : ∀ name rule, g.rule? name = some rule → g'.rule? name = some rule

theorem Widens.refl (g : Grammar) : g.Widens g where
  shape _ kind hk := ⟨kind, hk, rfl⟩
  rules _ _ h := h

theorem Widens.trans (h : g.Widens g') (h' : g'.Widens g'') : g.Widens g'' where
  shape id kind hk := by
    obtain ⟨kind', hk', hbare⟩ := h.shape id kind hk
    obtain ⟨kind'', hk'', hbare'⟩ := h'.shape id kind' hk'
    exact ⟨kind'', hk'', hbare'.trans hbare⟩
  rules name rule hrule := h'.rules name rule (h.rules name rule hrule)

theorem Extends.widens (h : g.Extends g') : g.Widens g' where
  shape := h.shapeIn
  rules name _ hrule := (rule?_of_rules h.rules name).trans hrule

theorem widens_addRule {rule : Rule} (h : g.addRule rule = .ok g') : g.Widens g' := by
  obtain ⟨hnone, rfl⟩ := addRule_eq_ok.1 h
  refine ⟨fun _ kind hk => ⟨kind, hk, rfl⟩, fun name old hold => ?_⟩
  show (g.rules ++ [(rule.name, rule)]).lookup name = some old
  rw [List.lookup_append]
  have hlookup : g.rules.lookup name = some old := hold
  rw [hlookup]
  rfl

theorem Annotates.widens (h : g.Annotates g') : g.Widens g' where
  shape := h.kinds.sameShape.shapeIn
  rules name _ hrule := (rule?_of_rules h.rules name).trans hrule

theorem ShapeIn.link (h : g.ShapeIn g') {below : Node → List NodeId}
    (hbelow : ∀ node node' : Node, node.kind.bare = node'.kind.bare → below node = below node')
    {parent child : NodeId} (hlink : g.Link below parent child) : g'.Link below parent child := by
  obtain ⟨node, hnode, hchild⟩ := hlink
  obtain ⟨node', hnode', hbare⟩ := h.node hnode
  exact ⟨node', hnode', hbelow node' node hbare ▸ hchild⟩

theorem Widens.predicted (h : g.Widens g') (hid : g.Predicted id) : g'.Predicted id := by
  obtain ⟨name, rule, hrule, hreach⟩ := hid
  refine ⟨name, rule, h.rules name rule hrule, ReflTransGen.mono ?_ _ _ hreach⟩
  exact fun parent child hlink => h.shape.link (fun _ _ => Node.predictedChildren_of_bare) hlink

theorem Widens.hasDepth (h : g.Widens g') {depth : Nat}
    (hdepth : g.HasDepth Node.children depth id) : g'.HasDepth Node.children depth id :=
  h.shape.hasDepth (fun _ _ => Node.children_of_bare) hdepth

/-! ## Forests -/

theorem ruleList_addRule {rule : Rule} (h : g.addRule rule = .ok g') :
    g'.ruleList = g.ruleList ++ [rule] := by
  obtain ⟨-, rfl⟩ := addRule_eq_ok.1 h
  simp [ruleList]

/-- In a forest a walk from the body of a rule finds the same nodes when nodes are added. -/
theorem Forest.walk_of_widens (hf : g.Forest) (h : g.Widens g') {rule : Rule}
    (hrule : rule ∈ g.ruleList) : ∃ ids, g'.walk rule.body = .ok ids ∧ ids.Nodup ∧
      (∀ i ∈ ids, i < g.nodes.size) ∧
      ∀ i ∈ ids, ∃ node, g'.node i = .ok node ∧ node.kind.Flawless g'.Knows := by
  obtain ⟨ids, hids, hnodup, hall⟩ := hf.tree rule hrule
  have hids' : g'.walk rule.body = .ok ids := h.shape.walkDown (fun _ _ => Node.children_of_bare)
    (Nat.succ_le_succ h.shape.size) hids
  refine ⟨ids, hids', hnodup, fun i hi => lt_size_of_walkDown hids hi, fun i hi => ?_⟩
  obtain ⟨node, hnode, hproblem⟩ := hall i hi
  obtain ⟨node', hnode', hbare⟩ := h.shape.node hnode
  have hflawless := (nodeProblem?_eq_none.1 hproblem).of_bare hbare
  exact ⟨node', hnode', hflawless.imp fun name => Exists.imp (h.rules name)⟩

/-- A copy of a tree can become the body of a rule. -/
theorem Forest.addCopy (hf : g.Forest) {owner rule : Rule} {payload : NodeId}
    (howner : g.rule? name = some owner) (hpayload : g.Reaches owner.body payload)
    (hcopied : Copied g g.depthBound payload g' rule.body) (hadd : g'.addRule rule = .ok g'') :
    g''.Forest := by
  have hwiden : g.Widens g'' := hcopied.extend.widens.trans (widens_addRule hadd)
  have hlist : g''.ruleList = g.ruleList ++ [rule] := by
    rw [ruleList_addRule hadd, ruleList, hcopied.extend.rules, ruleList]
  have hnodes : g''.nodes = g'.nodes := by
    obtain ⟨-, rfl⟩ := addRule_eq_ok.1 hadd
    rfl
  -- The tree of the new rule.
  obtain ⟨ids, hwalk, hnodup, hnew⟩ := hcopied.walk
  have hwalk' : g''.walk rule.body = .ok ids := (widens_addRule hadd).shape.walkDown
    (fun _ _ => Node.children_of_bare)
    (Nat.succ_le_succ (Nat.le_trans hcopied.extend.size (widens_addRule hadd).shape.size)) hwalk
  constructor
  · intro other hother
    rw [hlist] at hother
    rcases List.mem_append.1 hother with hold | hsame
    · obtain ⟨ids, hids, hnodup, -, hall⟩ := hf.walk_of_widens hwiden hold
      refine ⟨ids, hids, hnodup, fun i hi => ?_⟩
      obtain ⟨node, hnode, hflawless⟩ := hall i hi
      exact ⟨node, hnode, nodeProblem?_eq_none.2 hflawless⟩
    · rw [List.mem_singleton.1 hsame]
      refine ⟨ids, hwalk', hnodup, fun i hi => ?_⟩
      obtain ⟨node', hnode'⟩ := node_of_walkDown hwalk hi
      obtain ⟨source, node, hreach, hnode, hstem⟩ := hcopied.stems i node' (hnew i hi) hnode'
      obtain ⟨old, hold, hflawless⟩ := hf.flawless howner (hpayload.trans hreach)
      cases hnode.symm.trans hold
      refine ⟨node', ?_, nodeProblem?_eq_none.2 ?_⟩
      · rwa [Grammar.node, hnodes]
      · rw [← Node.flawless_stem, hstem, Node.flawless_stem]
        exact hflawless.imp fun name => Exists.imp (hwiden.rules name)
  · rw [hlist]
    refine List.pairwise_append.2 ⟨?_, List.pairwise_singleton _ _, ?_⟩
    · refine hf.apart.imp_of_mem fun {first second} hfirst hsecond hapart id hid hid' => ?_
      have same : ∀ rule ∈ g.ruleList, g''.Reaches rule.body id → g.Reaches rule.body id :=
        fun rule hrule => (hwiden.shape.reached_iff (fun _ _ => Node.children_of_bare)
          (hf.hasDepth hrule)).1
      exact hapart id (same first hfirst hid) (same second hsecond hid')
    · intro old hold same hsame id hid hid'
      rw [List.mem_singleton.1 hsame] at hid'
      obtain ⟨others, hothers, -, hlt, -⟩ := hf.walk_of_widens hwiden hold
      have hge := hnew id ((mem_walkDown hwalk').2 hid')
      exact absurd (hlt id ((mem_walkDown hothers).2 hid)) (Nat.not_lt.2 hge)

/-- A forest stays one while its nodes keep their shape and its rules their bodies. -/
theorem Forest.of_sameShape (hf : g.Forest) (hshape : g.SameShape g')
    (hbodies : g'.ruleList.map Rule.body = g.ruleList.map Rule.body)
    (hknown : ∀ name, g.Knows name → g'.Knows name) : g'.Forest := by
  constructor
  · intro rule hrule
    have hbody : rule.body ∈ g.ruleList.map Rule.body := hbodies ▸ List.mem_map_of_mem hrule
    obtain ⟨old, hold, heq⟩ := List.mem_map.1 hbody
    obtain ⟨ids, hids, hnodup, hall⟩ := hf.tree old hold
    have hids' : g'.walk old.body = .ok ids := hshape.shapeIn.walkDown
      (fun _ _ => Node.children_of_bare) (Nat.succ_le_succ (Nat.le_of_eq hshape.size)) hids
    refine ⟨ids, heq ▸ hids', hnodup, fun i hi => ?_⟩
    obtain ⟨node, hnode, hproblem⟩ := hall i hi
    obtain ⟨node', hnode', hbare⟩ := hshape.node hnode
    exact ⟨node', hnode', nodeProblem?_eq_none.2
      (((nodeProblem?_eq_none.1 hproblem).of_bare hbare).imp hknown)⟩
  · have hapart : (g.ruleList.map Rule.body).Pairwise fun body body' =>
        ∀ id, g.Reaches body id → g.Reaches body' id → False := List.pairwise_map.2 hf.apart
    rw [← hbodies] at hapart
    exact (List.pairwise_map.1 hapart).imp fun h id hid hid' =>
      h id (hshape.symm.reaches hid) (hshape.symm.reaches hid')

theorem Forest.annotates (hf : g.Forest) (h : g.Annotates g') : g'.Forest :=
  hf.of_sameShape h.kinds.sameShape (by rw [ruleList, h.rules, ruleList]) fun name =>
    Exists.imp fun _ => (rule?_of_rules h.rules name).trans

end Grammar

end PredictiveParser
