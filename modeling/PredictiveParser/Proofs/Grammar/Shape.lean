import PredictiveParser.Grammar.Builder
import PredictiveParser.Proofs.Grammar.Forest

/-!
# What analysis leaves as it is

Analysis attaches prediction trees and prematch marks to nodes; other steps rewrite the text of checks.
`NodeKind.bare` forgets all of that, and two grammars have the same shape (`Grammar.SameShape`) when
they agree up to what is forgotten. Walks, places and trees depend on the shape only.

Grammars have the same kinds (`Grammar.SameKinds`) when they agree up to the text of checks.
-/
namespace PredictiveParser

open Relation

/-- What a check looks at, without the text of its code and the name of its rule. -/
def CheckBody.textless : CheckBody → CheckBody
  | .code _ => .code []
  | .syntactic node _ => .syntactic node none

namespace NodeKind

/-- The kind of a node without the text of checks. -/
def textless : NodeKind → NodeKind
  | .check test => .check { test with body := test.body.textless }
  | kind => kind

/-- The kind of a node without what analysis attaches to it and without the text of checks. -/
def bare : NodeKind → NodeKind
  | .alternatives alts => .alternatives { alts with prediction := none }
  | .check test => .check ⟨test.negate, test.body.textless, none⟩
  | .terminal set _ => .terminal set none
  | kind => kind

theorem bare_of_textless {kind kind' : NodeKind} (h : kind.textless = kind'.textless) :
    kind.bare = kind'.bare := by
  have forget : ∀ kind : NodeKind, kind.textless.bare = kind.bare := by
    rintro (_ | _ | _ | ⟨_, _ | _, _⟩ | _ | _) <;> rfl
  rw [← forget kind, h, forget]

theorem placesBelow_bare (kind : NodeKind) (place : Place) :
    kind.bare.placesBelow place = kind.placesBelow place := by
  cases kind <;> rfl

theorem placesBelow_of_bare {kind kind' : NodeKind} (h : kind.bare = kind'.bare) (place : Place) :
    kind.placesBelow place = kind'.placesBelow place := by
  rw [← placesBelow_bare kind, h, placesBelow_bare]

section

variable {kind : NodeKind}

theorem of_bare_sequence {items : List NodeId} (h : kind.bare = (sequence items).bare) :
    kind = sequence items := by
  cases kind <;> simp_all [bare]

theorem of_bare_alternatives {alts : Alternatives} (h : kind.bare = (alternatives alts).bare) :
    ∃ prediction, kind = alternatives { alts with prediction } := by
  cases kind with
  | alternatives alts' =>
    simp only [bare, alternatives.injEq, Alternatives.mk.injEq] at h
    refine ⟨alts'.prediction, ?_⟩
    obtain ⟨h₁, h₂, h₃, h₄, h₅, -⟩ := h
    rw [alternatives.injEq, Alternatives.mk.injEq]
    exact ⟨h₁, h₂, h₃, h₄, h₅, rfl⟩
  | _ => simp [bare] at h

theorem of_bare_gate {predict matched : NodeId} (h : kind.bare = (gate predict matched).bare) :
    kind = gate predict matched := by
  cases kind <;> simp_all [bare]

theorem of_bare_check {test : Check} (h : kind.bare = (check test).bare) :
    ∃ test', kind = check test' ∧ test'.negate = test.negate := by
  cases kind with
  | check test' =>
    simp only [bare, check.injEq, Check.mk.injEq] at h
    exact ⟨test', rfl, h.1⟩
  | _ => simp [bare] at h

theorem of_bare_call {rule : String} (h : kind.bare = (call rule).bare) : kind = call rule := by
  cases kind <;> simp_all [bare]

theorem of_bare_terminal {set : CharSet} {mark : Option Bool}
    (h : kind.bare = (terminal set mark).bare) : ∃ mark', kind = terminal set mark' := by
  cases kind <;> simp_all [bare]

end

end NodeKind

theorem Node.children_of_bare {node node' : Node} (h : node.kind.bare = node'.kind.bare) :
    node.children = node'.children := by
  have forget : ∀ node : Node, { node with kind := node.kind.bare }.children = node.children := by
    rintro ⟨_ | _ | _ | ⟨_, _ | _, _⟩ | _ | _, _⟩ <;> rfl
  rw [← forget node, ← forget node']
  unfold Node.children
  rw [h]

theorem Node.predictedChildren_of_bare {node node' : Node} (h : node.kind.bare = node'.kind.bare) :
    node.predictedChildren = node'.predictedChildren := by
  have forget : ∀ node : Node,
      { node with kind := node.kind.bare }.predictedChildren = node.predictedChildren := by
    rintro ⟨_ | _ | _ | _ | _ | _, _⟩ <;> rfl
  rw [← forget node, ← forget node']
  unfold Node.predictedChildren Node.children
  rw [h]

theorem Node.matchedChildren_of_bare {node node' : Node} (h : node.kind.bare = node'.kind.bare) :
    node.matchedChildren = node'.matchedChildren := by
  rw [← map_node_placesBelow ⟨0, []⟩ node, ← map_node_placesBelow ⟨0, []⟩ node',
    NodeKind.placesBelow_of_bare h]

namespace Grammar

/-- The grammars agree up to what analysis attaches to nodes. -/
def SameShape (g g' : Grammar) : Prop :=
  ∀ id, (g.kindAt? id).map NodeKind.bare = (g'.kindAt? id).map NodeKind.bare

variable {g g' g'' : Grammar} {id : NodeId} {kind : NodeKind}

theorem SameShape.refl (g : Grammar) : g.SameShape g := fun _ => rfl

theorem SameShape.symm (h : g.SameShape g') : g'.SameShape g := fun id => (h id).symm

theorem SameShape.trans (h : g.SameShape g') (h' : g'.SameShape g'') : g.SameShape g'' :=
  fun id => (h id).trans (h' id)

/-- The grammars agree up to the text of checks. -/
def SameKinds (g g' : Grammar) : Prop :=
  ∀ id, (g.kindAt? id).map NodeKind.textless = (g'.kindAt? id).map NodeKind.textless

theorem SameKinds.refl (g : Grammar) : g.SameKinds g := fun _ => rfl

theorem SameKinds.symm (h : g.SameKinds g') : g'.SameKinds g := fun id => (h id).symm

theorem SameKinds.trans (h : g.SameKinds g') (h' : g'.SameKinds g'') : g.SameKinds g'' :=
  fun id => (h id).trans (h' id)

theorem SameKinds.kindAt? (h : g.SameKinds g') (hk : g.kindAt? id = some kind) :
    ∃ kind', g'.kindAt? id = some kind' ∧ kind'.textless = kind.textless := by
  have hid := h id
  rw [hk, Option.map_some] at hid
  exact Option.map_eq_some_iff.1 hid.symm

theorem SameKinds.sameShape (h : g.SameKinds g') : g.SameShape g' := by
  intro id
  cases hk : g.kindAt? id with
  | none =>
    have hid := h id
    rw [hk, Option.map_none] at hid
    rw [Option.map_eq_none_iff.1 hid.symm]
  | some kind =>
    obtain ⟨kind', hk', htext⟩ := h.kindAt? hk
    rw [hk', Option.map_some, Option.map_some, NodeKind.bare_of_textless htext]

theorem SameShape.kindAt? (h : g.SameShape g') (hk : g.kindAt? id = some kind) :
    ∃ kind', g'.kindAt? id = some kind' ∧ kind'.bare = kind.bare := by
  have hid := h id
  rw [hk, Option.map_some] at hid
  exact Option.map_eq_some_iff.1 hid.symm

theorem SameShape.node (h : g.SameShape g') {node : Node} (hn : g.node id = .ok node) :
    ∃ node', g'.node id = .ok node' ∧ node'.kind.bare = node.kind.bare := by
  obtain ⟨kind', hk, hbare⟩ := h.kindAt? (kindAt?_of_node hn)
  obtain ⟨node', hn', rfl⟩ := kindAt?_eq_some.1 hk
  exact ⟨node', hn', hbare⟩

theorem SameShape.under (h : g.SameShape g') {place place' : Place} (hu : g.Under place place') :
    g'.Under place place' := by
  obtain ⟨kind, hk, hm⟩ := hu
  obtain ⟨kind', hk', hbare⟩ := h.kindAt? hk
  exact ⟨kind', hk', NodeKind.placesBelow_of_bare hbare place ▸ hm⟩

theorem SameShape.occurs (h : g.SameShape g') {body : NodeId} {place : Place}
    (ho : g.Occurs body place) : g'.Occurs body place :=
  ReflTransGen.mono (fun _ _ => h.under) _ _ ho

theorem SameShape.reaches (h : g.SameShape g') {root : NodeId} (hr : g.Reaches root id) :
    g'.Reaches root id := by
  refine ReflTransGen.mono ?_ _ _ hr
  rintro a b ⟨node, hn, hb⟩
  obtain ⟨node', hn', hbare⟩ := h.node hn
  exact ⟨node', hn', Node.children_of_bare hbare ▸ hb⟩

theorem SameShape.inUse (h : g.SameShape g') (hrules : g'.rules = g.rules) (hid : g.InUse id) :
    g'.InUse id := by
  obtain ⟨name, rule, hrule, hreach⟩ := hid
  exact ⟨name, rule, (rule?_of_rules hrules name).trans hrule, h.reaches hreach⟩

theorem SameShape.link (h : g.SameShape g') {parent child : NodeId}
    (hl : g.Link Node.matchedChildren parent child) : g'.Link Node.matchedChildren parent child := by
  obtain ⟨node, hnode, hchild⟩ := hl
  obtain ⟨node', hnode', hbare⟩ := h.node hnode
  exact ⟨node', hnode', Node.matchedChildren_of_bare hbare ▸ hchild⟩

theorem SameShape.matchedBy (h : g.SameShape g') {body id : NodeId} (hm : g.MatchedBy body id) :
    g'.MatchedBy body id :=
  ReflTransGen.mono (fun _ _ => h.link) _ _ hm

theorem SameShape.size (h : g.SameShape g') : g.nodes.size = g'.nodes.size := by
  have hnone : ∀ id, id < g.nodes.size ↔ id < g'.nodes.size := by
    intro id
    have hsome := congrArg Option.isSome (h id)
    simp only [Grammar.kindAt?, Option.isSome_map] at hsome
    rw [← isSome_getElem? g.nodes id, hsome, isSome_getElem?]
  exact Nat.le_antisymm (Nat.le_of_not_lt fun hlt => Nat.lt_irrefl _ ((hnone _).1 hlt))
    (Nat.le_of_not_lt fun hlt => Nat.lt_irrefl _ ((hnone _).2 hlt))

/-- Each node of the one grammar is a node of the other, of the same shape. -/
def ShapeIn (g g' : Grammar) : Prop :=
  ∀ id kind, g.kindAt? id = some kind → ∃ kind', g'.kindAt? id = some kind' ∧ kind'.bare = kind.bare

theorem SameShape.shapeIn (h : g.SameShape g') : g.ShapeIn g' := fun _ _ => h.kindAt?

theorem ShapeIn.node (h : g.ShapeIn g') {node : Node} (hn : g.node id = .ok node) :
    ∃ node', g'.node id = .ok node' ∧ node'.kind.bare = node.kind.bare := by
  obtain ⟨kind', hk, hbare⟩ := h id _ (kindAt?_of_node hn)
  obtain ⟨node', hn', rfl⟩ := kindAt?_eq_some.1 hk
  exact ⟨node', hn', hbare⟩

theorem ShapeIn.matchedBy (h : g.ShapeIn g') {body : NodeId} (hm : g.MatchedBy body id) :
    g'.MatchedBy body id := by
  refine ReflTransGen.mono (fun parent child hlink => ?_) _ _ hm
  obtain ⟨node, hnode, hchild⟩ := hlink
  obtain ⟨node', hnode', hbare⟩ := h.node hnode
  exact ⟨node', hnode', Node.matchedChildren_of_bare hbare ▸ hchild⟩

theorem ShapeIn.walkDown (h : g.ShapeIn g') {below : Node → List NodeId}
    (hbelow : ∀ node node' : Node, node.kind.bare = node'.kind.bare → below node = below node')
    {depth depth' : Nat} (hdepth : depth ≤ depth') {ids : List NodeId}
    (hw : g.walkDown below depth id = .ok ids) : g'.walkDown below depth' id = .ok ids := by
  induction depth generalizing id ids depth' with
  | zero => cases hw
  | succ depth ih =>
    obtain ⟨depth', rfl⟩ : ∃ less, depth' = less + 1 := ⟨depth' - 1, by omega⟩
    obtain ⟨node, parts, hn, hparts, rfl⟩ := walkDown_succ_eq_ok.1 hw
    obtain ⟨node', hn', hbare⟩ := h.node hn
    refine walkDown_succ_eq_ok.2 ⟨node', parts, hn', ?_, rfl⟩
    rw [hbelow node' node hbare]
    exact hparts.imp fun _ _ => ih (by omega)

theorem ShapeIn.size (h : g.ShapeIn g') : g.nodes.size ≤ g'.nodes.size := by
  refine Nat.le_of_not_lt fun hlt => ?_
  have hlast := node_eq_ok.2 (Array.getElem?_eq_getElem hlt)
  obtain ⟨kind, hk, -⟩ := h g'.nodes.size _ (kindAt?_of_node hlast)
  obtain ⟨node, hnode, -⟩ := Option.map_eq_some_iff.1 hk
  exact Nat.lt_irrefl _ (Array.getElem?_eq_some_iff.1 hnode).1

/-- In a later grammar, too, no node of a rule is matched twice. -/
theorem Forest.nodup_walkMatched (hf : g.Forest) (h : g.ShapeIn g') {name : String} {rule : Rule}
    (hrule : g.rule? name = some rule) :
    ∃ ids, g'.walkMatched rule.body = .ok ids ∧ ids.Nodup := by
  obtain ⟨all, hall, hnodup, -⟩ := hf.tree rule (mem_ruleList_of_rule? hrule)
  obtain ⟨ids, hids, hsub⟩ := sublist_walkDown Node.matchedChildren_sublist hall
  exact ⟨ids, h.walkDown (fun _ _ => Node.matchedChildren_of_bare) (Nat.succ_le_succ h.size) hids,
    hsub.nodup hnodup⟩

theorem Forest.nodup_of_walkMatched (hf : g.Forest) (h : g.ShapeIn g') {name : String} {rule : Rule}
    (hrule : g.rule? name = some rule) {ids : List NodeId} (hids : g'.walkMatched rule.body = .ok ids) :
    ids.Nodup := by
  obtain ⟨ids', hids', hnodup⟩ := hf.nodup_walkMatched h hrule
  cases hids.symm.trans hids'
  exact hnodup

/-! ## Changing one node -/

theorem modifyNode_eq_ok {f : Node → Node} (h : g.modifyNode id f = .ok g') :
    g'.rules = g.rules ∧ ∀ other, g'.nodes[other]? =
      if other = id then g.nodes[other]?.map f else g.nodes[other]? := by
  unfold modifyNode at h
  split at h
  · cases h
    refine ⟨rfl, fun other => ?_⟩
    rw [Array.getElem?_modify]
    by_cases heq : id = other
    · rw [if_pos heq, if_pos heq.symm]
    · rw [if_neg heq, if_neg (Ne.symm heq)]
  · cases h

theorem node_modifyNode {f : Node → Node} (h : g.modifyNode id f = .ok g') {other : NodeId}
    {node' : Node} (hnode' : g'.node other = .ok node') :
    ∃ node, g.node other = .ok node ∧ node' = if other = id then f node else node := by
  have hnodes := (modifyNode_eq_ok h).2 other
  rw [node_eq_ok.1 hnode'] at hnodes
  split at hnodes
  · rename_i heq
    obtain ⟨node, hnode, hf⟩ := Option.map_eq_some_iff.1 hnodes.symm
    exact ⟨node, node_eq_ok.2 hnode, by rw [if_pos heq, hf]⟩
  · rename_i hne
    exact ⟨node', node_eq_ok.2 hnodes.symm, by rw [if_neg hne]⟩

theorem exists_modifyNode {f : Node → Node} (h : ∃ node, g.node id = .ok node) :
    ∃ g', g.modifyNode id f = .ok g' := by
  obtain ⟨node, hnode⟩ := h
  obtain ⟨hid, -⟩ := Array.getElem?_eq_some_iff.1 (node_eq_ok.1 hnode)
  exact ⟨_, if_pos hid⟩

theorem kindAt?_modifyNode {f : Node → Node} (h : g.modifyNode id f = .ok g') (other : NodeId) :
    g'.kindAt? other = if other = id then g.nodes[other]?.map fun node => (f node).kind
      else g.kindAt? other := by
  unfold Grammar.kindAt?
  rw [(modifyNode_eq_ok h).2 other]
  split
  · rw [Option.map_map]
    rfl
  · rfl

theorem sameKinds_modifyNode {f : Node → Node} (h : g.modifyNode id f = .ok g')
    (hf : ∀ node, g.node id = .ok node → (f node).kind.textless = node.kind.textless) :
    g.SameKinds g' := by
  intro other
  rw [kindAt?_modifyNode h]
  split
  · rename_i heq
    unfold Grammar.kindAt?
    rw [Option.map_map, Option.map_map]
    cases hnode : g.nodes[other]? with
    | none => rfl
    | some node =>
      rw [Option.map_some, Option.map_some]
      exact congrArg some (hf node (node_eq_ok.2 (heq ▸ hnode))).symm
  · rfl

theorem sameShape_modifyNode {f : Node → Node} (hf : ∀ node, (f node).kind.bare = node.kind.bare)
    (h : g.modifyNode id f = .ok g') : g.SameShape g' := by
  intro other
  rw [kindAt?_modifyNode h]
  split
  · unfold Grammar.kindAt?
    rw [Option.map_map, Option.map_map]
    exact congrFun (congrArg Option.map (funext fun node => (hf node).symm)) _
  · rfl

theorem kind_mapAlternatives (f : Alternatives → Alternatives) (node : Node) :
    (node.mapAlternatives f).kind = match node.kind with
      | .alternatives alts => .alternatives (f alts)
      | kind => kind := by
  unfold Node.mapAlternatives
  split <;> simp_all

theorem sameShape_setPrediction {prediction : Option Decision}
    (h : g.setPrediction id prediction = .ok g') : g.SameShape g' := by
  refine sameShape_modifyNode (fun node => ?_) h
  rw [kind_mapAlternatives]
  rcases node.kind with _ | _ | _ | _ | _ | _ <;> rfl

theorem kind_withPrematched (mark : Option Bool) (node : Node) :
    (node.withPrematched mark).kind = match node.kind with
      | .terminal set _ => .terminal set mark
      | .check check => .check { check with prematched := mark }
      | kind => kind := by
  unfold Node.withPrematched
  split <;> simp_all

theorem sameShape_setPrematched {mark : Option Bool} (h : g.setPrematched id mark = .ok g') :
    g.SameShape g' := by
  refine sameShape_modifyNode (fun node => ?_) h
  rw [kind_withPrematched]
  rcases node.kind with _ | _ | _ | _ | _ | _ <;> rfl

/-- Nothing has changed but annotations of nodes and the text of checks. -/
structure Annotates (g g' : Grammar) : Prop where
  kinds : g.SameKinds g'
  rules : g'.rules = g.rules

theorem Annotates.refl (g : Grammar) : g.Annotates g := ⟨.refl g, rfl⟩

theorem Annotates.trans (h : g.Annotates g') (h' : g'.Annotates g'') : g.Annotates g'' :=
  ⟨h.kinds.trans h'.kinds, h'.rules.trans h.rules⟩

theorem annotates_modifyNode {f : Node → Node} (h : g.modifyNode id f = .ok g')
    (hf : ∀ node, g.node id = .ok node → (f node).kind.textless = node.kind.textless) :
    g.Annotates g' :=
  ⟨sameKinds_modifyNode h hf, (modifyNode_eq_ok h).1⟩

end Grammar

end PredictiveParser
