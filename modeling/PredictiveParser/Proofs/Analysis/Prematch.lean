import PredictiveParser.Analysis.Prematch
import PredictiveParser.Proofs.Grammar.Shape

/-!
# What is marked as tested

`Grammar.markPrematched` sets the marks of terminals and checks with which arms start.

* `marksOnly_markPrematched`: every node that gets a mark is the proven lead of an arm of an alternative
  set of the rule (`Grammar.ProvenLead`), and nothing but such marks changes.
-/
namespace PredictiveParser

open Relation

namespace Grammar

variable {g g' : Grammar} {id : NodeId}

/-! ## Leads -/

/-- The node with which a node starts, over the first items of sequences. -/
inductive Starts (g : Grammar) : NodeId → NodeId → Prop where
  | here (id : NodeId) : Starts g id id
  | first {id first lead : NodeId} {rest : List NodeId}
      (kind : g.kindAt? id = some (.sequence (first :: rest))) (below : Starts g first lead) :
      Starts g id lead

theorem starts_of_leadingDown {depth : Nat} {lead : NodeId}
    (h : g.leadingDown depth id = .ok (some lead)) : g.Starts id lead := by
  induction depth generalizing id with
  | zero => cases h
  | succ depth ih =>
    obtain ⟨node, hnode, h⟩ := bind_eq_ok.1 h
    have hkind := kindAt?_of_node hnode
    split at h
    · rename_i hseq
      rw [hseq] at hkind
      exact .first hkind (ih h)
    · cases h
      exact .here _
    · cases h
      exact .here _
    · cases h

theorem Starts.matched {lead : NodeId} (h : g.Starts id lead) :
    ReflTransGen (g.Link Node.matchedChildren) id lead := by
  induction h with
  | here id => exact .refl
  | first kind _ ih =>
    obtain ⟨node, hnode, hkind⟩ := kindAt?_eq_some.1 kind
    refine .head ⟨node, hnode, ?_⟩ ih
    unfold Node.matchedChildren
    rw [hkind]
    exact List.mem_cons_self

/-- The node is the lead of an arm of the alternative set at `set`, and choosing the arm has tested
it. -/
def ProvenLead (g : Grammar) (set id : NodeId) : Prop :=
  ∃ alts tree index arm lead, g.kindAt? set = some (.alternatives alts) ∧
    alts.prediction = some tree ∧ alts.arms[index]? = some arm ∧ g.Starts arm id ∧
    g.node id = .ok lead ∧ isProven tree index id lead = true

theorem ProvenLead.matched {set : NodeId} (h : g.ProvenLead set id) :
    ReflTransGen (g.Link Node.matchedChildren) set id := by
  obtain ⟨alts, tree, index, arm, lead, hset, -, harm, hstarts, -⟩ := h
  obtain ⟨node, hnode, hkind⟩ := kindAt?_eq_some.1 hset
  refine .head ⟨node, hnode, ?_⟩ hstarts.matched
  unfold Node.matchedChildren
  rw [hkind]
  exact List.mem_of_getElem? harm

theorem provenLead_of_mem {set : NodeId} {alts : Alternatives} {tree : Decision}
    {leads : List NodeId} (hset : g.kindAt? set = some (.alternatives alts))
    (htree : alts.prediction = some tree) (h : g.provenLeads alts tree = .ok leads)
    (hid : id ∈ leads) : g.ProvenLead set id := by
  obtain ⟨parts, hparts, h⟩ := bind_eq_ok.1 h
  rw [← pure_eq_ok.1 h] at hid
  obtain ⟨part, hpart, hid⟩ := List.mem_flatten.1 hid
  obtain ⟨⟨arm, index⟩, harm, hpart⟩ := Forall₂.exists_of_mem_right (mapM_eq_ok.1 hparts) hpart
  obtain ⟨lead?, hlead, hpart⟩ := bind_eq_ok.1 hpart
  cases lead? with
  | none =>
    cases hpart
    cases hid
  | some lead =>
    obtain ⟨node, hnode, hpart⟩ := bind_eq_ok.1 hpart
    rw [← pure_eq_ok.1 hpart] at hid
    split at hid
    · rename_i hproven
      cases List.mem_singleton.1 hid
      exact ⟨alts, tree, index, arm, node, hset, htree, List.mem_zipIdx_iff_getElem?.1 harm,
        starts_of_leadingDown hlead, hnode, hproven⟩
    · cases hid

/-! ## Marks -/

/-- What setting marks at some of the nodes does. -/
structure MarksOnly (g : Grammar) (marks : NodeId → Prop) (g' : Grammar) : Prop where
  shape : g.SameShape g'
  rules : g'.rules = g.rules
  frame : ∀ id, ¬ marks id → g'.nodes[id]? = g.nodes[id]?
  alternatives : ∀ id alts, g.kindAt? id = some (.alternatives alts) →
    g'.kindAt? id = some (.alternatives alts)

theorem marksOnly_setPrematched {mark : Option Bool} (h : g.setPrematched id mark = .ok g') :
    g.MarksOnly (· = id) g' where
  shape := sameShape_setPrematched h
  rules := (modifyNode_eq_ok h).1
  frame := fun other hne => by rw [(modifyNode_eq_ok h).2 other, if_neg hne]
  alternatives := by
    intro other alts hk
    rw [kindAt?_modifyNode h]
    split
    · obtain ⟨node, hnode, hkind⟩ := kindAt?_eq_some.1 hk
      rw [node_eq_ok.1 hnode, Option.map_some, kind_withPrematched, hkind]
    · exact hk

theorem marksOnly_foldlM {marks : List NodeId} {mark : Option Bool}
    (h : marks.foldlM (fun g id => g.setPrematched id mark) g = .ok g') :
    g.MarksOnly (· ∈ marks) g' := by
  induction marks generalizing g with
  | nil =>
    cases pure_eq_ok.1 h
    exact ⟨.refl _, rfl, fun _ _ => rfl, fun _ _ hk => hk⟩
  | cons first rest ih =>
    obtain ⟨g₁, hfirst, h⟩ := foldlM_cons_eq_ok.1 h
    have hone := marksOnly_setPrematched hfirst
    have hall := ih h
    refine ⟨hone.shape.trans hall.shape, hall.rules.trans hone.rules, ?_, ?_⟩
    · intro id hid
      rw [List.mem_cons, not_or] at hid
      rw [hall.frame id hid.2, hone.frame id hid.1]
    · intro id alts hk
      exact hall.alternatives id alts (hone.alternatives id alts hk)

theorem isProven_of_bare {tree : Decision} {index : Nat} {lead lead' : Node}
    (h : lead'.kind.bare = lead.kind.bare) :
    isProven tree index id lead' = isProven tree index id lead := by
  have forget : ∀ node : Node,
      isProven tree index id { node with kind := node.kind.bare } = isProven tree index id node := by
    rintro ⟨_ | _ | _ | _ | _ | _, _⟩ <;> rfl
  rw [← forget lead', ← forget lead]
  unfold isProven
  rw [h]

theorem SameShape.starts (h : g.SameShape g') {lead : NodeId} (hs : g.Starts id lead) :
    g'.Starts id lead := by
  induction hs with
  | here id => exact .here id
  | first kind _ ih =>
    obtain ⟨kind', hk, hbare⟩ := h.kindAt? kind
    rw [NodeKind.of_bare_sequence hbare] at hk
    exact .first hk ih

theorem MarksOnly.provenLead {marks : NodeId → Prop} (h : g.MarksOnly marks g') {set : NodeId}
    (hp : g.ProvenLead set id) : g'.ProvenLead set id := by
  obtain ⟨alts, tree, index, arm, lead, hset, htree, harm, hstarts, hlead, hproven⟩ := hp
  obtain ⟨lead', hlead', hbare⟩ := h.shape.node hlead
  exact ⟨alts, tree, index, arm, lead', h.alternatives set alts hset, htree, harm,
    h.shape.starts hstarts, hlead', (isProven_of_bare hbare).trans hproven⟩

/-! ## The marking of a rule -/

/-- The nodes that the prediction at a place has tested. -/
def marksAt (g : Grammar) (id : NodeId) : Except Fault (List NodeId) := do
  match (← g.node id).alternatives? with
  | some alts =>
    match alts.prediction with
    | some tree => g.provenLeads alts tree
    | none => return []
  | none => return []

theorem markPrematched_eq_ok {body : NodeId} : g.markPrematched body = .ok g' ↔
    ∃ ids parts, g.walkMatched body = .ok ids ∧ ids.mapM g.marksAt = .ok parts ∧
      parts.flatten.foldlM (fun g id => g.setPrematched id (some true)) g = .ok g' := by
  constructor
  · intro h
    obtain ⟨ids, hids, h⟩ := bind_eq_ok.1 h
    obtain ⟨parts, hparts, h⟩ := bind_eq_ok.1 h
    exact ⟨ids, parts, hids, hparts, h⟩
  · rintro ⟨ids, parts, hids, hparts, h⟩
    exact bind_eq_ok.2 ⟨ids, hids, bind_eq_ok.2 ⟨parts, hparts, h⟩⟩

theorem marksAt_eq_ok {marks : List NodeId} : g.marksAt id = .ok marks ↔
    ∃ node, g.node id = .ok node ∧
      ((∃ alts tree, node.alternatives? = some alts ∧ alts.prediction = some tree ∧
          g.provenLeads alts tree = .ok marks) ∨
        node.alternatives?.bind (·.prediction) = none ∧ marks = []) := by
  have hempty : (return [] : Except Fault (List NodeId)) = .ok marks ↔ marks = [] :=
    pure_eq_ok.trans eq_comm
  unfold marksAt
  rw [bind_eq_ok]
  refine exists_congr fun node => and_congr_right fun _ => ?_
  cases halts : node.alternatives? with
  | none => simp [hempty]
  | some alts =>
    cases htree : alts.prediction with
    | none => simp [htree, hempty]
    | some tree => simp [htree]

theorem provenLead_of_marksAt {set : NodeId} {marks : List NodeId} (h : g.marksAt set = .ok marks)
    (hid : id ∈ marks) : g.ProvenLead set id := by
  obtain ⟨node, hnode, ⟨alts, tree, halts, htree, hleads⟩ | ⟨-, rfl⟩⟩ := marksAt_eq_ok.1 h
  · have hkind := kindAt?_of_node hnode
    rw [Node.alternatives?_eq_some.1 halts] at hkind
    exact provenLead_of_mem hkind htree hleads hid
  · cases hid

/-- What the marking of a rule finds in its alternative sets are proven leads. -/
theorem exists_provenLead {ids : List NodeId} {parts : List (List NodeId)}
    (hparts : ids.mapM g.marksAt = .ok parts) (hid : id ∈ parts.flatten) :
    ∃ set ∈ ids, g.ProvenLead set id := by
  obtain ⟨part, hpart, hid⟩ := List.mem_flatten.1 hid
  obtain ⟨set, hset, hpart⟩ := Forall₂.exists_of_mem_right (mapM_eq_ok.1 hparts) hpart
  exact ⟨set, hset, provenLead_of_marksAt hpart hid⟩

/-- Marks are set at proven leads of the rule, and nothing else changes. -/
theorem marksOnly_markPrematched {body : NodeId} (h : g.markPrematched body = .ok g') :
    g.MarksOnly (fun id => ∃ set, ReflTransGen (g.Link Node.matchedChildren) body set ∧
      g.ProvenLead set id) g' := by
  obtain ⟨ids, parts, hids, hparts, h⟩ := markPrematched_eq_ok.1 h
  obtain ⟨shape, rules, frame, alternatives⟩ := marksOnly_foldlM h
  refine ⟨shape, rules, fun id hid => frame id fun hm => hid ?_, alternatives⟩
  obtain ⟨set, hset, hlead⟩ := exists_provenLead hparts hm
  exact ⟨set, (mem_walkDown hids).1 hset, hlead⟩

end Grammar

end PredictiveParser
