import Mathlib.Data.List.Pairwise
import PredictiveParser.Proofs.Grammar.Trees

/-!
# Validated grammars are forests

`Grammar.Keyed` is the invariant of the rules of a grammar: each is kept under its own name, and no
name is used twice. `Grammar.Forest` is what validation establishes: under each rule there is a
finite tree, no node is in it twice, no node is in the trees of two rules, and no node has a
structural problem.

* `forest_of_validate`, `Forest.validate`: a grammar that passes validation is a forest, and the other way
  round.
* `Forest.rule_unique`: a node is under one rule only.
* `Occurs.reaches`: the places of a rule are nodes of its tree.
-/
namespace PredictiveParser

open Relation

namespace Grammar

def Reaches (g : Grammar) (root id : NodeId) : Prop :=
  ReflTransGen (g.Link Node.children) root id

def InUse (g : Grammar) (id : NodeId) : Prop :=
  ∃ name rule, g.rule? name = some rule ∧ g.Reaches rule.body id

/-- Each rule is kept under its own name, and no name is used twice. -/
structure Keyed (g : Grammar) : Prop where
  nodup : g.ruleNames.Nodup
  own : ∀ entry ∈ g.rules, entry.2.name = entry.1

/-- Each rule has a tree of its own, without structural problems. -/
structure Forest (g : Grammar) : Prop where
  tree : ∀ rule ∈ g.ruleList, ∃ ids, g.walk rule.body = .ok ids ∧ ids.Nodup ∧
    ∀ id ∈ ids, ∃ node, g.node id = .ok node ∧ g.nodeProblem? rule.name id node = none
  apart : g.ruleList.Pairwise fun rule rule' =>
    ∀ id, g.Reaches rule.body id → g.Reaches rule'.body id → False

variable {g : Grammar} {name : String} {rule : Rule} {id : NodeId}

/-! ## Rules under their names -/

theorem mem_rules_of_rule? (h : g.rule? name = some rule) : (name, rule) ∈ g.rules := by
  unfold rule? at h
  induction hr : g.rules generalizing g with
  | nil =>
    rw [hr] at h
    cases h
  | cons entry rest ih =>
    rw [hr, List.lookup_cons] at h
    split at h
    · rename_i heq
      cases h
      rw [beq_iff_eq.1 heq]
      exact List.mem_cons_self
    · exact List.mem_cons_of_mem _ (ih (g := { g with rules := rest }) h rfl)

theorem rule?_of_rules {g' : Grammar} (h : g'.rules = g.rules) (name : String) :
    g'.rule? name = g.rule? name := by
  rw [rule?, rule?, h]

theorem mem_ruleList_of_rule? (h : g.rule? name = some rule) : rule ∈ g.ruleList :=
  List.mem_map.2 ⟨(name, rule), mem_rules_of_rule? h, rfl⟩

theorem mem_ruleNames_of_rule? (h : g.rule? name = some rule) : name ∈ g.ruleNames :=
  List.mem_map.2 ⟨(name, rule), mem_rules_of_rule? h, rfl⟩

theorem Keyed.name_of_rule? (hg : g.Keyed) (h : g.rule? name = some rule) : rule.name = name :=
  hg.own _ (mem_rules_of_rule? h)

/-- Where no name is used twice, each entry is found under its name. -/
theorem lookup_of_mem {β : Type} {entries : List (String × β)} {value : β}
    (hnodup : (entries.map Prod.fst).Nodup) (h : (name, value) ∈ entries) :
    entries.lookup name = some value := by
  obtain ⟨before, after, rfl⟩ := List.append_of_mem h
  refine List.lookup_eq_some_iff.2 ⟨before, after, rfl, fun entry hentry => ?_⟩
  rw [List.map_append, List.map_cons] at hnodup
  have hfirst := List.mem_map_of_mem (f := Prod.fst) hentry
  have hne := (List.nodup_append.1 hnodup).2.2 _ hfirst _ List.mem_cons_self
  exact bne_iff_ne.2 hne.symm

theorem Keyed.rule?_of_mem (hg : g.Keyed) (h : (name, rule) ∈ g.rules) : g.rule? name = some rule :=
  lookup_of_mem hg.nodup h

theorem Keyed.rule?_of_mem_ruleList (hg : g.Keyed) (h : rule ∈ g.ruleList) :
    g.rule? rule.name = some rule := by
  obtain ⟨⟨key, rule⟩, hentry, rfl⟩ := List.mem_map.1 h
  have hname : rule.name = key := hg.own _ hentry
  exact hg.rule?_of_mem (hname ▸ hentry)

/-! ## Validation -/

theorem checkNodes_eq_ok {seen seen' ids : List NodeId} (h : g.checkNodes name seen ids = .ok seen') :
    ids.Nodup ∧ (∀ id ∈ ids, id ∉ seen) ∧ (∀ id, id ∈ seen' ↔ id ∈ ids ∨ id ∈ seen) ∧
      ∀ id ∈ ids, ∃ node, g.node id = .ok node ∧ g.nodeProblem? name id node = none := by
  induction ids generalizing seen with
  | nil =>
    cases pure_eq_ok.1 h
    simp
  | cons first rest ih =>
    rw [checkNodes] at h
    split at h
    · cases h
    · rename_i hseen
      obtain ⟨node, hnode, h⟩ := bind_eq_ok.1 h
      split at h
      · cases h
      · rename_i hproblem
        obtain ⟨hnodup, hfresh, hmem, hall⟩ := ih h
        have hfirst : first ∉ seen := fun h => hseen (List.contains_iff_mem.2 h)
        refine ⟨List.nodup_cons.2 ⟨fun h => hfresh first h List.mem_cons_self, hnodup⟩, ?_, ?_, ?_⟩
        · intro id hid
          rcases List.mem_cons.1 hid with rfl | hid
          · exact hfirst
          · exact fun h => hfresh id hid (List.mem_cons_of_mem _ h)
        · intro id
          rw [hmem, List.mem_cons, List.mem_cons]
          tauto
        · intro id hid
          rcases List.mem_cons.1 hid with rfl | hid
          · exact ⟨node, liftM_eq_ok.1 hnode, hproblem⟩
          · exact hall id hid

/-- What is met in the rules that are checked was not met before, and not in two of them. -/
theorem checkRules_eq_ok {seen : List NodeId} {rules : List Rule}
    (h : g.checkRules seen rules = .ok ()) :
    (∀ rule ∈ rules, ∃ ids, g.walk rule.body = .ok ids ∧ ids.Nodup ∧ (∀ id ∈ ids, id ∉ seen) ∧
      ∀ id ∈ ids, ∃ node, g.node id = .ok node ∧ g.nodeProblem? rule.name id node = none) ∧
    rules.Pairwise fun rule rule' =>
      ∀ id, g.Reaches rule.body id → g.Reaches rule'.body id → False := by
  induction rules generalizing seen with
  | nil => exact ⟨nofun, List.Pairwise.nil⟩
  | cons rule rest ih =>
    rw [checkRules] at h
    obtain ⟨ids, hids, h⟩ := bind_eq_ok.1 h
    obtain ⟨seen', hseen', h⟩ := bind_eq_ok.1 h
    have hids := liftM_eq_ok.1 hids
    obtain ⟨hnodup, hfresh, hmem, hnodes⟩ := checkNodes_eq_ok hseen'
    obtain ⟨hall, hapart⟩ := ih h
    constructor
    · intro rule' hrule'
      rcases List.mem_cons.1 hrule' with rfl | hrule'
      · exact ⟨ids, hids, hnodup, hfresh, hnodes⟩
      · obtain ⟨ids', hids', hnodup', hfresh', hnodes'⟩ := hall rule' hrule'
        exact ⟨ids', hids', hnodup',
          fun id hid h => hfresh' id hid ((hmem id).2 (Or.inr h)), hnodes'⟩
    · refine List.pairwise_cons.2 ⟨?_, hapart⟩
      intro rule' hrule' id hid hid'
      obtain ⟨ids', hids', -, hfresh', -⟩ := hall rule' hrule'
      exact hfresh' id ((mem_walkDown hids').2 hid')
        ((hmem id).2 (Or.inl ((mem_walkDown hids).2 hid)))

theorem forest_of_validate (h : g.validate = .ok ()) : g.Forest := by
  obtain ⟨hall, hapart⟩ := checkRules_eq_ok h
  refine ⟨fun rule hrule => ?_, hapart⟩
  obtain ⟨ids, hids, hnodup, -, hnodes⟩ := hall rule hrule
  exact ⟨ids, hids, hnodup, hnodes⟩

theorem exists_checkNodes {seen ids : List NodeId} (hnodup : ids.Nodup) (hfresh : ∀ id ∈ ids, id ∉ seen)
    (hnodes : ∀ id ∈ ids, ∃ node, g.node id = .ok node ∧ g.nodeProblem? name id node = none) :
    ∃ seen', g.checkNodes name seen ids = .ok seen' := by
  induction ids generalizing seen with
  | nil => exact ⟨seen, rfl⟩
  | cons id rest ih =>
    obtain ⟨hfirst, hrest⟩ := List.nodup_cons.1 hnodup
    obtain ⟨hunseen, hothers⟩ := List.forall_mem_cons.1 hfresh
    obtain ⟨⟨node, hnode, hproblem⟩, hnodes⟩ := List.forall_mem_cons.1 hnodes
    obtain ⟨seen', hseen'⟩ : ∃ seen', g.checkNodes name (id :: seen) rest = .ok seen' :=
      ih hrest (fun other hother hm => (List.mem_cons.1 hm).elim
        (fun heq => hfirst (heq ▸ hother)) (hothers other hother)) hnodes
    refine ⟨seen', ?_⟩
    rw [checkNodes, if_neg fun hm => hunseen (List.contains_iff_mem.1 hm)]
    refine bind_eq_ok.2 ⟨node, liftM_eq_ok.2 hnode, ?_⟩
    rw [hproblem]
    exact hseen'

theorem checkRules_of_apart {seen : List NodeId} {rules : List Rule}
    (hall : ∀ rule ∈ rules, ∃ ids, g.walk rule.body = .ok ids ∧ ids.Nodup ∧ (∀ id ∈ ids, id ∉ seen) ∧
      ∀ id ∈ ids, ∃ node, g.node id = .ok node ∧ g.nodeProblem? rule.name id node = none)
    (hapart : rules.Pairwise fun rule rule' =>
      ∀ id, g.Reaches rule.body id → g.Reaches rule'.body id → False) :
    g.checkRules seen rules = .ok () := by
  induction rules generalizing seen with
  | nil => rfl
  | cons rule rest ih =>
    obtain ⟨⟨ids, hids, hnodup, hfresh, hnodes⟩, hothers⟩ := List.forall_mem_cons.1 hall
    obtain ⟨hfirst, hrest⟩ := List.pairwise_cons.1 hapart
    obtain ⟨seen', hseen'⟩ := exists_checkNodes hnodup hfresh hnodes
    obtain ⟨-, -, hmem, -⟩ := checkNodes_eq_ok hseen'
    rw [checkRules]
    refine bind_eq_ok.2 ⟨ids, liftM_eq_ok.2 hids, bind_eq_ok.2 ⟨seen', hseen', ih ?_ hrest⟩⟩
    intro other hother
    obtain ⟨ids', hids', hnodup', hfresh', hnodes'⟩ := hothers other hother
    refine ⟨ids', hids', hnodup', fun id hid hm => ?_, hnodes'⟩
    exact ((hmem id).1 hm).elim (fun hid' => hfirst other hother id ((mem_walkDown hids).1 hid')
      ((mem_walkDown hids').1 hid)) (hfresh' id hid)

/-- A forest passes validation. -/
theorem Forest.validate (hf : g.Forest) : g.validate = .ok () := by
  refine checkRules_of_apart (fun rule hrule => ?_) hf.apart
  obtain ⟨ids, hids, hnodup, hnodes⟩ := hf.tree rule hrule
  exact ⟨ids, hids, hnodup, fun _ _ => List.not_mem_nil, hnodes⟩

/-- What validation says about a node of a rule. -/
theorem Forest.exists_node (hf : g.Forest) (hrule : g.rule? name = some rule)
    (hid : g.Reaches rule.body id) :
    ∃ node, g.node id = .ok node ∧ g.nodeProblem? rule.name id node = none := by
  obtain ⟨ids, hids, -, hnodes⟩ := hf.tree rule (mem_ruleList_of_rule? hrule)
  exact hnodes id ((mem_walkDown hids).2 hid)

/-- In a validated grammar, called rules exist. -/
theorem Forest.exists_callee (hf : g.Forest) (hrule : g.rule? name = some rule)
    (hid : g.Reaches rule.body id) {callee : String} (hk : g.kindAt? id = some (.call callee)) :
    ∃ called, g.rule? callee = some called := by
  obtain ⟨node, hnode, hproblem⟩ := hf.exists_node hrule hid
  rw [kindAt?_of_node hnode] at hk
  rw [nodeProblem?, Option.some.inj hk] at hproblem
  cases hcalled : g.rule? callee with
  | some called => exact ⟨called, rfl⟩
  | none => simp [hcalled] at hproblem

/-! ## Nodes of the trees -/

theorem InUse.body {name : String} {rule : Rule} (h : g.rule? name = some rule) :
    g.InUse rule.body :=
  ⟨name, rule, h, .refl⟩

theorem InUse.child {kind : NodeKind} (h : g.InUse id) (hk : g.kindAt? id = some kind)
    {child : NodeId} (hchild : child ∈ (Node.ofKind kind).children) : g.InUse child := by
  obtain ⟨name, rule, hrule, hreach⟩ := h
  obtain ⟨node, hnode, rfl⟩ := kindAt?_eq_some.1 hk
  exact ⟨name, rule, hrule, hreach.tail ⟨node, hnode, hchild⟩⟩

theorem InUse.item {items : List NodeId} (h : g.InUse id)
    (hk : g.kindAt? id = some (.sequence items)) {item : NodeId} (hitem : item ∈ items) :
    g.InUse item :=
  h.child hk hitem

theorem InUse.arm {alts : Alternatives} (h : g.InUse id)
    (hk : g.kindAt? id = some (.alternatives alts)) {arm : NodeId} (harm : arm ∈ alts.arms) :
    g.InUse arm :=
  h.child hk harm

/-! ## Trees of different rules -/

/-- A node is under one rule only. -/
theorem Forest.rule_unique (hf : g.Forest) {name' : String} {rule' : Rule}
    (h : g.rule? name = some rule) (h' : g.rule? name' = some rule')
    (hid : g.Reaches rule.body id) (hid' : g.Reaches rule'.body id) : name = name' := by
  by_contra hne
  have hsymm : Std.Symm fun entry entry' : String × Rule =>
      ∀ id, g.Reaches entry.2.body id → g.Reaches entry'.2.body id → False :=
    ⟨fun _ _ h id hid hid' => h id hid' hid⟩
  have hapart := List.pairwise_map.1 hf.apart
  have hentries : (name, rule) ≠ (name', rule') := fun heq => hne (congrArg Prod.fst heq)
  exact hapart.forall (mem_rules_of_rule? h) (mem_rules_of_rule? h') hentries id hid hid'

theorem reaches_of_matched {root : NodeId}
    (h : ReflTransGen (g.Link Node.matchedChildren) root id) : g.Reaches root id := by
  induction h with
  | refl => exact .refl
  | tail _ hlink ih =>
    obtain ⟨node, hnode, hb⟩ := hlink
    exact .tail ih ⟨node, hnode, node.matchedChildren_sublist.subset hb⟩

/-- One step down goes over a link. -/
theorem Under.link {place place' : Place} (h : g.Under place place') :
    g.Link Node.matchedChildren place.node place'.node := by
  obtain ⟨kind, hkind, hm⟩ := h
  obtain ⟨node, hnode, rfl⟩ := kindAt?_eq_some.1 hkind
  refine ⟨node, hnode, ?_⟩
  rw [← map_node_placesBelow place]
  exact List.mem_map.2 ⟨place', hm, rfl⟩

theorem Occurs.matched {body : NodeId} {place : Place} (h : g.Occurs body place) :
    ReflTransGen (g.Link Node.matchedChildren) body place.node := by
  induction h with
  | refl => exact .refl
  | tail _ hstep ih => exact .tail ih hstep.link

theorem Occurs.reaches {body : NodeId} {place : Place} (h : g.Occurs body place) :
    g.Reaches body place.node :=
  reaches_of_matched h.matched

end Grammar

end PredictiveParser
