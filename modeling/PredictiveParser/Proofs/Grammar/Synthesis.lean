import PredictiveParser.Proofs.Grammar.Widening
import PredictiveParser.Proofs.Text.Names

/-!
# Rules for checks

In a forest every check gets a rule of its own (`exists_synthesizeRecognizers`). There is always a free
name for it (`rule?_checkRuleName`), and what the check looks for is a tree that can be copied. A round
leaves the checks inside the copies, and what these look for has fewer levels
(`PendsWithin.synthesizeRound`). So the rounds come to an end.
-/
namespace PredictiveParser

open Relation

namespace Grammar

variable {g g' : Grammar} {p : PendingCheck} {name : String} {levels : Nat}

/-! ## Names -/

theorem exists_checkRuleName (g : Grammar) (owner : String) :
    ∃ n : Nat, g.checkRuleName owner = owner ++ "_test" ++ toString n ∧
      g.rule? (g.checkRuleName owner) = none := by
  unfold checkRuleName
  simp only
  obtain ⟨names, hnames⟩ : ∃ names, names = (List.range (g.rules.length + 1)).map fun n =>
    owner ++ "_test" ++ toString (n + 1) := ⟨_, rfl⟩
  rw [← hnames]
  cases hfind : names.find? fun name => (g.rule? name).isNone with
  | some name =>
    have hmem := List.mem_of_find?_eq_some hfind
    rw [hnames] at hmem
    obtain ⟨n, -, hname⟩ := List.mem_map.1 hmem
    have hfree := List.find?_some hfind
    exact ⟨n + 1, hname.symm, Option.isNone_iff_eq_none.1 hfree⟩
  | none =>
    -- There are more names than rules.
    have hnodup : names.Nodup := by
      rw [hnames]
      refine List.nodup_range.map fun m n h => ?_
      have hlist := congrArg String.toList h
      simp only [String.toList_append, List.append_cancel_left_eq] at hlist
      have hsucc := toString_nat_injective (String.toList_inj.1 hlist)
      omega
    have hsub : names ⊆ g.ruleNames := by
      intro name hname
      have htaken := List.find?_eq_none.1 hfind name hname
      obtain ⟨rule, hrule⟩ := Option.ne_none_iff_exists'.1 fun hnone =>
        htaken (Option.isNone_iff_eq_none.2 hnone)
      exact mem_ruleNames_of_rule? hrule
    have hlength := (List.Nodup.subperm hnodup hsub).length_le
    rw [hnames, List.length_map, List.length_range, ruleNames, List.length_map] at hlength
    omega

/-! ## Checks without a rule -/

/-- A rule predicts with a check that has no rule. -/
def Pends (g : Grammar) (p : PendingCheck) : Prop :=
  ∃ rule, g.rule? p.owner = some rule ∧
    ReflTransGen (g.Link Node.predictedChildren) rule.body p.check ∧
    ∃ node, g.node p.check = .ok node ∧ node.pendingPayload? = some p.payload

theorem pendingPayload?_eq_some {node : Node} {payload : NodeId} :
    node.pendingPayload? = some payload ↔
      ∃ negate mark, node.kind = .check ⟨negate, .syntactic payload none, mark⟩ := by
  unfold Node.pendingPayload?
  split
  · rename_i negate other mark hkind
    simp [hkind, eq_comm]
  · rename_i hother
    simp only [reduceCtorEq, false_iff]
    rintro ⟨negate, mark, hkind⟩
    exact hother _ _ _ hkind

theorem mem_pendingChecksOf {rule : Rule} {found : List PendingCheck}
    (h : g.pendingChecksOf rule = .ok found) : p ∈ found ↔ p.owner = rule.name ∧
      ReflTransGen (g.Link Node.predictedChildren) rule.body p.check ∧
      ∃ node, g.node p.check = .ok node ∧ node.pendingPayload? = some p.payload := by
  obtain ⟨ids, hids, h⟩ := bind_eq_ok.1 h
  obtain ⟨parts, hparts, h⟩ := bind_eq_ok.1 h
  rw [← pure_eq_ok.1 h]
  have hall := mapM_eq_ok.1 hparts
  simp only [List.mem_filterMap, id_eq, exists_eq_right]
  constructor
  · intro hp
    obtain ⟨id, hid, hpart⟩ := Forall₂.exists_of_mem_right hall hp
    obtain ⟨node, hnode, hpart⟩ := bind_eq_ok.1 hpart
    obtain ⟨payload, hpayload, rfl⟩ := Option.map_eq_some_iff.1 (pure_eq_ok.1 hpart)
    exact ⟨rfl, (mem_walkDown hids).1 hid, node, hnode, hpayload⟩
  · obtain ⟨owner, check, payload⟩ := p
    rintro ⟨rfl, hreach, node, hnode, hpayload⟩
    obtain ⟨part, hpart, heq⟩ := Forall₂.exists_of_mem_left hall ((mem_walkDown hids).2 hreach)
    obtain ⟨node', hnode', heq⟩ := bind_eq_ok.1 heq
    cases hnode.symm.trans hnode'
    rw [hpayload] at heq
    rw [← pure_eq_ok.1 heq] at hpart
    exact hpart

theorem mem_pendingChecks (hkeyed : g.Keyed) {pending : List PendingCheck}
    (h : g.pendingChecks = .ok pending) : p ∈ pending ↔ g.Pends p := by
  obtain ⟨parts, hparts, h⟩ := bind_eq_ok.1 h
  rw [← pure_eq_ok.1 h, List.mem_flatten]
  have hall := mapM_eq_ok.1 hparts
  constructor
  · rintro ⟨part, hpart, hp⟩
    obtain ⟨rule, hrule, hfound⟩ := Forall₂.exists_of_mem_right hall hpart
    obtain ⟨howner, hrest⟩ := (mem_pendingChecksOf hfound).1 hp
    exact ⟨rule, howner ▸ hkeyed.rule?_of_mem_ruleList hrule, hrest⟩
  · rintro ⟨rule, hrule, hrest⟩
    obtain ⟨part, hpart, hfound⟩ :=
      Forall₂.exists_of_mem_left hall (mem_ruleList_of_rule? hrule)
    exact ⟨part, hpart, (mem_pendingChecksOf hfound).2
      ⟨(hkeyed.name_of_rule? hrule).symm, hrest⟩⟩

theorem Forest.exists_pendingChecks (hf : g.Forest) : ∃ pending, g.pendingChecks = .ok pending := by
  have each : ∀ rule ∈ g.ruleList, ∃ found, g.pendingChecksOf rule = .ok found := by
    intro rule hrule
    obtain ⟨ids, hids⟩ := (hf.hasDepth hrule).subset predictedChildren_subset
    have nodes : ∀ id ∈ ids, ∃ part, (do
        return (← g.node id).pendingPayload?.map fun payload => ⟨rule.name, id, payload⟩ :
          Except Fault (Option PendingCheck)) = .ok part := by
      intro id hid
      obtain ⟨node, hnode⟩ := node_of_walkDown hids hid
      exact ⟨_, bind_eq_ok.2 ⟨node, hnode, rfl⟩⟩
    obtain ⟨parts, hparts⟩ := exists_mapM_eq_ok nodes
    exact ⟨_, bind_eq_ok.2 ⟨ids, hids, bind_eq_ok.2 ⟨parts, hparts, rfl⟩⟩⟩
  obtain ⟨parts, hparts⟩ := exists_mapM_eq_ok each
  exact ⟨parts.flatten, bind_eq_ok.2 ⟨parts, hparts, rfl⟩⟩

/-! ## One rule -/

def checkRule (name : String) (body : NodeId) : Rule :=
  { Rule.ofBody name body with
    recognizer := some (recognizerName name), recognizerOnly := true, isToken := true,
    isPrivate := true }

theorem synthesizeRule_eq_ok : g.synthesizeRule p = .ok g' ↔ ∃ g₁ body g₂,
    g.deepClone p.payload = .ok (g₁, body) ∧
    g₁.addRule (checkRule (g.checkRuleName p.owner) body) = .ok g₂ ∧
    g₂.modifyNode p.check (Node.withCheckRule (g.checkRuleName p.owner)) = .ok g' := by
  constructor
  · intro h
    obtain ⟨⟨g₁, body⟩, hcopy, h⟩ := bind_eq_ok.1 h
    simp only at h
    split at h
    · cases h
    · rename_i g₂ hadd
      exact ⟨g₁, body, g₂, liftM_eq_ok.1 hcopy, hadd, liftM_eq_ok.1 h⟩
  · rintro ⟨g₁, body, g₂, hcopy, hadd, hmodify⟩
    refine bind_eq_ok.2 ⟨(g₁, body), liftM_eq_ok.2 hcopy, ?_⟩
    simp only
    unfold checkRule at hadd
    rw [hadd]
    exact liftM_eq_ok.2 hmodify

/-- A check that is to get a rule: some rule predicts with it, and it looks for the payload. -/
structure Awaits (g : Grammar) (p : PendingCheck) : Prop where
  predicted : g.Predicted p.check
  kind : ∃ negate rule mark,
    g.kindAt? p.check = some (.check ⟨negate, .syntactic p.payload rule, mark⟩)

theorem Pends.awaits (h : g.Pends p) : g.Awaits p := by
  obtain ⟨rule, hrule, hreach, node, hnode, hpayload⟩ := h
  obtain ⟨negate, mark, hkind⟩ := pendingPayload?_eq_some.1 hpayload
  exact ⟨⟨p.owner, rule, hrule, hreach⟩, negate, none, mark, hkind ▸ kindAt?_of_node hnode⟩

theorem Awaits.widens (h : g.Awaits p) (hwiden : g.Widens g') : g'.Awaits p := by
  obtain ⟨negate, rule, mark, hkind⟩ := h.kind
  obtain ⟨kind, hkind', hbare⟩ := hwiden.shape p.check _ hkind
  refine ⟨hwiden.predicted h.predicted, ?_⟩
  obtain ⟨⟨negate', body, mark'⟩, rfl, -⟩ := NodeKind.of_bare_check hbare
  cases body with
  | code tokens => cases hbare
  | syntactic payload rule' =>
    cases hbare
    exact ⟨negate, rule', mark', hkind'⟩

/-- What a check looks for is part of a rule. -/
theorem Awaits.exists_owner (h : g.Awaits p) :
    ∃ name rule, g.rule? name = some rule ∧ g.Reaches rule.body p.payload := by
  obtain ⟨name, rule, hrule, hreach⟩ := h.predicted.inUse
  obtain ⟨negate, made, mark, hkind⟩ := h.kind
  obtain ⟨node, hnode, hkind⟩ := kindAt?_eq_some.1 hkind
  refine ⟨name, rule, hrule, hreach.tail ⟨node, hnode, ?_⟩⟩
  rw [Node.children, hkind]
  exact List.mem_singleton.2 rfl

theorem pendingPayload?_withCheckRule (rule : String) (node : Node) :
    (node.withCheckRule rule).pendingPayload? = none := by
  obtain ⟨kind, label, isList, saver, pre, post, basis⟩ := node
  rcases kind with items | alts | ⟨predict, matched⟩ | ⟨negate, ⟨tokens⟩ | ⟨payload, made⟩, mark⟩ |
    callee | ⟨set, mark⟩ <;> rfl

/-- The check has a rule in the new grammar, which differs from the old one in nothing else but the
copy of what the check looks for. -/
structure Synthesizes (g : Grammar) (p : PendingCheck) (g' : Grammar) : Prop where
  forest : g'.Forest
  keyed : g'.Keyed
  widens : g.Widens g'
  settled : ∀ node, g'.node p.check = .ok node → node.pendingPayload? = none
  kept : ∀ id node, id < g.nodes.size → id ≠ p.check → g'.node id = .ok node → g.node id = .ok node
  rules : ∀ name rule, g'.rule? name = some rule → g.rule? name = some rule ∨
    ∀ d, g.HasDepth Node.children d p.payload → g'.HasDepth Node.children d rule.body

theorem exists_synthesizeRule (hf : g.Forest) (hkeyed : g.Keyed) (h : g.Awaits p) :
    ∃ g', g.synthesizeRule p = .ok g' ∧ Synthesizes g p g' := by
  obtain ⟨name, owner, howner, hpayload⟩ := h.exists_owner
  have hdepth := (hf.hasDepth (mem_ruleList_of_rule? howner)).reached hpayload
  obtain ⟨g₁, body, hcopy, hcopied⟩ := exists_copyDown g hdepth
  obtain ⟨n, -, hfree⟩ := exists_checkRuleName g p.owner
  obtain ⟨rule, hrule⟩ : ∃ rule, rule = checkRule (g.checkRuleName p.owner) body := ⟨_, rfl⟩
  have hname : rule.name = g.checkRuleName p.owner := by rw [hrule]; rfl
  have hbody : rule.body = body := by rw [hrule]; rfl
  have hfree₁ : g₁.rule? rule.name = none := by
    rw [hname, rule?_of_rules hcopied.extend.rules]
    exact hfree
  obtain ⟨g₂, hadd⟩ : ∃ g₂, g₁.addRule rule = .ok g₂ := ⟨_, addRule_eq_ok.2 ⟨hfree₁, rfl⟩⟩
  have hwiden : g.Widens g₂ := hcopied.extend.widens.trans (widens_addRule hadd)
  obtain ⟨negate, made, mark, hkind⟩ := (h.widens hwiden).kind
  obtain ⟨node, hnode, -⟩ := kindAt?_eq_some.1 hkind
  obtain ⟨g', hmodify⟩ := exists_modifyNode (f := Node.withCheckRule (g.checkRuleName p.owner))
    ⟨node, hnode⟩
  have hannotates : g₂.Annotates g' :=
    annotates_modifyNode hmodify fun node _ => textless_withCheckRule _ node
  obtain ⟨hrules, hnodes⟩ := modifyNode_eq_ok hmodify
  have hsame : ∀ i : NodeId, g₂.nodes[i]? = g₁.nodes[i]? := by
    obtain ⟨-, rfl⟩ := addRule_eq_ok.1 hadd
    exact fun i => rfl
  refine ⟨g', synthesizeRule_eq_ok.2 ⟨g₁, body, g₂, hcopy, hrule ▸ hadd, hmodify⟩, ?_⟩
  constructor
  case forest =>
    rw [← hbody] at hcopied
    exact (hf.addCopy howner hpayload hcopied hadd).annotates hannotates
  case keyed => exact ((hkeyed.of_rules hcopied.extend.rules).addRule hadd).of_rules hrules
  case widens => exact hwiden.trans hannotates.widens
  case settled =>
    intro node' hnode'
    rw [node_eq_ok, hnodes, if_pos rfl] at hnode'
    obtain ⟨old, -, rfl⟩ := Option.map_eq_some_iff.1 hnode'
    exact pendingPayload?_withCheckRule _ old
  case kept =>
    intro id node' hid hne hnode'
    rw [node_eq_ok, hnodes, if_neg hne, hsame, hcopied.extend.nodes id hid] at hnode'
    exact node_eq_ok.2 hnode'
  case rules =>
    intro other found hfound
    rw [rule?_of_rules hrules] at hfound
    have hmem := mem_rules_of_rule? hfound
    obtain ⟨-, heq⟩ := addRule_eq_ok.1 hadd
    rw [heq] at hmem
    rcases List.mem_append.1 hmem with hold | hnew
    · left
      rw [hcopied.extend.rules] at hold
      exact hkeyed.rule?_of_mem hold
    · right
      cases List.mem_singleton.1 hnew
      intro d hd
      rw [hbody]
      exact (hannotates.widens.hasDepth ((widens_addRule hadd).hasDepth (hcopied.levels d hd)))

/-! ## Rounds -/

/-- What the checks without a rule look for has at most so many levels. -/
def PendsWithin (g : Grammar) (levels : Nat) : Prop :=
  ∀ p, g.Pends p → g.HasDepth Node.children levels p.payload

/-- A round has still to give rules to the checks in `todo`. What the others without a rule look for
has fewer levels. -/
structure InRound (g : Grammar) (levels : Nat) (todo : List PendingCheck) : Prop where
  forest : g.Forest
  keyed : g.Keyed
  awaits : ∀ p ∈ todo, g.Awaits p ∧ g.HasDepth Node.children (levels + 1) p.payload
  rest : ∀ p, g.Pends p →
    (∃ q ∈ todo, q.check = p.check) ∨ g.HasDepth Node.children levels p.payload

theorem InRound.step {todo : List PendingCheck} (h : g.InRound levels (p :: todo))
    (hs : Synthesizes g p g') : g'.InRound levels todo where
  forest := hs.forest
  keyed := hs.keyed
  awaits q hq := by
    obtain ⟨hawaits, hdepth⟩ := h.awaits q (List.mem_cons_of_mem _ hq)
    exact ⟨hawaits.widens hs.widens, hs.widens.hasDepth hdepth⟩
  rest q hpends := by
    obtain ⟨rule, hrule, hreach, node, hnode, hpayload⟩ := hpends
    rcases hs.rules q.owner rule hrule with hold | hnew
    · -- A check of an old rule: it is the check at hand, or it had no rule before.
      have hdepth := (h.forest.hasDepth (mem_ruleList_of_rule? hold)).subset predictedChildren_subset
      have hreach := (hs.widens.shape.reached_iff (fun _ _ => Node.predictedChildren_of_bare)
        hdepth).1 hreach
      obtain ⟨old, hchecked⟩ := (hdepth.reached hreach).exists_node
      have hlt := lt_size_of_kindAt? (kindAt?_of_node hchecked)
      by_cases hcheck : q.check = p.check
      · have hnone := hs.settled node (hcheck ▸ hnode)
        rw [hpayload] at hnone
        cases hnone
      · have hbefore : g.Pends q :=
          ⟨rule, hold, hreach, node, hs.kept q.check node hlt hcheck hnode, hpayload⟩
        rcases h.rest q hbefore with ⟨other, hother, heq⟩ | hless
        · rcases List.mem_cons.1 hother with rfl | hother
          · exact absurd heq.symm hcheck
          · exact Or.inl ⟨other, hother, heq⟩
        · exact Or.inr (hs.widens.hasDepth hless)
    · -- A check in the copy: it is further down than the root of the copy.
      have hbody := hnew _ (h.awaits p List.mem_cons_self).2
      have hcheck := (hbody.subset predictedChildren_subset).reached hreach
      obtain ⟨negate, mark, hkind⟩ := pendingPayload?_eq_some.1 hpayload
      refine Or.inr ((hbody.reached (reaches_of_predicted hreach)).child hnode ?_)
      rw [Node.children, hkind]
      exact List.mem_singleton.2 rfl

theorem InRound.exists_foldlM {todo : List PendingCheck} (h : g.InRound levels todo) :
    ∃ g', todo.foldlM synthesizeRule g = .ok g' ∧ g.Widens g' ∧ g'.InRound levels [] := by
  induction todo generalizing g with
  | nil => exact ⟨g, rfl, .refl g, h⟩
  | cons p rest ih =>
    obtain ⟨g₁, hfirst, hs⟩ :=
      exists_synthesizeRule h.forest h.keyed (h.awaits p List.mem_cons_self).1
    obtain ⟨g₂, hrest, hwiden, hdone⟩ := ih (h.step hs)
    exact ⟨g₂, foldlM_cons_eq_ok.2 ⟨g₁, hfirst, hrest⟩, hs.widens.trans hwiden, hdone⟩

/-- All rules for checks, when what these look for has at most so many levels. -/
theorem exists_synthesizeRounds {rounds : Nat} (hf : g.Forest) (hkeyed : g.Keyed)
    (h : g.PendsWithin levels) (hrounds : levels < rounds) :
    ∃ g', synthesizeRounds rounds g = .ok g' ∧ g'.Forest ∧ g'.Keyed ∧ g.Widens g' ∧
      ∀ p, ¬ g'.Pends p := by
  induction levels generalizing g rounds with
  | zero =>
    obtain ⟨rounds, rfl⟩ : ∃ less, rounds = less + 1 := ⟨rounds - 1, by omega⟩
    obtain ⟨pending, hpending⟩ := hf.exists_pendingChecks
    have hnone : ∀ p, ¬ g.Pends p := fun p hp => not_hasDepth_zero (h p hp)
    have hempty : pending = [] := List.eq_nil_iff_forall_not_mem.2 fun p hp =>
      hnone p ((mem_pendingChecks hkeyed hpending).1 hp)
    refine ⟨g, bind_eq_ok.2 ⟨pending, liftM_eq_ok.2 hpending, ?_⟩, hf, hkeyed, .refl g, hnone⟩
    rw [hempty]
    rfl
  | succ levels ih =>
    obtain ⟨rounds, rfl⟩ : ∃ less, rounds = less + 1 := ⟨rounds - 1, by omega⟩
    obtain ⟨pending, hpending⟩ := hf.exists_pendingChecks
    have hmem : ∀ p, p ∈ pending ↔ g.Pends p := fun p => mem_pendingChecks hkeyed hpending
    by_cases hempty : pending = []
    · refine ⟨g, bind_eq_ok.2 ⟨pending, liftM_eq_ok.2 hpending, ?_⟩, hf, hkeyed, .refl g, fun p hp => ?_⟩
      · rw [hempty]
        rfl
      · have hp := (hmem p).2 hp
        rw [hempty] at hp
        exact List.not_mem_nil hp
    · have hround : g.InRound levels pending :=
        ⟨hf, hkeyed, fun p hp => ⟨((hmem p).1 hp).awaits, h p ((hmem p).1 hp)⟩,
          fun p hp => Or.inl ⟨p, (hmem p).2 hp, rfl⟩⟩
      obtain ⟨g₁, hg₁, hwiden, hdone⟩ := hround.exists_foldlM
      have hless : g₁.PendsWithin levels := fun p hp =>
        (hdone.rest p hp).resolve_left fun ⟨q, hq, _⟩ => List.not_mem_nil hq
      obtain ⟨g', hg', hforest, hkeyed', hwiden', hnone⟩ :=
        ih hdone.forest hdone.keyed hless (Nat.lt_of_succ_lt_succ hrounds)
      refine ⟨g', bind_eq_ok.2 ⟨pending, liftM_eq_ok.2 hpending, ?_⟩, hforest, hkeyed',
        hwiden.trans hwiden', hnone⟩
      rw [if_neg (by simpa using hempty)]
      exact bind_eq_ok.2 ⟨g₁, hg₁, hg'⟩

/-- **Every check gets a rule.** -/
theorem exists_synthesizeRecognizers (hf : g.Forest) (hkeyed : g.Keyed) :
    ∃ g', g.synthesizeRecognizers = .ok g' ∧ g'.Forest ∧ g'.Keyed ∧ g.Widens g' ∧
      ∀ p, ¬ g'.Pends p := by
  refine exists_synthesizeRounds hf hkeyed (fun p hp => ?_) (Nat.lt_succ_self _)
  have hcheck := hf.hasDepth_size hp.awaits.predicted.inUse
  obtain ⟨-, -, -, node, hnode, hpayload⟩ := hp
  obtain ⟨negate, mark, hkind⟩ := pendingPayload?_eq_some.1 hpayload
  obtain ⟨less, hless⟩ := hcheck.exists_succ
  rw [hless] at hcheck ⊢
  refine (hcheck.child hnode ?_).mono (Nat.le_succ less)
  rw [Node.children, hkind]
  exact List.mem_singleton.2 rfl

end Grammar

end PredictiveParser
