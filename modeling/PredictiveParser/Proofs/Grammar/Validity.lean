import PredictiveParser.Proofs.Failure
import PredictiveParser.Proofs.Grammar.Ordered
import PredictiveParser.Proofs.Grammar.Paths
import PredictiveParser.Proofs.Grammar.Widening

/-!
# What validation accepts

`Grammar.WellFormed` says which grammars are sound, without a word about how that is found out. A grammar
made with the builders passes validation exactly when it is one of them, and what it is rejected with is
always an error of the grammar (`validate_iff_wellFormed`).
-/
namespace PredictiveParser

namespace Grammar

/-- No node occurs twice among the trees of all rules, every choice in them has an arm, every declared
default arm is one of the arms, and every called rule is there. -/
structure WellFormed (g : Grammar) : Prop where
  once : ∀ rule ∈ g.ruleList, ∀ rule' ∈ g.ruleList, ∀ path path' id,
    g.nodeAt? rule.body path = some id → g.nodeAt? rule'.body path' = some id →
      rule.name = rule'.name ∧ path = path'
  arms : ∀ id alts, g.InUse id → g.kindAt? id = some (.alternatives alts) → alts.arms ≠ []
  defaults : ∀ id alts arm, g.InUse id → g.kindAt? id = some (.alternatives alts) →
    alts.defaultArm = some arm → arm < alts.arms.length
  called : ∀ id callee, g.InUse id → g.kindAt? id = some (.call callee) → g.Knows callee

variable {g : Grammar} {id : NodeId}

theorem WellFormed.flawless (h : g.WellFormed) (hid : g.InUse id) {node : Node}
    (hnode : g.node id = .ok node) : node.kind.Flawless g.Knows := by
  have hk := kindAt?_of_node hnode
  cases hkind : node.kind with
  | alternatives alts =>
    rw [hkind] at hk
    exact ⟨h.arms id alts hid hk, fun arm => h.defaults id alts arm hid hk⟩
  | call callee => exact h.called id callee hid (hkind ▸ hk)
  | sequence | gate | check | terminal => trivial

/-! ## Well-formed grammars and forests -/

theorem Forest.wellFormed (hf : g.Forest) (hkeyed : g.Keyed) : g.WellFormed := by
  have flawless : ∀ {id kind}, g.InUse id → g.kindAt? id = some kind → kind.Flawless g.Knows := by
    rintro id kind ⟨name, rule, hrule, hreach⟩ hk
    obtain ⟨node, hnode, hflawless⟩ := hf.flawless hrule hreach
    cases (kindAt?_of_node hnode).symm.trans hk
    exact hflawless
  refine ⟨fun rule hrule rule' hrule' path path' id hpath hpath' => ?_,
    fun id alts hid hk => (flawless hid hk).1, fun id alts arm hid hk => (flawless hid hk).2 arm,
    fun id callee hid hk => flawless hid hk⟩
  have hfind := hkeyed.rule?_of_mem_ruleList hrule
  have hfind' := hkeyed.rule?_of_mem_ruleList hrule'
  have hname := hf.rule_unique hfind hfind' (reaches_iff.2 ⟨path, hpath⟩) (reaches_iff.2 ⟨path', hpath'⟩)
  refine ⟨hname, ?_⟩
  -- The node is in one tree, and the walk of that tree lists it once.
  rw [← hname, hfind] at hfind'
  cases hfind'
  obtain ⟨ids, hids, hnodup, -⟩ := hf.tree rule hrule
  exact (unshared_iff_nodup hids).2 hnodup path path' id hpath hpath'

theorem Keyed.pairwise_name (h : g.Keyed) :
    g.ruleList.Pairwise fun rule rule' => rule.name ≠ rule'.name := by
  refine List.pairwise_map.2 ((List.pairwise_map.1 h.nodup).imp_of_mem ?_)
  intro entry entry' hentry hentry' hne
  rwa [h.own entry hentry, h.own entry' hentry']

theorem WellFormed.forest (h : g.WellFormed) (hordered : g.Ordered) : g.Forest where
  tree rule hrule := by
    have hfind := hordered.keyed.rule?_of_mem_ruleList hrule
    obtain ⟨ids, hids⟩ := hordered.hasDepth_bound (hordered.bodies rule hrule)
    have hunshared : g.Unshared rule.body := fun path path' id hpath hpath' =>
      (h.once rule hrule rule hrule path path' id hpath hpath').2
    refine ⟨ids, hids, (unshared_iff_nodup hids).1 hunshared, fun id hid => ?_⟩
    obtain ⟨node, hnode⟩ := node_of_walkDown hids hid
    have huse : g.InUse id := ⟨rule.name, rule, hfind, (mem_walkDown hids).1 hid⟩
    exact ⟨node, hnode, nodeProblem?_eq_none.2 (h.flawless huse hnode)⟩
  apart := by
    refine hordered.keyed.pairwise_name.imp_of_mem fun {rule rule'} hrule hrule' hne id hid hid' => ?_
    obtain ⟨path, hpath⟩ := reaches_iff.1 hid
    obtain ⟨path', hpath'⟩ := reaches_iff.1 hid'
    exact hne (h.once rule hrule rule' hrule' path path' id hpath hpath').1

/-! ## Rejected grammars -/

def IsProblem (failure : Failure GrammarError) : Prop :=
  ∃ problem, failure = .error problem

theorem failsOnly_checkNodes {name : String} {seen ids : List NodeId}
    (hids : ∀ id ∈ ids, ∃ node, g.node id = .ok node) :
    FailsOnly IsProblem (g.checkNodes name seen ids) := by
  induction ids generalizing seen with
  | nil => exact .ok seen
  | cons id rest ih =>
    obtain ⟨⟨node, hnode⟩, hrest⟩ := List.forall_mem_cons.1 hids
    rw [checkNodes]
    split
    · exact .error ⟨_, rfl⟩
    · refine (FailsOnly.of_exists ⟨node, liftM_eq_ok.2 hnode⟩).bind fun _ _ => ?_
      split
      · exact .error ⟨_, rfl⟩
      · exact ih hrest

theorem failsOnly_checkRules {seen : List NodeId} {rules : List Rule}
    (hbodies : ∀ rule ∈ rules, g.HasDepth Node.children g.depthBound rule.body) :
    FailsOnly IsProblem (g.checkRules seen rules) := by
  induction rules generalizing seen with
  | nil => exact .ok ()
  | cons rule rest ih =>
    obtain ⟨⟨ids, hids⟩, hrest⟩ := List.forall_mem_cons.1 hbodies
    rw [checkRules]
    refine (FailsOnly.of_exists ⟨ids, liftM_eq_ok.2 hids⟩).bind fun ids' hids' => ?_
    have hwalk := liftM_eq_ok.1 hids'
    exact (failsOnly_checkNodes fun id hid => node_of_walkDown hwalk hid).bind fun _ _ => ih hrest

/-- **Validation accepts exactly the well-formed grammars.** It rejects the others with an error, and no
grammar with a fault. -/
theorem validate_iff_wellFormed (h : g.Assembled) :
    (g.validate = .ok () ↔ g.WellFormed) ∧
      (¬ g.WellFormed → ∃ problem, g.validate = .error (.error problem)) := by
  have hordered := h.ordered
  have hiff : g.validate = .ok () ↔ g.WellFormed :=
    ⟨fun hvalid => (forest_of_validate hvalid).wellFormed hordered.keyed,
      fun hwf => (hwf.forest hordered).validate⟩
  refine ⟨hiff, fun hnot => ?_⟩
  have hfails : FailsOnly IsProblem g.validate := failsOnly_checkRules fun rule hrule =>
    hordered.hasDepth_bound (hordered.bodies rule hrule)
  rcases hfails.ok_or_error with ⟨⟨⟩, hok⟩ | ⟨failure, herror, problem, rfl⟩
  · exact (hnot (hiff.1 hok)).elim
  · exact ⟨problem, herror⟩

end Grammar

/-- A letter, a copy of it, and two rules: the body of the first one is the letter. -/
def letterRules (body : NodeId) : Grammar where
  nodes := #[.ofKind (.terminal (.ofRanges [(97, 97)]) none),
    .ofKind (.terminal (.ofRanges [(97, 97)]) none)]
  rules := [("first", .ofBody "first" 0), ("second", .ofBody "second" body)]

theorem letterRules_assembled {body : NodeId} (hbody : body < 2) : (letterRules body).Assembled := by
  have hletter := Grammar.Assembled.empty.terminal (.ofRanges [(97, 97)])
  have hcopy := hletter.deepClone (show Grammar.deepClone _ 0 = .ok (_, 1) from rfl)
  have hfirst := hcopy.addRule (by decide) (show Grammar.addRule _ (.ofBody "first" 0) = .ok _ from rfl)
  exact hfirst.addRule hbody (show Grammar.addRule _ (.ofBody "second" body) = .ok _ from rfl)

/-- Two rules cannot have the same body, but the second one can have a copy of it. -/
theorem letterRules_validity : (letterRules 0).Assembled ∧
    (∃ problem, (letterRules 0).validate = .error (.error problem)) ∧
    (letterRules 1).Assembled ∧ (letterRules 1).WellFormed := by
  have hsame : (letterRules 0).Assembled := letterRules_assembled (by decide)
  have hapart : (letterRules 1).Assembled := letterRules_assembled (by decide)
  refine ⟨hsame, (Grammar.validate_iff_wellFormed hsame).2 fun hwf => ?_,
    hapart, (Grammar.validate_iff_wellFormed hapart).1.1 rfl⟩
  have honce := hwf.once (.ofBody "first" 0) List.mem_cons_self (.ofBody "second" 0)
    (List.mem_cons_of_mem _ List.mem_cons_self) [] [] 0 rfl rfl
  exact absurd honce.1 (by decide)

end PredictiveParser
