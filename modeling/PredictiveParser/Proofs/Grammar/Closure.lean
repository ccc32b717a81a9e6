import PredictiveParser.Proofs.Grammar.Blank
import PredictiveParser.Proofs.Grammar.Naming
import PredictiveParser.Proofs.Grammar.Parents

/-!
# What synthesis makes of a grammar

Synthesis adds rules and names them in checks, and leaves everything else as it was (`Synthesized`). The
grammar is valid again, each check that is predicted with has a rule of its own, and the body of that rule
is a copy of what the check looks for.

The invariant is carried from step to step (`Synthesized.step`). What a check looks for is not predicted
with (`Forest.not_predicted_of_payload`), so it holds no check that has a rule, and neither does the copy
of it. The name for the new rule is free, and so it is no name of another check.
-/
namespace PredictiveParser

open Relation

/-! ## Forms of nodes -/

namespace Node

/-- The node without the name of the rule that it runs as a check. -/
def unruled (node : Node) : Node :=
  match node.kind with
  | .check ⟨negate, .syntactic payload _, prematched⟩ =>
    { node with kind := .check ⟨negate, .syntactic payload none, prematched⟩ }
  | _ => node

/-- What the nodes of a copy share with those that were copied, however checks are named later: everything
but which nodes are below, predictions and the names of rules for checks. -/
def form (node : Node) : Node :=
  node.stem.unruled

variable {node copied : Node}

theorem form_of_stem (h : copied.stem = node.stem) : copied.form = node.form :=
  congrArg unruled h

theorem form_withCheckRule (rule : String) (node : Node) :
    (node.withCheckRule rule).form = node.form := by
  obtain ⟨kind, label, isList, saver, pre, post, basis⟩ := node
  rcases kind with items | alts | ⟨predict, matched⟩ | ⟨negate, ⟨tokens⟩ | ⟨payload, made⟩, mark⟩ |
    callee | ⟨set, mark⟩ <;> rfl

theorem children_withCheckRule (rule : String) (node : Node) :
    (node.withCheckRule rule).children = node.children := by
  obtain ⟨kind, label, isList, saver, pre, post, basis⟩ := node
  rcases kind with items | alts | ⟨predict, matched⟩ | ⟨negate, ⟨tokens⟩ | ⟨payload, made⟩, mark⟩ |
    callee | ⟨set, mark⟩ <;> rfl

theorem withCheckRule_withCheckRule (rule rule' : String) (node : Node) :
    (node.withCheckRule rule).withCheckRule rule' = node.withCheckRule rule' := by
  obtain ⟨kind, label, isList, saver, pre, post, basis⟩ := node
  rcases kind with items | alts | ⟨predict, matched⟩ | ⟨negate, ⟨tokens⟩ | ⟨payload, made⟩, mark⟩ |
    callee | ⟨set, mark⟩ <;> rfl

end Node

namespace Grammar

variable {g g' g'' : Grammar} {id new : NodeId} {depth : Nat} {p : PendingCheck} {name : String}

/-- Each node is still there with its form, and the same nodes are below it. -/
def KeepsForms (g g' : Grammar) : Prop :=
  ∀ id node, g.node id = .ok node →
    ∃ node', g'.node id = .ok node' ∧ node'.form = node.form ∧ node'.children = node.children

theorem KeepsForms.trans (h : g.KeepsForms g') (h' : g'.KeepsForms g'') : g.KeepsForms g'' := by
  intro id node hnode
  obtain ⟨node', hnode', hform, hchildren⟩ := h id node hnode
  obtain ⟨node'', hnode'', hform', hchildren'⟩ := h' id node' hnode'
  exact ⟨node'', hnode'', hform'.trans hform, hchildren'.trans hchildren⟩

theorem keepsForms_of_nodes
    (h : ∀ id node, g.node id = .ok node → g'.node id = .ok node) : g.KeepsForms g' :=
  fun id node hnode => ⟨node, h id node hnode, rfl, rfl⟩

theorem Extends.keepsForms (h : g.Extends g') : g.KeepsForms g' :=
  keepsForms_of_nodes fun _ _ => h.node

theorem keepsForms_addNode (g : Grammar) (node : Node) : g.KeepsForms (g.addNode node).1 :=
  keepsForms_of_nodes fun _ _ hold => node_addNode_of_node hold node

theorem keepsForms_withCheckRule
    (h : g.modifyNode id (Node.withCheckRule name) = .ok g') : g.KeepsForms g' := by
  intro other node hnode
  obtain ⟨-, hnodes⟩ := modifyNode_eq_ok h
  by_cases heq : other = id
  · refine ⟨node.withCheckRule name, ?_, node.form_withCheckRule name, node.children_withCheckRule name⟩
    rw [node_eq_ok, hnodes, if_pos heq, node_eq_ok.1 hnode]
    rfl
  · refine ⟨node, ?_, rfl, rfl⟩
    rw [node_eq_ok, hnodes, if_neg heq]
    exact node_eq_ok.1 hnode

/-! ## Copies -/

/-- The tree of at most so many levels under `new` has the form of that under `id`. -/
def CopyOf (g : Grammar) : (depth : Nat) → (id new : NodeId) → Prop
  | 0, _, _ => False
  | depth + 1, id, new => ∃ node copied, g.node id = .ok node ∧ g.node new = .ok copied ∧
      copied.form = node.form ∧ List.Forall₂ (g.CopyOf depth) node.children copied.children

/-- The tree under `new` is a copy of the tree under `id`. -/
def IsCopy (g : Grammar) (id new : NodeId) : Prop :=
  ∃ depth, g.CopyOf depth id new

theorem CopyOf.keep (h : g.KeepsForms g') (hcopy : g.CopyOf depth id new) : g'.CopyOf depth id new := by
  induction depth generalizing id new with
  | zero => exact hcopy
  | succ depth ih =>
    obtain ⟨node, copied, hnode, hcopied, hform, hbelow⟩ := hcopy
    obtain ⟨node', hnode', hform', hchildren'⟩ := h id node hnode
    obtain ⟨copied', hcopied', hform'', hchildren''⟩ := h new copied hcopied
    refine ⟨node', copied', hnode', hcopied', (hform''.trans hform).trans hform'.symm, ?_⟩
    rw [hchildren', hchildren'']
    exact hbelow.imp fun _ _ => ih

theorem IsCopy.keep (h : g.KeepsForms g') (hcopy : g.IsCopy id new) : g'.IsCopy id new :=
  hcopy.imp fun _ => CopyOf.keep h

theorem copyOf_copyAll {copy : Grammar → NodeId → Except Fault (Grammar × NodeId)}
    (hcopy : ∀ g id g' new, copy g id = .ok (g', new) → g.Extends g' ∧ g'.CopyOf depth id new)
    {ids news : List NodeId} (h : copyAll copy g ids = .ok (g', news)) :
    g.Extends g' ∧ List.Forall₂ (g'.CopyOf depth) ids news := by
  induction ids generalizing g news with
  | nil =>
    cases pure_eq_ok.1 h
    exact ⟨.refl _, .nil⟩
  | cons id rest ih =>
    rw [copyAll] at h
    obtain ⟨⟨g₁, first⟩, hfirst, h⟩ := bind_eq_ok.1 h
    obtain ⟨⟨g₂, others⟩, hothers, h⟩ := bind_eq_ok.1 h
    cases pure_eq_ok.1 h
    obtain ⟨hextends, hcopied⟩ := hcopy _ _ _ _ hfirst
    obtain ⟨hextends', hall⟩ := ih hothers
    exact ⟨hextends.trans hextends', .cons (hcopied.keep hextends'.keepsForms) hall⟩

/-- **Copying makes a copy.** -/
theorem copyOf_copyDown (h : copyDown depth g id = .ok (g', new)) : g'.CopyOf depth id new := by
  induction depth generalizing g id g' new with
  | zero => cases h
  | succ depth ih =>
    have hextends := (extends_copyDown h).1
    rw [copyDown_succ] at h
    obtain ⟨node, hnode, h⟩ := bind_eq_ok.1 h
    obtain ⟨⟨g₁, news⟩, hcopies, h⟩ := bind_eq_ok.1 h
    cases pure_eq_ok.1 h
    obtain ⟨-, hall⟩ := copyOf_copyAll (fun _ _ _ _ hone => ⟨(extends_copyDown hone).1, ih hone⟩) hcopies
    have hlength := hall.length_eq.symm
    refine ⟨node, node.withChildren news, hextends.node hnode, node_eq_ok.2 Array.getElem?_push_size,
      Node.form_of_stem (Node.stem_withChildren hlength), ?_⟩
    rw [Node.children_withChildren hlength]
    exact hall.imp fun _ _ => CopyOf.keep (keepsForms_addNode g₁ _)

/-! ## What checks look for -/

theorem Forest.rooted (hf : g.Forest) {rule : Rule} (hrule : g.rule? name = some rule) :
    g.Rooted Node.children rule.body := by
  obtain ⟨ids, hids, hnodup, -⟩ := hf.tree rule (mem_ruleList_of_rule? hrule)
  exact rooted_of_walkDown hids hnodup

/-- The last step of a way to a node comes from its parent. -/
theorem Rooted.predicted_parent {body parent child : NodeId} (h : g.Rooted Node.children body)
    (hparent : g.Reaches body parent) (hchild : g.Link Node.children parent child)
    (hway : ReflTransGen (g.Link Node.predictedChildren) body child) :
    ReflTransGen (g.Link Node.predictedChildren) body parent ∧
      g.Link Node.predictedChildren parent child := by
  obtain heq | ⟨parent', hway', hlast⟩ := hway.cases_tail
  · exact absurd (heq ▸ hchild) (h.top parent hparent)
  · have hchild' : g.Link Node.children parent' child :=
      hlast.imp fun node => And.imp_right fun h => predictedChildren_subset node h
    obtain rfl := h.unique parent parent' child hparent (reaches_of_predicted hway') hchild hchild'
    exact ⟨hway', hlast⟩

/-- **Nothing that a check looks for is predicted with.** The way to it from the body of the rule is the only
one, and it goes over the check. -/
theorem Forest.not_predicted_of_payload (hf : g.Forest) {check payload : NodeId} {negate : Bool}
    {made : Option String} {mark : Option Bool} (hpredicted : g.Predicted check)
    (hkind : g.kindAt? check = some (.check ⟨negate, .syntactic payload made, mark⟩))
    (hreach : g.Reaches payload id) : ¬ g.Predicted id := by
  obtain ⟨name, rule, hrule, hway⟩ := hpredicted
  obtain ⟨node, hnode, hkind⟩ := kindAt?_eq_some.1 hkind
  have hlink : g.Link Node.children check payload := ⟨node, hnode, by
    rw [Node.children, hkind]
    exact List.mem_singleton.2 rfl⟩
  have hpayload : g.Reaches rule.body payload := (reaches_of_predicted hway).tail hlink
  have hrooted := hf.rooted hrule
  have hnone : ∀ id, g.Reaches payload id →
      ¬ ReflTransGen (g.Link Node.predictedChildren) rule.body id := by
    intro id hid
    induction hid with
    | refl =>
      intro hother
      obtain ⟨-, node', hnode', hchild⟩ :=
        hrooted.predicted_parent (reaches_of_predicted hway) hlink hother
      cases hnode.symm.trans hnode'
      rw [Node.predictedChildren, hkind] at hchild
      cases hchild
    | tail hid hlink ih =>
      exact fun hother => ih (hrooted.predicted_parent (hpayload.trans hid) hlink hother).1
  rintro ⟨name', rule', hrule', hother⟩
  obtain rfl := hf.rule_unique hrule hrule' (hpayload.trans hreach) (reaches_of_predicted hother)
  cases hrule.symm.trans hrule'
  exact hnone id hreach hother

/-! ## Synthesis -/

/-- The check at a place looks for the payload and runs the rule under the name. -/
def Runs (g : Grammar) (id payload : NodeId) (name : String) : Prop :=
  ∃ negate mark, g.kindAt? id = some (.check ⟨negate, .syntactic payload (some name), mark⟩)

/-- What synthesis has made of a grammar so far. Rules were added, checks that are predicted with got
names, and nothing else is different. Each check with a name has a rule of its own: it has a recognizer only,
is private and a token, and has a copy of what the check looks for as its body. -/
structure Synthesized (g g' : Grammar) : Prop where
  rules : ∃ added, g'.rules = g.rules ++ added
  nodes : ∀ id node, g.node id = .ok node → g'.node id = .ok node ∨
    g'.Predicted id ∧ ∃ name, g'.node id = .ok (node.withCheckRule name)
  made : ∀ id payload name, g'.Runs id payload name → g'.Predicted id ∧
    ∃ body, g'.rule? name = some (checkRule name body) ∧ g'.IsCopy payload body
  distinct : ∀ id id' payload payload' name, g'.Runs id payload name → g'.Runs id' payload' name →
    id = id'

/-- No check has a name at the beginning. -/
theorem Blank.synthesized (h : g.Blank) : g.Synthesized g := by
  have hnone : ∀ id payload name, ¬ g.Runs id payload name := by
    rintro id payload name ⟨negate, mark, hkind⟩
    obtain ⟨node, hnode, hkind⟩ := kindAt?_eq_some.1 hkind
    refine (h id node hnode).unmade name ?_
    rw [hkind]
    rfl
  exact ⟨⟨[], (List.append_nil _).symm⟩, fun _ _ => Or.inl, fun id payload name hruns =>
    (hnone id payload name hruns).elim, fun id _ payload _ name hruns => (hnone id payload name hruns).elim⟩

/-- A step leaves the nodes there are, but for the name in the check at hand. -/
theorem node_of_synthesizeRule (h : g.synthesizeRule p = .ok g') {node : Node}
    (hnode : g.node id = .ok node) :
    g'.node id = .ok (if id = p.check then node.withCheckRule (g.checkRuleName p.owner) else node) := by
  obtain ⟨g₁, body, g₂, hcopy, hadd, hmodify⟩ := synthesizeRule_eq_ok.1 h
  have hold := node_eq_ok.1 ((extends_copyDown hcopy).1.node hnode)
  obtain ⟨-, rfl⟩ := addRule_eq_ok.1 hadd
  rw [node_eq_ok, (modifyNode_eq_ok hmodify).2]
  by_cases hid : id = p.check
  · rw [if_pos hid, if_pos hid]
    exact congrArg (Option.map _) hold
  · rw [if_neg hid, if_neg hid]
    exact hold

theorem keepsForms_synthesizeRule (h : g.synthesizeRule p = .ok g') : g.KeepsForms g' := by
  intro id node hnode
  refine ⟨_, node_of_synthesizeRule h hnode, ?_⟩
  split
  · exact ⟨node.form_withCheckRule _, node.children_withCheckRule _⟩
  · exact ⟨rfl, rfl⟩

/-- The body of the new rule is a copy of what the check looks for. -/
theorem isCopy_synthesizeRule (h : g.synthesizeRule p = .ok g') {copied : Grammar} {body : NodeId}
    (hcopy : g.deepClone p.payload = .ok (copied, body)) : g'.IsCopy p.payload body := by
  obtain ⟨g₁, body', g₂, hcopy', hadd, hmodify⟩ := synthesizeRule_eq_ok.1 h
  cases hcopy.symm.trans hcopy'
  have hadded : copied.KeepsForms g₂ := by
    obtain ⟨-, rfl⟩ := addRule_eq_ok.1 hadd
    exact keepsForms_of_nodes fun _ _ hnode => hnode
  exact IsCopy.keep (hadded.trans (keepsForms_withCheckRule hmodify)) ⟨_, copyOf_copyDown hcopy⟩

/-- Where a check has a name after a step, it is the check at hand with the new name, or it had the name
before. -/
theorem runs_synthesizeRule {base : Grammar} (hg : base.Synthesized g) (hf : g.Forest)
    (hp : g.Awaits p) (h : g.synthesizeRule p = .ok g') {payload : NodeId}
    (hruns : g'.Runs id payload name) :
    id = p.check ∧ payload = p.payload ∧ name = g.checkRuleName p.owner ∨
      id ≠ p.check ∧ g.Runs id payload name := by
  obtain ⟨g₁, body, g₂, hcopy, hadd, hmodify⟩ := synthesizeRule_eq_ok.1 h
  obtain ⟨owner, rule, hrule, hpayload⟩ := hp.exists_owner
  obtain ⟨g₁', body', hcopy', hcopied⟩ :=
    exists_copyDown g ((hf.hasDepth (mem_ruleList_of_rule? hrule)).reached hpayload)
  cases hcopy.symm.trans hcopy'
  obtain ⟨-, rfl⟩ := addRule_eq_ok.1 hadd
  obtain ⟨negate, mark, hkind⟩ := hruns
  obtain ⟨negate₀, made₀, mark₀, hkind₀⟩ := hp.kind
  by_cases hid : id = p.check
  · subst hid
    obtain ⟨node, hnode, hk⟩ := kindAt?_eq_some.1 hkind₀
    rw [kindAt?_modifyNode hmodify, if_pos rfl, hcopied.extend.nodes _ (lt_size_of_kindAt? hkind₀),
      node_eq_ok.1 hnode, Option.map_some, Node.withCheckRule, hk] at hkind
    cases hkind
    exact Or.inl ⟨rfl, rfl, rfl⟩
  · refine Or.inr ⟨hid, ?_⟩
    rw [kindAt?_modifyNode hmodify, if_neg hid] at hkind
    rcases Nat.lt_or_ge id g.nodes.size with hlt | hge
    · refine ⟨negate, mark, ?_⟩
      rw [kindAt?, ← hcopied.extend.nodes id hlt]
      exact hkind
    · -- A copy of a check with a name would have been copied from one, but there is none in the payload.
      obtain ⟨copied, hnode, hk⟩ := kindAt?_eq_some.1 hkind
      obtain ⟨source, node, hreach, hsource, hstem⟩ := hcopied.stems id copied hge hnode
      obtain ⟨payload', hk'⟩ := exists_check_of_stem hstem hk
      have hpredicted := (hg.made source payload' name ⟨negate, mark, hk' ▸ kindAt?_of_node hsource⟩).1
      exact absurd hpredicted (hf.not_predicted_of_payload hp.predicted hkind₀ hreach)

/-- **One step.** -/
theorem Synthesized.step {base : Grammar} (hg : base.Synthesized g) (hf : g.Forest) (hkeyed : g.Keyed)
    (hp : g.Awaits p) (h : g.synthesizeRule p = .ok g') : base.Synthesized g' := by
  obtain ⟨_, hother, hs⟩ := exists_synthesizeRule hf hkeyed hp
  cases h.symm.trans hother
  obtain ⟨copied, body, hcopy, hbody⟩ := exists_rule_synthesizeRule h
  have hfree := (rules_synthesizeRule h).1
  have hruns : ∀ id payload name, g'.Runs id payload name →
      id = p.check ∧ payload = p.payload ∧ name = g.checkRuleName p.owner ∨
        id ≠ p.check ∧ g.Runs id payload name :=
    fun _ _ _ => runs_synthesizeRule hg hf hp h
  constructor
  case rules =>
    obtain ⟨added, hadded⟩ := hg.rules
    obtain ⟨-, _, body, -, hrules⟩ := rules_synthesizeRule h
    exact ⟨_, by rw [hrules, hadded, List.append_assoc]⟩
  case nodes =>
    intro id node hnode
    have hnow : ∀ current, g.node id = .ok current → g'.node id = .ok current ∨
        g'.Predicted id ∧ ∃ name, g'.node id = .ok (current.withCheckRule name) := by
      intro current hcurrent
      have hnext := node_of_synthesizeRule h hcurrent
      split at hnext
      · rename_i heq
        exact Or.inr ⟨heq ▸ hs.widens.predicted hp.predicted, _, hnext⟩
      · exact Or.inl hnext
    obtain hsame | ⟨hpredicted, name, hnamed⟩ := hg.nodes id node hnode
    · exact hnow node hsame
    · refine Or.inr ⟨hs.widens.predicted hpredicted, ?_⟩
      obtain hsame | ⟨-, name', hagain⟩ := hnow _ hnamed
      · exact ⟨name, hsame⟩
      · rw [Node.withCheckRule_withCheckRule] at hagain
        exact ⟨name', hagain⟩
  case made =>
    intro id payload name hnow
    obtain ⟨rfl, rfl, rfl⟩ | ⟨-, hbefore⟩ := hruns id payload name hnow
    · exact ⟨hs.widens.predicted hp.predicted, body, hbody, isCopy_synthesizeRule h hcopy⟩
    · obtain ⟨hpredicted, body, hrule, hcopy⟩ := hg.made id payload name hbefore
      exact ⟨hs.widens.predicted hpredicted, body, hs.widens.rules _ _ hrule,
        hcopy.keep (keepsForms_synthesizeRule h)⟩
  case distinct =>
    -- No rule had the new name, and every check with a name had a rule.
    have hnew : ∀ id payload, ¬ g.Runs id payload (g.checkRuleName p.owner) := by
      intro id payload hbefore
      obtain ⟨-, body, hrule, -⟩ := hg.made id payload _ hbefore
      cases hfree.symm.trans hrule
    intro id id' payload payload' name hnow hnow'
    obtain ⟨rfl, -, rfl⟩ | ⟨-, hbefore⟩ := hruns id payload name hnow
    · obtain ⟨rfl, -, -⟩ | ⟨-, hbefore'⟩ := hruns id' payload' _ hnow'
      · rfl
      · exact absurd hbefore' (hnew id' payload')
    · obtain ⟨rfl, -, rfl⟩ | ⟨-, hbefore'⟩ := hruns id' payload' name hnow'
      · exact absurd hbefore (hnew id payload)
      · exact hg.distinct id id' payload payload' name hbefore hbefore'

/-- **All rounds**: each step of a round gives a rule to a check that waits for one. -/
theorem Synthesized.rounds {base : Grammar} {rounds : Nat} (hg : base.Synthesized g) (hf : g.Forest)
    (hkeyed : g.Keyed) (h : synthesizeRounds rounds g = .ok g') : base.Synthesized g' := by
  refine (rounds_invariant (P := fun now => now.Forest ∧ now.Keyed ∧ base.Synthesized now)
    (fun now pending next ⟨hf, hkeyed, hg⟩ hpending hround => ?_) ⟨hf, hkeyed, hg⟩ h).2.2
  obtain ⟨hf', hkeyed', hg', -⟩ := foldlM_invariant
    (P := fun now => now.Forest ∧ now.Keyed ∧ base.Synthesized now ∧ ∀ p ∈ pending, now.Awaits p)
    (fun p hp now next ⟨hf, hkeyed, hg, hawaits⟩ hnext => by
      obtain ⟨_, hother, hs⟩ := exists_synthesizeRule hf hkeyed (hawaits p hp)
      cases hnext.symm.trans hother
      exact ⟨hs.forest, hs.keyed, hg.step hf hkeyed (hawaits p hp) hnext,
        fun q hq => (hawaits q hq).widens hs.widens⟩)
    ⟨hf, hkeyed, hg, fun p hp => ((mem_pendingChecks hkeyed hpending).1 hp).awaits⟩ hround
  exact ⟨hf', hkeyed', hg'⟩

/-! ## Recognizers -/

/-- What assigning recognizers has made of a grammar. Rules got names for recognizers if they had none, and
nothing else is different. What a rule with a recognizer calls has one too. -/
structure Assigned (g g' : Grammar) : Prop where
  nodes : g'.nodes = g.nodes
  rules : ∀ name rule, g.rule? name = some rule → ∃ recognizer,
    g'.rule? name = some { rule with recognizer } ∧ ∀ own, rule.recognizer = some own → recognizer = some own
  unknown : ∀ name, g.rule? name = none → g'.rule? name = none
  called : ∀ name rule callee, g'.rule? name = some rule → rule.recognizer.isSome = true →
    g'.Calls name callee → ∃ called, g'.rule? callee = some called ∧ called.recognizer.isSome = true

theorem assigned_assignRecognizers (hf : g.Forest) (hkeyed : g.Keyed) (h : g.assignRecognizers = .ok g') :
    g.Assigned g' := by
  obtain ⟨hnodes, called, hrules⟩ := rule?_assignRecognizers h
  refine ⟨hnodes, fun name rule hrule => ?_, fun name hnone => by rw [hrules, hnone, Option.map_none],
    fun name rule callee hrule hsome hcalls => ?_⟩
  · rw [hrules, hrule]
    by_cases hcalled : name ∈ called
    · refine ⟨rule.recognizer.or (some (recognizerName name)), by rw [Option.map_some, if_pos hcalled], ?_⟩
      rintro own hown
      rw [hown]
      rfl
    · exact ⟨rule.recognizer, by rw [Option.map_some, if_neg hcalled], fun _ => id⟩
  · obtain ⟨caller, id, hcaller, hid, hkind⟩ := hcalls
    obtain ⟨other, hother⟩ :=
      (hf.assignRecognizers h).exists_callee hcaller (reaches_of_matched hid) hkind
    exact ⟨other, hother, recognized_assignRecognizers h hkeyed name callee rule other
      ⟨caller, id, hcaller, hid, hkind⟩ hrule hother hsome⟩

/-- **Recognizers for a grammar made with the builders.** Synthesis comes to an end, however checks are
nested, and makes a valid grammar in which each check that is predicted with has a rule of its own. Then
what a recognizer calls gets a recognizer. -/
theorem exists_recognizers (hbuilt : g.Built) (hvalid : g.validate = .ok ()) :
    ∃ g₁ g₂, g.synthesizeRecognizers = .ok g₁ ∧ g₁.validate = .ok () ∧ g.Synthesized g₁ ∧
      (∀ id negate payload made mark, g₁.Predicted id →
        g₁.kindAt? id = some (.check ⟨negate, .syntactic payload made, mark⟩) → ∃ name body,
          made = some name ∧ g₁.rule? name = some (checkRule name body) ∧ g₁.IsCopy payload body) ∧
      g₁.assignRecognizers = .ok g₂ ∧ g₁.Assigned g₂ := by
  have hf := forest_of_validate hvalid
  have hkeyed := hbuilt.fresh.keyed
  obtain ⟨g₁, hg₁, hf₁, hkeyed₁, -, hnone⟩ := exists_synthesizeRecognizers hf hkeyed
  obtain ⟨g₂, hg₂⟩ := exists_assignRecognizers hf₁ hkeyed₁
  have hsynthesized := hbuilt.blank.synthesized.rounds hf hkeyed hg₁
  refine ⟨g₁, g₂, hg₁, hf₁.validate, hsynthesized, ?_, hg₂, assigned_assignRecognizers hf₁ hkeyed₁ hg₂⟩
  intro id negate payload made mark hpredicted hkind
  cases made with
  | some name =>
    obtain ⟨-, body, hrule, hcopy⟩ := hsynthesized.made id payload name ⟨negate, mark, hkind⟩
    exact ⟨name, body, rfl, hrule, hcopy⟩
  | none =>
    obtain ⟨owner, rule, hrule, hreach⟩ := hpredicted
    obtain ⟨node, hnode, hk⟩ := kindAt?_eq_some.1 hkind
    exact absurd ⟨rule, hrule, hreach, node, hnode, pendingPayload?_eq_some.2 ⟨negate, mark, hk⟩⟩
      (hnone ⟨owner, id, payload⟩)

end Grammar

/-- A check for an `a` with a check for a `b` in it, before the call of a rule that has the name which would
be the first one to try for the rule of the check. -/
def twofold : Grammar where
  nodes := #[.ofKind (.terminal (.ofRanges [(97, 97)]) none),
    .ofKind (.terminal (.ofRanges [(98, 98)]) none), .ofKind (.check ⟨false, .syntactic 1 none, none⟩),
    .ofKind (.sequence [0, 2]), .ofKind (.check ⟨false, .syntactic 3 none, none⟩),
    .ofKind (.call "first_test1"), .ofKind (.sequence [4, 5]),
    .ofKind (.terminal (.ofRanges [(97, 97)]) none)]
  rules := [("first", .ofBody "first" 6), ("first_test1", .ofBody "first_test1" 7)]

theorem twofold_built : twofold.Built := by
  have hpayload := ((((Grammar.Built.empty.terminal (.ofRanges [(97, 97)])).terminal
    (.ofRanges [(98, 98)])).checkMatch false 1).sequence [0, 2])
  have hbody := (((hpayload.checkMatch false 3).call "first_test1").sequence [4, 5]).terminal
    (.ofRanges [(97, 97)])
  have hfirst := hbody.addRule (show Grammar.addRule _ (.ofBody "first" 6) = .ok _ from rfl)
  exact hfirst.addRule (show Grammar.addRule _ (.ofBody "first_test1" 7) = .ok _ from rfl)

theorem twofold_ruleNames : twofold.synthesizeRecognizers.toOption.map Grammar.ruleNames =
    some ["first", "first_test1", "first_test2", "first_test2_test1"] := by
  decide +kernel

/-- Both checks get rules, the inner one in the copy. -/
theorem twofold_recognizers : ∃ g₁ g₂, twofold.synthesizeRecognizers = .ok g₁ ∧
    g₁.ruleNames = ["first", "first_test1", "first_test2", "first_test2_test1"] ∧
    g₁.validate = .ok () ∧ twofold.Synthesized g₁ ∧ g₁.assignRecognizers = .ok g₂ ∧ g₁.Assigned g₂ := by
  obtain ⟨g₁, g₂, hg₁, hvalid, hsynthesized, -, hg₂, hassigned⟩ :=
    Grammar.exists_recognizers twofold_built (by rfl)
  have hnames := twofold_ruleNames
  rw [hg₁] at hnames
  exact ⟨g₁, g₂, hg₁, Option.some.inj hnames, hvalid, hsynthesized, hg₂, hassigned⟩

end PredictiveParser
