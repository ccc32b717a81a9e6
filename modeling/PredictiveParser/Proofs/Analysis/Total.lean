import PredictiveParser.Proofs.Analysis.TreeShape
import PredictiveParser.Proofs.Grammar.Height

/-!
# What the analysis of a rule can fail with

Once the trees of a rule are built, its analysis comes to an end: each tree can be attached to the
alternative set it was built for, since it chooses between the arms and the exit of that set, and what
prediction has tested can be marked. So analyzing a rule fails only as building the trees does, and
then the grammar is as it was (`run_analyzeRule`).
-/
namespace PredictiveParser

open Relation

/-! ## Choices -/

/-- The leaves of a tree with the shape choose what the set has, or the error. -/
theorem Decision.Shaped.leaves {la : Lookahead} {k depth : Nat} {alts : Alternatives} {live : Live}
    {isRoot : Bool} {tree : Decision} (h : tree.Shaped la k alts isRoot depth live) :
    ∀ alt ∈ tree.leaves, alts.Has alt ∨ alt = .error := by
  induction h with
  | pick valid =>
    intro alt halt
    rw [leaves_pick, List.mem_singleton] at halt
    exact halt ▸ valid.imp_right And.left
  | lookahead _ _ shares _ _ _ _ spare ih =>
    intro alt halt
    rw [leaves_level, List.mem_flatMap] at halt
    obtain ⟨branch, hb, halt⟩ := halt
    rcases shares.inside_or_spare spare hb with ⟨region, hr, hmeets⟩ | ⟨other, hpick, hother⟩
    · exact ih branch hb region hr hmeets alt halt
    · rw [hpick, leaves_pick, List.mem_singleton] at halt
      exact halt ▸ hother.imp_right And.left
  | skipped _ _ _ _ ih => exact ih
  | assertion _ tests _ leaf valid =>
    intro alt halt
    rw [leaves_level, List.mem_flatMap] at halt
    obtain ⟨branch, hb, halt⟩ := halt
    rcases List.mem_append.1 hb with hb | hb
    · obtain ⟨-, -, chosen, -, htarget, hhas⟩ := tests branch hb
      rw [htarget, leaves_pick, List.mem_singleton] at halt
      exact Or.inl (halt ▸ hhas)
    · rw [List.mem_singleton.1 hb, leaf, leaves_pick, List.mem_singleton] at halt
      exact halt ▸ valid.imp And.right And.left

theorem Alternatives.isValidAlt {alts : Alternatives} {alt : Alt} (h : alts.Has alt ∨ alt = .error) :
    Decision.isValidAlt alts.arms.length alts.hasExit alt = true := by
  rcases h with hhas | rfl
  · cases alt with
    | arm index => exact decide_eq_true hhas
    | exit => exact hhas
    | error => rfl
  · rfl

namespace Grammar

variable {g g' : Grammar} {journal : List Event} {name : String} {rule : Rule} {id body : NodeId}

/-! ## Attaching trees -/

/-- The tree can be attached: its node is an alternative set that has what the tree chooses. -/
def Attachable (g : Grammar) (analyzed : Analyzed) : Prop :=
  ∃ alts, g.kindAt? analyzed.node = some (.alternatives alts) ∧
    analyzed.tree.invalidAlt? alts.arms.length alts.hasExit = none

theorem Attachable.sameShape {analyzed : Analyzed} (h : g.Attachable analyzed)
    (hshape : g.SameShape g') : g'.Attachable analyzed := by
  obtain ⟨alts, hk, hvalid⟩ := h
  obtain ⟨kind, hk', hbare⟩ := hshape.kindAt? hk
  obtain ⟨prediction, rfl⟩ := NodeKind.of_bare_alternatives hbare
  exact ⟨_, hk', hvalid⟩

theorem exists_attach {analyzed : Analyzed} (h : g.Attachable analyzed) :
    ∃ s', Yields (attach name analyzed) (g, journal) ⟨⟩ s' := by
  obtain ⟨alts, hk, hvalid⟩ := h
  obtain ⟨node, hnode, hkind⟩ := kindAt?_eq_some.1 hk
  obtain ⟨g', hg'⟩ := exists_modifyNode (f := Node.mapAlternatives fun alts =>
    { alts with prediction := some analyzed.tree }) ⟨node, hnode⟩
  exact ⟨(g', _), yields_attach.2 ⟨rfl, node, hnode,
    Or.inr ⟨alts, Node.alternatives?_eq_some.2 hkind, hvalid, hg'⟩⟩⟩

theorem exists_forM_attach (name : String) (journal : List Event) {trees : List Analyzed}
    (h : ∀ analyzed ∈ trees, g.Attachable analyzed) :
    ∃ s', Yields (trees.forM (attach name)) (g, journal) ⟨⟩ s' := by
  induction trees generalizing g journal with
  | nil => exact ⟨_, yields_forM_nil.2 rfl⟩
  | cons analyzed rest ih =>
    obtain ⟨⟨g₁, journal₁⟩, hfirst⟩ := exists_attach (h analyzed List.mem_cons_self)
    obtain ⟨hshape, -⟩ := sameShape_attach hfirst
    obtain ⟨s', hrest⟩ := ih journal₁ fun other hother =>
      (h other (List.mem_cons_of_mem _ hother)).sameShape hshape
    exact ⟨s', yields_forM_cons.2 ⟨_, hfirst, hrest⟩⟩

/-- Trees choose between the arms and the exit of the set they are built for. -/
theorem attachable_of_predictions (hf : g.Forest) (hrule : g.rule? name = some rule)
    {la : Lookahead} {k : Nat} {trees : List Analyzed}
    (h : g.predictions la k rule.body = .ok trees) : ∀ analyzed ∈ trees, g.Attachable analyzed := by
  intro analyzed ha
  obtain ⟨place, alts, hoccurs, hnode, hk, hpred⟩ := exists_predictionOf_of_mem h ha
  have hvalid := hf.valid_alternatives hrule hoccurs hk
  refine ⟨alts, hnode ▸ hk, List.find?_eq_none.2 fun alt halt => ?_⟩
  have hshaped := shaped_buildLevel hvalid (Live.of_initialLive place.node place.after hvalid.arms)
    rfl hpred
  rw [Alternatives.isValidAlt (hshaped.leaves alt halt)]
  exact Bool.false_ne_true

/-! ## Marks -/

theorem exists_leadingDown {depth : Nat} (h : g.HasDepth Node.matchedChildren depth id) :
    ∃ lead, g.leadingDown depth id = .ok lead := by
  induction depth generalizing id with
  | zero => exact absurd h not_hasDepth_zero
  | succ depth ih =>
    obtain ⟨node, hnode⟩ := h.exists_node
    rw [leadingDown, hnode]
    simp only [Except.bind, bind]
    split
    · rename_i first rest hkind
      exact ih (h.child hnode (by simp [Node.matchedChildren, hkind]))
    all_goals exact ⟨_, rfl⟩

theorem exists_provenLeads {alts : Alternatives} (tree : Decision)
    (h : ∀ arm ∈ alts.arms, g.HasDepth Node.matchedChildren g.depthBound arm) :
    ∃ leads, g.provenLeads alts tree = .ok leads := by
  have total : FailsOnly (fun _ => False) (g.provenLeads alts tree) := by
    refine .bind (.mapM fun entry hentry => ?_) fun _ _ => .ok _
    have harm := h entry.1 (List.fst_mem_of_mem_zipIdx hentry)
    refine .bind (.of_exists (exists_leadingDown harm)) fun lead hlead => ?_
    cases lead with
    | none => exact .ok _
    | some id =>
      have hnode := (harm.reached (starts_of_leadingDown hlead).matched).exists_node
      exact .bind (.of_exists hnode) fun _ _ => .ok _
  exact total.ok_or_error.resolve_right fun ⟨_, _, hfalse⟩ => hfalse

theorem exists_marksAt (hdepth : g.HasDepth Node.matchedChildren g.depthBound id) :
    ∃ marks, g.marksAt id = .ok marks := by
  obtain ⟨node, hnode⟩ := hdepth.exists_node
  cases htree : node.alternatives?.bind (·.prediction) with
  | none => exact ⟨[], marksAt_eq_ok.2 ⟨node, hnode, Or.inr ⟨htree, rfl⟩⟩⟩
  | some tree =>
    obtain ⟨alts, halts, htree⟩ := Option.bind_eq_some_iff.1 htree
    have hkind := Node.alternatives?_eq_some.1 halts
    have harms : ∀ arm ∈ alts.arms, g.HasDepth Node.matchedChildren g.depthBound arm :=
      fun arm harm => hdepth.reached (.single ⟨node, hnode, by
        simpa only [Node.matchedChildren, hkind] using harm⟩)
    obtain ⟨marks, hmarks⟩ := exists_provenLeads tree harms
    exact ⟨marks, marksAt_eq_ok.2 ⟨node, hnode, Or.inl ⟨alts, tree, halts, htree, hmarks⟩⟩⟩

theorem exists_markPrematched (h : g.HasDepth Node.matchedChildren g.depthBound body) :
    ∃ g', g.markPrematched body = .ok g' := by
  obtain ⟨ids, hids⟩ := h
  obtain ⟨parts, hparts⟩ := exists_mapM_eq_ok fun id hid =>
    exists_marksAt (HasDepth.reached ⟨ids, hids⟩ ((mem_walkDown hids).1 hid))
  have hleads : ∀ lead ∈ parts.flatten, ∃ node, g.node lead = .ok node := by
    intro lead hlead
    obtain ⟨-, -, -, -, -, -, node, -, -, -, -, hnode, -⟩ := exists_provenLead hparts hlead
    exact ⟨node, hnode⟩
  -- Setting a mark leaves the nodes where they are.
  obtain ⟨g', hg', -⟩ := exists_foldlM_eq_ok (I := fun now => g.SameShape now)
    (f := fun g id => g.setPrematched id (some true)) (fun lead hlead now hnow => by
      obtain ⟨node, hnode⟩ := hleads lead hlead
      obtain ⟨node', hnode', -⟩ := hnow.node hnode
      obtain ⟨next, hnext⟩ := exists_modifyNode (f := Node.withPrematched (some true)) ⟨node', hnode'⟩
      exact ⟨next, hnext, hnow.trans (sameShape_setPrematched hnext)⟩) (SameShape.refl g)
  exact ⟨g', markPrematched_eq_ok.2 ⟨ids, parts, hids, hparts, hg'⟩⟩

/-! ## The analysis of a rule -/

/-- **What analyzing a rule fails with.** Either the trees of the rule cannot be built, and nothing
changes, or the rule is analyzed. -/
theorem run_analyzeRule (follow : FollowSets) (options : Options) (hf : g.Forest)
    (hrule : g.rule? name = some rule) (journal : List Event) :
    (∃ failure, g.predictions (g.lookaheadOf name follow options) (lookaheadDepth rule options)
        rule.body = .error failure ∧
      StateT.run (ExceptT.run (analyzeRule name follow options)) (g, journal) =
        (.error failure, (g, journal))) ∨
    ∃ s', Yields (analyzeRule name follow options) (g, journal) ⟨⟩ s' := by
  cases htrees : g.predictions (g.lookaheadOf name follow options) (lookaheadDepth rule options)
      rule.body with
  | error failure =>
    refine Or.inl ⟨failure, rfl, ?_⟩
    have hgrammar : StateT.run (ExceptT.run Pass.grammar) (g, journal) = (.ok g, (g, journal)) := rfl
    have hlift : StateT.run (ExceptT.run (Pass.lift (g.predictions (g.lookaheadOf name follow options)
        (lookaheadDepth rule options) rule.body))) (g, journal) = (.error failure, (g, journal)) := by
      rw [htrees]
      rfl
    unfold analyzeRule
    rw [run_bind, hgrammar]
    simp only [hrule]
    rw [run_bind]
    simp only [lookaheadOf, lookaheadDepth] at hlift
    rw [hlift]
  | ok trees =>
    right
    obtain ⟨⟨g₁, journal₁⟩, hattach⟩ := exists_forM_attach name journal
      (attachable_of_predictions hf hrule htrees)
    obtain ⟨hshape, -⟩ := sameShape_forM hattach
    have hdepth : g₁.HasDepth Node.matchedChildren g₁.depthBound rule.body := by
      rw [depthBound, ← hshape.size]
      exact hshape.shapeIn.hasDepth (fun _ _ => Node.matchedChildren_of_bare)
        ((hf.hasDepth (mem_ruleList_of_rule? hrule)).subset matchedChildren_subset)
    obtain ⟨g₂, hmark⟩ := exists_markPrematched hdepth
    exact ⟨(g₂, journal₁), yields_analyzeRule.2 ⟨rule, trees, g₁, hrule, htrees, hattach, hmark⟩⟩

end Grammar

end PredictiveParser
