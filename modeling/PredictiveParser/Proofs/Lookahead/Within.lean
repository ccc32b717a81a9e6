import PredictiveParser.Proofs.Grammar.Shape
import PredictiveParser.Proofs.Lookahead.Levels

/-!
# Where lookahead gets to

Looking ahead goes from a node to the nodes below it and from a call to the body of the called rule. A
set of nodes that is closed under both (`Grammar.Closed`) is not left: whatever a search comes from, all
that it finds is `Config.Within` the set, and so are the checks in the trees that are built from it
(`testsOnly_buildLevel`). The smallest such set is what a rule shows to prediction (`Grammar.Shows`).
-/
namespace PredictiveParser

open Relation

/-- Nothing of these nodes leads out of them. -/
structure Grammar.Closed (g : Grammar) (nodes : NodeId → Prop) : Prop where
  below : ∀ {id kind child}, nodes id → g.kindAt? id = some kind →
    child ∈ (Node.ofKind kind).predictedChildren → nodes child
  called : ∀ {id name rule}, nodes id → g.kindAt? id = some (.call name) →
    g.rule? name = some rule → nodes rule.body

/-- What is left to match is among the first nodes, and the checks passed are among the others. -/
structure Config.Within (nodes tested : NodeId → Prop) (config : Config) : Prop where
  stack : ∀ id, .node id ∈ config.stack → nodes id
  checks : ∀ ref ∈ config.checks, tested ref.node

/-- All configurations that an expansion leaves have a property. -/
def Expansion.Leaves (P : Config → Prop) : Expansion → Prop
  | .terminal _ next => P next
  | .configs next => ∀ config ∈ next, P config

theorem CheckSet.mem_insert {ref other : CheckRef} {set : CheckSet} :
    other ∈ set.insert ref ↔ other = ref ∨ other ∈ set := by
  induction set with
  | nil => simp [CheckSet.insert]
  | cons first rest ih =>
    rw [CheckSet.insert]
    split
    · rename_i heq
      simp [heq]
    · split <;> simp [ih, or_left_comm]

namespace Lookahead

variable {la : Lookahead} {offset : Nat} {config config' : Config} {nodes tested : NodeId → Prop}

theorem within_of_unfolds (hclosed : la.grammar.Closed nodes)
    (htested : ∀ id check, nodes id → la.grammar.kindAt? id = some (.check check) → tested id)
    (hc : config.Within nodes tested) (h : la.Unfolds offset config config') : config'.Within nodes tested := by
  obtain ⟨hstack, hchecks⟩ := hc
  have top : ∀ {id : NodeId} {stack : List Frame}, (∀ other, .node other ∈ Frame.node id :: stack →
      nodes other) → nodes id ∧ ∀ other, .node other ∈ stack → nodes other :=
    fun h => ⟨h _ List.mem_cons_self, fun other hm => h other (List.mem_cons_of_mem _ hm)⟩
  have push : ∀ {id : NodeId} {stack : List Frame}, nodes id → (∀ other, .node other ∈ stack →
      nodes other) → ∀ other, .node other ∈ Frame.node id :: stack → nodes other := by
    intro id stack hid hrest other hm
    rcases List.mem_cons.1 hm with heq | hm
    · cases heq
      exact hid
    · exact hrest other hm
  cases h with
  | sequence kind =>
    obtain ⟨hid, hrest⟩ := top hstack
    refine ⟨fun other hm => ?_, hchecks⟩
    rcases List.mem_append.1 hm with hm | hm
    · obtain ⟨item, hitem, heq⟩ := List.mem_map.1 hm
      cases heq
      exact hclosed.below hid kind hitem
    · exact hrest other hm
  | arm kind mem =>
    obtain ⟨hid, hrest⟩ := top hstack
    refine ⟨push (hclosed.below hid kind mem) ?_, hchecks⟩
    unfold Alternatives.behindArm
    split
    · exact hstack
    · exact hrest
  | exit => exact ⟨(top hstack).2, hchecks⟩
  | gate kind =>
    obtain ⟨hid, hrest⟩ := top hstack
    exact ⟨push (hclosed.below hid kind List.mem_cons_self) hrest, hchecks⟩
  | check kind =>
    obtain ⟨hid, hrest⟩ := top hstack
    refine ⟨hrest, fun ref hm => ?_⟩
    rcases CheckSet.mem_insert.1 hm with rfl | hm
    · exact htested _ _ hid kind
    · exact hchecks ref hm
  | call kind callee =>
    obtain ⟨hid, hrest⟩ := top hstack
    refine ⟨push (hclosed.called hid kind callee) fun other hm => ?_, hchecks⟩
    exact hrest other ((List.mem_cons.1 hm).resolve_left nofun)
  | ruleEnd => exact ⟨fun other hm => hstack other (List.mem_cons_of_mem _ hm), hchecks⟩

theorem within_of_takes {set : CharSet} (hc : config.Within nodes tested)
    (h : la.Takes config set config') : config'.Within nodes tested := by
  cases h with
  | terminal => exact ⟨fun other hm => hc.stack other (List.mem_cons_of_mem _ hm), hc.checks⟩
  | follow | everything => exact ⟨nofun, hc.checks⟩

theorem within_of_expand (hclosed : la.grammar.Closed nodes)
    (htested : ∀ id check, nodes id → la.grammar.kindAt? id = some (.check check) → tested id)
    (hc : config.Within nodes tested) {expansion : Expansion}
    (h : la.expand offset config = .ok expansion) :
    expansion.Leaves (Config.Within nodes tested) := by
  cases expansion with
  | terminal set next => exact within_of_takes hc (offers_iff_takes.1 h)
  | configs next =>
    exact fun config' hm => within_of_unfolds hclosed htested hc (Expands.unfolds ⟨next, h, hm⟩)

/-- **A search stays among closed nodes.** -/
theorem within_of_steps (hclosed : la.grammar.Closed nodes)
    (htested : ∀ id check, nodes id → la.grammar.kindAt? id = some (.check check) → tested id)
    (hc : config.Within nodes tested) {found : List (CharSet × Config)}
    (hfound : la.steps config offset = .ok found) :
    ∀ step ∈ found, step.2.Within nodes tested := by
  rintro ⟨set, next⟩ hstep
  obtain ⟨c, hreach, hoffers⟩ := (mem_steps_iff hfound set next).1 hstep
  have hwithin : c.Within nodes tested := by
    clear hoffers
    induction hreach with
    | refl => exact hc
    | tail _ hexp ih =>
      obtain ⟨configs, hexp, hm⟩ := hexp
      exact within_of_expand hclosed htested ih hexp _ hm
  exact within_of_expand hclosed htested hwithin hoffers

end Lookahead

/-! ## The checks of a tree -/

/-- All configurations of the choices are within these nodes. -/
def Live.Within (nodes : NodeId → Prop) (live : Live) : Prop :=
  ∀ alt config, live.Has alt config → config.Within nodes nodes

section

variable {la : Lookahead} {nodes : NodeId → Prop} {alts : Alternatives} {offset : Nat}
  {path : List CharSet} {live : Live} {deeper : Deeper} {tree : Decision} {warnings : List String}

theorem testsOnly_resolve (h : live.Within nodes) :
    (resolve alts live offset path).TestsOnly nodes := by
  unfold resolve
  simp only
  split
  · exact .pick _
  · refine .level ?_ ?_
    · intro branch hb set hset ref href
      rcases List.mem_append.1 hb with hb | hb
      · obtain ⟨tested, htested, rfl⟩ := List.mem_map.1 hb
        obtain ⟨⟨alt, configs⟩, hentry, rfl⟩ := List.mem_map.1 htested
        obtain ⟨config, hconfig, rfl⟩ := List.mem_map.1 (List.mem_eraseDups.1 hset)
        have hhas : live.Has alt config := ⟨configs, (List.takeWhile_sublist _).subset hentry, hconfig⟩
        exact (h alt config hhas).checks ref href
      · rw [List.mem_singleton.1 hb] at hset
        cases hset
    · intro branch hb
      rcases List.mem_append.1 hb with hb | hb
      · obtain ⟨tested, -, rfl⟩ := List.mem_map.1 hb
        exact .pick _
      · rw [List.mem_singleton.1 hb]
        exact .pick _

theorem testsOnly_collapse (h : tree.TestsOnly nodes) : (collapse tree).TestsOnly nodes := by
  unfold collapse
  split
  · cases h with
    | level _ targets => exact targets _ List.mem_cons_self
  · exact h

theorem Live.Within.behind (hclosed : la.grammar.Closed nodes) (h : live.Within nodes)
    {regions : List Region} (hregions : regionsOf la live offset = .ok regions) {region : Region}
    (hr : region ∈ regions) : region.live.Within nodes := by
  intro alt next hhas
  obtain ⟨config, steps, set, hconfig, hsteps, hm⟩ := has_of_regionsOf hregions hr hhas
  exact Lookahead.within_of_steps hclosed (fun _ _ hid _ => hid) (h alt config hconfig) hsteps _ hm

theorem checks_addDefault {branches : List (Branch Decision)} {default : Alt}
    (h : ∀ branch ∈ branches, branch.checks = []) :
    ∀ branch ∈ addDefault default branches, branch.checks = [] := by
  intro branch hb
  rcases addDefault_cases default branches with ⟨-, heq⟩ | ⟨before, taken, after, hsplit, -, heq⟩ |
    ⟨-, heq⟩ <;> rw [heq] at hb
  · exact h branch hb
  · have htaken := h taken (by simp [hsplit])
    rcases List.mem_append.1 hb with hb | hb
    · exact h branch (by simp only [hsplit, List.mem_append, List.mem_cons] at hb ⊢; tauto)
    · rw [List.mem_singleton.1 hb]
      exact htaken
  · rcases List.mem_append.1 hb with hb | hb
    · exact h branch hb
    · rw [List.mem_singleton.1 hb]

theorem testsOnly_levelOf (hclosed : la.grammar.Closed nodes) (hlive : live.Within nodes)
    (hdeeper : ∀ build ∈ deeper, ∀ path live tree warnings, live.Within nodes →
      build path live = .ok (tree, warnings) → tree.TestsOnly nodes)
    (h : levelOf la alts offset path live deeper = .ok (tree, warnings)) :
    tree.TestsOnly nodes := by
  obtain ⟨regions, parts, hregions, hparts, rfl, -⟩ := levelOf_eq_ok h
  have hpart : ∀ branch ∈ parts.map Prod.fst, ∃ region ∈ regions, ∃ part,
      regionBranch alts offset path deeper region = .ok part ∧ part.1 = branch := by
    intro branch hb
    obtain ⟨part, hpart, rfl⟩ := List.mem_map.1 hb
    obtain ⟨region, hr, hregion⟩ := Forall₂.exists_of_mem_right hparts hpart
    exact ⟨region, hr, part, hregion, rfl⟩
  refine .level ?_ ?_
  · intro branch hb set hset
    obtain ⟨branch', hb', -, hchecks, -⟩ := mem_fillCovered hb
    have hnone : branch'.checks = [] := by
      refine checks_addDefault (fun branch hb => ?_) branch' hb'
      obtain ⟨region, -, part, hregion, rfl⟩ := hpart branch hb
      exact (regionBranch_tests hregion).2
    rw [← hchecks, hnone] at hset
    cases hset
  · intro branch hb
    obtain ⟨branch', hb', -, -, htarget⟩ := mem_fillCovered hb
    rw [← htarget]
    rcases mem_addDefault hb' with h | h
    · rw [h]
      exact .pick _
    · obtain ⟨region, hr, part, hregion, rfl⟩ := hpart branch' h
      have hbehind := hlive.behind hclosed hregions hr
      rcases regionBranch_cases hregion with ⟨alt, configs, -, htarget⟩ |
        ⟨-, ⟨build, tree, warnings, hbuild, hmade, htarget⟩ | ⟨-, htarget⟩⟩ <;> rw [htarget]
      · exact .pick _
      · exact testsOnly_collapse (hdeeper build hbuild _ _ _ _ hbehind hmade)
      · exact testsOnly_resolve hbehind

/-- **A tree tests only checks among the nodes that lookahead gets to.** -/
theorem testsOnly_buildLevel {left : Nat} (hclosed : la.grammar.Closed nodes)
    (hlive : live.Within nodes)
    (h : buildLevel la alts left offset path live = .ok (tree, warnings)) :
    tree.TestsOnly nodes := by
  induction left generalizing offset path live tree warnings with
  | zero => exact testsOnly_levelOf hclosed hlive (fun _ hbuild => by cases hbuild) h
  | succ left ih =>
    refine testsOnly_levelOf hclosed hlive (fun build hbuild path live tree warnings hlive h => ?_) h
    cases hbuild
    exact ih hlive h

end

/-! ## Closed nodes -/

namespace Grammar

variable {g g' : Grammar} {nodes : NodeId → Prop} {body id : NodeId}

theorem mem_predictedChildren {node : Node} {child : NodeId} (h : child ∈ node.matchedChildren) :
    child ∈ (Node.ofKind node.kind).predictedChildren := by
  unfold Node.matchedChildren at h
  unfold Node.predictedChildren Node.children Node.ofKind
  cases hkind : node.kind with
  | gate predict matched =>
    rw [hkind] at h
    exact List.mem_cons_of_mem _ h
  | check check =>
    rw [hkind] at h
    cases h
  | _ =>
    rw [hkind] at h
    exact h

theorem Closed.matchedBy (hclosed : g.Closed nodes) (hbody : nodes body)
    (h : g.MatchedBy body id) : nodes id := by
  induction h with
  | refl => exact hbody
  | tail _ hlink ih =>
    obtain ⟨node, hnode, hchild⟩ := hlink
    exact hclosed.below ih (kindAt?_of_node hnode) (mem_predictedChildren hchild)

/-- What comes after a place of a rule is among the closed nodes that hold the body of the rule. -/
theorem Closed.occurs (hclosed : g.Closed nodes) (hbody : nodes body) {place : Place}
    (h : g.Occurs body place) : nodes place.node ∧ ∀ id, .node id ∈ place.after → nodes id := by
  induction h with
  | refl => exact ⟨hbody, nofun⟩
  | @tail place place' hplace hunder ih =>
    obtain ⟨hhere, hafter⟩ := ih
    obtain ⟨kind, hk, hm⟩ := hunder
    cases kind with
    | sequence items =>
      obtain ⟨⟨item, rest⟩, hitem, rfl⟩ := List.mem_map.1 hm
      obtain ⟨before, rfl⟩ := mem_withRests.1 hitem
      refine ⟨hclosed.below hhere hk (List.mem_append_right _ List.mem_cons_self), fun id hid => ?_⟩
      rcases List.mem_append.1 hid with hid | hid
      · obtain ⟨other, hother, heq⟩ := List.mem_map.1 hid
        cases heq
        exact hclosed.below hhere hk (List.mem_append_right _ (List.mem_cons_of_mem _ hother))
      · exact hafter id hid
    | alternatives alts =>
      obtain ⟨arm, harm, rfl⟩ := List.mem_map.1 hm
      refine ⟨hclosed.below hhere hk harm, fun id hid => ?_⟩
      simp only [Alternatives.behindArm] at hid
      split at hid
      · rcases List.mem_cons.1 hid with hid | hid
        · cases hid
          exact hhere
        · exact hafter id hid
      · exact hafter id hid
    | gate predict matched =>
      cases List.mem_singleton.1 hm
      exact ⟨hclosed.below hhere hk (List.mem_cons_of_mem _ List.mem_cons_self), hafter⟩
    | check test => cases hm
    | call callee => cases hm
    | terminal set mark => cases hm

theorem closed_inUse (g : Grammar) : g.Closed g.InUse where
  below := by
    intro id kind child hid hk hchild
    refine hid.child hk ?_
    unfold Node.predictedChildren at hchild
    split at hchild
    · cases hchild
    · exact hchild
  called := fun _ _ hrule => .body hrule

theorem Occurs.inUse_after {name : String} {rule : Rule} (hrule : g.rule? name = some rule)
    {place : Place} (h : g.Occurs rule.body place) : ∀ id, .node id ∈ place.after → g.InUse id :=
  (g.closed_inUse.occurs (.body hrule) h).2

theorem Closed.initialLive (hclosed : g.Closed nodes) {alts : Alternatives} {after : List Frame}
    (hid : nodes id) (hk : g.kindAt? id = some (.alternatives alts))
    (hafter : ∀ other, .node other ∈ after → nodes other) :
    (initialLive id alts after).Within nodes := by
  have hbehind : ∀ other, .node other ∈ alts.behindArm id after → nodes other := by
    intro other hm
    unfold Alternatives.behindArm at hm
    split at hm
    · rcases List.mem_cons.1 hm with heq | hm
      · cases heq
        exact hid
      · exact hafter other hm
    · exact hafter other hm
  rintro alt config ⟨configs, hm, hc⟩
  rcases List.mem_append.1 hm with hm | hm
  · obtain ⟨index, hindex, heq⟩ := List.mem_mapIdx.1 hm
    cases heq
    rw [List.mem_singleton.1 hc]
    refine ⟨fun other hother => ?_, nofun⟩
    rcases List.mem_cons.1 hother with heq | hother
    · cases heq
      exact hclosed.below hid hk (List.getElem_mem hindex)
    · exact hbehind other hother
  · split at hm
    · cases List.mem_singleton.1 hm
      rw [List.mem_singleton.1 hc]
      exact ⟨hafter, nofun⟩
    · cases hm

/-- Lookahead goes on from the first node to the second. -/
inductive LooksAt (g : Grammar) : NodeId → NodeId → Prop where
  | below {id child : NodeId} {parent : NodeKind} (kind : g.kindAt? id = some parent)
      (mem : child ∈ (Node.ofKind parent).predictedChildren) : LooksAt g id child
  | called {id : NodeId} {name : String} {rule : Rule} (kind : g.kindAt? id = some (.call name))
      (callee : g.rule? name = some rule) : LooksAt g id rule.body

/-- A rule with this body matches the node or may look ahead at it. -/
def Shows (g : Grammar) (body id : NodeId) : Prop :=
  ReflTransGen g.LooksAt body id

theorem closed_shows (g : Grammar) (body : NodeId) : g.Closed (g.Shows body) where
  below hid hk hchild := hid.tail (.below hk hchild)
  called hid hk hrule := hid.tail (.called hk hrule)

theorem SameShape.shows (h : g.SameShape g') (hrules : g'.rules = g.rules) (hs : g.Shows body id) :
    g'.Shows body id := by
  induction hs with
  | refl => exact .refl
  | tail _ hlooks ih =>
    refine ih.tail ?_
    cases hlooks with
    | @below _ parent kind mem =>
      obtain ⟨parent', hk, hbare⟩ := h.kindAt? kind
      have hchildren : (Node.ofKind parent').predictedChildren = (Node.ofKind parent).predictedChildren :=
        Node.predictedChildren_of_bare hbare
      exact .below hk (hchildren ▸ mem)
    | called kind callee =>
      obtain ⟨kind', hk, hbare⟩ := h.kindAt? kind
      rw [NodeKind.of_bare_call hbare] at hk
      exact .called hk (rule?_of_rules hrules _ ▸ callee)

end Grammar

end PredictiveParser
