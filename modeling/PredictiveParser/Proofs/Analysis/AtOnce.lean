import PredictiveParser.Proofs.Analysis.Repeated
import PredictiveParser.Proofs.Analysis.TreeShape

/-!
# Choices that the next terminal tells apart

Where no terminal can come first in two choices of an alternative set, each region of the first level has
one choice only (`Live.FirstsApart.exists_eq`). So whatever the lookahead budget is, the tree is this one
level: it looks at no check, all of its branches are leaves, each choice that can match something has one
of them (`Decision.DecidesAtOnce`), and there is nothing to warn about
(`Grammar.decidesAtOnce_of_analyzeRule`).
-/
namespace PredictiveParser

variable {la : Lookahead} {k offset : Nat} {alts : Alternatives} {live : Live} {regions : List Region}
  {region : Region} {path : List CharSet} {deeper : Deeper} {tree : Decision} {warnings : List String}
  {alt : Alt} {config : Config} {set : CharSet} {branches : List (Branch Decision)}

/-! ## First sets -/

theorem Lookahead.first_eq_ok : la.first config = .ok set ↔
    ∃ steps, la.steps config 0 = .ok steps ∧ set = .unionAll (steps.map Prod.fst) := by
  unfold Lookahead.first
  rw [bind_eq_ok]
  exact exists_congr fun steps => and_congr_right' (pure_eq_ok.trans eq_comm)

/-- No terminal can come first in two choices. -/
def Live.FirstsApart (la : Lookahead) (live : Live) : Prop :=
  ∀ alt other config config' set set', live.Has alt config → live.Has other config' → alt ≠ other →
    la.first config = .ok set → la.first config' = .ok set' → set.Apart set'

/-- What a region of the first level records has its terminals in a first set. -/
theorem exists_first_of_has (hregions : regionsOf la live 0 = .ok regions) (hr : region ∈ regions)
    {next : Config} (hnext : region.live.Has alt next) {c : Int} (hc : region.set.contains c = true) :
    ∃ config set, live.Has alt config ∧ la.first config = .ok set ∧ set.contains c = true := by
  have hleads : Region.Leads regions c alt next := ⟨region, hr, hc, hnext⟩
  obtain ⟨config, steps, set, hlive, hsteps, hmem, hset⟩ := (leads_regionsOf_iff hregions).1 hleads
  refine ⟨config, _, hlive, Lookahead.first_eq_ok.2 ⟨steps, hsteps, rfl⟩, ?_⟩
  rw [CharSet.contains_unionAll, List.any_eq_true]
  exact ⟨set, List.mem_map.2 ⟨_, hmem, rfl⟩, hset⟩

/-- Each region of the first level has one choice. -/
theorem Live.FirstsApart.exists_eq (h : live.FirstsApart la)
    (hregions : regionsOf la live 0 = .ok regions) (hr : region ∈ regions) :
    ∃ alt configs, region.live = [(alt, configs)] := by
  have hsound := (partition_regionsOf hregions).sound region hr
  obtain ⟨⟨c, hc⟩, hchoice⟩ := inhabited_regionsOf hregions region hr
  have same : ∀ entry ∈ region.live, ∀ other ∈ region.live, entry.1 = other.1 := by
    intro entry he other ho
    by_contra hne
    obtain ⟨next, -, hnext⟩ := hsound.exists_has he
    obtain ⟨next', -, hnext'⟩ := hsound.exists_has ho
    obtain ⟨config, set, hlive, hfirst, hset⟩ := exists_first_of_has hregions hr hnext hc
    obtain ⟨config', set', hlive', hfirst', hset'⟩ := exists_first_of_has hregions hr hnext' hc
    have hapart := h _ _ _ _ _ _ hlive hlive' hne hfirst hfirst' c hset
    rw [hset'] at hapart
    cases hapart
  match hl : region.live with
  | [] => exact absurd hl hchoice
  | [(alt, configs)] => exact ⟨alt, configs, rfl⟩
  | first :: second :: rest =>
    have hnodup := hsound.nodup
    rw [hl] at hnodup same
    have heq := same first List.mem_cons_self second (List.mem_cons_of_mem _ List.mem_cons_self)
    simp [heq] at hnodup

/-! ## Levels without a question left -/

/-- The branch of a region with one choice. -/
theorem regionBranch_single {configs : List Config} (hlive : region.live = [(alt, configs)])
    {part : Branch Decision × List String}
    (h : regionBranch alts offset path deeper region = .ok part) :
    part = (⟨region.set, [], .empty, .pick alt⟩, []) := by
  unfold regionBranch at h
  rw [hlive] at h
  exact (Except.ok.inj h).symm

theorem Decision.depthOf_picks (h : ∀ branch ∈ branches, ∃ alt, branch.target = .pick alt) :
    depthOf branches = 0 := by
  induction branches with
  | nil => rfl
  | cons branch rest ih =>
    obtain ⟨⟨alt, htarget⟩, hrest⟩ := List.forall_mem_cons.1 h
    rw [depthOf, htarget, depth, ih hrest, Nat.max_self]

/-- The tree is one level at the next terminal. It looks at no check and all of its branches are leaves,
among them one for each choice that can match a terminal. -/
inductive Decision.DecidesAtOnce (la : Lookahead) (live : Live) : Decision → Prop where
  | intro {branches : List (Branch Decision)} {coverage : CharSet}
      (unchecked : ∀ branch ∈ branches, branch.checks = [])
      (leaves : ∀ branch ∈ branches, ∃ alt, branch.target = .pick alt)
      (chosen : ∀ alt config, live.Has alt config → ∃ set, la.first config = .ok set ∧
        (set.isEmpty = false → ∃ branch ∈ branches, branch.target = .pick alt)) :
      DecidesAtOnce la live (.level 0 false branches coverage)

theorem Decision.DecidesAtOnce.depth (h : tree.DecidesAtOnce la live) : tree.depth = 1 := by
  obtain ⟨-, hleaves, -⟩ := h
  rw [Decision.depth, depthOf_picks hleaves]

/-- **Choices that the next terminal tells apart take one level**, and nothing is warned about. -/
theorem decidesAtOnce_levelOf (hfirst : live.FirstsApart la)
    (h : levelOf la alts 0 path live deeper = .ok (tree, warnings)) :
    tree.DecidesAtOnce la live ∧ warnings = [] := by
  obtain ⟨regions, parts, hregions, hparts, rfl, rfl⟩ := levelOf_eq_ok h
  have hsingle : ∀ part ∈ parts, part.1.checks = [] ∧ (∃ alt, part.1.target = .pick alt) ∧
      part.2 = [] := by
    intro part hpart
    obtain ⟨region, hr, hbranch⟩ := Forall₂.exists_of_mem_right hparts hpart
    obtain ⟨alt, configs, hlive⟩ := hfirst.exists_eq hregions hr
    rw [regionBranch_single hlive hbranch]
    exact ⟨rfl, ⟨alt, rfl⟩, rfl⟩
  have hchecks : ∀ branch ∈ parts.map Prod.fst, branch.checks = [] := by
    intro branch hb
    obtain ⟨part, hpart, rfl⟩ := List.mem_map.1 hb
    exact (hsingle part hpart).1
  refine ⟨.intro ?_ ?_ ?_, ?_⟩
  · intro branch hb
    obtain ⟨branch', hb', -, hsame, -⟩ := mem_fillCovered hb
    rw [← hsame]
    exact checks_addDefault hchecks branch' hb'
  · intro branch hb
    obtain ⟨branch', hb', -, -, htarget⟩ := mem_fillCovered hb
    rw [← htarget]
    rcases mem_addDefault hb' with hdefault | hb'
    · exact ⟨_, hdefault⟩
    · obtain ⟨part, hpart, rfl⟩ := List.mem_map.1 hb'
      exact (hsingle part hpart).2.1
  · intro alt config hlive
    obtain ⟨steps, hsteps, hleads⟩ := leads_regionsOf hregions hlive
    refine ⟨_, Lookahead.first_eq_ok.2 ⟨steps, hsteps, rfl⟩, fun hnonempty => ?_⟩
    obtain ⟨c, hc⟩ := CharSet.exists_contains_of_not_isEmpty hnonempty
    rw [CharSet.contains_unionAll, List.any_eq_true] at hc
    obtain ⟨set, hset, hc⟩ := hc
    obtain ⟨⟨set, next⟩, hstep, rfl⟩ := List.mem_map.1 hset
    obtain ⟨region, hr, -, configs', hentry, -⟩ := hleads set next c hstep hc
    obtain ⟨only, configs, honly⟩ := hfirst.exists_eq hregions hr
    obtain ⟨part, hpart, hbranch⟩ := Forall₂.exists_of_mem_left hparts hr
    rw [honly, List.mem_singleton] at hentry
    cases hentry
    obtain ⟨branch, hb, htarget⟩ := exists_mem_addDefault
      (defaultTarget alts live 0) (List.mem_map.2 ⟨part, hpart, rfl⟩)
    obtain ⟨branch', hb', -, htarget'⟩ := exists_mem_fillCovered .empty hb
    refine ⟨branch', hb', ?_⟩
    rw [htarget', htarget, regionBranch_single honly hbranch]
  · exact List.flatten_eq_nil_iff.2 fun texts htexts => by
      obtain ⟨part, hpart, rfl⟩ := List.mem_map.1 htexts
      exact (hsingle part hpart).2.2

theorem decidesAtOnce_predictionOf {id : NodeId} {after : List Frame}
    (hfirst : (initialLive id alts after).FirstsApart la)
    (h : predictionOf la k id alts after = .ok (tree, warnings)) :
    tree.DecidesAtOnce la (initialLive id alts after) ∧ warnings = [] := by
  rw [predictionOf] at h
  cases hleft : k - 1 with
  | zero =>
    rw [hleft, buildLevel] at h
    exact decidesAtOnce_levelOf hfirst h
  | succ left =>
    rw [hleft, buildLevel] at h
    exact decidesAtOnce_levelOf hfirst h

/-! ## What is said about an alternative set -/

def Event.node? : Event → Option NodeId
  | .report message => message.location.node
  | .skipped .. => none

namespace Grammar

variable {g g' : Grammar} {journal journal' : List Event} {name : String} {follow : FollowSets}
  {options : Options}

/-- What is said while trees are attached are their warnings. -/
theorem adds_forM_attach {trees : List Analyzed}
    (h : Yields (trees.forM (attach name)) (g, journal) ⟨⟩ (g', journal')) :
    Adds (fun event => ∃ analyzed ∈ trees, analyzed.warnings ≠ [] ∧ event.node? = some analyzed.node)
      journal journal' := by
  induction trees generalizing g journal with
  | nil =>
    cases yields_forM_nil.1 h
    exact .refl _ _
  | cons first rest ih =>
    obtain ⟨⟨g₁, journal₁⟩, hfirst, h⟩ := yields_forM_cons.1 h
    obtain ⟨rfl, -⟩ := yields_attach.1 hfirst
    refine .trans (.append fun event hevent => ?_) ((ih h).imp fun event hevent => ?_)
    · obtain ⟨warning, hwarning, rfl⟩ := List.mem_map.1 hevent
      exact ⟨first, List.mem_cons_self, List.ne_nil_of_mem hwarning, rfl⟩
    · obtain ⟨analyzed, ha, hsaid⟩ := hevent
      exact ⟨analyzed, List.mem_cons_of_mem _ ha, hsaid⟩

/-- **Choices that the next terminal tells apart need no more than that.** Where a rule of a validated
grammar is analyzed, with any lookahead budget, and no terminal can come first in two choices of one of its
alternative sets, the tree of that set is one level that decides at once, and analysis says nothing about
the set. -/
theorem decidesAtOnce_of_analyzeRule (hvalid : g.validate = .ok ())
    (h : Yields (analyzeRule name follow options) (g, journal) ⟨⟩ (g', journal')) :
    ∃ rule events, g.rule? name = some rule ∧ journal' = journal ++ events ∧
      ∀ place alts, g.Occurs rule.body place → g.kindAt? place.node = some (.alternatives alts) →
        (initialLive place.node alts place.after).FirstsApart (g.lookaheadOf name follow options) →
        ∃ tree, g'.kindAt? place.node = some (.alternatives { alts with prediction := some tree }) ∧
          tree.DecidesAtOnce (g.lookaheadOf name follow options)
            (initialLive place.node alts place.after) ∧
          tree.depth = 1 ∧ ∀ event ∈ events, event.node? ≠ some place.node := by
  obtain ⟨rule, hrule, hall⟩ := exists_predictionOf_of_analyzeRule hvalid h
  obtain ⟨rule', trees, g₁, hrule', htrees, hattach, -⟩ := yields_analyzeRule.1 h
  cases hrule.symm.trans hrule'
  obtain ⟨events, rfl, hsaid⟩ := adds_forM_attach hattach
  refine ⟨rule, events, hrule, rfl, fun place alts hoccurs hk hfirst => ?_⟩
  obtain ⟨tree, warnings, hk', hpred⟩ := hall place alts hoccurs hk
  obtain ⟨honce, rfl⟩ := decidesAtOnce_predictionOf hfirst hpred
  refine ⟨tree, hk', honce, honce.depth, fun event hevent hat => ?_⟩
  -- The trees are for different nodes, so whatever is said about this one comes from its own tree.
  obtain ⟨ids, hids, hsub, hmem⟩ := predictions_eq_ok htrees
  have hnodup := hsub.nodup
    ((forest_of_validate hvalid).nodup_of_walkMatched (SameShape.refl g).shapeIn hrule hids)
  obtain ⟨tree', warnings', hpred', hown⟩ := hmem place alts hoccurs hk
  cases hpred.symm.trans hpred'
  obtain ⟨analyzed, ha, hwarnings, hnode⟩ := hsaid event hevent
  have hsame : analyzed.node = place.node := Option.some.inj (hnode.symm.trans hat)
  exact hwarnings (List.inj_on_of_nodup_map hnodup ha hown hsame ▸ rfl)

end Grammar

theorem choice_firstsApart : (initialLive 2 (.ofArms [0, 1] .once) []).FirstsApart
    ((choiceWith none none none).lookaheadOf "choice" [("choice", .endOfInput)] .default) := by
  generalize hla : (choiceWith none none none).lookaheadOf "choice" _ _ = la
  have hfirst : la.first (.ofStack [.node 0]) = .ok (.ofRanges [(97, 97)]) := by
    subst hla
    cbv
  have hsecond : la.first (.ofStack [.node 1]) = .ok (.ofRanges [(98, 98)]) := by
    subst hla
    cbv
  have hapart : (CharSet.ofRanges [(97, 97)]).Apart (.ofRanges [(98, 98)]) := by
    have hnone : ((CharSet.ofRanges [(97, 97)]).intersection (.ofRanges [(98, 98)])).isEmpty = true := by
      decide +kernel
    intro c hc
    have hboth := CharSet.isEmpty_iff.1 hnone c
    rwa [CharSet.contains_intersection, hc, Bool.true_and] at hboth
  have has : ∀ alt config, (initialLive 2 (.ofArms [0, 1] .once) []).Has alt config →
      alt = .arm 0 ∧ config = .ofStack [.node 0] ∨ alt = .arm 1 ∧ config = .ofStack [.node 1] := by
    rintro alt config ⟨configs, hmem, hconfig⟩
    rcases List.mem_cons.1 hmem with heq | hmem
    · cases heq
      exact Or.inl ⟨rfl, List.mem_singleton.1 hconfig⟩
    · cases List.mem_singleton.1 hmem
      exact Or.inr ⟨rfl, List.mem_singleton.1 hconfig⟩
  intro alt other config config' set set' hlive hlive' hne hset hset'
  rcases has alt config hlive with ⟨rfl, rfl⟩ | ⟨rfl, rfl⟩ <;>
    rcases has other config' hlive' with ⟨rfl, rfl⟩ | ⟨rfl, rfl⟩
  · exact absurd rfl hne
  · cases hfirst.symm.trans hset
    cases hsecond.symm.trans hset'
    exact hapart
  · cases hsecond.symm.trans hset
    cases hfirst.symm.trans hset'
    exact hapart.symm
  · exact absurd rfl hne

/-- The choice between an `a` and a `b` takes one level. -/
theorem choice_decidesAtOnce : choiceDefaultTree.depth = 1 ∧ choiceDefaultTree.DecidesAtOnce
    ((choiceWith none none none).lookaheadOf "choice" [("choice", .endOfInput)] .default)
    (initialLive 2 (.ofArms [0, 1] .once) []) := by
  obtain ⟨rule, events, hrule, -, hall⟩ :=
    Grammar.decidesAtOnce_of_analyzeRule (by decide +kernel) choice_analyzed
  cases hrule
  obtain ⟨tree, hk, honce, hdepth, -⟩ := hall ⟨2, []⟩ _ .refl rfl choice_firstsApart
  cases hk
  exact ⟨hdepth, honce⟩

end PredictiveParser
