import PredictiveParser.Proofs.Lookahead.Reading
import PredictiveParser.Proofs.Lookahead.Regions

/-!
# What a built tree selects

`buildLevel` turns the choices that are still possible, with the configurations that lead to them,
into a decision.

* `wellFormed_buildLevel`: the decision is a well-formed tree, so it always selects something.
* `select_buildLevel`: if nothing is warned about and no checks are met, the decision selects a
  choice whenever some configuration that leads to it admits the input.

The second one is the heart of prediction. A configuration that admits the input has a step along it
(`Lookahead.Admits.step`), which some region records; the terminal is in no other region, so the
level goes to that region's branch, and the configuration after the step admits the rest.
-/
namespace PredictiveParser

/-! ## Where a level sends a terminal -/

/-- Whether some branch that has the terminal leads to `target`. -/
def Sends (branches : List (Branch Decision)) (c : Int) (target : Decision) : Prop :=
  ∃ branch ∈ branches, branch.set.contains c = true ∧ branch.target = target

section

variable {branches : List (Branch Decision)} {c : Int} {target : Decision} {default : Alt}

theorem isPick_iff {alt : Alt} {decision : Decision} :
    decision.isPick alt = true ↔ decision = .pick alt := by
  cases decision with
  | pick other => simp [Decision.isPick]
  | level offset isAssertion branches coverage => simp [Decision.isPick]

/-- The terminals that no branch has. -/
def unclaimed (branches : List (Branch Decision)) : CharSet :=
  CharSet.everything.subtract (CharSet.unionAll (branches.map (·.set)))

theorem contains_unclaimed : (unclaimed branches).contains c = true ↔
    IsTerminal c ∧ ∀ branch ∈ branches, branch.set.contains c = false := by
  simp [unclaimed, CharSet.contains_everything]

/-- The unclaimed terminals go nowhere, to a branch that was there, or to a new one. -/
theorem addDefault_cases (default : Alt) (branches : List (Branch Decision)) :
    ((unclaimed branches).isEmpty = true ∧ addDefault default branches = branches) ∨
    (∃ before branch after, branches = before ++ branch :: after ∧
      branch.target = .pick default ∧ addDefault default branches =
        before ++ after ++ [{ branch with set := branch.set.union (unclaimed branches) }]) ∨
    ((unclaimed branches).isEmpty = false ∧
      addDefault default branches = branches ++ [⟨unclaimed branches, [], .empty, .pick default⟩]) := by
  unfold addDefault
  simp only
  split
  · rename_i hempty
    exact Or.inl ⟨hempty, rfl⟩
  · rename_i hnonempty
    split
    · rename_i branch hfind
      obtain ⟨hp, before, after, heq, hbefore⟩ := List.find?_eq_some_iff_append.1 hfind
      refine Or.inr (Or.inl ⟨before, branch, after, heq, isPick_iff.1 hp, ?_⟩)
      have herase : branches.eraseP (·.target.isPick default) = before ++ after := by
        rw [heq, List.eraseP_append_right _ fun b hb => by simpa using hbefore b hb]
        exact congrArg _ (List.eraseP_cons_of_pos hp)
      rw [herase]
      rfl
    · exact Or.inr (Or.inr ⟨Bool.eq_false_iff.2 hnonempty, rfl⟩)

theorem sends_addDefault (h : Sends (addDefault default branches) c target) :
    Sends branches c target ∨
      (∀ branch ∈ branches, branch.set.contains c = false) ∧ target = .pick default := by
  obtain ⟨branch, hb, hc, rfl⟩ := h
  rcases addDefault_cases default branches with ⟨-, heq⟩ | ⟨before, taken, after, hsplit, ht, heq⟩ |
    ⟨-, heq⟩
  · rw [heq] at hb
    exact Or.inl ⟨branch, hb, hc, rfl⟩
  · rw [heq] at hb
    rcases List.mem_append.1 hb with hb | hb
    · refine Or.inl ⟨branch, ?_, hc, rfl⟩
      rw [hsplit]
      simp only [List.mem_append, List.mem_cons] at hb ⊢
      tauto
    · rw [List.mem_singleton.1 hb] at hc ⊢
      rw [CharSet.contains_union, Bool.or_eq_true] at hc
      rcases hc with hc | hc
      · refine Or.inl ⟨taken, ?_, hc, rfl⟩
        rw [hsplit]
        exact List.mem_append_right _ List.mem_cons_self
      · exact Or.inr ⟨(contains_unclaimed.1 hc).2, ht⟩
  · rw [heq] at hb
    rcases List.mem_append.1 hb with hb | hb
    · exact Or.inl ⟨branch, hb, hc, rfl⟩
    · rw [List.mem_singleton.1 hb] at hc ⊢
      exact Or.inr ⟨(contains_unclaimed.1 hc).2, rfl⟩

/-- With a default, each terminal has a branch. -/
theorem exists_contains_addDefault (default : Alt) (branches : List (Branch Decision))
    (hc : IsTerminal c) : ∃ branch ∈ addDefault default branches, branch.set.contains c = true := by
  have claimed : (∃ branch ∈ branches, branch.set.contains c = true) ∨
      (unclaimed branches).contains c = true := by
    by_cases h : ∃ branch ∈ branches, branch.set.contains c = true
    · exact Or.inl h
    · exact Or.inr (contains_unclaimed.2
        ⟨hc, fun branch hb => Bool.eq_false_iff.2 fun hc => h ⟨branch, hb, hc⟩⟩)
  rcases addDefault_cases default branches with ⟨hempty, heq⟩ | ⟨before, taken, after, hsplit, -, heq⟩ |
    ⟨-, heq⟩
  · rw [heq]
    refine claimed.resolve_right fun h => ?_
    rw [CharSet.isEmpty_iff.1 hempty c] at h
    cases h
  · rw [heq]
    have last : taken.set.contains c = true ∨ (unclaimed branches).contains c = true →
        (taken.set.union (unclaimed branches)).contains c = true := by
      rw [CharSet.contains_union, Bool.or_eq_true]
      exact id
    rcases claimed with ⟨branch, hb, hc⟩ | hc
    · rw [hsplit, List.mem_append, List.mem_cons] at hb
      rcases hb with hb | rfl | hb
      · exact ⟨branch, by simp [hb], hc⟩
      · exact ⟨_, List.mem_append_right _ List.mem_cons_self, last (Or.inl hc)⟩
      · exact ⟨branch, by simp [hb], hc⟩
    · exact ⟨_, List.mem_append_right _ List.mem_cons_self, last (Or.inr hc)⟩
  · rw [heq]
    rcases claimed with ⟨branch, hb, hc⟩ | hc
    · exact ⟨branch, List.mem_append_left _ hb, hc⟩
    · exact ⟨_, List.mem_append_right _ List.mem_cons_self, hc⟩

theorem mem_addDefault {branch : Branch Decision} (h : branch ∈ addDefault default branches) :
    branch.target = .pick default ∨ branch ∈ branches := by
  rcases addDefault_cases default branches with ⟨-, heq⟩ | ⟨before, taken, after, hsplit, ht, heq⟩ |
    ⟨-, heq⟩
  · rw [heq] at h
    exact Or.inr h
  · rw [heq] at h
    rcases List.mem_append.1 h with h | h
    · right
      rw [hsplit]
      simp only [List.mem_append, List.mem_cons] at h ⊢
      tauto
    · rw [List.mem_singleton.1 h]
      exact Or.inl ht
  · rw [heq] at h
    rcases List.mem_append.1 h with h | h
    · exact Or.inr h
    · rw [List.mem_singleton.1 h]
      exact Or.inl rfl

/-! ## What the branches before a branch cover -/

theorem mem_fillCovered {covered : CharSet} {branch : Branch Decision} :
    branch ∈ fillCovered covered branches → ∃ branch' ∈ branches, branch'.set = branch.set ∧
      branch'.checks = branch.checks ∧ branch'.target = branch.target := by
  induction branches generalizing covered with
  | nil => nofun
  | cons first rest ih =>
    intro h
    rcases List.mem_cons.1 h with rfl | h
    · exact ⟨first, List.mem_cons_self, rfl, rfl, rfl⟩
    · obtain ⟨branch', hb, heq⟩ := ih h
      exact ⟨branch', List.mem_cons_of_mem _ hb, heq⟩

theorem exists_mem_fillCovered (covered : CharSet) {branch : Branch Decision}
    (h : branch ∈ branches) : ∃ branch' ∈ fillCovered covered branches,
      branch'.set = branch.set ∧ branch'.target = branch.target := by
  induction branches generalizing covered with
  | nil => cases h
  | cons first rest ih =>
    rcases List.mem_cons.1 h with rfl | h
    · exact ⟨_, List.mem_cons_self, rfl, rfl⟩
    · obtain ⟨branch', hb, heq⟩ := ih _ h
      exact ⟨branch', List.mem_cons_of_mem _ hb, heq⟩

theorem coversBefore_fillCovered (covered : CharSet) (branches : List (Branch Decision)) :
    Decision.CoversBefore covered (fillCovered covered branches) := by
  induction branches generalizing covered with
  | nil => trivial
  | cons branch rest ih => exact ⟨rfl, ih _⟩

theorem sends_fillCovered {covered : CharSet} :
    Sends (fillCovered covered branches) c target ↔ Sends branches c target := by
  constructor
  · rintro ⟨branch, hb, hc, rfl⟩
    obtain ⟨branch', hb', hset, -, htarget⟩ := mem_fillCovered hb
    exact ⟨branch', hb', hset ▸ hc, htarget⟩
  · rintro ⟨branch, hb, hc, rfl⟩
    obtain ⟨branch', hb', hset, htarget⟩ := exists_mem_fillCovered covered hb
    exact ⟨branch', hb', hset ▸ hc, htarget⟩

/-! ## Levels -/

theorem wellFormed_makeLevel (offset : Nat)
    (targets : ∀ branch ∈ branches, branch.target.WellFormed) :
    (makeLevel offset (addDefault default branches)).WellFormed := by
  refine .lookahead ?_ (coversBefore_fillCovered _ _) ?_
  · intro c hc
    obtain ⟨branch, hb, hc⟩ := exists_contains_addDefault default branches hc
    obtain ⟨branch', hb', hset, -⟩ := exists_mem_fillCovered .empty hb
    exact ⟨branch', hb', hset ▸ hc⟩
  · intro branch hb
    obtain ⟨branch', hb', -, -, htarget⟩ := mem_fillCovered hb
    rw [← htarget]
    rcases mem_addDefault hb' with h | h
    · rw [h]
      exact .pick default
    · exact targets branch' h

/-- A level goes where one of its branches sends the next terminal, or to the default when none has
it. -/
theorem exists_goesTo_makeLevel {ahead : Nat → Int} {offset : Nat} (default : Alt)
    (branches : List (Branch Decision)) (hc : IsTerminal (ahead offset)) :
    ∃ target, (makeLevel offset (addDefault default branches)).GoesTo ahead target ∧
      (Sends branches (ahead offset) target ∨
        (∀ branch ∈ branches, branch.set.contains (ahead offset) = false) ∧
          target = .pick default) := by
  cases hf : (fillCovered .empty (addDefault default branches)).find?
      (·.set.contains (ahead offset)) with
  | none =>
    obtain ⟨branch, hb, hc⟩ := exists_contains_addDefault default branches hc
    obtain ⟨branch', hb', hset, -⟩ := exists_mem_fillCovered .empty hb
    have hno := List.find?_eq_none.1 hf branch' hb'
    rw [hset] at hno
    exact absurd hc hno
  | some branch =>
    have hin := List.find?_some hf
    have hsent : Sends (addDefault default branches) (ahead offset) branch.target :=
      sends_fillCovered.1 ⟨branch, List.mem_of_find?_eq_some hf, hin, rfl⟩
    exact ⟨branch.target, ⟨offset, _, _, branch, rfl, hf, rfl⟩, sends_addDefault hsent⟩

/-- A level whose branches send the next terminal to one target selects what the target does. -/
theorem select_makeLevel {ahead : Nat → Int} {holds : CheckRef → Bool} {offset : Nat}
    (hc : IsTerminal (ahead offset)) (hsends : Sends branches (ahead offset) target)
    (hunique : ∀ other, Sends branches (ahead offset) other → other = target) :
    (makeLevel offset (addDefault default branches)).select ahead holds =
      target.select ahead holds := by
  obtain ⟨other, hgoes, hsent | ⟨hnone, -⟩⟩ := exists_goesTo_makeLevel default branches hc
  · rw [hgoes.select, hunique other hsent]
  · obtain ⟨branch, hb, hc, -⟩ := hsends
    rw [hnone branch hb] at hc
    cases hc

/-! ## Levels that decide nothing -/

theorem wellFormed_collapse {tree : Decision} (h : tree.WellFormed) :
    (collapse tree).WellFormed := by
  unfold collapse
  split
  · exact h.target List.mem_cons_self
  · exact h

theorem select_collapse {tree : Decision} {ahead : Nat → Int} {holds : CheckRef → Bool}
    (h : tree.WellFormed) (hahead : ∀ n, IsTerminal (ahead n)) :
    (collapse tree).select ahead holds = tree.select ahead holds := by
  unfold collapse
  split
  · rename_i offset branch coverage
    obtain ⟨branch', hb, haccepts⟩ := h.exists_acceptsAt holds hahead
    rw [List.mem_singleton.1 hb] at haccepts
    rw [Decision.select_level, List.find?_cons_of_pos haccepts, Option.bind_some]
  · rfl

/-- What lookahead decides is still decided. -/
theorem decidedBy_collapse {tree : Decision} {ahead : Nat → Int} {alt : Alt}
    (h : tree.DecidedBy ahead alt) : (collapse tree).DecidedBy ahead alt := by
  unfold collapse
  split
  · rcases h.cases_head with heq |
      ⟨target, ⟨offset, branches, coverage, branch, heq, hfind, rfl⟩, hrest⟩
    · cases heq
    · cases heq
      rw [List.mem_singleton.1 (List.mem_of_find?_eq_some hfind)] at hrest
      exact hrest
  · exact h

/-! ## What lookahead leaves undecided -/

theorem wellFormed_resolve (alts : Alternatives) (live : Live) (offset : Nat)
    (path : List CharSet) : (resolve alts live offset path).WellFormed := by
  unfold resolve
  simp only
  split
  · exact .pick _
  · refine .assertion rfl ?_
    intro branch hb
    rcases List.mem_append.1 hb with hb | hb
    · obtain ⟨entry, -, rfl⟩ := List.mem_map.1 hb
      exact .pick _
    · rw [List.mem_singleton.1 hb]
      exact .pick _

/-- Without checks, choices that lookahead cannot tell apart are warned about. -/
theorem resolveWarnings_ne_nil {alts : Alternatives} {live : Live} {path : List CharSet}
    (hgreedy : alts.greedy = none)
    (hopen : ∀ entry ∈ live, ∃ config ∈ entry.2, config.checks = []) (h : 1 < live.length) :
    resolveWarnings alts live path ≠ [] := by
  have hunguarded : ∀ entry ∈ live, isGuarded entry.2 = false := by
    intro entry he
    obtain ⟨config, hc, hchecks⟩ := hopen entry he
    exact List.all_eq_false.2 ⟨config, hc, by simp [hchecks]⟩
  have hall : openChoices live = live.map Prod.fst := by
    rw [openChoices, List.filter_eq_self.2]
    intro entry he
    rw [hunguarded entry he]
    rfl
  intro hnil
  obtain ⟨-, hnil⟩ := List.append_eq_nil_iff.1 hnil
  rw [if_pos] at hnil
  · exact List.cons_ne_nil _ _ hnil
  · simpa [hall, hgreedy] using h

/-! ## The tree of an alternative set -/

variable {la : Lookahead} {alts : Alternatives} {offset : Nat} {path : List CharSet} {live : Live}
  {deeper : Deeper} {tree : Decision} {warnings : List String}

/-- The branch of a region is for its terminals, and asks for no check. -/
theorem regionBranch_tests {region : Region} {part : Branch Decision × List String}
    (h : regionBranch alts offset path deeper region = .ok part) :
    part.1.set = region.set ∧ part.1.checks = [] := by
  unfold regionBranch at h
  simp only at h
  split at h
  · cases h
    exact ⟨rfl, rfl⟩
  · obtain ⟨_, -, h⟩ := bind_eq_ok.1 h
    cases h
    exact ⟨rfl, rfl⟩
  · cases h
    exact ⟨rfl, rfl⟩

theorem regionBranch_set {region : Region} {part : Branch Decision × List String}
    (h : regionBranch alts offset path deeper region = .ok part) : part.1.set = region.set :=
  (regionBranch_tests h).1

/-- What the branch of a region leads to: a leaf for the only choice, a tree that looks further, or a
decision by checks. -/
theorem regionBranch_cases {region : Region} {part : Branch Decision × List String}
    (h : regionBranch alts offset path deeper region = .ok part) :
    (∃ alt configs, region.live = [(alt, configs)] ∧ part.1.target = .pick alt) ∨
      (∀ alt configs, region.live ≠ [(alt, configs)]) ∧
      ((∃ build tree warnings, deeper = some build ∧
        build (path ++ [region.set]) region.live = .ok (tree, warnings) ∧
        part.1.target = collapse tree) ∨
      deeper = none ∧ part.1.target = resolve alts region.live offset (path ++ [region.set])) := by
  unfold regionBranch at h
  simp only at h
  split at h
  · rename_i alt configs hlive
    cases h
    exact Or.inl ⟨alt, configs, hlive, rfl⟩
  · rename_i build hsingle
    obtain ⟨⟨tree, warnings⟩, hbuild, h⟩ := bind_eq_ok.1 h
    cases h
    exact Or.inr ⟨hsingle, Or.inl ⟨build, tree, warnings, rfl, hbuild, rfl⟩⟩
  · rename_i hsingle
    cases h
    exact Or.inr ⟨hsingle, Or.inr ⟨rfl, rfl⟩⟩

theorem levelOf_eq_ok (h : levelOf la alts offset path live deeper = .ok (tree, warnings)) :
    ∃ regions parts, regionsOf la live offset = .ok regions ∧
      List.Forall₂ (fun region part => regionBranch alts offset path deeper region = .ok part)
        regions parts ∧
      tree = makeLevel offset (addDefault (defaultTarget alts live offset) (parts.map Prod.fst)) ∧
      warnings = (parts.map Prod.snd).flatten := by
  obtain ⟨regions, hregions, h⟩ := bind_eq_ok.1 h
  obtain ⟨parts, hparts, h⟩ := bind_eq_ok.1 h
  cases pure_eq_ok.1 h
  exact ⟨regions, parts, hregions, mapM_eq_ok.1 hparts, rfl, rfl⟩

theorem wellFormed_levelOf (h : levelOf la alts offset path live deeper = .ok (tree, warnings))
    (hdeeper : ∀ build ∈ deeper, ∀ path live tree warnings,
      build path live = .ok (tree, warnings) → tree.WellFormed) : tree.WellFormed := by
  obtain ⟨regions, parts, -, hparts, rfl, -⟩ := levelOf_eq_ok h
  refine wellFormed_makeLevel offset fun branch hb => ?_
  obtain ⟨part, hpart, rfl⟩ := List.mem_map.1 hb
  obtain ⟨region, -, hregion⟩ := Forall₂.exists_of_mem_right hparts hpart
  rcases regionBranch_cases hregion with ⟨alt, configs, -, htarget⟩ |
    ⟨-, ⟨build, tree, warnings, hbuild, hmade, htarget⟩ | ⟨-, htarget⟩⟩ <;> rw [htarget]
  · exact .pick _
  · exact wellFormed_collapse (hdeeper build hbuild _ _ _ _ hmade)
  · exact wellFormed_resolve _ _ _ _

/-- **Built trees are well-formed.** -/
theorem wellFormed_buildLevel {left : Nat}
    (h : buildLevel la alts left offset path live = .ok (tree, warnings)) : tree.WellFormed := by
  induction left generalizing offset path live tree warnings with
  | zero => exact wellFormed_levelOf h nofun
  | succ left ih =>
    refine wellFormed_levelOf h fun build hbuild path live tree warnings h => ?_
    cases hbuild
    exact ih h

/-! ## Selecting the choice that the input needs -/

/-- Looking ahead from the configurations with a property meets no checks, and the property stays. -/
structure Lookahead.Unchecked (la : Lookahead) (P : Config → Prop) : Prop where
  checks : ∀ config, P config → config.checks = []
  steps : ∀ config offset found, P config → la.steps config offset = .ok found →
    ∀ step ∈ found, P step.2

variable {σ : Type} [Source σ] [LawfulSource σ] {P : Config → Prop} {ahead : Nat → Int}
  {holds : CheckRef → Bool} {alt : Alt} {config next : Config} {s : σ}

/-- The branch of a region that records a configuration which admits the input behind the next
terminal leads to its choice. -/
theorem select_regionBranch (hgreedy : alts.greedy = none) (hahead : ∀ n, IsTerminal (ahead n))
    {region : Region} (hsound : region.live.Sound)
    (hchecks : ∀ a c, region.live.Has a c → c.checks = [])
    (hdeeper : ∀ build ∈ deeper, ∀ tree, build (path ++ [region.set]) region.live = .ok (tree, []) →
      tree.WellFormed ∧ tree.select ahead holds = some alt)
    (hnext : region.live.Has alt next) {branch : Branch Decision}
    (h : regionBranch alts offset path deeper region = .ok (branch, [])) :
    branch.target.select ahead holds = some alt := by
  unfold regionBranch at h
  simp only at h
  split at h
  · rename_i other configs hlive
    cases h
    rw [hlive, Live.has_cons] at hnext
    rcases hnext with ⟨rfl, -⟩ | hnext
    · exact Decision.select_pick _
    · exact (Live.has_nil hnext).elim
  · obtain ⟨⟨tree, warnings⟩, hbuild, h⟩ := bind_eq_ok.1 h
    cases h
    obtain ⟨hwf, hselect⟩ := hdeeper _ rfl tree hbuild
    rw [← hselect]
    exact select_collapse hwf hahead
  · rename_i hsingle
    exfalso
    have hlength : 1 < region.live.length := by
      obtain ⟨configs, hm, -⟩ := hnext
      rcases hl : region.live with _ | ⟨⟨a, cs⟩, _ | ⟨entry, rest⟩⟩
      · rw [hl] at hm
        cases hm
      · exact (hsingle a cs hl).elim
      · simp
    refine resolveWarnings_ne_nil hgreedy ?_ hlength (congrArg Prod.snd (Except.ok.inj h))
    intro entry he
    obtain ⟨config, hc, hhas⟩ := hsound.exists_has he
    exact ⟨config, hc, hchecks _ _ hhas⟩

theorem select_levelOf (hgreedy : alts.greedy = none) (hunchecked : la.Unchecked P)
    (hahead : ∀ n, ahead (offset + n) = Source.lookahead s n) (hterminal : ∀ n, IsTerminal (ahead n))
    (hP : ∀ a c, live.Has a c → P c)
    (hdeeper : ∀ build ∈ deeper, ∀ path live tree next, build path live = .ok (tree, []) →
      (∀ a c, live.Has a c → P c) → live.Has alt next → la.Admits next (Source.advance s) →
      tree.WellFormed ∧ tree.select ahead holds = some alt)
    (hlive : live.Has alt config) (hadmits : la.Admits config s)
    (h : levelOf la alts offset path live deeper = .ok (tree, [])) :
    tree.select ahead holds = some alt := by
  obtain ⟨regions, parts, hregions, hparts, rfl, hwarnings⟩ := levelOf_eq_ok h
  have hpartition := partition_regionsOf hregions
  have hc : ahead offset = Source.lookahead s 0 := hahead 0
  have quiet : ∀ part ∈ parts, part.2 = [] := fun part hp =>
    List.flatten_eq_nil_iff.1 hwarnings.symm _ (List.mem_map.2 ⟨part, hp, rfl⟩)
  -- The step along the input is recorded by a region, and no other region has the next terminal.
  obtain ⟨found, hfound, hleads⟩ := leads_regionsOf hregions hlive
  obtain ⟨set, next, hstep, hset, hnext⟩ := hadmits.step hfound
  rw [← hc] at hset
  obtain ⟨region, hr, hin, hhas⟩ := hleads set next _ hstep hset
  have hlater : ∀ a c, region.live.Has a c → P c := by
    intro a c hac
    obtain ⟨config', found', set', hlive', hfound', hm⟩ := has_of_regionsOf hregions hr hac
    exact hunchecked.steps config' offset found' (hP a config' hlive') hfound' _ hm
  obtain ⟨⟨branch, warnings⟩, hpart, hbranch⟩ := Forall₂.exists_of_mem_left hparts hr
  cases quiet _ hpart
  have hselect : branch.target.select ahead holds = some alt :=
    select_regionBranch hgreedy hterminal (hpartition.sound region hr)
      (fun a c hac => hunchecked.checks c (hlater a c hac))
      (fun build hb tree hbuild => hdeeper build hb _ _ tree next hbuild hlater hhas hnext) hhas
      hbranch
  rw [← hselect]
  refine select_makeLevel (hterminal offset) ?_ ?_
  · exact ⟨branch, List.mem_map.2 ⟨_, hpart, rfl⟩, (regionBranch_set hbranch).symm ▸ hin, rfl⟩
  · rintro other ⟨branch', hb', hin', rfl⟩
    obtain ⟨part', hpart', rfl⟩ := List.mem_map.1 hb'
    obtain ⟨region', hr', hbranch'⟩ := Forall₂.exists_of_mem_right hparts hpart'
    rw [regionBranch_set hbranch'] at hin'
    cases hpartition.unique hr hr' hin hin'
    rw [hbranch] at hbranch'
    cases hbranch'
    rfl

/-- **Prediction follows the input.** A tree that was built without a warning and without checks
selects a choice whenever one of the configurations that lead to it admits the input. -/
theorem select_buildLevel {left : Nat} (hgreedy : alts.greedy = none) (hunchecked : la.Unchecked P)
    (hahead : ∀ n, ahead (offset + n) = Source.lookahead s n) (hterminal : ∀ n, IsTerminal (ahead n))
    (hP : ∀ a c, live.Has a c → P c) (hlive : live.Has alt config) (hadmits : la.Admits config s)
    (h : buildLevel la alts left offset path live = .ok (tree, [])) :
    tree.select ahead holds = some alt := by
  induction left generalizing offset path live tree config s with
  | zero =>
    refine select_levelOf hgreedy hunchecked hahead hterminal hP ?_ hlive hadmits h
    intro build hbuild
    cases hbuild
  | succ left ih =>
    refine select_levelOf hgreedy hunchecked hahead hterminal hP ?_ hlive hadmits h
    intro build hbuild path live tree next hb hP hlive hadmits
    cases hbuild
    refine ⟨wellFormed_buildLevel hb, ih ?_ hP hlive hadmits hb⟩
    intro n
    rw [lookahead_advance, ← hahead, Nat.add_right_comm, Nat.add_assoc]

end

end PredictiveParser
