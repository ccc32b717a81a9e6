import Mathlib.Order.Bounds.Basic
import PredictiveParser.Proofs.Lookahead.Levels

/-!
# Viable choices

A choice is viable for so many terminals if a chain of lookahead steps leads over them
(`Lookahead.Follows`, `Live.Viable`). Viability is what regions are about: a region that has the next
terminal holds the choices that are viable for it, with the configurations behind it, so a choice is
viable there for one terminal less (`viable_region_iff`).

* `select_buildLevel_longest`: a built tree selects the error, or a choice that is viable for as many
  terminals as any choice is.
* `decidedBy_buildLevel`: a choice that alone is viable for some number of terminals is what lookahead
  decides on.

Both are inductions on the number of levels. One step follows the next terminal into its region, which
is a leaf, a tree that looks further, or a decision by checks.
-/
namespace PredictiveParser

/-- A chain of steps leads from a configuration over the next `count` terminals, the first of which is
`offset` terminals ahead. -/
inductive Lookahead.Follows (la : Lookahead) (ahead : Nat → Int) :
    (offset count : Nat) → Config → Prop where
  | nil (offset : Nat) (config : Config) : Follows la ahead offset 0 config
  | cons {offset count : Nat} {config next : Config} {found : List (CharSet × Config)} {set : CharSet}
      (searched : la.steps config offset = .ok found) (step : (set, next) ∈ found)
      (matched : set.contains (ahead offset) = true) (rest : Follows la ahead (offset + 1) count next) :
      Follows la ahead offset (count + 1) config

/-- A chain of steps leads from a configuration for the choice over the next `count` terminals. -/
def Live.Viable (la : Lookahead) (ahead : Nat → Int) (live : Live) (offset : Nat) (alt : Alt)
    (count : Nat) : Prop :=
  ∃ config, live.Has alt config ∧ la.Follows ahead offset count config

variable {la : Lookahead} {ahead : Nat → Int} {holds : CheckRef → Bool} {alts : Alternatives}
  {live : Live} {offset count : Nat} {alt other : Alt} {config : Config} {path : List CharSet}
  {deeper : Deeper} {tree : Decision} {warnings : List String} {regions : List Region} {region : Region}

theorem Live.Viable.mem (h : live.Viable la ahead offset alt count) : alt ∈ live.map Prod.fst := by
  obtain ⟨config, ⟨configs, hm, -⟩, -⟩ := h
  exact List.mem_map.2 ⟨_, hm, rfl⟩

/-- Every choice is viable for no terminal. -/
theorem Live.Sound.viable_zero (h : live.Sound) (ha : alt ∈ live.map Prod.fst) :
    live.Viable la ahead offset alt 0 := by
  obtain ⟨entry, hm, rfl⟩ := List.mem_map.1 ha
  obtain ⟨config, -, hhas⟩ := h.exists_has hm
  exact ⟨config, hhas, .nil _ _⟩

/-! ## Regions -/

theorem viable_succ_iff (h : regionsOf la live offset = .ok regions) :
    live.Viable la ahead offset alt (count + 1) ↔ ∃ next,
      Region.Leads regions (ahead offset) alt next ∧ la.Follows ahead (offset + 1) count next := by
  constructor
  · rintro ⟨config, hhas, hfollows⟩
    cases hfollows with
    | cons searched step matched rest =>
      exact ⟨_, (leads_regionsOf_iff h).2 ⟨config, _, _, hhas, searched, step, matched⟩, rest⟩
  · rintro ⟨next, hleads, rest⟩
    obtain ⟨config, found, set, hhas, searched, step, matched⟩ := (leads_regionsOf_iff h).1 hleads
    exact ⟨config, hhas, .cons searched step matched rest⟩

/-- **Behind the next terminal**, a choice is viable for one terminal less. -/
theorem viable_region_iff (h : regionsOf la live offset = .ok regions) (hr : region ∈ regions)
    (hc : region.set.contains (ahead offset) = true) :
    region.live.Viable la ahead (offset + 1) alt count ↔
      live.Viable la ahead offset alt (count + 1) := by
  rw [viable_succ_iff h]
  constructor
  · rintro ⟨next, hhas, rest⟩
    exact ⟨next, ⟨region, hr, hc, hhas⟩, rest⟩
  · rintro ⟨next, ⟨region', hr', hc', hhas⟩, rest⟩
    cases (partition_regionsOf h).unique hr hr' hc hc'
    exact ⟨next, hhas, rest⟩

theorem exists_region_of_viable (h : regionsOf la live offset = .ok regions)
    (hviable : live.Viable la ahead offset alt (count + 1)) :
    ∃ region ∈ regions, region.set.contains (ahead offset) = true := by
  obtain ⟨next, ⟨region, hr, hc, -⟩, -⟩ := (viable_succ_iff h).1 hviable
  exact ⟨region, hr, hc⟩

/-! ## One level -/

/-- A level goes to the branch of the region that has the next terminal, or to the default when none
has it. -/
theorem exists_goesTo_levelOf (h : levelOf la alts offset path live deeper = .ok (tree, warnings))
    (hc : IsTerminal (ahead offset)) : ∃ regions target, regionsOf la live offset = .ok regions ∧
      tree.GoesTo ahead target ∧
      ((∃ region ∈ regions, region.set.contains (ahead offset) = true ∧ ∃ part,
        regionBranch alts offset path deeper region = .ok part ∧ part.1.target = target) ∨
      (∀ region ∈ regions, region.set.contains (ahead offset) = false) ∧
        target = .pick (defaultTarget alts live offset)) := by
  obtain ⟨regions, parts, hregions, hparts, rfl, -⟩ := levelOf_eq_ok h
  obtain ⟨target, hgoes, ⟨branch, hb, hin, rfl⟩ | ⟨hnone, rfl⟩⟩ :=
    exists_goesTo_makeLevel (defaultTarget alts live offset) (parts.map Prod.fst) hc
  · obtain ⟨part, hpart, rfl⟩ := List.mem_map.1 hb
    obtain ⟨region, hr, hregion⟩ := Forall₂.exists_of_mem_right hparts hpart
    rw [regionBranch_set hregion] at hin
    exact ⟨regions, _, hregions, hgoes, Or.inl ⟨region, hr, hin, part, hregion, rfl⟩⟩
  · refine ⟨regions, _, hregions, hgoes, Or.inr ⟨fun region hr => ?_, rfl⟩⟩
    obtain ⟨part, hpart, hregion⟩ := Forall₂.exists_of_mem_left hparts hr
    rw [← regionBranch_set hregion]
    exact hnone part.1 (List.mem_map.2 ⟨part, hpart, rfl⟩)

/-- The choice for input that no choice claims, when that is not an error. -/
def Alternatives.preferred (alts : Alternatives) : Alt :=
  match alts.defaultArm with
  | some arm => .arm arm
  | none => if alts.hasExit then .exit else .arm (alts.arms.length - 1)

theorem defaultTarget_eq (alts : Alternatives) (live : Live) (offset : Nat) :
    defaultTarget alts live offset = if alts.errorBranch then .error
      else if offset = 0 ∨ live.any (·.1 == alts.preferred) then alts.preferred
      else (live.getLast?.map Prod.fst).getD alts.preferred :=
  rfl

/-- Behind a terminal, the default is the error or one of the choices. -/
theorem defaultTarget_mem (alts : Alternatives) (hoffset : offset ≠ 0) (hlive : live ≠ []) :
    defaultTarget alts live offset = .error ∨
      defaultTarget alts live offset ∈ live.map Prod.fst := by
  rw [defaultTarget_eq]
  split
  · exact Or.inl rfl
  · right
    split
    · rename_i hpreferred
      obtain ⟨entry, hm, heq⟩ := List.any_eq_true.1 (hpreferred.resolve_left hoffset)
      exact List.mem_map.2 ⟨entry, hm, beq_iff_eq.1 heq⟩
    · rw [List.getLast?_eq_some_getLast hlive]
      exact List.mem_map.2 ⟨_, List.getLast_mem hlive, rfl⟩

/-- When nothing can be told, the choice is the error or one of those that need no check. -/
theorem fallbackChoice_mem (alts : Alternatives) (unguarded : List Alt) :
    fallbackChoice alts unguarded = .error ∧ unguarded = [] ∨
      fallbackChoice alts unguarded ∈ unguarded := by
  unfold fallbackChoice
  split
  · exact Or.inl ⟨rfl, rfl⟩
  · right
    split
    · rename_i hexit
      exact hexit.2
    · split
      · split
        · assumption
        · exact List.mem_cons_self
      · exact List.mem_cons_self

theorem mem_of_openChoices (h : alt ∈ openChoices live) : alt ∈ live.map Prod.fst := by
  obtain ⟨entry, hm, rfl⟩ := List.mem_map.1 h
  exact List.mem_map.2 ⟨entry, (List.mem_filter.1 hm).1, rfl⟩

/-- Checks decide between the choices that are left. -/
theorem mem_leaves_resolve (h : alt ∈ (resolve alts live offset path).leaves) :
    alt = .error ∨ alt ∈ live.map Prod.fst := by
  have hfallback : fallbackChoice alts (openChoices live) = .error ∨
      fallbackChoice alts (openChoices live) ∈ live.map Prod.fst :=
    (fallbackChoice_mem alts _).imp And.left mem_of_openChoices
  unfold resolve at h
  simp only at h
  split at h
  · rw [Decision.leaves_pick, List.mem_singleton] at h
    exact h ▸ hfallback
  · rw [Decision.leaves_level, List.mem_flatMap] at h
    obtain ⟨branch, hb, h⟩ := h
    rcases List.mem_append.1 hb with hb | hb
    · obtain ⟨tested, ht, rfl⟩ := List.mem_map.1 hb
      obtain ⟨entry, he, rfl⟩ := List.mem_map.1 ht
      rw [Decision.leaves_pick, List.mem_singleton] at h
      exact Or.inr (List.mem_map.2 ⟨entry, List.takeWhile_subset _ he, h.symm⟩)
    · rw [List.mem_singleton.1 hb, Decision.leaves_pick, List.mem_singleton] at h
      exact h ▸ hfallback

/-! ## The longest prefix -/

/-- No choice is viable for more than `count` of the next `limit` terminals, and some choice is for
that many. -/
def Live.Longest (la : Lookahead) (ahead : Nat → Int) (live : Live) (offset limit count : Nat) :
    Prop :=
  IsGreatest {m | m ≤ limit ∧ ∃ alt, live.Viable la ahead offset alt m} count

variable {limit : Nat}

theorem Live.Longest.behind (h : live.Longest la ahead offset (limit + 1) count)
    (hregions : regionsOf la live offset = .ok regions) (hr : region ∈ regions)
    (hc : region.set.contains (ahead offset) = true) :
    ∃ less, count = less + 1 ∧ region.live.Longest la ahead (offset + 1) limit less := by
  have viable_iff : ∀ alt m, region.live.Viable la ahead (offset + 1) alt m ↔
      live.Viable la ahead offset alt (m + 1) := fun alt m => viable_region_iff hregions hr hc
  obtain ⟨⟨hle, alt, hviable⟩, hmax⟩ := h
  -- What the region records is viable for a terminal more.
  obtain ⟨entry, hentry⟩ := List.exists_mem_of_ne_nil _ (inhabited_regionsOf hregions region hr).choice
  have hzero : region.live.Viable la ahead (offset + 1) entry.1 0 :=
    ((partition_regionsOf hregions).sound region hr).viable_zero (List.mem_map.2 ⟨entry, hentry, rfl⟩)
  have hone : 1 ≤ count := hmax ⟨by omega, entry.1, (viable_iff _ _).1 hzero⟩
  obtain ⟨less, rfl⟩ : ∃ less, count = less + 1 := ⟨count - 1, by omega⟩
  refine ⟨less, rfl, ⟨by omega, alt, (viable_iff _ _).2 hviable⟩, ?_⟩
  rintro m ⟨hm, other, hother⟩
  have := hmax ⟨Nat.succ_le_succ hm, other, (viable_iff _ _).1 hother⟩
  omega

/-- What a tree selects where `count` is the length of the longest viable prefix: the default if there
is none, else the error or a choice that is viable for it. -/
def SelectsLongest (la : Lookahead) (ahead : Nat → Int) (alts : Alternatives) (live : Live)
    (offset count : Nat) (alt : Alt) : Prop :=
  (count = 0 → alt = defaultTarget alts live offset) ∧
    (count ≠ 0 → alt = .error ∨ live.Viable la ahead offset alt count)

theorem select_levelOf_longest (hahead : ∀ n, IsTerminal (ahead n))
    (hdeeper : ∀ build, deeper = some build → ∀ path live tree warnings count,
      build path live = .ok (tree, warnings) → live.Sound →
      live.Longest la ahead (offset + 1) limit count → tree.WellFormed ∧ ∃ alt,
        tree.select ahead holds = some alt ∧ SelectsLongest la ahead alts live (offset + 1) count alt)
    (hlast : deeper = none → limit = 0)
    (h : levelOf la alts offset path live deeper = .ok (tree, warnings))
    (hlongest : live.Longest la ahead offset (limit + 1) count) :
    ∃ alt, tree.select ahead holds = some alt ∧
      SelectsLongest la ahead alts live offset count alt := by
  obtain ⟨regions, target, hregions, hgoes, hcases⟩ := exists_goesTo_levelOf h (hahead offset)
  rw [hgoes.select]
  rcases hcases with ⟨region, hr, hc, part, hpart, rfl⟩ | ⟨hnone, rfl⟩
  · have viable_iff : ∀ alt m, region.live.Viable la ahead (offset + 1) alt m ↔
      live.Viable la ahead offset alt (m + 1) := fun alt m => viable_region_iff hregions hr hc
    have hsound := (partition_regionsOf hregions).sound region hr
    obtain ⟨less, rfl, hless⟩ := hlongest.behind hregions hr hc
    rcases regionBranch_cases hpart with ⟨alt, configs, hlive, htarget⟩ | ⟨-, hmore⟩
    · -- A region with one choice: it is the one that is viable.
      rw [htarget]
      refine ⟨alt, Decision.select_pick alt, nofun, fun _ => Or.inr ?_⟩
      obtain ⟨⟨-, other, hother⟩, -⟩ := hless
      have heq : other = alt := by simpa [hlive] using hother.mem
      exact (viable_iff _ _).1 (heq ▸ hother)
    · rcases hmore with ⟨build, deepTree, deepWarnings, hbuild, hdeep, htarget⟩ | ⟨hend, htarget⟩
      · rw [htarget]
        obtain ⟨hwf, alt, hselect, hzero, hpos⟩ := hdeeper build hbuild _ _ _ _ _ hdeep hsound hless
        refine ⟨alt, (select_collapse hwf hahead).trans hselect, nofun, fun _ => ?_⟩
        rcases Nat.eq_zero_or_pos less with rfl | hlt
        · have hne := (inhabited_regionsOf hregions region hr).choice
          rw [hzero rfl]
          exact (defaultTarget_mem alts (Nat.succ_ne_zero offset) hne).imp_right fun hm =>
            (viable_iff _ _).1 (hsound.viable_zero hm)
        · exact (hpos (Nat.ne_of_gt hlt)).imp_right (viable_iff _ _).1
      · rw [htarget]
        have hwf := wellFormed_resolve alts region.live offset (path ++ [region.set])
        obtain ⟨alt, hselect⟩ : ∃ alt, (resolve alts region.live offset
            (path ++ [region.set])).select ahead holds = some alt := hwf.exists_select hahead
        refine ⟨alt, hselect, nofun, fun _ => ?_⟩
        obtain rfl : less = 0 := Nat.le_zero.1 (hlast hend ▸ hless.1.1)
        exact (mem_leaves_resolve (Decision.mem_leaves_of_select hwf hselect)).imp_right fun hm =>
          (viable_iff _ _).1 (hsound.viable_zero hm)
  · refine ⟨_, Decision.select_pick _, fun _ => rfl, fun hne => ?_⟩
    obtain ⟨less, rfl⟩ := Nat.exists_eq_succ_of_ne_zero hne
    obtain ⟨⟨-, alt, hviable⟩, -⟩ := hlongest
    obtain ⟨region, hr, hc⟩ := exists_region_of_viable hregions hviable
    rw [hnone region hr] at hc
    cases hc

/-- **Prediction follows the longest viable prefix.** -/
theorem select_buildLevel_longest {left : Nat} (hahead : ∀ n, IsTerminal (ahead n))
    (h : buildLevel la alts left offset path live = .ok (tree, warnings))
    (hlongest : live.Longest la ahead offset (left + 1) count) :
    ∃ alt, tree.select ahead holds = some alt ∧
      SelectsLongest la ahead alts live offset count alt := by
  induction left generalizing offset path live tree warnings count with
  | zero =>
    rw [buildLevel] at h
    exact select_levelOf_longest hahead (fun _ hbuild => by cases hbuild) (fun _ => rfl) h hlongest
  | succ left ih =>
    rw [buildLevel] at h
    refine select_levelOf_longest hahead ?_ (fun hend => by cases hend) h hlongest
    rintro build hbuild path live tree warnings count hdeep - hlongest
    cases hbuild
    exact ⟨wellFormed_buildLevel hdeep, ih hdeep hlongest⟩

/-! ## What one viable choice decides -/

theorem decidedBy_levelOf (hahead : ∀ n, IsTerminal (ahead n))
    (hdeeper : ∀ build, deeper = some build → ∀ path live tree warnings count,
      build path live = .ok (tree, warnings) → live.Viable la ahead (offset + 1) alt (count + 1) →
      count + 1 ≤ limit →
      (∀ other, live.Viable la ahead (offset + 1) other (count + 1) → other = alt) →
      tree.DecidedBy ahead alt)
    (hlast : deeper = none → limit = 0) (hle : count + 1 ≤ limit + 1)
    (h : levelOf la alts offset path live deeper = .ok (tree, warnings))
    (hviable : live.Viable la ahead offset alt (count + 1))
    (hunique : ∀ other, live.Viable la ahead offset other (count + 1) → other = alt) :
    tree.DecidedBy ahead alt := by
  obtain ⟨regions, target, hregions, hgoes, hcases⟩ := exists_goesTo_levelOf h (hahead offset)
  refine .head hgoes ?_
  rcases hcases with ⟨region, hr, hc, part, hpart, rfl⟩ | ⟨hnone, rfl⟩
  · have viable_iff : ∀ alt m, region.live.Viable la ahead (offset + 1) alt m ↔
      live.Viable la ahead offset alt (m + 1) := fun alt m => viable_region_iff hregions hr hc
    have hsound := (partition_regionsOf hregions).sound region hr
    have hbehind := (viable_iff _ _).2 hviable
    rcases regionBranch_cases hpart with ⟨only, configs, hlive, htarget⟩ | ⟨hsingle, hmore⟩
    · have heq : alt = only := by simpa [hlive] using hbehind.mem
      rw [htarget, heq]
    · cases count with
      | zero =>
        -- All choices of the region are viable for one terminal, so there is only one.
        exfalso
        have hall : ∀ entry ∈ region.live, entry.1 = alt := fun entry hm =>
          hunique _ ((viable_iff _ _).1 (hsound.viable_zero (List.mem_map.2 ⟨entry, hm, rfl⟩)))
        obtain ⟨entry, hentry⟩ :=
          List.exists_mem_of_ne_nil _ (inhabited_regionsOf hregions region hr).choice
        rcases hl : region.live with _ | ⟨first, _ | ⟨second, rest⟩⟩
        · rw [hl] at hentry
          cases hentry
        · exact hsingle first.1 first.2 hl
        · have hnodup := hsound.nodup
          have hfirst := hall first (by simp [hl])
          have hsecond := hall second (by simp [hl])
          simp [hl, hfirst, hsecond] at hnodup
      | succ count =>
        rcases hmore with ⟨build, deepTree, deepWarnings, hbuild, hdeep, htarget⟩ | ⟨hend, -⟩
        · rw [htarget]
          refine decidedBy_collapse (hdeeper build hbuild _ _ _ _ count hdeep hbehind (by omega) ?_)
          exact fun other hother => hunique other ((viable_iff _ _).1 hother)
        · have := hlast hend
          omega
  · obtain ⟨region, hr, hc⟩ := exists_region_of_viable hregions hviable
    rw [hnone region hr] at hc
    cases hc

/-- **Lookahead decides on the only viable choice.** -/
theorem decidedBy_buildLevel {left : Nat} (hahead : ∀ n, IsTerminal (ahead n)) (hle : count ≤ left)
    (h : buildLevel la alts left offset path live = .ok (tree, warnings))
    (hviable : live.Viable la ahead offset alt (count + 1))
    (hunique : ∀ other, live.Viable la ahead offset other (count + 1) → other = alt) :
    tree.DecidedBy ahead alt := by
  induction left generalizing offset path live tree warnings count with
  | zero =>
    rw [buildLevel] at h
    exact decidedBy_levelOf hahead (fun _ hbuild => by cases hbuild) (fun _ => rfl)
      (Nat.succ_le_succ hle) h hviable hunique
  | succ left ih =>
    rw [buildLevel] at h
    refine decidedBy_levelOf hahead ?_ (fun hend => by cases hend) (Nat.succ_le_succ hle) h hviable
      hunique
    intro build hbuild path live tree warnings count hdeep hviable hle hunique
    cases hbuild
    exact ih (Nat.le_of_succ_le_succ hle) hdeep hviable hunique

end PredictiveParser
