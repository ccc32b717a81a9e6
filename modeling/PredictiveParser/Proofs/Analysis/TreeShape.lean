import Mathlib.Data.List.TakeWhile
import PredictiveParser.Proofs.Analysis.LeastFollow
import PredictiveParser.Proofs.Analysis.Longest

/-!
# The shape of prediction trees

`Decision.Shaped` says what the trees that analysis attaches look like. It follows the choices that are
left: a tree is of the shape for the choices that are live where it stands, and below a level for those
the region that the terminal is in. A level that decides nothing is left out, but its terminal is passed
all the same.

The branches of a lookahead level share out the universe (`SharesOut`), levels below the root have a
choice, and offsets grow from level to level and stay below the number of terminals that may be looked
at. An assertion level has only leaves: choices with checks, and a last one without.

An error branch is for terminals at which no choice can get to the end (`Live.DeadEnd`). The terminals
that no choice claims are in the last branch. So an error branch before it is for a region: choices claim
the terminal, but are stuck behind it. `stuck_tree` has such a branch.

`shaped_buildLevel` is an induction on the levels: a level is assembled from the branches of its
regions, whose targets have the shape already.
-/
namespace PredictiveParser

variable {la : Lookahead} {k : Nat} {alts : Alternatives} {live : Live} {offset : Nat}
  {regions : List Region} {region : Region} {path : List CharSet} {deeper : Deeper} {tree : Decision}
  {warnings : List String} {alt : Alt}

/-! ## Choices that are left -/

theorem keys_regionsOf (h : regionsOf la live offset = .ok regions) (hr : region ∈ regions)
    (ha : alt ∈ region.live.map Prod.fst) : alt ∈ live.map Prod.fst := by
  obtain ⟨entry, hm, rfl⟩ := List.mem_map.1 ha
  obtain ⟨config, -, hhas⟩ := ((partition_regionsOf h).sound region hr).exists_has hm
  obtain ⟨config', steps, set, ⟨configs, hm', -⟩, -⟩ := has_of_regionsOf h hr hhas
  exact List.mem_map.2 ⟨_, hm', rfl⟩

/-- The choice is one of the set: an arm that it has, or its exit. -/
def Alternatives.Has (alts : Alternatives) : Alt → Prop
  | .arm index => index < alts.arms.length
  | .exit => alts.hasExit = true
  | .error => False

/-- The choices are listed soundly, there is one, and the set has them all. -/
structure Live.Of (alts : Alternatives) (live : Live) : Prop where
  sound : live.Sound
  nonempty : live ≠ []
  has : ∀ alt ∈ live.map Prod.fst, alts.Has alt

theorem Live.Of.behind (h : live.Of alts) (hregions : regionsOf la live offset = .ok regions)
    (hr : region ∈ regions) : region.live.Of alts where
  sound := (partition_regionsOf hregions).sound region hr
  nonempty := (inhabited_regionsOf hregions region hr).choice
  has alt ha := h.has alt (keys_regionsOf hregions hr ha)

theorem Live.of_initialLive (id : NodeId) (after : List Frame) (h : alts.arms ≠ []) :
    (initialLive id alts after).Of alts where
  sound := sound_initialLive id alts after
  nonempty := initialLive_ne_nil h
  has alt ha := by
    rw [keys_initialLive, List.mem_append] at ha
    rcases ha with ha | ha
    · obtain ⟨index, hlt, rfl⟩ := List.mem_map.1 ha
      exact List.mem_range.1 hlt
    · split at ha
      · rename_i hexit
        rw [List.mem_singleton.1 ha]
        exact hexit
      · cases ha

/-! ## The shape -/

def CharSet.Apart (s t : CharSet) : Prop :=
  ∀ c, s.contains c = true → t.contains c = false

theorem CharSet.Apart.symm {s t : CharSet} (h : s.Apart t) : t.Apart s :=
  fun c hc => Bool.eq_false_iff.2 fun hc' => by simp [h c hc'] at hc

theorem CharSet.exists_of_not_apart {s t : CharSet} (h : ¬s.Apart t) :
    ∃ c, s.contains c = true ∧ t.contains c = true := by
  by_contra hnone
  exact h fun c hc => Bool.eq_false_iff.2 fun hc' => hnone ⟨c, hc, hc'⟩

/-- The branches of a lookahead level share out the universe, each of them knows what comes before it,
and the coverage is what does not lead to the error. -/
structure SharesOut (branches : List (Branch Decision)) (coverage : CharSet) : Prop where
  inhabited : ∀ branch ∈ branches, ∃ c, branch.set.contains c = true
  disjoint : (branches.map (·.set)).Pairwise CharSet.Apart
  exhaustive : ∀ c, IsTerminal c → ∃ branch ∈ branches, branch.set.contains c = true
  covered : Decision.CoversBefore .empty branches
  coverage : coverage =
    .unionAll ((branches.filter fun branch => !branch.target.isPick .error).map (·.set))

/-- Once the next terminal is in the set, no choice can match all of the `k` terminals. -/
def Live.DeadEnd (la : Lookahead) (k : Nat) (live : Live) (offset : Nat) (set : CharSet) : Prop :=
  ∀ ahead : Nat → Int, set.contains (ahead offset) = true →
    ∀ alt, ¬live.Viable la ahead offset alt (k - offset)

/-- A leaf of the set: a choice that it has, or the error if it has an error branch. -/
def Alternatives.HasLeaf (alts : Alternatives) (alt : Alt) : Prop :=
  alts.Has alt ∨ alt = .error ∧ alts.errorBranch = true

/-- The shape of the tree of an alternative set, or of a tree below its root, where `offset` terminals
have led to the choices in `live`. -/
inductive Decision.Shaped (la : Lookahead) (k : Nat) (alts : Alternatives) :
    (isRoot : Bool) → (offset : Nat) → (live : Live) → Decision → Prop where
  | pick {offset : Nat} {live : Live} {alt : Alt} (valid : alts.HasLeaf alt) :
      Shaped la k alts false offset live (.pick alt)
  | lookahead {isRoot : Bool} {offset : Nat} {live : Live} {regions : List Region}
      {branches : List (Branch Decision)} {coverage : CharSet} (within : offset < k)
      (next : regionsOf la live offset = .ok regions) (shares : SharesOut branches coverage)
      (choice : isRoot = false → 2 ≤ branches.length)
      (claimed : ∀ branch ∈ branches.dropLast, ∃ region ∈ regions, branch.set = region.set)
      (errors : ∀ branch ∈ branches, branch.target = .pick .error →
        live.DeadEnd la k offset branch.set)
      (targets : ∀ branch ∈ branches, ∀ region ∈ regions, ¬branch.set.Apart region.set →
        Shaped la k alts false (offset + 1) region.live branch.target)
      (spare : ∀ branch ∈ branches, ∀ c, branch.set.contains c = true →
        (∀ region ∈ regions, region.set.contains c = false) →
        ∃ alt, branch.target = .pick alt ∧ alts.HasLeaf alt) :
      Shaped la k alts isRoot offset live (.level offset false branches coverage)
  | skipped {offset : Nat} {live : Live} {region : Region} {tree : Decision} (within : offset < k)
      (next : regionsOf la live offset = .ok [region])
      (whole : ∀ c, IsTerminal c → region.set.contains c = true)
      (below : Shaped la k alts false (offset + 1) region.live tree) :
      Shaped la k alts false offset live tree
  | assertion {offset : Nat} {live : Live} {branches : List (Branch Decision)}
      {fallback : Branch Decision} {coverage : CharSet} {last : Alt} (tested : branches ≠ [])
      (tests : ∀ branch ∈ branches, branch.checks ≠ [] ∧ (∀ set ∈ branch.checks, set ≠ []) ∧
        ∃ alt ∈ live.map Prod.fst, branch.target = .pick alt ∧ alts.Has alt)
      (unconditional : fallback.checks = []) (leaf : fallback.target = .pick last)
      (valid : last ∈ live.map Prod.fst ∧ alts.Has last ∨
        last = .error ∧ ∀ entry ∈ live, isGuarded entry.2 = true) :
      Shaped la k alts false (offset + 1) live (.level offset true (branches ++ [fallback]) coverage)

/-- A branch of a level leads to what is left behind a region, or to a leaf. -/
theorem SharesOut.inside_or_spare {branches : List (Branch Decision)} {coverage : CharSet}
    (h : SharesOut branches coverage)
    (spare : ∀ branch ∈ branches, ∀ c, branch.set.contains c = true →
      (∀ region ∈ regions, region.set.contains c = false) →
      ∃ alt, branch.target = .pick alt ∧ alts.HasLeaf alt)
    {branch : Branch Decision} (hb : branch ∈ branches) :
    (∃ region ∈ regions, ¬branch.set.Apart region.set) ∨
      ∃ alt, branch.target = .pick alt ∧ alts.HasLeaf alt := by
  obtain ⟨c, hc⟩ := h.inhabited branch hb
  by_cases hnone : ∀ region ∈ regions, region.set.contains c = false
  · exact Or.inr (spare branch hb c hc hnone)
  · push Not at hnone
    obtain ⟨region, hr, hin⟩ := hnone
    exact Or.inl ⟨region, hr, fun hapart => hin (hapart c hc)⟩

/-! ## Assembling a level -/

section

variable {branches : List (Branch Decision)} {default : Alt}

theorem sets_fillCovered (covered : CharSet) (branches : List (Branch Decision)) :
    (fillCovered covered branches).map (·.set) = branches.map (·.set) := by
  induction branches generalizing covered with
  | nil => rfl
  | cons branch rest ih => rw [fillCovered, List.map_cons, List.map_cons, ih]

theorem coverage_fillCovered (covered : CharSet) (branches : List (Branch Decision)) :
    ((fillCovered covered branches).filter fun branch => !branch.target.isPick .error).map (·.set) =
      (branches.filter fun branch => !branch.target.isPick .error).map (·.set) := by
  induction branches generalizing covered with
  | nil => rfl
  | cons branch rest ih =>
    rw [fillCovered, List.filter_cons, List.filter_cons]
    split
    · rw [List.map_cons, List.map_cons, ih]
    · exact ih _

theorem mem_dropLast_fillCovered {covered : CharSet} {branch : Branch Decision}
    (h : branch ∈ (fillCovered covered branches).dropLast) :
    ∃ branch' ∈ branches.dropLast, branch'.set = branch.set ∧ branch'.target = branch.target := by
  induction branches generalizing covered with
  | nil => cases h
  | cons first rest ih =>
    cases rest with
    | nil => cases h
    | cons second rest =>
      rw [fillCovered, fillCovered, List.dropLast_cons_cons] at h
      rw [List.dropLast_cons_cons]
      rcases List.mem_cons.1 h with rfl | h
      · exact ⟨first, List.mem_cons_self, rfl, rfl⟩
      · obtain ⟨branch', hb, heq⟩ := ih h
        exact ⟨branch', List.mem_cons_of_mem _ hb, heq⟩

theorem exists_mem_addDefault (default : Alt) {branch : Branch Decision} (h : branch ∈ branches) :
    ∃ branch' ∈ addDefault default branches, branch'.target = branch.target := by
  rcases addDefault_cases default branches with ⟨-, heq⟩ | ⟨before, taken, after, hsplit, -, heq⟩ |
    ⟨-, heq⟩
  · exact ⟨branch, heq.symm ▸ h, rfl⟩
  · rw [hsplit, List.mem_append, List.mem_cons] at h
    rw [heq]
    rcases h with h | rfl | h
    · exact ⟨branch, List.mem_append_left _ (List.mem_append_left _ h), rfl⟩
    · exact ⟨_, List.mem_append_right _ List.mem_cons_self, rfl⟩
    · exact ⟨branch, List.mem_append_left _ (List.mem_append_right _ h), rfl⟩
  · exact ⟨branch, heq.symm ▸ List.mem_append_left _ h, rfl⟩

/-- Only the last branch takes terminals that no branch had. -/
theorem mem_dropLast_addDefault {branch : Branch Decision}
    (h : branch ∈ (addDefault default branches).dropLast) : branch ∈ branches := by
  rcases addDefault_cases default branches with ⟨-, heq⟩ | ⟨before, taken, after, hsplit, -, heq⟩ |
    ⟨-, heq⟩
  · rw [heq] at h
    exact List.dropLast_subset _ h
  · rw [heq, List.dropLast_concat] at h
    rw [hsplit]
    simp only [List.mem_append, List.mem_cons] at h ⊢
    tauto
  · rwa [heq, List.dropLast_concat] at h

/-- A single branch was there and had all terminals, or it leads to the default. -/
theorem addDefault_eq_singleton {branch : Branch Decision} (h : addDefault default branches = [branch]) :
    branches = [branch] ∧ (unclaimed branches).isEmpty = true ∨ branch.target = .pick default := by
  rcases addDefault_cases default branches with ⟨hnone, heq⟩ | ⟨before, taken, after, -, htarget, heq⟩ |
    ⟨-, heq⟩
  · exact Or.inl ⟨heq.symm.trans h, hnone⟩
  · rw [h, eq_comm, List.append_eq_singleton_iff] at heq
    rcases heq with ⟨-, hlast⟩ | ⟨-, hlast⟩
    · exact Or.inr (List.singleton_inj.1 hlast ▸ htarget)
    · cases hlast
  · rw [h, eq_comm, List.append_eq_singleton_iff] at heq
    rcases heq with ⟨-, hlast⟩ | ⟨-, hlast⟩
    · exact Or.inr (by rw [← List.singleton_inj.1 hlast])
    · cases hlast

theorem inhabited_addDefault (h : ∀ branch ∈ branches, ∃ c, branch.set.contains c = true) :
    ∀ branch ∈ addDefault default branches, ∃ c, branch.set.contains c = true := by
  intro branch hb
  rcases addDefault_cases default branches with ⟨-, heq⟩ | ⟨before, taken, after, hsplit, -, heq⟩ |
    ⟨hrest, heq⟩
  · exact h branch (heq ▸ hb)
  · rw [hsplit] at h
    rw [heq, List.mem_append, List.mem_append, List.mem_singleton] at hb
    rcases hb with (hb | hb) | rfl
    · exact h branch (List.mem_append_left _ hb)
    · exact h branch (List.mem_append_right _ (List.mem_cons_of_mem _ hb))
    · obtain ⟨c, hc⟩ := h taken (List.mem_append_right _ List.mem_cons_self)
      exact ⟨c, by rw [CharSet.contains_union, hc, Bool.true_or]⟩
  · rw [heq, List.mem_append, List.mem_singleton] at hb
    rcases hb with hb | rfl
    · exact h branch hb
    · exact CharSet.exists_contains_of_not_isEmpty hrest

theorem apart_unclaimed {branch : Branch Decision} (h : branch ∈ branches) :
    branch.set.Apart (unclaimed branches) := by
  intro c hc
  refine Bool.eq_false_iff.2 fun hrest => ?_
  rw [(contains_unclaimed.1 hrest).2 branch h] at hc
  cases hc

theorem disjoint_addDefault (h : (branches.map (·.set)).Pairwise CharSet.Apart) :
    ((addDefault default branches).map (·.set)).Pairwise CharSet.Apart := by
  rcases addDefault_cases default branches with ⟨-, heq⟩ | ⟨before, taken, after, hsplit, -, heq⟩ |
    ⟨-, heq⟩
  · rwa [heq]
  · have hmoved : (branches.map (·.set)).Perm (taken.set :: (before ++ after).map (·.set)) := by
      rw [hsplit]
      exact List.perm_middle.map _
    rw [hmoved.pairwise_iff CharSet.Apart.symm, List.pairwise_cons] at h
    rw [heq, List.map_append, List.map_singleton, List.pairwise_append]
    refine ⟨h.2, List.pairwise_singleton _ _, fun set hset other hother c hc => ?_⟩
    obtain ⟨branch, hb, rfl⟩ := List.mem_map.1 hset
    have hmem : branch ∈ branches := by
      rw [hsplit]
      simp only [List.mem_append, List.mem_cons] at hb ⊢
      tauto
    rw [List.mem_singleton.1 hother, CharSet.contains_union, (h.1 _ hset).symm c hc,
      apart_unclaimed hmem c hc, Bool.or_false]
  · rw [heq, List.map_append, List.map_singleton, List.pairwise_append]
    refine ⟨h, List.pairwise_singleton _ _, fun set hset other hother => ?_⟩
    obtain ⟨branch, hb, rfl⟩ := List.mem_map.1 hset
    rw [List.mem_singleton.1 hother]
    exact apart_unclaimed hb

/-- Branches with sets of their own share out the universe, together with the default. -/
theorem sharesOut_makeLevel (hinhabited : ∀ branch ∈ branches, ∃ c, branch.set.contains c = true)
    (hdisjoint : (branches.map (·.set)).Pairwise CharSet.Apart) :
    SharesOut (fillCovered .empty (addDefault default branches))
      (.unionAll (((addDefault default branches).filter
        fun branch => !branch.target.isPick .error).map (·.set))) where
  inhabited branch hb := by
    obtain ⟨branch', hb', hset, -⟩ := mem_fillCovered hb
    exact hset ▸ inhabited_addDefault hinhabited branch' hb'
  disjoint := by
    rw [sets_fillCovered]
    exact disjoint_addDefault hdisjoint
  exhaustive c hc := by
    obtain ⟨branch, hb, hin⟩ := exists_contains_addDefault default branches hc
    obtain ⟨branch', hb', hset, -⟩ := exists_mem_fillCovered .empty hb
    exact ⟨branch', hb', hset ▸ hin⟩
  covered := coversBefore_fillCovered _ _
  coverage := by rw [coverage_fillCovered]

end

/-! ## What checks decide -/

/-- If nothing is tested then the first choice needs no check, so there is a choice that needs none. -/
theorem has_fallbackChoice (hlive : live.Of alts) (htested : (testedChoices live).isEmpty = true) :
    alts.Has (fallbackChoice alts (openChoices live)) := by
  rcases fallbackChoice_mem alts (openChoices live) with ⟨-, hopen⟩ | hmem
  · exfalso
    obtain ⟨first, rest, hl⟩ := List.exists_cons_of_ne_nil hlive.nonempty
    rw [testedChoices, List.isEmpty_iff, List.map_eq_nil_iff, hl, List.takeWhile_cons] at htested
    rw [openChoices, List.map_eq_nil_iff, hl, List.filter_cons] at hopen
    cases hguarded : isGuarded first.2 <;> simp [hguarded] at htested hopen
  · exact hlive.has _ (mem_of_openChoices hmem)

theorem resolve_ne_error (hlive : live.Of alts) : resolve alts live offset path ≠ .pick .error := by
  intro h
  unfold resolve at h
  simp only at h
  split at h
  · rename_i htested
    have hhas := has_fallbackChoice hlive htested
    rw [Decision.pick.inj h] at hhas
    exact hhas
  · cases h

theorem shaped_resolve (hlive : live.Of alts) :
    (resolve alts live offset path).Shaped la k alts false (offset + 1) live := by
  unfold resolve
  simp only
  split
  · rename_i htested
    exact .pick (Or.inl (has_fallbackChoice hlive htested))
  · rename_i htested
    refine .assertion (fun hnil => htested (List.isEmpty_iff.2 (List.map_eq_nil_iff.1 hnil))) ?_ rfl rfl ?_
    · intro branch hb
      obtain ⟨tested, htested, rfl⟩ := List.mem_map.1 hb
      obtain ⟨entry, hentry, rfl⟩ := List.mem_map.1 htested
      have hmem := List.takeWhile_subset _ hentry
      have hguarded := List.mem_takeWhile_imp hentry
      have hkey := List.mem_map_of_mem (f := Prod.fst) hmem
      refine ⟨?_, ?_, entry.1, hkey, rfl, hlive.has _ hkey⟩
      · obtain ⟨config, hc, -⟩ := hlive.sound.exists_has hmem
        exact List.ne_nil_of_mem (List.mem_eraseDups.2 (List.mem_map.2 ⟨config, hc, rfl⟩))
      · intro set hset hnil
        obtain ⟨config, hc, rfl⟩ := List.mem_map.1 (List.mem_eraseDups.1 hset)
        have := List.all_eq_true.1 hguarded config hc
        simp [hnil] at this
    · rcases fallbackChoice_mem alts (openChoices live) with ⟨herror, hopen⟩ | hmem
      · refine Or.inr ⟨herror, fun entry hentry => ?_⟩
        by_contra hguarded
        have : entry.1 ∈ openChoices live :=
          List.mem_map.2 ⟨entry, List.mem_filter.2 ⟨hentry, by simpa using hguarded⟩, rfl⟩
        rw [hopen] at this
        cases this
      · have hkey := mem_of_openChoices hmem
        exact Or.inl ⟨hkey, hlive.has _ hkey⟩

/-! ## Dead ends -/

section

variable {ahead : Nat → Int} {limit : Nat}

/-- A level that is nothing but a leaf has no other targets. -/
theorem target_of_collapse {branches : List (Branch Decision)} {default : Alt}
    (h : collapse (makeLevel offset (addDefault default branches)) = .pick alt) :
    ∀ branch ∈ branches, branch.target = .pick alt := by
  intro branch hb
  obtain ⟨branch', hb', htarget⟩ : ∃ branch' ∈ fillCovered .empty (addDefault default branches),
      branch'.target = branch.target := by
    obtain ⟨branch₁, hb₁, htarget₁⟩ := exists_mem_addDefault default hb
    obtain ⟨branch₂, hb₂, -, htarget₂⟩ := exists_mem_fillCovered .empty hb₁
    exact ⟨branch₂, hb₂, htarget₂.trans htarget₁⟩
  rw [makeLevel] at h
  revert h hb'
  generalize fillCovered .empty (addDefault default branches) = filled
  intro h hb'
  unfold collapse at h
  split at h
  · rename_i heq
    cases heq
    rw [← htarget, List.mem_singleton.1 hb']
    exact h
  · cases h

/-- Behind a region whose branch is nothing but the error, no choice gets to the end. -/
theorem not_viable_of_regionBranch (hlive : region.live.Of alts)
    (hdeeper : ∀ build, deeper = some build → ∀ path live tree warnings, live.Of alts →
      build path live = .ok (tree, warnings) → collapse tree = .pick .error →
      ∀ alt, ¬live.Viable la ahead (offset + 1) alt limit)
    {part : Branch Decision × List String}
    (h : regionBranch alts offset path deeper region = .ok part)
    (herror : part.1.target = .pick .error) (alt : Alt) :
    ¬region.live.Viable la ahead (offset + 1) alt limit := by
  rcases regionBranch_cases h with ⟨only, configs, hl, htarget⟩ | ⟨-, hmore⟩
  · rw [herror] at htarget
    have hhas := hlive.has only (by simp [hl])
    rw [← Decision.pick.inj htarget] at hhas
    exact hhas.elim
  · rcases hmore with ⟨build, tree, warnings, hbuild, hdeep, htarget⟩ | ⟨-, htarget⟩
    · exact hdeeper build hbuild _ _ _ _ hlive hdeep (htarget.symm.trans herror) alt
    · exact absurd (htarget.symm.trans herror) (resolve_ne_error hlive)

theorem not_viable_of_levelOf (hlive : live.Of alts)
    (hdeeper : ∀ build, deeper = some build → ∀ path live tree warnings, live.Of alts →
      build path live = .ok (tree, warnings) → collapse tree = .pick .error →
      ∀ alt, ¬live.Viable la ahead (offset + 1) alt limit)
    (h : levelOf la alts offset path live deeper = .ok (tree, warnings))
    (herror : collapse tree = .pick .error) (alt : Alt) :
    ¬live.Viable la ahead offset alt (limit + 1) := by
  intro hviable
  obtain ⟨regions, parts, hregions, hparts, rfl, -⟩ := levelOf_eq_ok h
  obtain ⟨region, hr, hc⟩ := exists_region_of_viable hregions hviable
  obtain ⟨part, hpart, hregion⟩ := Forall₂.exists_of_mem_left hparts hr
  have htarget := target_of_collapse herror part.1 (List.mem_map.2 ⟨part, hpart, rfl⟩)
  exact not_viable_of_regionBranch (hlive.behind hregions hr) hdeeper hregion htarget alt
    ((viable_region_iff hregions hr hc).2 hviable)

/-- Where all that is left of a level is the error, no choice can match so many terminals. -/
theorem not_viable_of_buildLevel {left : Nat} (hlive : live.Of alts)
    (h : buildLevel la alts left offset path live = .ok (tree, warnings))
    (herror : collapse tree = .pick .error) (alt : Alt) :
    ¬live.Viable la ahead offset alt (left + 1) := by
  induction left generalizing offset path live tree warnings alt with
  | zero =>
    rw [buildLevel] at h
    exact not_viable_of_levelOf hlive (fun _ hbuild => by cases hbuild) h herror alt
  | succ left ih =>
    rw [buildLevel] at h
    refine not_viable_of_levelOf hlive ?_ h herror alt
    intro build hbuild path live tree warnings hlive hdeep herror alt
    cases hbuild
    exact ih hlive hdeep herror alt

end

/-! ## Levels -/

theorem Alternatives.Valid.preferred (h : alts.Valid) : alts.Has alts.preferred := by
  unfold Alternatives.preferred
  split
  · rename_i arm harm
    exact h.defaultArm arm harm
  · split
    · rename_i hexit
      exact hexit
    · exact Nat.sub_lt (List.length_pos_iff.2 h.arms) Nat.one_pos

theorem hasLeaf_defaultTarget (hvalid : alts.Valid) (hlive : live.Of alts) (offset : Nat) :
    alts.HasLeaf (defaultTarget alts live offset) := by
  rw [defaultTarget_eq]
  split
  · rename_i herror
    exact Or.inr ⟨rfl, herror⟩
  · left
    split
    · exact hvalid.preferred
    · rw [List.getLast?_eq_some_getLast hlive.nonempty]
      exact hlive.has _ (List.mem_map.2 ⟨_, List.getLast_mem hlive.nonempty, rfl⟩)

section

variable {parts : List (Branch Decision × List String)}

/-- The branches of regions have the sets of the regions, in their order. -/
theorem sets_parts
    (hparts : List.Forall₂ (fun region part => regionBranch alts offset path deeper region = .ok part)
      regions parts) : (parts.map Prod.fst).map (·.set) = regions.map (·.set) := by
  induction hparts with
  | nil => rfl
  | cons hpart _ ih => rw [List.map_cons, List.map_cons, ih, List.map_cons, regionBranch_set hpart]

/-- The regions of a level have sets of their own. -/
theorem disjoint_parts (hregions : regionsOf la live offset = .ok regions)
    (hparts : List.Forall₂ (fun region part => regionBranch alts offset path deeper region = .ok part)
      regions parts) : ((parts.map Prod.fst).map (·.set)).Pairwise CharSet.Apart := by
  rw [sets_parts hparts, List.pairwise_map]
  exact (partition_regionsOf hregions).disjoint.imp fun h c hc => Bool.eq_false_iff.2 (h c hc)

theorem region_of_mem_parts
    (hparts : List.Forall₂ (fun region part => regionBranch alts offset path deeper region = .ok part)
      regions parts) {branch : Branch Decision} (hb : branch ∈ parts.map Prod.fst) :
    ∃ region ∈ regions, branch.set = region.set ∧
      ∃ part, regionBranch alts offset path deeper region = .ok part ∧ branch = part.1 := by
  obtain ⟨part, hpart, rfl⟩ := List.mem_map.1 hb
  obtain ⟨region, hr, hregion⟩ := Forall₂.exists_of_mem_right hparts hpart
  exact ⟨region, hr, regionBranch_set hregion, part, hregion, rfl⟩

/-- Where a branch of a level has a terminal, the branch leads to what is behind the region of the
terminal, or the terminal is in no region and the branch leads to the default. -/
theorem origin_level {default : Alt}
    (hparts : List.Forall₂ (fun region part => regionBranch alts offset path deeper region = .ok part)
      regions parts) {branch : Branch Decision}
    (hb : branch ∈ fillCovered .empty (addDefault default (parts.map Prod.fst))) {c : Int}
    (hc : branch.set.contains c = true) :
    (∃ region ∈ regions, region.set.contains c = true ∧ ∃ part,
      regionBranch alts offset path deeper region = .ok part ∧ branch.target = part.1.target) ∨
    (∀ region ∈ regions, region.set.contains c = false) ∧ branch.target = .pick default := by
  obtain ⟨branch', hb', hset, -, htarget⟩ := mem_fillCovered hb
  rw [← hset] at hc
  rw [← htarget]
  rcases sends_addDefault ⟨branch', hb', hc, rfl⟩ with ⟨claimed, hclaimed, hin, hsame⟩ | ⟨hnone, hdefault⟩
  · obtain ⟨region, hr, hregion, part, hpart, rfl⟩ := region_of_mem_parts hparts hclaimed
    exact Or.inl ⟨region, hr, hregion ▸ hin, part, hpart, hsame.symm⟩
  · refine Or.inr ⟨fun region hr => ?_, hdefault⟩
    obtain ⟨part, hpart, hregion⟩ := Forall₂.exists_of_mem_left hparts hr
    exact regionBranch_set hregion ▸ hnone part.1 (List.mem_map_of_mem hpart)

/-- The branch of a region has the shape for what is left behind the region. -/
theorem shaped_regionBranch {part : Branch Decision × List String} (hlive : region.live.Of alts)
    (hdeeper : ∀ build, deeper = some build → ∀ path live tree warnings, live.Of alts →
      build path live = .ok (tree, warnings) → (collapse tree).Shaped la k alts false (offset + 1) live)
    (h : regionBranch alts offset path deeper region = .ok part) :
    part.1.target.Shaped la k alts false (offset + 1) region.live := by
  rcases regionBranch_cases h with ⟨alt, configs, hl, htarget⟩ | ⟨-, hmore⟩
  · rw [htarget]
    exact .pick (Or.inl (hlive.has alt (by simp [hl])))
  · rcases hmore with ⟨build, tree, warnings, hbuild, hdeep, htarget⟩ | ⟨-, htarget⟩
    · rw [htarget]
      exact hdeeper build hbuild _ _ _ _ hlive hdeep
    · rw [htarget]
      exact shaped_resolve hlive

/-- A level whose only branch takes its place has one region, with all terminals, or is nothing but the
default. -/
theorem shaped_collapse {default : Alt} (hdefault : alts.HasLeaf default) (hk : offset < k)
    (hregions : regionsOf la live offset = .ok regions)
    (hparts : List.Forall₂ (fun region part => regionBranch alts offset path deeper region = .ok part)
      regions parts)
    (htargets : ∀ region ∈ regions, ∀ part, regionBranch alts offset path deeper region = .ok part →
      part.1.target.Shaped la k alts false (offset + 1) region.live)
    (h : (makeLevel offset (addDefault default (parts.map Prod.fst))).Shaped la k alts true offset live) :
    (collapse (makeLevel offset (addDefault default (parts.map Prod.fst)))).Shaped la k alts false offset
      live := by
  unfold makeLevel at h ⊢
  match hbranches : addDefault default (parts.map Prod.fst), h with
  | [], h =>
    obtain ⟨branch, hb, -⟩ := exists_contains_addDefault default (parts.map Prod.fst) (c := eof)
      ⟨le_rfl, by decide⟩
    rw [hbranches] at hb
    cases hb
  | [branch], h =>
    change branch.target.Shaped la k alts false offset live
    rcases addDefault_eq_singleton hbranches with ⟨hsingle, hnone⟩ | htarget
    · match parts, hparts, hsingle with
      | [part], .cons hpart .nil, hsingle =>
        cases hsingle
        refine .skipped hk hregions (fun c hc => ?_) (htargets _ List.mem_cons_self _ hpart)
        by_contra hout
        have hrest := contains_unclaimed.2 ⟨hc, List.forall_mem_singleton.2
          ((regionBranch_set hpart).symm ▸ Bool.eq_false_iff.2 hout)⟩
        exact Bool.false_ne_true ((CharSet.isEmpty_iff.1 hnone c).symm.trans hrest)
    · rw [htarget]
      exact .pick hdefault
  | first :: second :: rest, h =>
    cases h with
    | lookahead within next shares _ claimed errors targets spare =>
      exact .lookahead within next shares (fun _ => by simp [fillCovered]) claimed errors targets spare

theorem shaped_levelOf (limit : Nat) (hvalid : alts.Valid) (hlive : live.Of alts)
    (hk : offset + limit + 1 = k)
    (hdeeper : ∀ build, deeper = some build → ∀ path live tree warnings, live.Of alts →
      build path live = .ok (tree, warnings) → (collapse tree).Shaped la k alts false (offset + 1) live)
    (hdead : ∀ ahead build, deeper = some build → ∀ path live tree warnings, live.Of alts →
      build path live = .ok (tree, warnings) → collapse tree = .pick .error →
      ∀ alt, ¬live.Viable la ahead (offset + 1) alt limit)
    (h : levelOf la alts offset path live deeper = .ok (tree, warnings)) :
    tree.Shaped la k alts true offset live ∧ (collapse tree).Shaped la k alts false offset live := by
  obtain ⟨regions, parts, hregions, hparts, rfl, -⟩ := levelOf_eq_ok h
  have hdefault := hasLeaf_defaultTarget hvalid hlive offset
  generalize defaultTarget alts live offset = default at hdefault ⊢
  have htargets : ∀ region ∈ regions, ∀ part, regionBranch alts offset path deeper region = .ok part →
      part.1.target.Shaped la k alts false (offset + 1) region.live :=
    fun region hr part hpart => shaped_regionBranch (hlive.behind hregions hr) hdeeper hpart
  have hlevel : (makeLevel offset (addDefault default (parts.map Prod.fst))).Shaped la k alts true offset
      live := by
    refine .lookahead (by omega) hregions (sharesOut_makeLevel ?_ (disjoint_parts hregions hparts))
      (fun h => by cases h) ?claimed ?errors ?targets ?spare
    · intro branch hb
      obtain ⟨region, hr, hset, -⟩ := region_of_mem_parts hparts hb
      exact hset ▸ (inhabited_regionsOf hregions region hr).terminal
    case claimed =>
      intro branch hb
      obtain ⟨branch', hb', hset, -⟩ := mem_dropLast_fillCovered hb
      obtain ⟨region, hr, hset', -⟩ := region_of_mem_parts hparts (mem_dropLast_addDefault hb')
      exact ⟨region, hr, hset.symm.trans hset'⟩
    case errors =>
      intro branch hb herror ahead hc alt hviable
      rw [show k - offset = limit + 1 by omega] at hviable
      rcases origin_level hparts hb hc with ⟨region, hr, hin, part, hpart, htarget⟩ | ⟨hnone, -⟩
      · exact not_viable_of_regionBranch (hlive.behind hregions hr) (hdead ahead) hpart
          (htarget.symm.trans herror) alt ((viable_region_iff hregions hr hin).2 hviable)
      · obtain ⟨region, hr, hin⟩ := exists_region_of_viable hregions hviable
        exact Bool.false_ne_true ((hnone region hr).symm.trans hin)
    case targets =>
      intro branch hb region hr hmeets
      obtain ⟨c, hc, hin⟩ := CharSet.exists_of_not_apart hmeets
      rcases origin_level hparts hb hc with ⟨other, ho, hin', part, hpart, htarget⟩ | ⟨hnone, -⟩
      · cases (partition_regionsOf hregions).unique ho hr hin' hin
        exact htarget ▸ htargets _ hr _ hpart
      · exact absurd hin (Bool.eq_false_iff.1 (hnone region hr))
    case spare =>
      intro branch hb c hc hout
      rcases origin_level hparts hb hc with ⟨region, hr, hin, -⟩ | ⟨-, htarget⟩
      · exact absurd hin (Bool.eq_false_iff.1 (hout region hr))
      · exact ⟨default, htarget, hdefault⟩
  exact ⟨hlevel, shaped_collapse hdefault (by omega) hregions hparts htargets hlevel⟩

theorem shaped_collapse_buildLevel {left : Nat} (hvalid : alts.Valid) (hlive : live.Of alts)
    (hk : offset + left + 1 = k)
    (h : buildLevel la alts left offset path live = .ok (tree, warnings)) :
    tree.Shaped la k alts true offset live ∧ (collapse tree).Shaped la k alts false offset live := by
  induction left generalizing offset path live tree warnings with
  | zero =>
    rw [buildLevel] at h
    exact shaped_levelOf 0 hvalid hlive hk (fun _ hbuild => by cases hbuild)
      (fun _ _ hbuild => by cases hbuild) h
  | succ left ih =>
    rw [buildLevel] at h
    refine shaped_levelOf (left + 1) hvalid hlive hk ?_ ?_ h
    · intro build hbuild path live tree warnings hlive hdeep
      cases hbuild
      exact (ih hlive (by omega) hdeep).2
    · intro ahead build hbuild path live tree warnings hlive hdeep herror alt
      cases hbuild
      exact not_viable_of_buildLevel hlive hdeep herror alt

/-- **Built trees have the shape.** -/
theorem shaped_buildLevel {left : Nat} (hvalid : alts.Valid) (hlive : live.Of alts)
    (hk : offset + left + 1 = k)
    (h : buildLevel la alts left offset path live = .ok (tree, warnings)) :
    tree.Shaped la k alts true offset live :=
  (shaped_collapse_buildLevel hvalid hlive hk h).1

end

namespace Grammar

variable {g g' : Grammar} {journal journal' : List Event} {name : String} {follow : FollowSets}
  {options : Options}

/-- **The shape of prediction trees.** Where a rule of a validated grammar is analyzed, each of its
alternative sets gets a tree of this shape. -/
theorem shaped_of_analyzeRule (hvalid : g.validate = .ok ())
    (h : Yields (analyzeRule name follow options) (g, journal) ⟨⟩ (g', journal')) :
    ∃ rule, g.rule? name = some rule ∧ ∀ place alts, g.Occurs rule.body place →
      g.kindAt? place.node = some (.alternatives alts) → ∃ tree,
        g'.kindAt? place.node = some (.alternatives { alts with prediction := some tree }) ∧
        tree.Shaped (g.lookaheadOf name follow options) (lookaheadDepth rule options) alts true 0
          (initialLive place.node alts place.after) := by
  obtain ⟨rule, hrule, hall⟩ := exists_predictionOf_of_analyzeRule hvalid h
  refine ⟨rule, hrule, fun place alts hoccurs hk => ?_⟩
  obtain ⟨tree, warnings, hk', htree⟩ := hall place alts hoccurs hk
  have halts := (forest_of_validate hvalid).valid_alternatives hrule hoccurs hk
  have hone : 1 ≤ lookaheadDepth rule options := Nat.le_max_right _ _
  have hlive := Live.of_initialLive place.node place.after halts.arms
  exact ⟨tree, hk', shaped_buildLevel halts hlive (by omega) htree⟩

end Grammar

/-- The tree of `pairs` has two lookahead levels. -/
theorem pairs_shaped : pairsTree.Shaped
    ((pairsWith none none).lookaheadOf "pairs" [("pairs", .endOfInput)] .default) 2
    (.ofArms [2, 5] .star) true 0 (initialLive 6 (.ofArms [2, 5] .star) []) := by
  obtain ⟨rule, hrule, hall⟩ := Grammar.shaped_of_analyzeRule (by decide +kernel) pairs_analyzed
  cases hrule
  obtain ⟨tree, hk, hshaped⟩ := hall ⟨6, []⟩ (.ofArms [2, 5] .star) .refl rfl
  cases hk
  exact hshaped

/-- An `a` or a `b`, each of them in two arms, or a `c` and then the rule again. Only the rule itself
calls it, so nothing can follow it. -/
def stuckWith (prematched : Option Bool) (prediction : Option Decision) : Grammar where
  nodes := #[.ofKind (.terminal (.ofRanges [(97, 97)]) none),
    .ofKind (.terminal (.ofRanges [(97, 97)]) none), .ofKind (.terminal (.ofRanges [(98, 98)]) none),
    .ofKind (.terminal (.ofRanges [(98, 98)]) none),
    .ofKind (.terminal (.ofRanges [(99, 99)]) prematched), .ofKind (.call "p"),
    .ofKind (.sequence [4, 5]), .ofKind (.alternatives
      { Alternatives.ofArms [0, 1, 2, 3, 6] .once with errorBranch := true, prediction })]
  rules := [("p", { Rule.ofBody "p" 7 with isPrivate := true })]

/-- Behind an `a` and behind a `b` there is a dead end. -/
def stuckTree : Decision :=
  .level 0 false [
    ⟨.ofRanges [(98, 98)], [], .empty, .pick .error⟩,
    ⟨.ofRanges [(99, 99)], [], .ofRanges [(98, 98)], .pick (.arm 4)⟩,
    ⟨.ofRanges [(eof, 97), (100, maxChar)], [], .ofRanges [(98, 99)], .pick .error⟩]
    (.ofRanges [(99, 99)])

theorem stuck_settleFollow (rounds : Nat) :
    (stuckWith none none).settleFollow 32 (rounds + 1) [("p", .empty)] = .ok [("p", .empty)] := by cbv

theorem stuck_followSets : (stuckWith none none).followSets 32 = .ok [("p", .empty)] :=
  (Grammar.followSets_eq_settleFollow (by cbv)).trans (stuck_settleFollow _)

/-- Its tree has two error branches, and one of them is the first. -/
theorem stuck_tree : (stuckWith none none).validate = .ok () ∧
    (stuckWith none none).followSets 32 = .ok [("p", .empty)] ∧
    Yields (Grammar.analyzeRule "p" [("p", .empty)] .default) (stuckWith none none, []) ⟨⟩
      (stuckWith (some true) (some stuckTree), []) ∧
    ∃ branches coverage, stuckTree = .level 0 false branches coverage ∧
      ¬(branches.countP (·.target.isPick .error) ≤ 1 ∧
        ∀ branch ∈ branches.dropLast, branch.target ≠ .pick .error) := by
  refine ⟨by decide +kernel, stuck_followSets, by unfold Yields; cbv, _, _, rfl, ?_⟩
  rintro ⟨-, hlast⟩
  exact hlast _ List.mem_cons_self rfl

end PredictiveParser
