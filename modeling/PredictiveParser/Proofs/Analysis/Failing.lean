import PredictiveParser.Proofs.Analysis.LeastFollow
import PredictiveParser.Proofs.Analysis.Longest
import PredictiveParser.Proofs.Grammar.Height

/-!
# What the analysis fails with

The analysis fails where one of its searches does. A search starts from a configuration of a decision,
or from one that an earlier search has left one terminal before, so what is known of configurations is
carried from level to level (`Lookahead.Advances`).

* `failsOnly_buildLevel`: the levels of a tree fail as the searches for them do.
* `failsOnly_predictions`, `failsOnly_followSets`: the same for the trees of a rule and for follow sets.
-/
namespace PredictiveParser

open Relation

variable {E : Failure GenerationError → Prop}

/-- From configurations with `P`, up to `last` terminals ahead, searches fail only as `E` allows and
lead to configurations with `P` one terminal further. -/
structure Lookahead.Advances (la : Lookahead) (last : Nat) (P : Nat → Config → Prop)
    (E : Failure GenerationError → Prop) : Prop where
  fails : ∀ offset config, offset ≤ last → P offset config → FailsOnly E (la.steps config offset)
  next : ∀ offset config found, offset ≤ last → P offset config →
    la.steps config offset = .ok found → ∀ step ∈ found, P (offset + 1) step.2

section

variable {la : Lookahead} {last offset left : Nat} {P : Nat → Config → Prop} {alts : Alternatives}
  {live : Live} {path : List CharSet} {deeper : Deeper}

theorem failsOnly_regionsOf (h : la.Advances last P E) (hoffset : offset ≤ last)
    (hlive : ∀ alt config, live.Has alt config → P offset config) :
    FailsOnly E (regionsOf la live offset) := by
  refine .bind (.mapM fun entry hentry => ?_) fun found _ => .ok _
  refine .bind (.mapM fun config hconfig => ?_) fun steps _ => .ok _
  exact h.fails offset config hoffset (hlive entry.1 config ⟨entry.2, hentry, hconfig⟩)

theorem Lookahead.Advances.behind (h : la.Advances last P E) (hoffset : offset ≤ last)
    (hlive : ∀ alt config, live.Has alt config → P offset config) {regions : List Region}
    (hregions : regionsOf la live offset = .ok regions) {region : Region} (hr : region ∈ regions) :
    ∀ alt config, region.live.Has alt config → P (offset + 1) config := by
  intro alt next hhas
  obtain ⟨config, steps, set, hconfig, hsteps, hm⟩ := has_of_regionsOf hregions hr hhas
  exact h.next offset config steps hoffset (hlive alt config hconfig) hsteps _ hm

theorem failsOnly_levelOf (h : la.Advances last P E) (hoffset : offset ≤ last)
    (hlive : ∀ alt config, live.Has alt config → P offset config)
    (hdeeper : ∀ build ∈ deeper, ∀ path live,
      (∀ alt config, live.Has alt config → P (offset + 1) config) → FailsOnly E (build path live)) :
    FailsOnly E (levelOf la alts offset path live deeper) := by
  refine .bind (failsOnly_regionsOf h hoffset hlive) fun regions hregions => ?_
  refine .bind (.mapM fun region hr => ?_) fun parts _ => .ok _
  have hbehind := h.behind hoffset hlive hregions hr
  unfold regionBranch
  simp only
  split
  · exact .ok _
  · exact .bind (hdeeper _ rfl _ _ hbehind) fun _ _ => .ok _
  · exact .ok _

/-- The levels of a tree fail as the searches for them do. -/
theorem failsOnly_buildLevel (h : la.Advances last P E) (hleft : offset + left ≤ last)
    (hlive : ∀ alt config, live.Has alt config → P offset config) :
    FailsOnly E (buildLevel la alts left offset path live) := by
  induction left generalizing offset path live with
  | zero =>
    rw [buildLevel]
    exact failsOnly_levelOf h hleft hlive fun _ hbuild => absurd hbuild (by simp)
  | succ left ih =>
    rw [buildLevel]
    refine failsOnly_levelOf h (by omega) hlive ?_
    intro build hbuild path live hlive
    cases Option.mem_some.1 hbuild
    exact ih (by omega) hlive

end

namespace Grammar

variable {g : Grammar} {la : Lookahead} {k last limit : Nat} {P : Nat → Config → Prop} {rule : Rule}

/-- What is known of all continuations of a rule holds where a decision begins. -/
theorem has_initialLive {place : Place} {alts : Alternatives} {alt : Alt} {config : Config}
    (h : (initialLive place.node alts place.after).Has alt config) :
    (∃ arm ∈ alts.arms, config = .ofStack (.node arm :: alts.behindArm place.node place.after)) ∨
      alts.hasExit = true ∧ config = .ofStack place.after := by
  obtain ⟨configs, hm, hconfig⟩ := h
  rcases List.mem_append.1 hm with hm | hm
  · obtain ⟨i, hi, heq⟩ := List.mem_mapIdx.1 hm
    cases heq
    exact Or.inl ⟨_, List.getElem_mem hi, List.mem_singleton.1 hconfig⟩
  · split at hm
    · rename_i hexit
      cases List.mem_singleton.1 hm
      exact Or.inr ⟨hexit, List.mem_singleton.1 hconfig⟩
    · cases hm

/-- The trees of a rule fail as the searches for them do. -/
theorem failsOnly_predictions (hf : g.Forest) {name : String} (hrule : g.rule? name = some rule)
    (hlast : k - 1 ≤ last)
    (h : ∀ place alts, g.Occurs rule.body place →
      g.kindAt? place.node = some (.alternatives alts) → ∃ P, la.Advances last P E ∧
        ∀ alt config, (initialLive place.node alts place.after).Has alt config → P 0 config) :
    FailsOnly E (g.predictions la k rule.body) := by
  have hdepth := (hf.hasDepth (mem_ruleList_of_rule? hrule)).subset matchedChildren_subset
  refine failsOnly_visitDown ⟨rule.body, []⟩ hdepth fun place node hreach hnode => ?_
  split
  · rename_i alts halts
    have hk : g.kindAt? place.node = some (.alternatives alts) :=
      (kindAt?_of_node hnode).trans (congrArg some halts)
    have harms := (hf.valid_alternatives hrule hreach hk).arms
    rw [List.isEmpty_eq_false_iff.2 harms]
    obtain ⟨P, hadvances, hlive⟩ := h place alts hreach hk
    exact .bind (failsOnly_buildLevel hadvances (by omega) hlive) fun _ _ => .ok _
  · exact .ok _

/-- Follow sets fail as the searches behind calls do. -/
theorem failsOnly_followSets (hkeyed : g.Keyed) (hf : g.Forest)
    (h : ∀ rule ∈ g.ruleList, ∀ place callee follow, g.Occurs rule.body place →
      g.kindAt? place.node = some (.call callee) →
      FailsOnly E ((⟨g, rule.name, follow, limit⟩ : Lookahead).steps (.ofStack place.after) 0)) :
    FailsOnly E (g.followSets limit) := by
  have hround : ∀ follow, FailsOnly E (g.followRound limit follow) := by
    intro follow
    refine .foldlM (I := fun _ => True) (fun rule hrule follow _ => ⟨?_, fun _ _ => trivial⟩) trivial
    refine .bind ?_ fun additions _ => .ok _
    have hdepth := (hf.hasDepth hrule).subset matchedChildren_subset
    refine failsOnly_visitDown ⟨rule.body, []⟩ hdepth fun place node hreach hnode => ?_
    split
    · rename_i callee hcall
      have hk : g.kindAt? place.node = some (.call callee) :=
        (kindAt?_of_node hnode).trans (congrArg some hcall)
      exact .bind (.bind (h rule hrule place callee _ hreach hk) fun _ _ => .ok _) fun _ _ => .ok _
    · exact .ok _
  obtain ⟨start, hstart, -⟩ := exists_initialFollow hkeyed hf
  -- Only the first round can fail.
  rcases (hround start).ok_or_error with ⟨next, hnext⟩ | ⟨failure, hfailure, hE⟩
  · obtain ⟨follow, hfollow⟩ := exists_followSets hkeyed hf hstart hnext
    exact .of_exists ⟨follow, hfollow⟩
  · obtain ⟨rounds, hrounds⟩ : ∃ rounds, g.followRounds = rounds + 1 :=
      ⟨g.followRounds - 1, by unfold followRounds; omega⟩
    rw [followSets_eq_settleFollow hstart, hrounds, settleFollow, hfailure]
    exact .error hE

end Grammar

end PredictiveParser
