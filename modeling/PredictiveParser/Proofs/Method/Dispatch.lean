import PredictiveParser.Proofs.Analysis.TreeShape
import PredictiveParser.Proofs.Method.Decision
import PredictiveParser.Proofs.Method.Total

/-!
# A lowered level goes to the branch that has the terminal

The branches of a lookahead level of an analyzed rule share out the universe, so for each terminal there
is one branch that has it. Lowered code of the level goes on with the code of this branch, be it by a
multi-way branch, by a chain of conditionals, or by both (`Dispatches`). The threshold from which there
is a multi-way branch is that of the method, which may be any.
-/
namespace PredictiveParser

open Relation

/-! ## The levels of a tree -/

namespace Decision

/-- The tree has this level, at its root or below. -/
inductive HasLevel (offset : Nat) (isAssertion : Bool) (branches : List (Branch Decision))
    (coverage : CharSet) : Decision → Prop where
  | root : HasLevel offset isAssertion branches coverage (.level offset isAssertion branches coverage)
  | under {above : Nat} {asserts : Bool} {others : List (Branch Decision)} {covers : CharSet}
      {branch : Branch Decision} (mem : branch ∈ others)
      (target : HasLevel offset isAssertion branches coverage branch.target) :
      HasLevel offset isAssertion branches coverage (.level above asserts others covers)

variable {offset : Nat} {isAssertion : Bool} {branches : List (Branch Decision)} {coverage : CharSet}
  {tree : Decision}

theorem HasLevel.wellFormed (h : tree.HasLevel offset isAssertion branches coverage)
    (hwf : tree.WellFormed) : (level offset isAssertion branches coverage).WellFormed := by
  induction h with
  | root => exact hwf
  | under mem _ ih => exact ih (hwf.target mem)

/-- The branches of a lookahead level share out the universe, wherever the level is. -/
theorem Shaped.sharesOut {la : Lookahead} {k : Nat} {alts : Alternatives} {live : Live}
    {isRoot : Bool} {depth : Nat} (hshaped : tree.Shaped la k alts isRoot depth live)
    (h : tree.HasLevel offset false branches coverage) : SharesOut branches coverage := by
  induction hshaped with
  | pick => cases h
  | lookahead within next shares choice claimed errors targets spare ih =>
    cases h with
    | root => exact shares
    | under mem target =>
      rcases shares.inside_or_spare spare mem with ⟨region, hr, hmeets⟩ | ⟨alt, hpick, -⟩
      · exact ih _ mem region hr hmeets target
      · rw [hpick] at target
        cases target
  | skipped within next whole below ih => exact ih h
  | assertion tested tests unconditional leaf valid =>
    cases h with
    | under mem target =>
      -- There are only leaves below an assertion level.
      rcases List.mem_append.1 mem with hm | hm
      · obtain ⟨-, -, alt, -, hpick, -⟩ := tests _ hm
        rw [hpick] at target
        cases target
      · rw [List.mem_singleton.1 hm, leaf] at target
        cases target

end Decision

/-! ## The branch that has a terminal -/

/-- The place of the first branch that has the terminal. -/
def placeOf (branches : List (Branch Decision)) (c : Int) : Nat :=
  branches.findIdx (·.set.contains c)

namespace SharesOut

variable {branches : List (Branch Decision)} {coverage : CharSet} {c : Int}

theorem placeOf_lt (h : SharesOut branches coverage) (hc : IsTerminal c) :
    placeOf branches c < branches.length :=
  List.findIdx_lt_length_of_exists (h.exhaustive c hc)

/-- The branch at this place has the terminal, and no other has it. -/
theorem contains_iff (h : SharesOut branches coverage) (hc : IsTerminal c) {index : Nat}
    {branch : Branch Decision} (hb : branches[index]? = some branch) :
    branch.set.contains c = true ↔ index = placeOf branches c := by
  have hlt := h.placeOf_lt hc
  have hplace : branches[placeOf branches c].set.contains c = true := by
    unfold placeOf at hlt
    exact @List.findIdx_getElem _ (fun branch : Branch Decision => branch.set.contains c) _ hlt
  obtain ⟨hindex, rfl⟩ := List.getElem?_eq_some_iff.1 hb
  constructor
  · intro hholds
    have hapart := List.pairwise_iff_getElem.1 (List.pairwise_map.1 h.disjoint)
    rcases Nat.lt_trichotomy index (placeOf branches c) with hless | heq | hless
    · rw [hapart index _ hindex hlt hless c hholds] at hplace
      cases hplace
    · exact heq
    · rw [hapart _ index hlt hindex hless c hplace] at hholds
      cases hholds
  · rintro rfl
    exact hplace

end SharesOut

/-! ## The code of a level -/

/-- The code goes on with the code of the branch that has the terminal so many places ahead, with
nothing changed but lookahead variables. -/
def GoesOnWith (offset : Nat) (branches : List (Branch Decision)) (codes : List (List Stmt))
    (code : List Stmt) : Prop :=
  ∀ (σ : Type) [Source σ] [LawfulSource σ] (w : World σ) (s : Running σ), ∃ s', s.Peeks s' ∧
    ∀ o, Runs w (.all code) s o ↔
      Runs w (.all (codes.getD (placeOf branches (Source.lookahead s.source offset)) [])) s' o

section

variable {m : MethodPlan} {offset : Nat} {branches : List (Branch Decision)} {coverage : CharSet}
  {codes : List (List Stmt)} {code : List Stmt} {st st' : LowerState}

/-- Of branches that share out the universe, the first that accepts is the one that has the
terminal. -/
theorem goesOnWith_lowerLevel (hshares : SharesOut branches coverage)
    (hwf : (Decision.level offset false branches coverage).WellFormed)
    (hlen : branches.length = codes.length)
    (h : Yields (m.lowerLevel (.ofLevel m.switchThreshold false branches) offset false branches codes)
      st code st') : GoesOnWith offset branches codes code := by
  intro σ _ _ w s
  have hc := isTerminal s.source offset
  obtain ⟨branch, body, s', hfind, hmem, hpeeks, hruns⟩ := runs_lowerLevel hwf hlen h w s
  refine ⟨s', hpeeks, fun o => ?_⟩
  have hholds : branch.set.contains (Source.lookahead s.source offset) = true := by
    simpa [Branch.acceptsIn, Branch.acceptsAt, accepts] using List.find?_some hfind
  obtain ⟨index, hindex⟩ := List.mem_iff_getElem?.1 hmem
  obtain ⟨hbranch, hbody⟩ := List.getElem?_zip_eq_some.1 hindex
  rw [← (hshares.contains_iff hc hbranch).1 hholds, List.getD_eq_getElem?_getD, hbody]
  exact hruns o

end

/-- How lowered code takes the branches of a lookahead level: each terminal is in one of them, and
whichever method the level is lowered for, the code goes on with this one. -/
structure Dispatches (offset : Nat) (branches : List (Branch Decision)) (coverage : CharSet) :
    Prop where
  exists_branch : ∀ c, IsTerminal c → placeOf branches c < branches.length
  only_branch : ∀ c, IsTerminal c → ∀ index branch, branches[index]? = some branch →
    (branch.set.contains c = true ↔ index = placeOf branches c)
  /-- Each branch may have any code. -/
  lowerLevel : ∀ (m : MethodPlan) codes st, codes.length = branches.length → ∃ code st',
    Yields (m.lowerLevel (.ofLevel m.switchThreshold false branches) offset false branches codes) st
      code st' ∧ GoesOnWith offset branches codes code
  /-- As part of a tree, each branch has the code of what is behind it. -/
  lowerDecision : ∀ (m : MethodPlan) enclosure leaves above label st code label' st',
    Yields (m.lowerDecision enclosure leaves above label (.level offset false branches coverage)) st
      (code, label') st' →
    ∃ codes, List.Forall₂ (fun (branch : Branch Decision) code => ∃ l l' st₁ st₂,
        Yields (m.lowerDecision enclosure leaves coverage l branch.target) st₁ (code, l') st₂)
        branches codes ∧
      GoesOnWith offset branches codes code

theorem SharesOut.dispatches {offset : Nat} {branches : List (Branch Decision)} {coverage : CharSet}
    (h : SharesOut branches coverage)
    (hwf : (Decision.level offset false branches coverage).WellFormed) :
    Dispatches offset branches coverage where
  exists_branch _ hc := h.placeOf_lt hc
  only_branch _ hc _ _ hb := h.contains_iff hc hb
  lowerLevel m codes st hlen := by
    -- Tests of terminals can always be written.
    have htests : ∀ branch ∈ branches, ∃ test, m.branchTest offset false branch = .ok test :=
      fun branch _ => ⟨.inSet offset (branch.set.optimize branch.covered), rfl⟩
    obtain ⟨code, st', hcode, -⟩ := MethodPlan.total_lowerLevel htests st
    exact ⟨code, st', hcode, goesOnWith_lowerLevel h hwf hlen.symm hcode⟩
  lowerDecision m enclosure leaves above label st code label' st' hcode := by
    obtain ⟨label₁, st₁, codes, st₂, -, hbranches, hlevel⟩ := yields_lowerDecision_level.1 hcode
    have htargets := lowered_targets hbranches
    exact ⟨codes, htargets, goesOnWith_lowerLevel h hwf htargets.length_eq hlevel⟩

/-! ## Analyzed rules -/

/-- **Every lookahead level goes to the branch that has the terminal.** This holds of all levels in the
trees of an analyzed rule, however many branches it takes to make a multi-way branch. -/
theorem Grammar.dispatches_of_analyzeRule {g g' : Grammar} {journal journal' : List Event}
    {name : String} {follow : FollowSets} {options : Options} (hvalid : g.validate = .ok ())
    (h : Yields (analyzeRule name follow options) (g, journal) ⟨⟩ (g', journal')) :
    ∃ rule, g.rule? name = some rule ∧ ∀ place alts, g.Occurs rule.body place →
      g.kindAt? place.node = some (.alternatives alts) → ∃ tree,
        g'.kindAt? place.node = some (.alternatives { alts with prediction := some tree }) ∧
        ∀ offset branches coverage, tree.HasLevel offset false branches coverage →
          Dispatches offset branches coverage := by
  obtain ⟨rule, hrule, hall⟩ := exists_predictionOf_of_analyzeRule hvalid h
  refine ⟨rule, hrule, fun place alts hoccurs hk => ?_⟩
  obtain ⟨tree, warnings, hk', htree⟩ := hall place alts hoccurs hk
  have halts := (forest_of_validate hvalid).valid_alternatives hrule hoccurs hk
  have hone : 1 ≤ lookaheadDepth rule options := Nat.le_max_right _ _
  have hlive := Live.of_initialLive place.node place.after halts.arms
  have hdepth : 0 + (lookaheadDepth rule options - 1) + 1 = lookaheadDepth rule options := by omega
  have hshaped := shaped_buildLevel halts hlive hdepth htree
  have hwf := wellFormed_buildLevel htree
  exact ⟨tree, hk', fun offset branches coverage hlevel =>
    (hshaped.sharesOut hlevel).dispatches (hlevel.wellFormed hwf)⟩

/-- The tree of `pairs` has a level for each of two terminals. -/
theorem pairs_dispatches : ∃ first second coverage coverage',
    pairsTree.HasLevel 0 false first coverage ∧ Dispatches 0 first coverage ∧
    pairsTree.HasLevel 1 false second coverage' ∧ Dispatches 1 second coverage' := by
  obtain ⟨rule, hrule, hall⟩ :=
    Grammar.dispatches_of_analyzeRule (by decide +kernel) pairs_analyzed
  cases hrule
  obtain ⟨tree, hk, hdispatches⟩ := hall ⟨6, []⟩ (.ofArms [2, 5] .star) .refl rfl
  cases hk
  have hfirst : pairsTree.HasLevel 0 false _ _ := .root
  have hsecond : pairsTree.HasLevel 1 false _ _ := .under List.mem_cons_self .root
  exact ⟨_, _, _, _, hfirst, hdispatches _ _ _ hfirst, hsecond, hdispatches _ _ _ hsecond⟩

end PredictiveParser
