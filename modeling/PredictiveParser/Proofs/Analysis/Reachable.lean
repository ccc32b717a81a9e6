import Mathlib.Logic.Function.Basic
import PredictiveParser.Proofs.Method.Dispatch

/-!
# Which leaves of a prediction tree can be selected

On the way to a leaf each lookahead level looks at a terminal further ahead, so the terminals that lead
there can be chosen one after the other. An assertion level at the end takes the first branch with a set of
checks that all hold. Let just these hold: the branch is taken, unless a branch before it has fewer checks
to ask for. So a choice that has leaves is never selected only if all of them are such branches
(`Decision.Hides`), and this is exact: `Decision.Shaped.neverSelects_iff`.
-/
namespace PredictiveParser

variable {la : Lookahead} {k : Nat} {alts : Alternatives} {live : Live} {isRoot : Bool} {depth : Nat}
  {offset : Nat} {isAssertion : Bool} {branches before after : List (Branch Decision)}
  {branch : Branch Decision} {coverage : CharSet} {tree : Decision} {alt : Alt} {ahead : Nat → Int}
  {holds : CheckRef → Bool}

/-- No terminals ahead and no truth values of checks make the tree select the choice. -/
def Decision.NeverSelects (tree : Decision) (alt : Alt) : Prop :=
  ∀ (ahead : Nat → Int) (holds : CheckRef → Bool), (∀ n, IsTerminal (ahead n)) →
    tree.select ahead holds ≠ some alt

/-- Whenever the checks of the branch hold, those of a branch before it do: each of its sets contains one
of theirs. -/
def Branch.Subsumed (before : List (Branch Decision)) (branch : Branch Decision) : Prop :=
  branch.checks ≠ [] ∧ ∀ set ∈ branch.checks, ∃ other ∈ before, ∃ fewer ∈ other.checks, fewer ⊆ set

/-- The tree has leaves for the choice, but all of them are on assertion levels, behind branches that are
taken in their place. -/
structure Decision.Hides (tree : Decision) (alt : Alt) : Prop where
  mem : alt ∈ tree.leaves
  subsumed : ∀ offset isAssertion before branch after coverage,
    tree.HasLevel offset isAssertion (before ++ branch :: after) coverage →
    branch.target = .pick alt → isAssertion = true ∧ branch.Subsumed before

/-! ## Branches that are taken -/

theorem find?_append_cons {p : Branch Decision → Bool} (hbefore : ∀ other ∈ before, p other = false)
    (hp : p branch = true) : (before ++ branch :: after).find? p = some branch :=
  List.find?_eq_some_iff_append.2 ⟨hp, before, after, rfl, fun other hother => by
    rw [hbefore other hother, Bool.not_false]⟩

/-- The only branch with the terminal is found. -/
theorem SharesOut.find?_eq (h : SharesOut branches coverage) (hb : branch ∈ branches) {c : Int}
    (hc : branch.set.contains c = true) : branches.find? (·.set.contains c) = some branch := by
  obtain ⟨before, after, rfl⟩ := List.append_of_mem hb
  refine find?_append_cons (fun other hother => ?_) hc
  have hapart := h.disjoint
  rw [List.map_append, List.map_cons, List.pairwise_append] at hapart
  exact (hapart.2.2 other.set (List.mem_map.2 ⟨other, hother, rfl⟩) branch.set List.mem_cons_self).symm
    c hc

theorem acceptsAt_checks : branch.acceptsAt ahead holds offset true = true ↔
    branch.checks = [] ∨ ∃ set ∈ branch.checks, ∀ ref ∈ set, holds ref = true := by
  simp [Branch.acceptsAt, accepts]

/-- A branch is taken for some truth values of checks, if those before it ask for something and do not
subsume it. -/
theorem Branch.exists_holds (hbefore : ∀ other ∈ before, other.checks ≠ [] ∧ ∀ set ∈ other.checks, set ≠ [])
    (h : ¬branch.Subsumed before) (ahead : Nat → Int) (offset : Nat) : ∃ holds : CheckRef → Bool,
      branch.acceptsAt ahead holds offset true = true ∧
        ∀ other ∈ before, other.acceptsAt ahead holds offset true = false := by
  by_cases hchecks : branch.checks = []
  · refine ⟨fun _ => false, acceptsAt_checks.2 (Or.inl hchecks), fun other hother => ?_⟩
    obtain ⟨hne, hsets⟩ := hbefore other hother
    refine Bool.eq_false_iff.2 fun haccepts => ?_
    obtain ⟨set, hset, hall⟩ := (acceptsAt_checks.1 haccepts).resolve_left hne
    obtain ⟨ref, href⟩ := List.exists_mem_of_ne_nil _ (hsets set hset)
    cases hall ref href
  · -- Let the checks hold that no branch before asks for less than.
    obtain ⟨set, hset, hleast⟩ : ∃ set ∈ branch.checks, ∀ other ∈ before, ∀ fewer ∈ other.checks,
        ¬fewer ⊆ set := by
      by_contra hnone
      push Not at hnone
      exact h ⟨hchecks, hnone⟩
    refine ⟨fun ref => set.contains ref, acceptsAt_checks.2 (Or.inr ⟨set, hset, fun ref href => ?_⟩),
      fun other hother => Bool.eq_false_iff.2 fun haccepts => ?_⟩
    · exact List.contains_iff_mem.2 href
    · obtain ⟨fewer, hfewer, hall⟩ :=
        (acceptsAt_checks.1 haccepts).resolve_left (hbefore other hother).1
      exact hleast other hother fewer hfewer fun ref href => List.contains_iff_mem.1 (hall ref href)

/-- Where a branch is subsumed and its checks hold, it is not the first to accept. -/
theorem Branch.Subsumed.exists_acceptsAt (h : branch.Subsumed before)
    (haccepts : branch.acceptsAt ahead holds offset true = true) :
    ∃ other ∈ before, other.acceptsAt ahead holds offset true = true := by
  obtain ⟨hne, hsets⟩ := h
  obtain ⟨set, hset, hall⟩ := (acceptsAt_checks.1 haccepts).resolve_left hne
  obtain ⟨other, hother, fewer, hfewer, hsub⟩ := hsets set hset
  exact ⟨other, hother, acceptsAt_checks.2 (Or.inr ⟨fewer, hfewer, fun ref href => hall ref (hsub href)⟩)⟩

namespace Decision

/-! ## From a leaf to the input that leads there -/

theorem isTerminal_update {base : Nat → Int} (hbase : ∀ n, IsTerminal (base n)) (offset : Nat) {c : Int}
    (hc : IsTerminal c) (n : Nat) : IsTerminal (Function.update base offset c n) := by
  rw [Function.update_apply]
  split
  · exact hc
  · exact hbase n

/-- The next terminal leads to the branch that has it. -/
theorem select_of_sharesOut {branches : List (Branch Decision)} {coverage : CharSet}
    (h : SharesOut branches coverage) {ahead : Nat → Int} {offset : Nat} (hb : branch ∈ branches)
    (hc : branch.set.contains (ahead offset) = true) (holds : CheckRef → Bool) :
    (level offset false branches coverage).select ahead holds = branch.target.select ahead holds := by
  have hfind : branches.find? (·.acceptsAt ahead holds offset false) = some branch := by
    simp only [acceptsAt_lookahead]
    exact h.find?_eq hb hc
  rw [Decision.select_level, hfind, Option.bind_some]

/-- **A branch that leads to a choice is taken for some input**, unless it is subsumed. The terminals that
come before the level may be any. -/
theorem Shaped.exists_select (h : tree.Shaped la k alts isRoot depth live)
    (hlevel : tree.HasLevel offset isAssertion (before ++ branch :: after) coverage)
    (hleaf : branch.target = .pick alt) (hfree : isAssertion = true → ¬branch.Subsumed before)
    (base : Nat → Int) (hbase : ∀ n, IsTerminal (base n)) :
    ∃ (ahead : Nat → Int) (holds : CheckRef → Bool), (∀ n, IsTerminal (ahead n)) ∧
      (∀ n < depth, ahead n = base n) ∧ tree.select ahead holds = some alt := by
  induction h generalizing base with
  | pick => cases hlevel
  | skipped within next whole below ih =>
    obtain ⟨ahead, holds, hahead, hsame, hselect⟩ := ih hlevel base hbase
    exact ⟨ahead, holds, hahead, fun n hn => hsame n (Nat.lt_succ_of_lt hn), hselect⟩
  | @lookahead _ above _ _ others _ within next shares choice claimed errors targets spare ih =>
    cases hlevel with
    | root =>
      obtain ⟨c, hc⟩ := shares.inhabited branch (List.mem_append_right _ List.mem_cons_self)
      refine ⟨Function.update base offset c, fun _ => false,
        isTerminal_update hbase offset (CharSet.isTerminal_of_contains hc),
        fun n hn => Function.update_of_ne hn.ne _ _, ?_⟩
      rw [select_of_sharesOut shares (List.mem_append_right _ List.mem_cons_self)
        ((Function.update_self offset c base).symm ▸ hc), hleaf, select_pick]
    | @under _ _ _ _ middle mem target =>
      -- The terminal is one of the branch that the level is below.
      obtain ⟨c, hc⟩ := shares.inhabited middle mem
      rcases shares.inside_or_spare spare mem with ⟨region, hr, hmeets⟩ | ⟨other, hpick, -⟩
      · obtain ⟨ahead, holds, hahead, hsame, hselect⟩ := ih middle mem region hr hmeets target
          (Function.update base above c) (isTerminal_update hbase above (CharSet.isTerminal_of_contains hc))
        have hhere : ahead above = c :=
          (hsame above (Nat.lt_succ_self _)).trans (Function.update_self ..)
        refine ⟨ahead, holds, hahead, fun n hn => ?_,
          (select_of_sharesOut shares mem (hhere.symm ▸ hc) holds).trans hselect⟩
        rw [hsame n (by omega), Function.update_of_ne hn.ne]
      · rw [hpick] at target
        cases target
  | @assertion _ _ asking fallback _ last tested tests unconditional leaf valid =>
    revert hlevel
    generalize hbranches : asking ++ [fallback] = others
    intro hlevel
    cases hlevel with
    | root =>
      have hbefore : ∀ other ∈ before, other ∈ asking := by
        have hdrop := congrArg List.dropLast hbranches
        rw [List.dropLast_concat, List.dropLast_append_of_ne_nil (List.cons_ne_nil _ _)] at hdrop
        exact fun other hother => hdrop ▸ List.mem_append_left _ hother
      obtain ⟨holds, haccepts, hskip⟩ := Branch.exists_holds
        (fun other hother => ⟨(tests other (hbefore other hother)).1,
          (tests other (hbefore other hother)).2.1⟩) (hfree rfl) base offset
      refine ⟨base, holds, hbase, fun _ _ => rfl, ?_⟩
      rw [select_level, find?_append_cons hskip haccepts, Option.bind_some, hleaf, select_pick]
    | under mem target =>
      -- There are only leaves below an assertion level.
      rw [← hbranches] at mem
      rcases List.mem_append.1 mem with hm | hm
      · obtain ⟨-, -, other, -, hpick, -⟩ := tests _ hm
        rw [hpick] at target
        cases target
      · rw [List.mem_singleton.1 hm, leaf] at target
        cases target

/-! ## From a selected choice to its leaf -/

theorem Shaped.wellFormed (h : tree.Shaped la k alts isRoot depth live) : tree.WellFormed := by
  induction h with
  | pick valid => exact .pick _
  | lookahead within next shares choice claimed errors targets spare ih =>
    refine .lookahead shares.exhaustive shares.covered fun branch hb => ?_
    rcases shares.inside_or_spare spare hb with ⟨region, hr, hmeets⟩ | ⟨alt, hpick, -⟩
    · exact ih branch hb region hr hmeets
    · exact hpick ▸ .pick alt
  | skipped within next whole below ih => exact ih
  | assertion tested tests unconditional leaf valid =>
    refine .assertion unconditional fun branch hb => ?_
    rcases List.mem_append.1 hb with hb | hb
    · obtain ⟨-, -, alt, -, hpick, -⟩ := tests branch hb
      exact hpick ▸ .pick alt
    · rw [List.mem_singleton.1 hb, leaf]
      exact .pick _

/-- On some level of the tree, the first branch that accepts leads to the choice. -/
def TakesLeaf (tree : Decision) (ahead : Nat → Int) (holds : CheckRef → Bool) (alt : Alt) : Prop :=
  ∃ offset isAssertion before branch after coverage,
    tree.HasLevel offset isAssertion (before ++ branch :: after) coverage ∧
    branch.target = .pick alt ∧ branch.acceptsAt ahead holds offset isAssertion = true ∧
    ∀ other ∈ before, other.acceptsAt ahead holds offset isAssertion = false

theorem TakesLeaf.under (hb : branch ∈ branches) (h : branch.target.TakesLeaf ahead holds alt) :
    (level offset isAssertion branches coverage).TakesLeaf ahead holds alt := by
  obtain ⟨offset', isAssertion', before, inner, after, coverage', hlevel, hleaf⟩ := h
  exact ⟨offset', isAssertion', before, inner, after, coverage', .under hb hlevel, hleaf⟩

/-- What is selected below the root is behind a branch that is taken. -/
theorem WellFormed.takesLeaf (h : tree.WellFormed) (hselect : tree.select ahead holds = some alt) :
    tree = .pick alt ∨ tree.TakesLeaf ahead holds alt := by
  have step : ∀ {offset : Nat} {isAssertion : Bool} {coverage : CharSet} {branches : List (Branch Decision)},
      (∀ branch ∈ branches, branch.target.select ahead holds = some alt →
        branch.target = .pick alt ∨ branch.target.TakesLeaf ahead holds alt) →
      (level offset isAssertion branches coverage).select ahead holds = some alt →
      (level offset isAssertion branches coverage).TakesLeaf ahead holds alt := by
    intro offset isAssertion coverage branches ih hselect
    rw [select_level, Option.bind_eq_some_iff] at hselect
    obtain ⟨branch, hfind, hselect⟩ := hselect
    obtain ⟨haccepts, before, after, rfl, hskip⟩ := List.find?_eq_some_iff_append.1 hfind
    have hb : branch ∈ before ++ branch :: after := List.mem_append_right _ List.mem_cons_self
    rcases ih branch hb hselect with hleaf | htaken
    · exact ⟨_, _, before, branch, after, _, .root, hleaf, haccepts, fun other hother => by
        simpa using hskip other hother⟩
    · exact htaken.under hb
  induction h with
  | pick other =>
    rw [select_pick] at hselect
    exact Or.inl (by rw [Option.some.inj hselect])
  | lookahead accepting covering targets ih => exact Or.inr (step ih hselect)
  | assertion unconditional targets ih => exact Or.inr (step ih hselect)

/-- **Which choices are never selected**: those without a leaf, and those with leaves that are all behind
subsumed branches. -/
theorem Shaped.neverSelects_iff (h : tree.Shaped la k alts true 0 live) :
    tree.NeverSelects alt ↔ alt ∉ tree.leaves ∨ tree.Hides alt := by
  constructor
  · intro hnever
    by_cases hmem : alt ∈ tree.leaves
    · refine Or.inr ⟨hmem, fun offset isAssertion before branch after coverage hlevel hleaf => ?_⟩
      by_contra hfree
      obtain ⟨ahead, holds, hahead, -, hselect⟩ := h.exists_select hlevel hleaf
        (fun hassertion hsubsumed => hfree ⟨hassertion, hsubsumed⟩) (fun _ => eof)
        fun _ => ⟨le_rfl, by decide⟩
      exact hnever ahead holds hahead hselect
    · exact Or.inl hmem
  · rintro (hmem | hhides) ahead holds hahead hselect
    · exact hmem (mem_leaves_of_select h.wellFormed hselect)
    · rcases h.wellFormed.takesLeaf hselect with rfl | ⟨offset, isAssertion, before, branch, after,
        coverage, hlevel, hleaf, haccepts, hskip⟩
      · cases h
      · obtain ⟨rfl, hsubsumed⟩ := hhides.subsumed _ _ _ _ _ _ hlevel hleaf
        obtain ⟨other, hother, hyes⟩ := hsubsumed.exists_acceptsAt haccepts
        rw [hskip other hother] at hyes
        cases hyes

/-- A choice without a leaf is one that is never selected, and not for its branches being subsumed. -/
theorem Shaped.not_mem_leaves_iff (h : tree.Shaped la k alts true 0 live) :
    alt ∉ tree.leaves ↔ tree.NeverSelects alt ∧ ¬tree.Hides alt := by
  rw [h.neverSelects_iff]
  constructor
  · exact fun hnone => ⟨Or.inl hnone, fun hhides => hnone hhides.mem⟩
  · rintro ⟨hnone | hhides, hnot⟩
    · exact hnone
    · exact (hnot hhides).elim

end Decision

end PredictiveParser
