import Mathlib.Logic.Relation
import PredictiveParser.Grammar.Prediction
import PredictiveParser.Proofs.CharSet.Membership

/-!
# What a prediction tree selects

`Decision.select` evaluates a prediction tree on the terminals ahead and on the truth values of
checks: a level goes on with the first branch that accepts the input, if there is one.

`Decision.WellFormed` is the shape that makes the last branch of every level a fallback that needs
no test: the branches of a lookahead level accept every terminal and know what is covered before
them, and the last branch of an assertion level has no checks. Such a tree always selects something
(`WellFormed.exists_select`), and what it selects is one of its leaves (`mem_leaves_of_select`).

`Decision.DecidedBy` says that lookahead levels alone lead to a choice, so that no check is evaluated.
-/
namespace PredictiveParser

open Relation

/-- Whether a branch accepts the terminals ahead or, on an assertion level, the checks. -/
def accepts (la : Nat → Int) (holds : CheckRef → Bool) (offset : Nat) (isAssertion : Bool)
    (set : CharSet) (checks : List CheckSet) : Bool :=
  if isAssertion then checks.isEmpty || checks.any (·.all holds) else set.contains (la offset)

namespace Branch

/-- `accepts` for the set and checks of a branch. -/
def acceptsAt {δ : Type} (la : Nat → Int) (holds : CheckRef → Bool) (offset : Nat)
    (isAssertion : Bool) (branch : Branch δ) : Bool :=
  accepts la holds offset isAssertion branch.set branch.checks

end Branch

namespace Decision

mutual

/-- The choice of a tree for the terminals ahead and the truth values of checks. -/
def select (la : Nat → Int) (holds : CheckRef → Bool) : Decision → Option Alt
  | .pick alt => some alt
  | .level offset isAssertion branches _ => selectFrom la holds offset isAssertion branches

/-- The choice of the first branch that accepts. -/
def selectFrom (la : Nat → Int) (holds : CheckRef → Bool) (offset : Nat) (isAssertion : Bool) :
    List (Branch Decision) → Option Alt
  | [] => none
  | ⟨set, checks, _, target⟩ :: rest =>
    if accepts la holds offset isAssertion set checks then select la holds target
    else selectFrom la holds offset isAssertion rest

end

section

variable {la : Nat → Int} {holds : CheckRef → Bool}

@[simp] theorem select_pick (alt : Alt) : (pick alt).select la holds = some alt := by
  rw [select]

theorem selectFrom_cons (offset : Nat) (isAssertion : Bool) (branch : Branch Decision)
    (rest : List (Branch Decision)) :
    selectFrom la holds offset isAssertion (branch :: rest) =
      if branch.acceptsAt la holds offset isAssertion then branch.target.select la holds
      else selectFrom la holds offset isAssertion rest := by
  obtain ⟨set, checks, covered, target⟩ := branch
  rw [selectFrom]
  rfl

theorem selectFrom_eq (offset : Nat) (isAssertion : Bool) (branches : List (Branch Decision)) :
    selectFrom la holds offset isAssertion branches =
      (branches.find? (·.acceptsAt la holds offset isAssertion)).bind
        fun branch => branch.target.select la holds := by
  induction branches with
  | nil => rw [selectFrom]; rfl
  | cons branch rest ih =>
    rw [selectFrom_cons, List.find?_cons]
    cases branch.acceptsAt la holds offset isAssertion with
    | true => rfl
    | false => exact ih

theorem select_level (offset : Nat) (isAssertion : Bool) (branches : List (Branch Decision))
    (coverage : CharSet) :
    (level offset isAssertion branches coverage).select la holds =
      (branches.find? (·.acceptsAt la holds offset isAssertion)).bind
        fun branch => branch.target.select la holds := by
  rw [select, selectFrom_eq]

end

/-! ## Leaves -/

@[simp] theorem leaves_pick (alt : Alt) : (pick alt).leaves = [alt] := by
  rw [leaves]

theorem leavesOf_eq (branches : List (Branch Decision)) :
    leavesOf branches = branches.flatMap (·.target.leaves) := by
  induction branches with
  | nil => rw [leavesOf]; rfl
  | cons branch rest ih =>
    obtain ⟨set, checks, covered, target⟩ := branch
    rw [leavesOf, ih]
    rfl

theorem leaves_level (offset : Nat) (isAssertion : Bool) (branches : List (Branch Decision))
    (coverage : CharSet) :
    (level offset isAssertion branches coverage).leaves = branches.flatMap (·.target.leaves) := by
  rw [leaves, leavesOf_eq]

/-! ## Well-formed trees -/

/-- Each branch knows the terminals of the branches before it, those before the first being
`covered`. -/
def CoversBefore (covered : CharSet) : List (Branch Decision) → Prop
  | [] => True
  | branch :: rest => branch.covered = covered ∧ CoversBefore (covered.union branch.set) rest

inductive WellFormed : Decision → Prop where
  | pick (alt : Alt) : WellFormed (.pick alt)
  | lookahead {offset : Nat} {branches : List (Branch Decision)} {coverage : CharSet}
      (accepting : ∀ c, IsTerminal c → ∃ branch ∈ branches, branch.set.contains c = true)
      (covering : CoversBefore .empty branches)
      (targets : ∀ branch ∈ branches, WellFormed branch.target) :
      WellFormed (.level offset false branches coverage)
  | assertion {offset : Nat} {branches : List (Branch Decision)} {fallback : Branch Decision}
      {coverage : CharSet} (unconditional : fallback.checks = [])
      (targets : ∀ branch ∈ branches ++ [fallback], WellFormed branch.target) :
      WellFormed (.level offset true (branches ++ [fallback]) coverage)

/-- All checks that the tree tests are at these nodes. -/
inductive TestsOnly (nodes : NodeId → Prop) : Decision → Prop where
  | pick (alt : Alt) : TestsOnly nodes (.pick alt)
  | level {offset : Nat} {isAssertion : Bool} {branches : List (Branch Decision)} {coverage : CharSet}
      (checks : ∀ branch ∈ branches, ∀ set ∈ branch.checks, ∀ ref ∈ set, nodes ref.node)
      (targets : ∀ branch ∈ branches, TestsOnly nodes branch.target) :
      TestsOnly nodes (.level offset isAssertion branches coverage)

theorem TestsOnly.imp {nodes others : NodeId → Prop} {tree : Decision} (h : tree.TestsOnly nodes)
    (himp : ∀ id, nodes id → others id) : tree.TestsOnly others := by
  induction h with
  | pick alt => exact .pick alt
  | level checks _ ih =>
    exact .level (fun branch hb set hset ref href => himp _ (checks branch hb set hset ref href)) ih

section

variable {la : Nat → Int} {holds : CheckRef → Bool}

theorem acceptsAt_lookahead (offset : Nat) (branch : Branch Decision) :
    branch.acceptsAt la holds offset false = branch.set.contains (la offset) := rfl

theorem acceptsAt_of_no_checks {branch : Branch Decision} (h : branch.checks = []) (offset : Nat) :
    branch.acceptsAt la holds offset true = true := by
  simp [Branch.acceptsAt, accepts, h]

/-- A well-formed level has a branch that accepts. -/
theorem WellFormed.exists_acceptsAt {offset : Nat} {isAssertion : Bool}
    {branches : List (Branch Decision)} {coverage : CharSet}
    (h : (level offset isAssertion branches coverage).WellFormed) (holds : CheckRef → Bool)
    (hla : ∀ n, IsTerminal (la n)) : ∃ branch ∈ branches,
      branch.acceptsAt la holds offset isAssertion = true := by
  cases h with
  | lookahead accepting _ _ =>
    obtain ⟨branch, hm, hc⟩ := accepting (la offset) (hla offset)
    exact ⟨branch, hm, hc⟩
  | assertion unconditional _ =>
    exact ⟨_, List.mem_append_right _ List.mem_cons_self,
      acceptsAt_of_no_checks unconditional offset⟩

theorem WellFormed.target {offset : Nat} {isAssertion : Bool} {branches : List (Branch Decision)}
    {coverage : CharSet} (h : (level offset isAssertion branches coverage).WellFormed)
    {branch : Branch Decision} (hb : branch ∈ branches) : branch.target.WellFormed := by
  cases h with
  | lookahead _ _ targets => exact targets branch hb
  | assertion _ targets => exact targets branch hb

/-- A well-formed tree selects something, whatever comes. -/
theorem WellFormed.exists_select {tree : Decision} (h : tree.WellFormed)
    (hla : ∀ n, IsTerminal (la n)) : ∃ alt, tree.select la holds = some alt := by
  have step : ∀ {offset isAssertion branches coverage},
      (level offset isAssertion branches coverage).WellFormed →
      (∀ branch ∈ branches, ∃ alt, branch.target.select la holds = some alt) →
      ∃ alt, (level offset isAssertion branches coverage).select la holds = some alt := by
    intro offset isAssertion branches coverage hw ih
    rw [select_level]
    cases hf : branches.find? (·.acceptsAt la holds offset isAssertion) with
    | none =>
      obtain ⟨branch, hm, ha⟩ := hw.exists_acceptsAt holds hla
      exact absurd ha (List.find?_eq_none.1 hf branch hm)
    | some branch => exact ih branch (List.mem_of_find?_eq_some hf)
  induction h with
  | pick alt => exact ⟨alt, select_pick alt⟩
  | lookahead accepting covering targets ih => exact step (.lookahead accepting covering targets) ih
  | assertion unconditional targets ih => exact step (.assertion unconditional targets) ih

theorem mem_leaves_of_select {tree : Decision} (h : tree.WellFormed) {alt : Alt}
    (hs : tree.select la holds = some alt) : alt ∈ tree.leaves := by
  have step : ∀ {offset isAssertion coverage} {branches : List (Branch Decision)},
      (∀ branch ∈ branches, branch.target.select la holds = some alt →
        alt ∈ branch.target.leaves) →
      (level offset isAssertion branches coverage).select la holds = some alt →
      alt ∈ (level offset isAssertion branches coverage).leaves := by
    intro offset isAssertion coverage branches ih hs
    rw [select_level, Option.bind_eq_some_iff] at hs
    obtain ⟨branch, hf, hs⟩ := hs
    have hm := List.mem_of_find?_eq_some hf
    rw [leaves_level]
    exact List.mem_flatMap.2 ⟨branch, hm, ih branch hm hs⟩
  induction h with
  | pick other =>
    rw [select_pick] at hs
    cases hs
    exact List.mem_singleton.2 rfl
  | lookahead _ _ _ ih => exact step ih hs
  | assertion _ _ ih => exact step ih hs

/-! ## What lookahead decides -/

/-- A lookahead level goes on with the target of its first branch that has the terminal. -/
def GoesTo (la : Nat → Int) (tree target : Decision) : Prop :=
  ∃ offset branches coverage branch, tree = .level offset false branches coverage ∧
    branches.find? (·.set.contains (la offset)) = some branch ∧ branch.target = target

/-- Lookahead levels lead to the choice, and no other levels are on the way. -/
def DecidedBy (la : Nat → Int) (tree : Decision) (alt : Alt) : Prop :=
  ReflTransGen (GoesTo la) tree (.pick alt)

theorem GoesTo.select {tree target : Decision} (h : tree.GoesTo la target) :
    tree.select la holds = target.select la holds := by
  obtain ⟨offset, branches, coverage, branch, rfl, hfind, rfl⟩ := h
  have hfind : branches.find? (·.acceptsAt la holds offset false) = some branch := hfind
  rw [select_level, hfind, Option.bind_some]

/-- What lookahead decides does not depend on checks. -/
theorem DecidedBy.select {tree : Decision} {alt : Alt} (h : tree.DecidedBy la alt) :
    tree.select la holds = some alt := by
  induction h using ReflTransGen.head_induction_on with
  | refl => exact select_pick alt
  | head hstep _ ih => rw [hstep.select, ih]

end

end Decision

end PredictiveParser
