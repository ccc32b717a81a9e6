import Mathlib
import PredictiveParser.Proofs.Lookahead.Bound

/-!
# Searches end, and what they find is exact

What a search is to find is told by rules that know neither a limit on calls nor an order of visits nor
what was met before: what a configuration stands for (`Lookahead.Unfolds`), and when it takes a terminal
(`Lookahead.Takes`). A terminal set comes next if some configuration that can be unfolded takes it
(`Lookahead.ComesNext`).

* `not_endless`: no search goes on for ever, however often rules call themselves and loops match nothing.
* `steps_exact`: a search finds exactly what comes next, or it meets a call that is nested too deep.
-/
namespace PredictiveParser

open Relation

namespace Lookahead

variable {la : Lookahead} {offset : Nat} {config config' next : Config} {set : CharSet}

/-! ## What comes next -/

/-- A terminal of the set can be matched next, which leaves the last configuration. -/
def ComesNext (la : Lookahead) (offset : Nat) (config : Config) (set : CharSet) (next : Config) :
    Prop :=
  ∃ c, ReflTransGen (la.Unfolds offset) config c ∧ la.Takes c set next

/-! ## What is reached -/

theorem unfolds_of_reached (h : ReflTransGen (la.Expands offset) config config') :
    ReflTransGen (la.Unfolds offset) config config' :=
  ReflTransGen.mono (fun _ _ => Expands.unfolds) _ _ h

/-- A search that ends has met everything that its start can be unfolded to. -/
theorem reached_of_unfolds {found : List (CharSet × Config)}
    (hfound : la.steps config offset = .ok found)
    (h : ReflTransGen (la.Unfolds offset) config config') :
    ReflTransGen (la.Expands offset) config config' := by
  induction h with
  | refl => exact .refl
  | tail _ hunfolds ih =>
    obtain ⟨expansion, hexpand⟩ := exists_expand_of_steps hfound ih
    exact ih.tail (hunfolds.expands hexpand)

theorem mem_steps_iff_comesNext {found : List (CharSet × Config)}
    (hfound : la.steps config offset = .ok found) :
    (set, next) ∈ found ↔ la.ComesNext offset config set next := by
  rw [mem_steps_iff hfound]
  constructor
  · rintro ⟨c, hreached, hoffers⟩
    exact ⟨c, unfolds_of_reached hreached, offers_iff_takes.1 hoffers⟩
  · rintro ⟨c, hunfolds, htakes⟩
    exact ⟨c, reached_of_unfolds hfound hunfolds, offers_iff_takes.2 htakes⟩

/-! ## The end of a search -/

/-- No search goes on for ever: every step leaves less to do. -/
theorem not_endless (hf : la.grammar.Forest) (h : la.Searchable config) {run : Nat → Search}
    (hstart : run 0 = ⟨[config], [], []⟩) :
    ¬ ∀ i, la.searchStep offset (run i) = .ok (.inl (run (i + 1))) := by
  intro hrun
  obtain ⟨height, hheight⟩ : ∃ height, height =
      config.stack.length + (la.recursionLimit + 1) * callRoom la.grammar := ⟨_, rfl⟩
  have hmeets : ∀ i, la.SearchMeets offset height config (run i) ∧
      la.searchLeft height (run i) + i ≤ la.searchLeft height (run 0) := by
    intro i
    induction i with
    | zero =>
      rw [hstart]
      exact ⟨.initial hf h hheight.ge, Nat.le_refl _⟩
    | succ i ih =>
      obtain ⟨hmeets, hless⟩ := ih.1.step hf (hrun i)
      exact ⟨hmeets, by omega⟩
  have hlast := (hmeets (la.searchLeft height (run 0) + 1)).2
  omega

/-- **Searches end and are exact.** From a configuration over the trees of a validated grammar, with its
checks in order, no search goes on for ever. When it gives an answer, the answer has exactly what comes
next from the configuration. It gives none only when the configuration can be unfolded to a call that is
nested too deep. -/
theorem steps_exact (hvalid : la.grammar.validate = .ok ())
    (hstack : ∀ id, .node id ∈ config.stack → la.grammar.InUse id)
    (hchecks : config.checks.Ascending) (offset : Nat) :
    (¬ ∃ run : Nat → Search, run 0 = ⟨[config], [], []⟩ ∧
      ∀ i, la.searchStep offset (run i) = .ok (.inl (run (i + 1)))) ∧
    ((∃ found, la.steps config offset = .ok found ∧
        ∀ set next, (set, next) ∈ found ↔ la.ComesNext offset config set next) ∨
      la.steps config offset = .error (.error (.recursionLimit la.rule la.recursionLimit)) ∧
        ∃ c, ReflTransGen (la.Unfolds offset) config c ∧ la.TooDeep c) := by
  have hf := Grammar.forest_of_validate hvalid
  have hsearch : la.Searchable config := ⟨hstack, hchecks⟩
  refine ⟨fun ⟨run, hstart, hrun⟩ => not_endless hf hsearch hstart hrun, ?_⟩
  cases hsteps : la.steps config offset with
  | ok found => exact Or.inl ⟨found, rfl, fun _ _ => mem_steps_iff_comesNext hsteps⟩
  | error failure =>
    obtain ⟨rfl, htoo⟩ := steps_eq_limit hf hsearch hsteps
    obtain ⟨c, hreached, hdeep⟩ := htoo
    exact Or.inr ⟨rfl, c, unfolds_of_reached hreached, hdeep⟩

end Lookahead

/-! ## An instance -/

/-- Behind a check stands a loop in a loop, and the inner one can go round without matching anything. -/
def loops : Grammar where
  nodes := #[.ofKind (.terminal (.ofRanges [(97, 97)]) none), .ofKind (.sequence []),
    .ofKind (.alternatives (.ofArms [0, 1] .star)), .ofKind (.alternatives (.ofArms [2] .star)),
    .ofKind (.check ⟨false, .code [], none⟩), .ofKind (.sequence [4, 3])]
  rules := [("loops", .ofBody "loops" 5)]

/-- No call is entered. -/
def loopsLookahead : Lookahead := ⟨loops, "loops", .endOfInput, 0⟩

/-- The check was passed before. -/
def loopsStart : Config := ⟨[.node 5], [⟨4, 0⟩], false⟩

/-- Now it is passed again, and either the rule ends or another letter comes. -/
def loopsFound : List (CharSet × Config) :=
  [(.endOfInput, ⟨[], [⟨4, 0⟩, ⟨4, 1⟩], true⟩),
    (.ofRanges [(97, 97)], ⟨[.node 2, .node 3], [⟨4, 0⟩, ⟨4, 1⟩], false⟩)]

theorem loops_steps : loopsLookahead.steps loopsStart 1 = .ok loopsFound := by cbv

theorem loops_comesNext : loops.validate = .ok () ∧
    (∀ id, .node id ∈ loopsStart.stack → loops.InUse id) ∧ loopsStart.checks.Ascending ∧
    ∀ set next, (set, next) ∈ loopsFound ↔ loopsLookahead.ComesNext 1 loopsStart set next := by
  have hvalid : loops.validate = .ok () := rfl
  have hstack : ∀ id, .node id ∈ loopsStart.stack → loops.InUse id := by
    intro id hid
    cases List.mem_singleton.1 hid
    exact .body (show loops.rule? "loops" = some (.ofBody "loops" 5) from rfl)
  have hchecks : loopsStart.checks.Ascending := List.pairwise_singleton _ _
  refine ⟨hvalid, hstack, hchecks, ?_⟩
  rcases (Lookahead.steps_exact (show loopsLookahead.grammar.validate = .ok () from hvalid) hstack
      hchecks 1).2 with ⟨found, hfound, hexact⟩ | ⟨hfails, -⟩
  · cases loops_steps.symm.trans hfound
    exact hexact
  · cases loops_steps.symm.trans hfails

end PredictiveParser
