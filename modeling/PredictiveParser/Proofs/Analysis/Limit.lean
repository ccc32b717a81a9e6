import Mathlib.Tactic.IntervalCases
import PredictiveParser.Proofs.Analysis.Failing
import PredictiveParser.Proofs.Analysis.Total
import PredictiveParser.Proofs.Grammar.Growth
import PredictiveParser.Proofs.Lookahead.Nesting

/-!
# What the recursion limit means

Where the analysis gives up because of the recursion limit, the grammar allows more nested calls than
the limit, and the searches have come to the last of them
(`Grammar.nestedCalls_of_recursionLimit`). For follow sets no terminal is matched on the way. For a
decision fewer terminals are matched than it may look at, since a search goes on with the calls that
were entered before the terminals that are already matched.
-/
namespace PredictiveParser

open Relation

/-- The failure is no recursion limit, or one for which `P` holds. -/
def Failure.OnLimit (P : String → Nat → Prop) (failure : Failure GenerationError) : Prop :=
  ∀ rule limit, failure = .error (.recursionLimit rule limit) → P rule limit

/-- From a stack on, searches come to more than `limit` nested calls before `k` terminals. -/
def Grammar.ExceedsLimit (g : Grammar) (limit k : Nat) (start : List Frame) : Prop :=
  ∃ calls ahead id, limit < calls ∧ ahead < k ∧ g.NestedCalls start calls ahead id

namespace Lookahead

variable {la : Lookahead} {start : List Frame} {last : Nat}

theorem advances_insideFrom (la : Lookahead) (start : List Frame) (last : Nat) :
    la.Advances last (la.InsideFrom start) (Failure.OnLimit fun rule limit =>
      rule = la.rule ∧ limit = la.recursionLimit ∧
        la.grammar.ExceedsLimit la.recursionLimit (last + 1) start) where
  fails offset config hoffset h := by
    rintro failure hfailure rule limit rfl
    obtain ⟨hrule, hlimit, calls, id, hcalls, hnested⟩ := h.recursionLimit hfailure
    exact ⟨hrule, hlimit, calls, offset, id, hcalls, by omega, hnested⟩
  next _ _ _ _ h hfound := h.steps hfound

end Lookahead

namespace Grammar

variable {g : Grammar} {body : NodeId}

/-! ## Continuations -/

theorem callDepth_behindArm {alts : Alternatives} {id : NodeId} {after : List Frame}
    (h : Config.callDepth after = 0) : Config.callDepth (alts.behindArm id after) = 0 := by
  unfold Alternatives.behindArm
  split
  · exact Config.callDepth_node.trans h
  · exact h

/-- What comes after a place in a rule is in the same rule. -/
theorem Occurs.callDepth {place : Place} (h : g.Occurs body place) :
    Config.callDepth place.after = 0 := by
  induction h with
  | refl => rfl
  | @tail place place' _ hunder ih =>
    obtain ⟨kind, -, hm⟩ := hunder
    cases kind with
    | sequence items =>
      obtain ⟨⟨item, rest⟩, -, rfl⟩ := List.mem_map.1 hm
      show Config.callDepth (rest.map .node ++ place.after) = 0
      rw [Config.callDepth_append, Config.callDepth_map_node, ih]
    | alternatives alts =>
      obtain ⟨arm, -, rfl⟩ := List.mem_map.1 hm
      exact callDepth_behindArm ih
    | gate predict matched =>
      rw [List.mem_singleton.1 hm]
      exact ih
    | check | call | terminal => cases hm

theorem callDepth_initialLive {place : Place} {alts : Alternatives} {alt : Alt} {config : Config}
    (hoccurs : g.Occurs body place)
    (h : (initialLive place.node alts place.after).Has alt config) :
    ∃ stack, config = .ofStack stack ∧ Config.callDepth stack = 0 := by
  rcases has_initialLive h with ⟨arm, -, rfl⟩ | ⟨-, rfl⟩
  · exact ⟨_, rfl, Config.callDepth_node.trans (callDepth_behindArm hoccurs.callDepth)⟩
  · exact ⟨_, rfl, hoccurs.callDepth⟩

/-! ## The limit -/

/-- **What the recursion limit means.** Follow sets come to the limit only behind a call from which on
more calls nest than the limit allows, without a terminal. The analysis of a rule does so only where
more calls nest than the limit allows from the start of an arm or from the exit of one of its
alternative sets on, the last of them entered behind fewer terminals than the set may look at. -/
theorem nestedCalls_of_recursionLimit (hkeyed : g.Keyed) (hvalid : g.validate = .ok ())
    (options : Options) :
    (∀ name limit,
      g.followSets options.recursionLimit = .error (.error (.recursionLimit name limit)) →
      limit = options.recursionLimit ∧ ∃ rule place callee, g.rule? name = some rule ∧
        g.Occurs rule.body place ∧ g.kindAt? place.node = some (.call callee) ∧
        g.ExceedsLimit limit 1 place.after) ∧
    ∀ rule follow journal name limit state, StateT.run
        (ExceptT.run (analyzeRule rule follow options)) (g, journal) =
          (.error (.error (.recursionLimit name limit)), state) →
      name = rule ∧ limit = options.recursionLimit ∧ ∃ r place alts alt config,
        g.rule? rule = some r ∧ g.Occurs r.body place ∧
        g.kindAt? place.node = some (.alternatives alts) ∧
        (initialLive place.node alts place.after).Has alt config ∧
        g.ExceedsLimit limit (lookaheadDepth r options) config.stack := by
  have hf := forest_of_validate hvalid
  constructor
  · have key : FailsOnly (Failure.OnLimit fun name limit => limit = options.recursionLimit ∧
        ∃ rule place callee, g.rule? name = some rule ∧ g.Occurs rule.body place ∧
          g.kindAt? place.node = some (.call callee) ∧ g.ExceedsLimit limit 1 place.after)
        (g.followSets options.recursionLimit) := by
      refine failsOnly_followSets hkeyed hf fun rule hrule place callee follow hoccurs hk => ?_
      intro failure hfailure name limit heq
      have hstart :=
        Lookahead.insideFrom_ofStack ⟨g, rule.name, follow, options.recursionLimit⟩ hoccurs.callDepth
      obtain ⟨rfl, rfl, hexceeds⟩ := (Lookahead.advances_insideFrom _ _ 0).fails 0 _ (Nat.le_refl _)
        hstart failure hfailure name limit heq
      exact ⟨rfl, rule, place, callee, hkeyed.rule?_of_mem_ruleList hrule, hoccurs, hk, hexceeds⟩
    exact fun name limit h => key _ h name limit rfl
  · intro rule follow journal name limit state hrun
    cases hr : g.rule? rule with
    | none =>
      have hunknown : StateT.run (ExceptT.run (analyzeRule rule follow options)) (g, journal) =
          (.error (.error (.unknownRule rule rule)), (g, journal)) := by
        have hgrammar : StateT.run (ExceptT.run Pass.grammar) (g, journal) = (.ok g, (g, journal)) :=
          rfl
        unfold analyzeRule
        rw [run_bind, hgrammar]
        simp only [hr]
        rfl
      rw [hunknown] at hrun
      cases hrun
    | some r =>
      -- The trees of the rule are what cannot be built.
      obtain ⟨failure, hpred, hfails⟩ | ⟨s', hyields⟩ :=
        run_analyzeRule follow options hf hr journal
      rotate_left
      · rw [Yields, hrun] at hyields
        cases hyields
      rw [hfails] at hrun
      cases hrun
      have key : FailsOnly (Failure.OnLimit fun name limit => name = rule ∧
          limit = options.recursionLimit ∧ ∃ place alts alt config, g.Occurs r.body place ∧
            g.kindAt? place.node = some (.alternatives alts) ∧
            (initialLive place.node alts place.after).Has alt config ∧
            g.ExceedsLimit limit (lookaheadDepth r options) config.stack)
          (g.predictions (g.lookaheadOf rule follow options) (lookaheadDepth r options) r.body) := by
        refine failsOnly_predictions hf hr (Nat.le_refl _) fun place alts hoccurs hk => ?_
        have hadvances := Lookahead.advances_insideFrom (g.lookaheadOf rule follow options)
        have hk1 : lookaheadDepth r options - 1 + 1 = lookaheadDepth r options :=
          Nat.sub_add_cancel (Nat.le_max_right _ _)
        -- The configurations of a decision lie inside calls from the start of one of its choices on.
        refine ⟨fun offset config => ∃ alt start,
          (initialLive place.node alts place.after).Has alt (.ofStack start) ∧
            (g.lookaheadOf rule follow options).InsideFrom start offset config, ⟨?_, ?_⟩, ?_⟩
        · rintro offset config hoffset ⟨alt, start, hhas, hinside⟩ failure hfailure name limit heq
          obtain ⟨hname, rfl, hexceeds⟩ :=
            (hadvances start _).fails offset config hoffset hinside failure hfailure name limit heq
          rw [hk1] at hexceeds
          exact ⟨hname, rfl, place, alts, alt, .ofStack start, hoccurs, hk, hhas, hexceeds⟩
        · rintro offset config found hoffset ⟨alt, start, hhas, hinside⟩ hfound step hstep
          exact ⟨alt, start, hhas, hinside.steps hfound step hstep⟩
        · intro alt config hhas
          obtain ⟨start, rfl, hdepth⟩ := callDepth_initialLive hoccurs hhas
          exact ⟨alt, start, hhas, Lookahead.insideFrom_ofStack _ hdepth⟩
      obtain ⟨hname, hlimit, place, alts, alt, config, hall⟩ := key _ hpred name limit rfl
      exact ⟨hname, hlimit, r, place, alts, alt, config, rfl, hall⟩

end Grammar

/-! ## An instance -/

/-- `Start` is `A` or `ac`. In `A` the call of `B` stands behind a terminal. -/
def spaced : Grammar where
  nodes := #[.ofKind (.terminal (.ofRanges [(97, 97)]) none), .ofKind (.call "B"),
    .ofKind (.terminal (.ofRanges [(120, 120)]) none), .ofKind (.sequence [0, 1, 2]),
    .ofKind (.terminal (.ofRanges [(98, 98)]) none), .ofKind (.call "A"),
    .ofKind (.terminal (.ofRanges [(97, 97)]) none), .ofKind (.terminal (.ofRanges [(99, 99)]) none),
    .ofKind (.sequence [6, 7]), .ofKind (.alternatives (.ofArms [5, 8] .once))]
  rules := [("A", .ofBody "A" 3), ("B", .ofBody "B" 4), ("Start", .ofBody "Start" 9)]

/-- Calls may not nest. -/
def oneCall : Options := { Options.default with recursionLimit := 1 }

theorem spaced_run : (StateT.run (ExceptT.run (Grammar.analyzeRule "Start" [] oneCall))
    (spaced, [])).1 = .error (.error (.recursionLimit "Start" 1)) := by cbv

theorem spaced_keyed : spaced.Keyed := by
  refine ⟨by decide, fun entry hentry => ?_⟩
  fin_cases hentry <;> rfl

/-- No two calls nest without a terminal between them. -/
theorem spaced_within_limit (start : List Frame) : ¬ spaced.ExceedsLimit 1 1 start := by
  have hthree : spaced.kindAt? 3 = some (.sequence [0, 1, 2]) := rfl
  have hzero : spaced.kindAt? 0 = some (.terminal (.ofRanges [(97, 97)]) none) := rfl
  have hfour : spaced.kindAt? 4 = some (.terminal (.ofRanges [(98, 98)]) none) := rfl
  -- What the bodies of the called rules become before a terminal.
  have inA : ∀ {n stack stack'}, spaced.Consumes n stack stack' → n = 0 → stack = [.node 3] →
      stack' = [.node 3] ∨ stack' = [.node 0, .node 1, .node 2] := by
    intro n stack stack' h
    induction h with
    | refl stack => exact fun _ hstack => Or.inl hstack
    | terminal => exact fun hn => absurd hn (Nat.succ_ne_zero _)
    | opens _ step ih =>
      intro hn hstack
      obtain rfl | rfl := ih hn hstack
      · cases step with
        | sequence kind =>
          cases hthree.symm.trans kind
          exact Or.inr rfl
        | arm kind | exit kind | gate kind | check kind | call kind => cases hthree.symm.trans kind
      · cases step with
        | sequence kind | arm kind | exit kind | gate kind | check kind | call kind =>
          cases hzero.symm.trans kind
  have inB : ∀ {n stack stack'}, spaced.Consumes n stack stack' → n = 0 → stack = [.node 4] →
      stack' = [.node 4] := by
    intro n stack stack' h
    induction h with
    | refl stack => exact fun _ hstack => hstack
    | terminal => exact fun hn => absurd hn (Nat.succ_ne_zero _)
    | opens _ step ih =>
      intro hn hstack
      obtain rfl := ih hn hstack
      cases step with
      | sequence kind | arm kind | exit kind | gate kind | check kind | call kind =>
        cases hfour.symm.trans kind
  have called : ∀ id name, spaced.kindAt? id = some (.call name) → name = "A" ∨ name = "B" := by
    intro id name h
    have hid : id < 10 := Grammar.lt_size_of_kindAt? h
    interval_cases id <;> cases h
    · exact Or.inr rfl
    · exact Or.inl rfl
  rintro ⟨calls, ahead, id, hcalls, hahead, hnested⟩
  cases hnested with
  | first => exact absurd hcalls (Nat.lt_irrefl 1)
  | @inside calls ahead n outer id callee name rule below enclosing entered found way kind =>
    rcases called outer callee entered with rfl | rfl
    · cases found
      rcases inA way (by omega) rfl with hstack | hstack <;> cases hstack
      · cases hthree.symm.trans kind
      · cases hzero.symm.trans kind
    · cases found
      cases inB way (by omega) rfl
      cases hfour.symm.trans kind

/-- The analysis comes to the limit, although no two calls nest without a terminal between them. -/
theorem spaced_exceedsLimit : spaced.Keyed ∧ spaced.validate = .ok () ∧
    (StateT.run (ExceptT.run (Grammar.analyzeRule "Start" [] oneCall)) (spaced, [])).1 =
      .error (.error (.recursionLimit "Start" 1)) ∧
    (∀ start, ¬ spaced.ExceedsLimit 1 1 start) ∧
    ∃ r place alts alt config, spaced.rule? "Start" = some r ∧ spaced.Occurs r.body place ∧
      spaced.kindAt? place.node = some (.alternatives alts) ∧
      (initialLive place.node alts place.after).Has alt config ∧
      spaced.ExceedsLimit 1 (Grammar.lookaheadDepth r oneCall) config.stack := by
  have hvalid : spaced.validate = .ok () := by rfl
  refine ⟨spaced_keyed, hvalid, spaced_run, spaced_within_limit, ?_⟩
  exact ((Grammar.nestedCalls_of_recursionLimit spaced_keyed hvalid oneCall).2 "Start" [] [] "Start" 1
    _ (Prod.ext spaced_run rfl)).2.2

end PredictiveParser
