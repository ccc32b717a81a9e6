import PredictiveParser.Proofs.Lookahead.Within

/-!
# Grammars without gates and checks

In a grammar without gates and checks lookahead sees what a derivation does: `Matches.reads` turns a
match into a reading of a stack, and `unchecked_of_plain` says that no configuration ever gets a
check. What counts are the nodes in the trees of the rules (`Grammar.InUse`).
-/
namespace PredictiveParser

namespace Grammar

/-- No rule has a gate or a check, and no alternative set says how to treat ambiguous input. -/
structure Plain (g : Grammar) : Prop where
  gate : ∀ id predict matched, g.InUse id → g.kindAt? id ≠ some (.gate predict matched)
  check : ∀ id check, g.InUse id → g.kindAt? id ≠ some (.check check)
  greedy : ∀ id alts, g.InUse id → g.kindAt? id = some (.alternatives alts) → alts.greedy = none

variable {g g' : Grammar}

theorem SameShape.plain (h : g.SameShape g') (hrules : g'.rules = g.rules) (hg : g.Plain) :
    g'.Plain where
  gate := by
    intro id predict matched hid hk
    obtain ⟨kind, hk, hbare⟩ := h.symm.kindAt? hk
    rw [NodeKind.of_bare_gate hbare] at hk
    exact hg.gate id predict matched (h.symm.inUse hrules.symm hid) hk
  check := by
    intro id check hid hk
    obtain ⟨kind, hk, hbare⟩ := h.symm.kindAt? hk
    obtain ⟨test, rfl, -⟩ := NodeKind.of_bare_check hbare
    exact hg.check id _ (h.symm.inUse hrules.symm hid) hk
  greedy := by
    intro id alts hid hk
    obtain ⟨kind, hk, hbare⟩ := h.symm.kindAt? hk
    obtain ⟨prediction, rfl⟩ := NodeKind.of_bare_alternatives hbare
    exact hg.greedy id { alts with prediction } (h.symm.inUse hrules.symm hid) hk

end Grammar

/-! ## Readings -/

section

variable {σ : Type} [Source σ] {g g' : Grammar} {values : CheckValues σ} {choose : Choosing σ}
  {call : Calling σ}

namespace Goal

def push (stack : List Frame) : Goal → List Frame
  | .node id => .node id :: stack
  | .all ids => pushNodes ids stack

/-- All nodes of the goal are in trees of rules. -/
def InUse (g : Grammar) : Goal → Prop
  | .node id => g.InUse id
  | .all ids => ∀ id ∈ ids, g.InUse id

end Goal

/-- What a called rule does can be read from the stack with its body. -/
def CallReads (g : Grammar) (call : Calling σ) : Prop :=
  ∀ name s c t stack u, call name s c t → g.Reads stack t u →
    ∃ rule, g.rule? name = some rule ∧ g.Reads (.node rule.body :: .ruleEnd :: stack) s u

/-- A match in a grammar without gates is a reading. -/
theorem Matches.reads (hg : g.Plain) (hcall : CallReads g call) {goal : Goal} {s t u : σ}
    {c : List Choice} (h : Matches g values choose call goal s c t) (huse : goal.InUse g)
    {stack : List Frame} (hrest : g.Reads stack t u) : g.Reads (goal.push stack) s u := by
  induction h generalizing stack u with
  | nil => exact hrest
  | cons first others ih₁ ih₂ =>
    exact ih₁ (huse _ List.mem_cons_self)
      (ih₂ (fun id hid => huse id (List.mem_cons_of_mem _ hid)) hrest)
  | sequence kind below ih => exact .sequence kind (ih (fun id hid => huse.item kind hid) hrest)
  | arm kind mode at_ allowed below ih =>
    have hm := List.mem_of_getElem? at_
    refine .arm kind hm ?_
    rw [Alternatives.behindArm, if_neg mode]
    exact ih (huse.arm kind hm) hrest
  | again kind mode at_ allowed below next ih₁ ih₂ =>
    have hm := List.mem_of_getElem? at_
    refine .arm kind hm ?_
    rw [Alternatives.behindArm, if_pos mode]
    exact ih₁ (huse.arm kind hm) (ih₂ huse hrest)
  | exit kind hasExit allowed => exact .exit kind hasExit hrest
  | gate kind below ih => exact (hg.gate _ _ _ huse kind).elim
  | check kind holds => exact (hg.check _ _ huse kind).elim
  | call kind called =>
    obtain ⟨rule, hrule, hread⟩ := hcall _ _ _ _ _ _ called hrest
    exact .call kind hrule hread
  | terminal kind accepted => exact .terminal kind accepted hrest

namespace Grammar

theorem callReads_matchesRule (hg : g.Plain) (depth : Nat) :
    CallReads g (g.MatchesRule values choose depth) := by
  induction depth with
  | zero =>
    intro name s c t stack u h
    exact h.elim
  | succ depth ih =>
    rintro name s c t stack u ⟨rule, hrule, h⟩ hrest
    exact ⟨rule, hrule, h.reads hg ih (InUse.body hrule) (.ruleEnd hrest)⟩

/-- Readings depend on the shape of the grammar only. -/
theorem SameShape.reads (h : g.SameShape g') (hrules : g'.rules = g.rules) {stack : List Frame}
    {s t : σ} (hr : g.Reads stack s t) : g'.Reads stack s t := by
  induction hr with
  | nil => exact .nil
  | ruleEnd _ ih => exact .ruleEnd ih
  | sequence kind _ ih =>
    obtain ⟨kind', hk, hbare⟩ := h.kindAt? kind
    rw [NodeKind.of_bare_sequence hbare] at hk
    exact .sequence hk ih
  | arm kind mem _ ih =>
    obtain ⟨kind', hk, hbare⟩ := h.kindAt? kind
    obtain ⟨prediction, rfl⟩ := NodeKind.of_bare_alternatives hbare
    exact .arm hk mem ih
  | exit kind hasExit _ ih =>
    obtain ⟨kind', hk, hbare⟩ := h.kindAt? kind
    obtain ⟨prediction, rfl⟩ := NodeKind.of_bare_alternatives hbare
    exact .exit hk hasExit ih
  | gate kind _ ih =>
    obtain ⟨kind', hk, hbare⟩ := h.kindAt? kind
    rw [NodeKind.of_bare_gate hbare] at hk
    exact .gate hk ih
  | check kind _ ih =>
    obtain ⟨kind', hk, hbare⟩ := h.kindAt? kind
    obtain ⟨test, rfl, -⟩ := NodeKind.of_bare_check hbare
    exact .check hk ih
  | call kind callee _ ih =>
    obtain ⟨kind', hk, hbare⟩ := h.kindAt? kind
    rw [NodeKind.of_bare_call hbare] at hk
    refine .call hk ?_ ih
    unfold rule? at callee ⊢
    rw [hrules]
    exact callee
  | terminal kind accepted _ ih =>
    obtain ⟨kind', hk, hbare⟩ := h.kindAt? kind
    obtain ⟨mark, rfl⟩ := NodeKind.of_bare_terminal hbare
    exact .terminal hk accepted ih

end Grammar

end

/-! ## Configurations without checks -/

/-- No check was passed, and only nodes of rules are left to match. -/
def Config.Free (g : Grammar) (config : Config) : Prop :=
  config.checks = [] ∧ ∀ id, .node id ∈ config.stack → g.InUse id

theorem Config.free_iff {g : Grammar} {config : Config} :
    config.Free g ↔ config.Within g.InUse (fun _ => False) := by
  constructor
  · rintro ⟨hchecks, hstack⟩
    refine ⟨hstack, fun ref hm => ?_⟩
    rw [hchecks] at hm
    cases hm
  · rintro ⟨hstack, hchecks⟩
    exact ⟨List.eq_nil_iff_forall_not_mem.2 hchecks, hstack⟩

/-- In a grammar without gates and checks no configuration gets a check. -/
theorem Lookahead.unchecked_of_plain {la : Lookahead} (hg : la.grammar.Plain) :
    la.Unchecked (Config.Free la.grammar) where
  checks := fun _ h => h.1
  steps := by
    intro config offset found hc hfound step hstep
    refine Config.free_iff.2 (within_of_steps la.grammar.closed_inUse ?_ (Config.free_iff.1 hc) hfound
      step hstep)
    exact fun id check hid hk => hg.check id check hid hk

end PredictiveParser
