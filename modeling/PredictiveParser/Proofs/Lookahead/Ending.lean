import Mathlib.Algebra.Group.Nat.Defs
import PredictiveParser.Proofs.Failure
import PredictiveParser.Proofs.Lookahead.Reading

/-!
# How searches end

A bounded process that fails does so in one of its steps, and it does not run out of steps when its
steps lessen what is left to do (`Iterate.run_ne_none`). So the search behind `Lookahead.steps` fails
where a configuration that it reaches cannot be expanded, or at its bound: `steps_eq_error`.
-/
namespace PredictiveParser

open Relation

/-! ## Bounded iteration -/

namespace Iterate

variable {σ ρ ε : Type} {step : σ → Except ε (σ ⊕ ρ)} {P : σ → Prop}

theorem stage_eq_error (hstep : ∀ s s', P s → step s = .ok (.inl s') → P s') (n : Nat) {s : σ}
    (hs : P s) {e : ε} (h : stage step n s = .error e) : ∃ s', P s' ∧ step s' = .error e := by
  induction n generalizing s with
  | zero => exact ⟨s, hs, h⟩
  | succ n ih =>
    rw [stage] at h
    cases hmid : stage step n s with
    | error e' =>
      rw [hmid] at h
      cases h
      exact ih hs hmid
    | ok mid =>
      rw [hmid] at h
      cases mid with
      | inl s₁ => exact ih ((stage_invariant hstep n hs).1 s₁ hmid) h
      | inr r => cases h

/-- When a process fails, one of its steps fails in a state with every invariant. -/
theorem run_eq_error (hstep : ∀ s s', P s → step s = .ok (.inl s') → P s') {stages : Nat} {s : σ}
    (hs : P s) {e : ε} (h : run step stages s = .error e) : ∃ s', P s' ∧ step s' = .error e := by
  have from_ : ∀ stages n s, P s → runFrom step stages n s = .error e →
      ∃ s', P s' ∧ step s' = .error e := by
    intro stages
    induction stages with
    | zero => intro n s _ h; cases h
    | succ stages ih =>
      intro n s hs h
      rw [runFrom] at h
      cases hmid : stage step n s with
      | error e' =>
        rw [hmid] at h
        cases h
        exact stage_eq_error hstep n hs hmid
      | ok mid =>
        rw [hmid] at h
        cases mid with
        | inl s₁ => exact ih (n + 1) s₁ ((stage_invariant hstep n hs).1 s₁ hmid) h
        | inr r => cases h
  exact from_ stages 0 s hs h

variable {left : σ → Nat}

/-- A stage that ends without an answer has made all its steps. -/
theorem left_stage (hstep : ∀ s s', P s → step s = .ok (.inl s') → P s' ∧ left s' < left s)
    (n : Nat) {s s' : σ} (hs : P s) (h : stage step n s = .ok (.inl s')) :
    P s' ∧ left s' + 2 ^ n ≤ left s := by
  induction n generalizing s s' with
  | zero =>
    obtain ⟨hs', hlt⟩ := hstep s s' hs h
    exact ⟨hs', hlt⟩
  | succ n ih =>
    obtain ⟨mid, hmid, h⟩ := bind_eq_ok.1 h
    cases mid with
    | inr r => cases h
    | inl s₁ =>
      obtain ⟨hs₁, hle₁⟩ := ih hs hmid
      obtain ⟨hs', hle'⟩ := ih hs₁ h
      refine ⟨hs', ?_⟩
      rw [Nat.pow_succ]
      omega

/-- A process whose steps lessen what is left does not run out of steps. -/
theorem run_ne_none (hstep : ∀ s s', P s → step s = .ok (.inl s') → P s' ∧ left s' < left s)
    {stages : Nat} {s : σ} (hs : P s) (hleft : left s + 1 < 2 ^ stages) :
    run step stages s ≠ .ok none := by
  have from_ : ∀ stages n s, P s → runFrom step stages n s = .ok none →
      2 ^ (n + stages) ≤ left s + 2 ^ n := by
    intro stages
    induction stages with
    | zero => intro n s _ _; exact Nat.le_add_left _ _
    | succ stages ih =>
      intro n s hs h
      obtain ⟨mid, hmid, h⟩ := bind_eq_ok.1 h
      cases mid with
      | inr r => cases h
      | inl s₁ =>
        obtain ⟨hs₁, hle₁⟩ := left_stage hstep n hs hmid
        have hrest := ih (n + 1) s₁ hs₁ h
        rw [Nat.pow_succ] at hrest
        rw [show n + (stages + 1) = n + 1 + stages by omega]
        omega
  intro h
  have := from_ stages 0 s hs h
  rw [Nat.pow_zero, Nat.zero_add] at this
  omega

end Iterate

/-! ## Failures -/

namespace Lookahead

variable {la : Lookahead} {offset : Nat} {config : Config} {work seen : List Config}
  {found : List (CharSet × Config)}

/-- A configuration cannot be expanded when there is no such node, no such rule, or no call may be
entered any more. -/
theorem expand_eq_error {failure : Failure GenerationError}
    (h : la.expand offset config = .error failure) :
    ∃ id below, config.stack = .node id :: below ∧
      ((∃ fault, la.grammar.node id = .error fault ∧ failure = .fault fault) ∨
        ∃ callee, la.grammar.kindAt? id = some (.call callee) ∧
          (la.recursionLimit ≤ Config.callDepth below ∧
              failure = .error (.recursionLimit la.rule la.recursionLimit) ∨
            la.grammar.rule? callee = none ∧ failure = .error (.unknownRule la.rule callee))) := by
  obtain ⟨stack, checks, past⟩ := config
  match stack with
  | [] =>
    unfold expand at h
    simp only at h
    split at h <;> cases h
  | .ruleEnd :: below => cases h
  | .node id :: below =>
    refine ⟨id, below, rfl, ?_⟩
    cases hnode : la.grammar.node id with
    | error fault =>
      unfold expand at h
      simp only [hnode] at h
      cases h
      exact Or.inl ⟨fault, rfl, rfl⟩
    | ok node =>
      have hkind := Grammar.kindAt?_of_node hnode
      rw [expand_node hkind] at h
      right
      cases hk : node.kind with
      | call callee =>
        rw [hk] at h hkind
        unfold expandKind at h
        simp only at h
        split at h
        · rename_i hdepth
          cases h
          exact ⟨callee, hkind, Or.inl ⟨hdepth, rfl⟩⟩
        · split at h
          · rename_i hrule
            cases h
            exact ⟨callee, hkind, Or.inr ⟨hrule, rfl⟩⟩
          · cases h
      | sequence | alternatives | gate | check | terminal =>
        rw [hk] at h
        cases h

theorem searchStep_eq_error {failure : Failure GenerationError}
    (h : la.searchStep offset ⟨config :: work, seen, found⟩ = .error failure) :
    la.expand offset config = .error failure := by
  unfold searchStep at h
  simp only at h
  split at h
  · cases h
  · cases hexpand : la.expand offset config with
    | error e =>
      rw [hexpand] at h
      cases h
      rfl
    | ok expansion =>
      rw [hexpand] at h
      cases expansion <;> cases h

/-- A step drops a configuration that was met before, or expands a new one. -/
theorem searchStep_eq_inl {search : Search}
    (h : la.searchStep offset ⟨config :: work, seen, found⟩ = .ok (.inl search)) :
    config ∈ seen ∧ search.work = work ∧ search.seen = seen ∨
      config ∉ seen ∧ search.seen = config :: seen ∧
        (search.work = work ∨
          ∃ next, la.expand offset config = .ok (.configs next) ∧ search.work = next ++ work) := by
  unfold searchStep at h
  simp only at h
  split at h
  · rename_i hseen
    cases h
    exact Or.inl ⟨List.contains_iff_mem.1 hseen, rfl, rfl⟩
  · rename_i hseen
    obtain ⟨expansion, hexpand, h⟩ := bind_eq_ok.1 h
    have hnew : config ∉ seen := fun hmem => hseen (List.contains_iff_mem.2 hmem)
    cases expansion with
    | terminal set next =>
      cases h
      exact Or.inr ⟨hnew, rfl, Or.inl rfl⟩
    | configs next =>
      cases h
      exact Or.inr ⟨hnew, rfl, Or.inr ⟨next, hexpand, rfl⟩⟩

/-- A search that fails has met a configuration that cannot be expanded, or has no more steps. -/
theorem steps_eq_error {failure : Failure GenerationError}
    (h : la.steps config offset = .error failure) :
    (∃ c, ReflTransGen (la.Expands offset) config c ∧ la.expand offset c = .error failure) ∨
      Iterate.run (la.searchStep offset) (la.searchStages config) ⟨[config], [], []⟩ = .ok none := by
  rw [steps] at h
  cases hrun : Iterate.run (la.searchStep offset) (la.searchStages config) ⟨[config], [], []⟩ with
  | ok answer =>
    rw [hrun] at h
    cases answer with
    | none => exact Or.inr rfl
    | some found => cases h
  | error e =>
    rw [hrun] at h
    cases h
    obtain ⟨⟨work, seen, found⟩, inv, hstep⟩ :=
      Iterate.run_eq_error (P := SearchInv la offset config)
        (fun _ _ hs h => hs.step h) (SearchInv.start la offset config) hrun
    left
    cases work with
    | nil => cases hstep
    | cons c work => exact ⟨c, inv.reached c (Or.inr List.mem_cons_self), searchStep_eq_error hstep⟩

end Lookahead

end PredictiveParser
