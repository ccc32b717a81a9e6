import Mathlib.Logic.Relation
import PredictiveParser.Analysis.Lookahead
import PredictiveParser.Proofs.Success

/-!
# What a search finds

`Lookahead.steps` is a search with a list of configurations still to look at and a list of those met
before. When it ends, every configuration that can be reached by expansions has been met, and what
was found is what the reached configurations offer: `mem_steps_iff`.
-/
namespace PredictiveParser

open Relation

/-! ## Bounded iteration -/

namespace Iterate

variable {σ ρ ε : Type} {step : σ → Except ε (σ ⊕ ρ)} {P : σ → Prop}

theorem stage_invariant (hstep : ∀ s s', P s → step s = .ok (.inl s') → P s') (n : Nat) {s : σ}
    (hs : P s) : (∀ s', stage step n s = .ok (.inl s') → P s') ∧
      (∀ r, stage step n s = .ok (.inr r) → ∃ s', P s' ∧ step s' = .ok (.inr r)) := by
  induction n generalizing s with
  | zero => exact ⟨fun s' h => hstep s s' hs h, fun r h => ⟨s, hs, h⟩⟩
  | succ n ih =>
    constructor
    · intro s' h
      obtain ⟨mid, hmid, h⟩ := bind_eq_ok.1 h
      cases mid with
      | inl s₁ => exact (ih ((ih hs).1 s₁ hmid)).1 s' h
      | inr r => cases h
    · intro r h
      obtain ⟨mid, hmid, h⟩ := bind_eq_ok.1 h
      cases mid with
      | inl s₁ => exact (ih ((ih hs).1 s₁ hmid)).2 r h
      | inr r' =>
        cases h
        exact (ih hs).2 r hmid

/-- What each step keeps holds in the state that gives the answer. -/
theorem run_invariant (hstep : ∀ s s', P s → step s = .ok (.inl s') → P s') {stages : Nat} {s : σ}
    (hs : P s) {r : ρ} (h : run step stages s = .ok (some r)) :
    ∃ s', P s' ∧ step s' = .ok (.inr r) := by
  have from_ : ∀ stages n s, P s → runFrom step stages n s = .ok (some r) →
      ∃ s', P s' ∧ step s' = .ok (.inr r) := by
    intro stages
    induction stages with
    | zero => intro n s _ h; cases h
    | succ stages ih =>
      intro n s hs h
      obtain ⟨mid, hmid, h⟩ := bind_eq_ok.1 h
      cases mid with
      | inl s₁ => exact ih (n + 1) s₁ ((stage_invariant hstep n hs).1 s₁ hmid) h
      | inr r' =>
        cases h
        exact (stage_invariant hstep n hs).2 r hmid
  exact from_ stages 0 s hs h

section

variable {σ' ρ' ε' : Type} {step' : σ' → Except ε' (σ' ⊕ ρ')} {R : σ → σ' → Prop} {s : σ} {t : σ'}

/-- Both go on, in related states, or both give an answer. -/
abbrev Alike (R : σ → σ' → Prop) : σ ⊕ ρ → σ' ⊕ ρ' → Prop :=
  Sum.LiftRel R fun _ _ => True

theorem exists_stage_of_alike
    (hstep : ∀ s t, R s t → ∀ x, step s = .ok x → ∃ y, step' t = .ok y ∧ Alike R x y) (n : Nat)
    (hst : R s t) {x : σ ⊕ ρ} (h : stage step n s = .ok x) :
    ∃ y, stage step' n t = .ok y ∧ Alike R x y := by
  induction n generalizing s t x with
  | zero => exact hstep s t hst x h
  | succ n ih =>
    obtain ⟨mid, hmid, h⟩ := bind_eq_ok.1 h
    obtain ⟨mid', hmid', halike⟩ := ih hst hmid
    cases halike with
    | inl hmids =>
      obtain ⟨y, hy, halike⟩ := ih hmids h
      exact ⟨y, bind_eq_ok.2 ⟨_, hmid', hy⟩, halike⟩
    | @inr r r' _ =>
      cases h
      exact ⟨.inr r', bind_eq_ok.2 ⟨_, hmid', rfl⟩, .inr trivial⟩

/-- Where two processes are alike, one gives an answer if the other does. -/
theorem exists_run_of_alike
    (hstep : ∀ s t, R s t → ∀ x, step s = .ok x → ∃ y, step' t = .ok y ∧ Alike R x y)
    {stages : Nat} (hst : R s t) {r : ρ} (h : run step stages s = .ok (some r)) :
    ∃ r', run step' stages t = .ok (some r') := by
  have from_ : ∀ stages n s t, R s t → runFrom step stages n s = .ok (some r) →
      ∃ r', runFrom step' stages n t = .ok (some r') := by
    intro stages
    induction stages with
    | zero => intro n s t _ h; cases h
    | succ stages ih =>
      intro n s t hst h
      obtain ⟨mid, hmid, h⟩ := bind_eq_ok.1 h
      obtain ⟨mid', hmid', halike⟩ := exists_stage_of_alike hstep n hst hmid
      cases halike with
      | inl hmids =>
        obtain ⟨r', hr'⟩ := ih (n + 1) _ _ hmids h
        exact ⟨r', bind_eq_ok.2 ⟨_, hmid', hr'⟩⟩
      | @inr _ r' _ => exact ⟨r', bind_eq_ok.2 ⟨_, hmid', rfl⟩⟩
  exact from_ stages 0 s t hst h

end

end Iterate

/-! ## The search -/

namespace Lookahead

variable {la : Lookahead} {offset : Nat}

/-- One configuration is among those by which another is replaced. -/
def Expands (la : Lookahead) (offset : Nat) (config config' : Config) : Prop :=
  ∃ next, la.expand offset config = .ok (.configs next) ∧ config' ∈ next

/-- A configuration offers a terminal set, with the configuration left after it. -/
def Offers (la : Lookahead) (offset : Nat) (config : Config) (set : CharSet) (next : Config) :
    Prop :=
  la.expand offset config = .ok (.terminal set next)

/-- Where a search from `start` stands: nothing was met or found that cannot be reached, and what
was met is done with up to what is still to be looked at. -/
structure SearchInv (la : Lookahead) (offset : Nat) (start : Config) (search : Search) : Prop where
  started : start ∈ search.seen ∨ start ∈ search.work
  reached : ∀ c, c ∈ search.seen ∨ c ∈ search.work → ReflTransGen (la.Expands offset) start c
  expandable : ∀ c ∈ search.seen, ∃ expansion, la.expand offset c = .ok expansion
  expanded : ∀ c ∈ search.seen, ∀ c', la.Expands offset c c' → c' ∈ search.seen ∨ c' ∈ search.work
  offered : ∀ c ∈ search.seen, ∀ set next, la.Offers offset c set next →
    (set, next) ∈ search.found
  found : ∀ set next, (set, next) ∈ search.found →
    ∃ c, ReflTransGen (la.Expands offset) start c ∧ la.Offers offset c set next

theorem SearchInv.start (la : Lookahead) (offset : Nat) (config : Config) :
    SearchInv la offset config ⟨[config], [], []⟩ where
  started := Or.inr List.mem_cons_self
  reached := by
    rintro c (h | h)
    · cases h
    · rw [List.mem_singleton.1 h]
  expandable := by
    intro c h
    cases h
  expanded := by
    intro c h
    cases h
  offered := by
    intro c h
    cases h
  found := by
    intro set next h
    cases h

section

variable {start config : Config} {search search' : Search} {work seen : List Config}
  {found : List (CharSet × Config)}

/-- A configuration that was met before needs no second look. -/
theorem SearchInv.skip (inv : SearchInv la offset start ⟨config :: work, seen, found⟩)
    (hseen : config ∈ seen) : SearchInv la offset start ⟨work, seen, found⟩ := by
  have drop : ∀ c, c ∈ seen ∨ c ∈ config :: work → c ∈ seen ∨ c ∈ work := by
    rintro c (hc | hc)
    · exact Or.inl hc
    · rcases List.mem_cons.1 hc with rfl | hc
      · exact Or.inl hseen
      · exact Or.inr hc
  exact ⟨drop _ inv.started, fun c hc => inv.reached c (hc.imp_right (List.mem_cons_of_mem _)),
    inv.expandable, fun c hc c' hc' => drop _ (inv.expanded c hc c' hc'), inv.offered, inv.found⟩

/-- A configuration is met by adding what it expands to and what it offers. -/
theorem SearchInv.visit (inv : SearchInv la offset start ⟨config :: work, seen, found⟩)
    {expansion : Expansion} (hexpand : la.expand offset config = .ok expansion)
    (more : List Config) (news : List (CharSet × Config))
    (hmore : ∀ c, c ∈ more ↔ la.Expands offset config c)
    (hnews : ∀ set next, (set, next) ∈ news ↔ la.Offers offset config set next) :
    SearchInv la offset start ⟨more ++ work, config :: seen, news ++ found⟩ := by
  have hreach := inv.reached config (Or.inr List.mem_cons_self)
  have keep : ∀ c, c ∈ seen ∨ c ∈ config :: work → c ∈ config :: seen ∨ c ∈ more ++ work := by
    rintro c (hc | hc)
    · exact Or.inl (List.mem_cons_of_mem _ hc)
    · rcases List.mem_cons.1 hc with rfl | hc
      · exact Or.inl List.mem_cons_self
      · exact Or.inr (List.mem_append_right _ hc)
  constructor
  case started => exact keep _ inv.started
  case reached =>
    rintro c (hc | hc)
    · rcases List.mem_cons.1 hc with rfl | hc
      · exact hreach
      · exact inv.reached c (Or.inl hc)
    · rcases List.mem_append.1 hc with hc | hc
      · exact hreach.tail ((hmore c).1 hc)
      · exact inv.reached c (Or.inr (List.mem_cons_of_mem _ hc))
  case expandable =>
    intro c hc
    rcases List.mem_cons.1 hc with rfl | hc
    · exact ⟨expansion, hexpand⟩
    · exact inv.expandable c hc
  case expanded =>
    intro c hc c' hc'
    rcases List.mem_cons.1 hc with rfl | hc
    · exact Or.inr (List.mem_append_left _ ((hmore c').2 hc'))
    · exact keep _ (inv.expanded c hc c' hc')
  case offered =>
    intro c hc set next ho
    rcases List.mem_cons.1 hc with rfl | hc
    · exact List.mem_append_left _ ((hnews set next).2 ho)
    · exact List.mem_append_right _ (inv.offered c hc set next ho)
  case found =>
    intro set next hf
    rcases List.mem_append.1 hf with hf | hf
    · exact ⟨config, hreach, (hnews set next).1 hf⟩
    · exact inv.found set next hf

theorem expands_iff {next : List Config} (h : la.expand offset config = .ok (.configs next))
    (c : Config) : la.Expands offset config c ↔ c ∈ next := by
  simp [Expands, h]

theorem not_expands_of_terminal {set : CharSet} {next : Config}
    (h : la.expand offset config = .ok (.terminal set next)) (c : Config) :
    ¬ la.Expands offset config c := by
  simp [Expands, h]

theorem SearchInv.step (inv : SearchInv la offset start search)
    (h : la.searchStep offset search = .ok (.inl search')) : SearchInv la offset start search' := by
  obtain ⟨work, seen, found⟩ := search
  cases work with
  | nil => cases h
  | cons config work =>
    unfold searchStep at h
    simp only at h
    split at h
    · rename_i hseen
      cases h
      exact inv.skip (List.contains_iff_mem.1 hseen)
    · obtain ⟨expansion, hexpand, h⟩ := bind_eq_ok.1 h
      cases expansion with
      | terminal set next =>
        cases h
        refine inv.visit hexpand [] [(set, next)] (fun c => ?_) fun set' next' => ?_
        · exact iff_of_false List.not_mem_nil (not_expands_of_terminal hexpand c)
        · simp [Offers, hexpand, eq_comm]
      | configs next =>
        cases h
        refine inv.visit hexpand next [] (fun c => (expands_iff hexpand c).symm) fun set' next' => ?_
        simp [Offers, hexpand]

end

/-- When a search gives its answer, everything that can be reached was met. -/
theorem exists_complete_search {config : Config} {found : List (CharSet × Config)}
    (h : la.steps config offset = .ok found) :
    ∃ search, SearchInv la offset config search ∧ search.found = found.reverse ∧
      ∀ c, ReflTransGen (la.Expands offset) config c → c ∈ search.seen := by
  obtain ⟨answer, hrun, h⟩ := bind_eq_ok.1 h
  cases answer with
  | none => cases h
  | some found' =>
    cases h
    obtain ⟨⟨work, seen, found⟩, inv, hend⟩ :=
      Iterate.run_invariant (P := SearchInv la offset config)
        (fun _ _ hs h => hs.step h) (SearchInv.start la offset config) hrun
    cases work with
    | cons c work =>
      unfold searchStep at hend
      simp only at hend
      split at hend
      · cases hend
      · obtain ⟨expansion, -, hend⟩ := bind_eq_ok.1 hend
        cases expansion <;> cases hend
    | nil =>
      cases hend
      refine ⟨_, inv, (List.reverse_reverse found).symm, ?_⟩
      intro c hc
      induction hc with
      | refl => exact inv.started.resolve_right fun h => by cases h
      | tail _ hstep ih => exact (inv.expanded _ ih _ hstep).resolve_right fun h => by cases h

/-- A search that ends has found exactly what the reachable configurations offer. -/
theorem mem_steps_iff {config : Config} {found : List (CharSet × Config)}
    (h : la.steps config offset = .ok found) (set : CharSet) (next : Config) :
    (set, next) ∈ found ↔
      ∃ c, ReflTransGen (la.Expands offset) config c ∧ la.Offers offset c set next := by
  obtain ⟨search, inv, hfound, hseen⟩ := exists_complete_search h
  rw [← List.mem_reverse, ← hfound]
  constructor
  · exact inv.found set next
  · rintro ⟨c, hc, ho⟩
    exact inv.offered c (hseen c hc) set next ho

/-- A search that ends has met no configuration that cannot be expanded. -/
theorem exists_expand_of_steps {config : Config} {found : List (CharSet × Config)}
    (h : la.steps config offset = .ok found) {c : Config}
    (hc : ReflTransGen (la.Expands offset) config c) :
    ∃ expansion, la.expand offset c = .ok expansion := by
  obtain ⟨search, inv, -, hseen⟩ := exists_complete_search h
  exact inv.expandable c (hseen c hc)

end Lookahead

end PredictiveParser
