import PredictiveParser.Proofs.Method.Level

/-!
# A lowered tree decides as the tree does

`Decides` says what the code of a prediction tree does: on any input it comes to the leaf that the
tree selects, with nothing changed but lookahead variables, and goes on with what stands there.
`decides_lowerDecision` is the proof by induction on the tree, with `runs_lowerLevel` at each level.

Inside a multi-way branch a jump out of the loop has to name the loop, so the loop may get its label
on the way. A jump before that has no label; both kinds leave the same loop.
-/
namespace PredictiveParser

/-- A label is kept; where there is none, there may be one afterwards. -/
def LabelStep (label label' : Option String) : Prop :=
  label = none ∨ label' = label

section

variable {label label' label'' : Option String}

theorem LabelStep.refl (label : Option String) : LabelStep label label := Or.inr rfl

theorem LabelStep.trans (h : LabelStep label label') (h' : LabelStep label' label'') :
    LabelStep label label'' := by
  rcases h with rfl | rfl
  · exact Or.inl rfl
  · exact h'

/-- On the way from a label to another there are no others. -/
theorem LabelStep.mid (h : LabelStep label label') (h' : LabelStep label' label'') :
    label' = label ∨ label' = label'' := by
  rcases h with rfl | rfl
  · exact h'.imp id Eq.symm
  · exact Or.inl rfl

end

section

variable {m : MethodPlan} {enclosure : Enclosure} {leaves : List (List Stmt)} {above : CharSet}
  {label label' : Option String} {branches rest : List (Branch Decision)} {codes : List (List Stmt)}
  {st st' : LowerState}

theorem yields_lowerBranches_nil :
    Yields (m.lowerBranches enclosure leaves above label []) st (codes, label') st' ↔
      codes = [] ∧ label' = label ∧ st' = st := by
  rw [MethodPlan.lowerBranches, yields_pure, Prod.mk.injEq, and_assoc]

/-- The first branch is lowered, and then the others with the label that it leaves. -/
theorem yields_lowerBranches_cons {branch : Branch Decision} :
    Yields (m.lowerBranches enclosure leaves above label (branch :: rest)) st (codes, label') st' ↔
      ∃ code label₁ st₁ others,
        Yields (m.lowerDecision enclosure leaves above label branch.target) st (code, label₁) st₁ ∧
        Yields (m.lowerBranches enclosure leaves above label₁ rest) st₁ (others, label') st' ∧
        codes = code :: others := by
  obtain ⟨set, checks, covered, target⟩ := branch
  rw [MethodPlan.lowerBranches]
  constructor
  · intro h
    obtain ⟨⟨code, label₁⟩, st₁, hfirst, h⟩ := yields_bind.1 h
    obtain ⟨⟨others, label₂⟩, st₂, hrest, h⟩ := yields_bind.1 h
    obtain ⟨heq, rfl⟩ := yields_pure.1 h
    cases heq
    exact ⟨code, label₁, st₁, others, hfirst, hrest, rfl⟩
  · rintro ⟨code, label₁, st₁, others, hfirst, hrest, rfl⟩
    exact yields_bind.2 ⟨_, st₁, hfirst, yields_bind.2 ⟨_, st', hrest, yields_pure.2 ⟨rfl, rfl⟩⟩⟩

/-- Each branch has the code to which what is behind it is lowered. -/
theorem lowered_targets
    (h : Yields (m.lowerBranches enclosure leaves above label branches) st (codes, label') st') :
    List.Forall₂ (fun (branch : Branch Decision) code => ∃ l l' st₁ st₂,
      Yields (m.lowerDecision enclosure leaves above l branch.target) st₁ (code, l') st₂)
      branches codes := by
  induction branches generalizing label st codes with
  | nil =>
    obtain ⟨rfl, -⟩ := yields_lowerBranches_nil.1 h
    exact .nil
  | cons branch rest ih =>
    obtain ⟨code, label₁, st₁, others, hfirst, hrest, rfl⟩ := yields_lowerBranches_cons.1 h
    exact .cons ⟨_, _, _, _, hfirst⟩ (ih hrest)

end

section

variable {σ : Type} [Source σ]

/-- What stands at a leaf of a lowered tree: the code of an arm, the way out, or the error. -/
def LeafRuns (w : World σ) (enclosure : Enclosure) (leaves : List (List Stmt))
    (label : Option String) (s : Running σ) (o : Outcome σ) : Alt → Prop
  | .arm index => Runs w (.all (leaves.getD index [])) s o
  | .exit => o = if enclosure = .loop then .broke label s else .normal s
  | .error => o = .failed s.source

/-- On any input the code comes to the leaf that the tree selects. -/
def Decides (w : World σ) (g : Grammar) (enclosure : Enclosure) (leaves : List (List Stmt))
    (labels : Option String → Prop) (tree : Decision) (code : List Stmt) : Prop :=
  ∀ s : Running σ, ∃ alt s' label,
    tree.select (Source.lookahead s.source) (g.checkHolds w.value s.source) = some alt ∧
    s.Peeks s' ∧ labels label ∧
    ∀ o, Runs w (.all code) s o ↔ LeafRuns w enclosure leaves label s' o alt

variable {w : World σ} {m : MethodPlan} {enclosure : Enclosure} {leaves : List (List Stmt)}
  {label label' : Option String} {coverage : CharSet} {st st' : LowerState}

theorem Decides.mono {g : Grammar} {labels labels' : Option String → Prop} {tree : Decision}
    {code : List Stmt} (h : Decides w g enclosure leaves labels tree code)
    (hsub : ∀ l, labels l → labels' l) : Decides w g enclosure leaves labels' tree code := by
  intro s
  obtain ⟨alt, s', l, hselect, hpeeks, hl, hruns⟩ := h s
  exact ⟨alt, s', l, hselect, hpeeks, hsub l hl, hruns⟩

/-- What lowering a tree is to achieve. -/
def Lowers (w : World σ) (m : MethodPlan) (enclosure : Enclosure) (leaves : List (List Stmt))
    (tree : Decision) : Prop :=
  ∀ coverage label st code label' st',
    Yields (m.lowerDecision enclosure leaves coverage label tree) st (code, label') st' →
    LabelStep label label' ∧
      Decides w m.grammar enclosure leaves (fun l => l = label ∨ l = label') tree code

/-- A leaf is where the input leads at once. -/
theorem decides_pick {labels : Option String → Prop} {alt : Alt} {code : List Stmt}
    (hl : labels label)
    (h : ∀ s o, Runs w (.all code) s o ↔ LeafRuns w enclosure leaves label s o alt) :
    Decides w m.grammar enclosure leaves labels (.pick alt) code := by
  intro s
  exact ⟨alt, s, label, Decision.select_pick alt, .refl s, hl, h s⟩

theorem yields_lowerError {snippet : Snippet} (h : Yields (m.lowerError coverage) st snippet st')
    (s : Running σ) (o : Outcome σ) : snippet.Does w s o ↔ o = .failed s.source := by
  unfold MethodPlan.lowerError at h
  split at h
  · obtain ⟨rfl, -⟩ := yields_pure.1 h
    exact Iff.rfl
  · obtain ⟨ref, _, -, h⟩ := yields_bind.1 h
    obtain ⟨rfl, -⟩ := yields_pure.1 h
    exact Iff.rfl

theorem lowers_pick (alt : Alt) : Lowers w m enclosure leaves (.pick alt) := by
  intro coverage label st code label' st' h
  cases alt with
  | arm index =>
    rw [MethodPlan.lowerDecision] at h
    obtain ⟨heq, -⟩ := yields_pure.1 h
    cases heq
    exact ⟨.refl _, decides_pick (Or.inl rfl) fun s o => Iff.rfl⟩
  | exit =>
    rw [MethodPlan.lowerDecision] at h
    obtain ⟨heq, -⟩ := yields_pure.1 h
    cases heq
    refine ⟨.refl _, decides_pick (Or.inl rfl) fun s o => ?_⟩
    rw [LeafRuns]
    split
    · rw [runs_singleton_iff, runs_breakTo_iff]
    · exact runs_nil_iff
  | error =>
    rw [MethodPlan.lowerDecision] at h
    obtain ⟨snippet, _, hsnippet, h⟩ := yields_bind.1 h
    obtain ⟨heq, -⟩ := yields_pure.1 h
    cases heq
    refine ⟨.refl _, decides_pick (Or.inl rfl) fun s o => ?_⟩
    rw [runs_singleton_iff, runs_snippet_iff]
    exact yields_lowerError hsnippet s o

theorem lowers_branches {branches : List (Branch Decision)} {codes : List (List Stmt)}
    (ih : ∀ branch ∈ branches, Lowers w m enclosure leaves branch.target)
    (h : Yields (m.lowerBranches enclosure leaves coverage label branches) st (codes, label') st') :
    LabelStep label label' ∧ List.Forall₂ (fun (branch : Branch Decision) code =>
      Decides w m.grammar enclosure leaves (fun l => l = label ∨ l = label') branch.target code)
      branches codes := by
  induction branches generalizing label st codes with
  | nil =>
    obtain ⟨rfl, rfl, -⟩ := yields_lowerBranches_nil.1 h
    exact ⟨.refl _, .nil⟩
  | cons branch rest ihrest =>
    obtain ⟨code, label₁, st₁, others, hfirst, hrest, rfl⟩ := yields_lowerBranches_cons.1 h
    obtain ⟨hstep, hdecides⟩ := ih _ List.mem_cons_self _ _ _ _ _ _ hfirst
    obtain ⟨hstep', hall⟩ :=
      ihrest (fun branch hb => ih branch (List.mem_cons_of_mem _ hb)) hrest
    have hmid := hstep.mid hstep'
    refine ⟨hstep.trans hstep', .cons (hdecides.mono ?_) (hall.imp fun _ _ hd => hd.mono ?_)⟩
    · rintro l (rfl | rfl)
      · exact Or.inl rfl
      · exact hmid
    · rintro l (rfl | rfl)
      · exact hmid
      · exact Or.inr rfl

theorem labelStep_levelLabel {plan : LevelPlan} {count : Nat}
    (h : Yields (MethodPlan.levelLabel plan enclosure count label) st label' st') :
    LabelStep label label' := by
  unfold MethodPlan.levelLabel at h
  split at h
  · rename_i hnone
    rw [Bool.and_eq_true] at hnone
    exact Or.inl (Option.isNone_iff_eq_none.1 hnone.2)
  · obtain ⟨rfl, -⟩ := yields_pure.1 h
    exact .refl _

/-- At a level, its branches are lowered one after the other, and then the level with their codes. -/
theorem yields_lowerDecision_level {offset : Nat} {isAssertion : Bool}
    {branches : List (Branch Decision)} {above : CharSet} :
    Yields (m.lowerDecision enclosure leaves above label
        (.level offset isAssertion branches coverage)) st (code, label') st' ↔
      ∃ label₁ st₁ codes st₂,
        Yields (MethodPlan.levelLabel (.ofLevel m.switchThreshold isAssertion branches) enclosure
          branches.length label) st label₁ st₁ ∧
        Yields (m.lowerBranches enclosure leaves coverage label₁ branches) st₁ (codes, label') st₂ ∧
        Yields (m.lowerLevel (.ofLevel m.switchThreshold isAssertion branches) offset isAssertion
          branches codes) st₂ code st' := by
  rw [MethodPlan.lowerDecision]
  constructor
  · intro h
    obtain ⟨label₁, st₁, hlabel, h⟩ := yields_bind.1 h
    obtain ⟨⟨codes, label₂⟩, st₂, hbranches, h⟩ := yields_bind.1 h
    obtain ⟨code', st₃, hlevel, h⟩ := yields_bind.1 h
    obtain ⟨heq, rfl⟩ := yields_pure.1 h
    cases heq
    exact ⟨label₁, st₁, codes, st₂, hlabel, hbranches, hlevel⟩
  · rintro ⟨label₁, st₁, codes, st₂, hlabel, hbranches, hlevel⟩
    refine yields_bind.2 ⟨label₁, st₁, hlabel, yields_bind.2 ⟨_, st₂, hbranches, ?_⟩⟩
    exact yields_bind.2 ⟨code, st', hlevel, yields_pure.2 ⟨rfl, rfl⟩⟩

variable [LawfulSource σ]

theorem lowers_level {offset : Nat} {isAssertion : Bool} {branches : List (Branch Decision)}
    (hwf : (Decision.level offset isAssertion branches coverage).WellFormed)
    (ih : ∀ branch ∈ branches, Lowers w m enclosure leaves branch.target) :
    Lowers w m enclosure leaves (.level offset isAssertion branches coverage) := by
  intro above label st code label' st' h
  obtain ⟨label₁, st₁, codes, st₂, hlabel, hbranches, hlevel⟩ := yields_lowerDecision_level.1 h
  have hstep := labelStep_levelLabel hlabel
  obtain ⟨hstep', hall⟩ := lowers_branches ih hbranches
  refine ⟨hstep.trans hstep', fun s => ?_⟩
  obtain ⟨branch, body, s₁, hfind, hm, hpeeks, hruns⟩ :=
    runs_lowerLevel hwf hall.length_eq hlevel w s
  obtain ⟨alt, s', l, hselect, hpeeks', hl, hleaf⟩ := (List.forall₂_iff_zip.1 hall).2 hm s₁
  refine ⟨alt, s', l, ?_, hpeeks.trans hpeeks', ?_, fun o => (hruns o).trans (hleaf o)⟩
  · rw [hpeeks.source] at hselect
    rw [Decision.select_level]
    exact Option.bind_eq_some_iff.2 ⟨branch, hfind, hselect⟩
  · rcases hl with rfl | rfl
    · exact hstep.mid hstep'
    · exact Or.inr rfl

/-- **A lowered tree decides as the tree does.** -/
theorem decides_lowerDecision {tree : Decision} (hwf : tree.WellFormed) (w : World σ)
    (m : MethodPlan) (enclosure : Enclosure) (leaves : List (List Stmt)) :
    Lowers w m enclosure leaves tree := by
  induction hwf with
  | pick alt => exact lowers_pick alt
  | lookahead accepting covering targets ih =>
    exact lowers_level (.lookahead accepting covering targets) ih
  | assertion unconditional targets ih => exact lowers_level (.assertion unconditional targets) ih

end

end PredictiveParser
