import PredictiveParser.Proofs.Method.Decision
import PredictiveParser.Proofs.Method.Labels
import PredictiveParser.Proofs.Method.Shared

/-!
# A lowered alternative set follows its prediction tree

`SetRuns` says what an alternative set is to do, given the code of its arms: it runs the arm that the
prediction tree selects for the input, or leaves, or gives up; a repeated set does so again where the
arm ends. Between the selection and the arm nothing changes but lookahead variables.

`runs_lowerAlternatives`: the code of an alternative set does just that, whichever arms are shared and
whatever surrounds them.
-/
namespace PredictiveParser

/-! ## How the code is put together -/

/-- The code that `Lower.surround` may give. -/
inductive Surrounds (wanted : Enclosure) (label : Option String) (suffix : String) (jumpOver : Bool)
    (shared : List (Nat × List Stmt)) (decision : List Stmt) : List Stmt → Prop where
  | loop (hwanted : wanted = .loop) :
      Surrounds wanted label suffix jumpOver shared decision
        [.loop label (appendShared suffix (.continueTo label) jumpOver shared decision)]
  | block (number : Nat) (hwanted : wanted ≠ .loop) :
      Surrounds wanted label suffix jumpOver shared decision
        [.labeled (Lower.stopLabel number)
          (appendShared suffix (.breakTo (some (Lower.stopLabel number))) jumpOver shared decision)]
  | none (hwanted : wanted ≠ .loop) (hjumps : jumpsPast jumpOver shared = 0) :
      Surrounds wanted label suffix jumpOver shared decision
        (appendShared suffix (.breakTo none) jumpOver shared decision)

section

variable {m : MethodPlan} {st st' : LowerState} {alts : Alternatives} {tree : Decision}
  {arms : List (List Stmt)} {code : List Stmt} {wanted : Enclosure} {label : Option String}
  {shared : List (Nat × List Stmt)}

theorem enclosure_eq_loop : alts.enclosure = .loop ↔ alts.mode = .star := by
  unfold Alternatives.enclosure
  cases alts.mode with
  | opt => simp only; split <;> simp
  | _ => simp

theorem yields_loopLabel (h : Yields (Lower.loopLabel wanted shared) st label st')
    (hwanted : wanted = .loop) (hshared : shared ≠ []) :
    ∃ number, label = some (Lower.stopLabel number) := by
  unfold Lower.loopLabel at h
  rw [if_pos (by simp [hwanted, hshared])] at h
  exact ⟨_, (yields_map_nextStop h).1⟩

theorem yields_surround {suffix : String} {jumpOver : Bool} {decision : List Stmt}
    (h : Yields (Lower.surround wanted label suffix jumpOver shared decision) st code st') :
    Surrounds wanted label suffix jumpOver shared decision code := by
  unfold Lower.surround at h
  cases wanted with
  | loop =>
    obtain ⟨rfl, -⟩ := yields_pure.1 h
    exact .loop rfl
  | block =>
    obtain ⟨stop, st₁, hstop, h⟩ := yields_bind.1 h
    obtain ⟨rfl, -⟩ := yields_pure.1 h
    obtain ⟨rfl, -⟩ := yields_nextStop hstop
    exact .block _ nofun
  | none =>
    by_cases hjumps : 0 < jumpsPast jumpOver shared
    · simp only [decide_true, decide_eq_true hjumps, Bool.and_self, if_true] at h
      obtain ⟨stop, st₁, hstop, h⟩ := yields_bind.1 h
      obtain ⟨rfl, -⟩ := yields_pure.1 h
      obtain ⟨rfl, -⟩ := yields_nextStop hstop
      exact .block _ nofun
    · simp only [decide_true, decide_eq_false hjumps, Bool.and_false, Bool.false_eq_true, if_false] at h
      obtain ⟨rfl, -⟩ := yields_pure.1 h
      exact .none nofun (by omega)

theorem yields_lowerAlternatives (h : Yields (m.lowerAlternatives alts tree arms) st code st') :
    ∃ label suffix decision label' st₁ st₂,
      (alts.enclosure = .loop → tree.sharedArms arms ≠ [] →
        ∃ number, label = some (Lower.stopLabel number)) ∧
      Yields (m.lowerDecision alts.enclosure (tree.leafCodes suffix arms) .empty label tree) st₁
        (decision, label') st₂ ∧
      Surrounds alts.enclosure label' suffix (tree.fallsThrough alts.enclosure arms)
        (tree.sharedArms arms) decision code := by
  unfold MethodPlan.lowerAlternatives at h
  obtain ⟨label, st₁, hlabel, h⟩ := yields_bind.1 h
  obtain ⟨suffix, st₂, -, h⟩ := yields_bind.1 h
  obtain ⟨⟨decision, label'⟩, st₃, hdecision, h⟩ := yields_bind.1 h
  exact ⟨label, suffix, decision, label', st₂, st₃, yields_loopLabel hlabel, hdecision,
    yields_surround h⟩

end

/-! ## The arms of a set -/

section

variable {tree : Decision} {suffix : String} {arms : List (List Stmt)} {index : Nat}

theorem mem_sharedArms {arm : List Stmt} : (index, arm) ∈ tree.sharedArms arms ↔
    arms[index]? = some arm ∧ tree.sharesArm index arm = true := by
  unfold Decision.sharedArms
  rw [List.mem_filter, List.mem_mapIdx, List.getElem?_eq_some_iff]
  refine and_congr_left fun _ => ?_
  constructor
  · rintro ⟨i, hi, heq⟩
    cases heq
    exact ⟨hi, rfl⟩
  · rintro ⟨hi, rfl⟩
    exact ⟨index, hi, rfl⟩

theorem nodup_sharedArms : ((tree.sharedArms arms).map Prod.fst).Nodup := by
  have hfirst : (arms.mapIdx fun index code => (index, code)).map Prod.fst =
      List.range arms.length := by
    refine List.ext_getElem (by simp) fun i hi hi' => by simp
  have hnodup : ((arms.mapIdx fun index code => (index, code)).map Prod.fst).Nodup :=
    hfirst ▸ List.nodup_range
  exact hnodup.sublist (List.filter_sublist.map Prod.fst)

theorem getD_leafCodes (hindex : index < arms.length) : (tree.leafCodes suffix arms).getD index [] =
    if tree.sharesArm index (arms.getD index []) then [.breakTo (some (matchLabel suffix index))]
    else arms.getD index [] := by
  unfold Decision.leafCodes
  simp [hindex]

/-- When the decision does not fall through, every arm is shared. -/
theorem sharesArm_of_not_fallsThrough {wanted : Enclosure}
    (h : tree.fallsThrough wanted arms = false) (hindex : index < arms.length) :
    tree.sharesArm index (arms.getD index []) = true := by
  have hlength : (tree.sharedArms arms).length = arms.length := by
    unfold Decision.fallsThrough at h
    rw [Bool.or_eq_false_iff] at h
    simpa using h.2
  unfold Decision.sharedArms at hlength
  rw [← List.length_mapIdx (f := fun index code => (index, code)) (l := arms),
    List.length_filter_eq_length_iff] at hlength
  have hm := hlength (index, arms.getD index []) (List.mem_mapIdx.2 ⟨index, hindex, by simp [hindex]⟩)
  exact hm

end

/-! ## What an alternative set does -/

section

variable {σ : Type} [Source σ]

/-- The choice of a tree for the input at a place. -/
def choiceAt (w : World σ) (g : Grammar) (tree : Decision) (s : σ) : Option Alt :=
  tree.select (Source.lookahead s) (g.checkHolds w.value s)

/-- What an alternative set is to do: run the arm that the tree selects, once and no other, and then
go on behind the set or, in a repeated set, select again; leave where the exit is selected; give up
where the error is. `peek` sets lookahead variables. -/
inductive SetRuns (w : World σ) (g : Grammar) (mode : Repetition) (tree : Decision)
    (arms : List (List Stmt)) (peek : Running σ → Running σ) : Running σ → Outcome σ → Prop where
  | once {s : Running σ} {index : Nat} {o : Outcome σ} (single : mode ≠ .star)
      (chosen : choiceAt w g tree s.source = some (.arm index))
      (arm : Runs w (.all (arms.getD index [])) (peek s) o) :
      SetRuns w g mode tree arms peek s o
  | again {s t : Running σ} {index : Nat} {o : Outcome σ} (repeated : mode = .star)
      (chosen : choiceAt w g tree s.source = some (.arm index))
      (arm : Runs w (.all (arms.getD index [])) (peek s) (.normal t))
      (next : SetRuns w g mode tree arms peek t o) : SetRuns w g mode tree arms peek s o
  | stop {s : Running σ} {index : Nat} {t : σ} (repeated : mode = .star)
      (chosen : choiceAt w g tree s.source = some (.arm index))
      (arm : Runs w (.all (arms.getD index [])) (peek s) (.failed t)) :
      SetRuns w g mode tree arms peek s (.failed t)
  | exit {s : Running σ} (chosen : choiceAt w g tree s.source = some .exit) :
      SetRuns w g mode tree arms peek s (.normal (peek s))
  | error {s : Running σ} (chosen : choiceAt w g tree s.source = some .error) :
      SetRuns w g mode tree arms peek s (.failed s.source)

variable {w : World σ} {m : MethodPlan} {alts : Alternatives} {tree : Decision}
  {arms : List (List Stmt)} {wanted : Enclosure} {suffix : String} {label : Option String}
  {skip : Stmt} {skipped : Running σ → Outcome σ} {P : Outcome σ → Prop} {decision : List Stmt}
  {s s' : Running σ} {alt : Alt}

/-- The arms that the tree uses never jump out of the set. -/
def ArmsContained (w : World σ) (tree : Decision) (arms : List (List Stmt)) : Prop :=
  ∀ index s o, tree.uses (.arm index) = true → Runs w (.all (arms.getD index [])) s o →
    o.IsContained

/-- Behind a decision that has come to a leaf, the shared arms stand as if each were at its leaves. -/
theorem ends_sharedArms (harms : ArmsContained w tree arms) (huses : tree.uses alt = true)
    (hvalid : ∀ index, alt = .arm index → index < arms.length)
    (hlabel : wanted = .loop → tree.sharedArms arms ≠ [] →
      ∃ number, label = some (Lower.stopLabel number))
    (hskip : 0 < jumpsPast (tree.fallsThrough wanted arms) (tree.sharedArms arms) →
      SkipsBy w suffix skip skipped P)
    (hruns : ∀ o, Runs w (.all decision) s o ↔
      LeafRuns w wanted (tree.leafCodes suffix arms) label s' o alt) :
    Ends w (.all (appendShared suffix skip (tree.fallsThrough wanted arms) (tree.sharedArms arms)
      decision)) s P ↔ ∃ o, LeafRuns w wanted arms label s' o alt ∧ P o := by
  cases alt with
  | arm index =>
    have hindex := hvalid index rfl
    have hpasses : ∀ o, Runs w (.all (arms.getD index [])) s' o → o.Passes suffix :=
      fun o h => (harms index s' o huses h).passes suffix
    simp only [LeafRuns, getD_leafCodes hindex] at hruns
    by_cases hshared : tree.sharesArm index (arms.getD index []) = true
    · simp only [hshared, if_true, runs_singleton_iff, runs_breakTo_iff] at hruns
      refine ends_appendShared_of_jump hskip nodup_sharedArms ?_ hruns hpasses
      refine mem_sharedArms.2 ⟨?_, hshared⟩
      simp [hindex]
    · simp only [hshared] at hruns
      rw [ends_appendShared_of_passes hskip ?_ fun _ o h => hpasses o ((hruns o).1 h)]
      · exact ends_congr_runs hruns
      · intro _ hfalls
        exact (hshared (sharesArm_of_not_fallsThrough hfalls hindex)).elim
  | exit =>
    rw [ends_appendShared_of_passes hskip]
    · exact exists_congr fun o => and_congr_left fun _ => hruns o
    · intro hne hfalls m hrun
      have hexit := (hruns _).1 hrun
      rw [LeafRuns] at hexit
      split at hexit
      · cases hexit
      · rename_i hwanted
        unfold Decision.fallsThrough at hfalls
        simp [huses, hwanted] at hfalls
    · intro hne o hrun
      have hexit := (hruns o).1 hrun
      rw [LeafRuns] at hexit
      split at hexit
      · rename_i hwanted
        obtain ⟨number, rfl⟩ := hlabel hwanted hne
        rw [hexit]
        exact Outcome.passes_broke_stop suffix number s'
      · rw [hexit]
        exact Outcome.passes_normal suffix s'
  | error =>
    rw [ends_appendShared_of_passes hskip]
    · exact exists_congr fun o => and_congr_left fun _ => hruns o
    · intro hne hfalls m hrun
      cases (hruns _).1 hrun
    · intro hne o hrun
      rw [(hruns o).1 hrun]
      exact Outcome.passes_failed suffix s'.source

/-! ## What surrounds the arms -/

/-- What is known about the decision of a set whose arms have this code: at each place of the input
it comes to the leaf of the alternative that the tree selects. -/
structure Stepping (w : World σ) (g : Grammar) (tree : Decision) (wanted : Enclosure)
    (arms : List (List Stmt)) (label : Option String) (suffix : String) (decision : List Stmt)
    (peek : Running σ → Running σ) (alt : Running σ → Alt) (target : Running σ → Option String) :
    Prop where
  chosen : ∀ s, choiceAt w g tree s.source = some (alt s)
  uses : ∀ s, tree.uses (alt s) = true
  source : ∀ s, (peek s).source = s.source
  /-- The jump out of a loop leaves the loop. -/
  caught : ∀ s, target s = none ∨ target s = label
  named : wanted = .loop → tree.sharedArms arms ≠ [] →
    ∃ number, label = some (Lower.stopLabel number)
  ends : ∀ s skip skipped P,
    (0 < jumpsPast (tree.fallsThrough wanted arms) (tree.sharedArms arms) →
      SkipsBy w suffix skip skipped P) →
    (Ends w (.all (appendShared suffix skip (tree.fallsThrough wanted arms) (tree.sharedArms arms)
      decision)) s P ↔ ∃ o, LeafRuns w wanted arms (target s) (peek s) o (alt s) ∧ P o)

variable {g : Grammar} {peek : Running σ → Running σ} {alt : Running σ → Alt}
  {target : Running σ → Option String} {mode : Repetition} {o : Outcome σ} {code : List Stmt}

namespace Stepping

theorem isContained (h : Stepping w g tree wanted arms label suffix decision peek alt target)
    (harms : ArmsContained w tree arms) (hwanted : wanted ≠ .loop)
    (hleaf : LeafRuns w wanted arms (target s) (peek s) o (alt s)) : o.IsContained := by
  have huses := h.uses s
  cases halt : alt s with
  | arm index =>
    rw [halt] at hleaf huses
    exact harms index _ o huses hleaf
  | exit =>
    rw [halt, LeafRuns, if_neg hwanted] at hleaf
    rw [hleaf]
    trivial
  | error =>
    rw [halt, LeafRuns] at hleaf
    rw [hleaf]
    trivial

/-- In a set that is not repeated, what stands at the leaf is all. -/
theorem setRuns_iff_leafRuns
    (h : Stepping w g tree wanted arms label suffix decision peek alt target)
    (hmode : mode ≠ .star) (hwanted : wanted ≠ .loop) :
    SetRuns w g mode tree arms peek s o ↔
      LeafRuns w wanted arms (target s) (peek s) o (alt s) := by
  have hchosen := h.chosen s
  constructor
  · intro hset
    cases hset with
    | once _ chosen arm =>
      rw [hchosen] at chosen
      rw [Option.some.inj chosen]
      exact arm
    | again repeated => exact (hmode repeated).elim
    | stop repeated => exact (hmode repeated).elim
    | exit chosen =>
      rw [hchosen] at chosen
      rw [Option.some.inj chosen, LeafRuns, if_neg hwanted]
    | error chosen =>
      rw [hchosen] at chosen
      rw [Option.some.inj chosen, LeafRuns, h.source]
  · intro hleaf
    cases halt : alt s with
    | arm index =>
      rw [halt] at hleaf hchosen
      exact .once hmode hchosen hleaf
    | exit =>
      rw [halt, LeafRuns, if_neg hwanted] at hleaf
      rw [halt] at hchosen
      exact hleaf ▸ .exit hchosen
    | error =>
      rw [halt, LeafRuns, h.source] at hleaf
      rw [halt] at hchosen
      exact hleaf ▸ .error hchosen

/-- In a repeated set, what stands at the leaf is followed by the same again, unless the loop is
left. -/
theorem setRuns_of_leafRuns
    (h : Stepping w g tree .loop arms label suffix decision peek alt target)
    (harms : ArmsContained w tree arms) {o₁ : Outcome σ}
    (hleaf : LeafRuns w .loop arms (target s) (peek s) o₁ (alt s))
    (hnext : Outcome.AfterRound label (SetRuns w g .star tree arms peek) o o₁) :
    SetRuns w g .star tree arms peek s o := by
  have hchosen := h.chosen s
  have huses := h.uses s
  cases halt : alt s with
  | arm index =>
    rw [halt] at hleaf hchosen huses
    cases o₁ with
    | normal t =>
      rcases hnext with ⟨m, hm, hnext⟩ | hleft
      · cases hm
        exact .again rfl hchosen hleaf hnext
      · cases hleft
    | failed t =>
      rcases hnext with ⟨m, hm, -⟩ | hleft
      · cases hm
      · cases hleft
        exact .stop rfl hchosen hleaf
    | broke l t => exact (harms index _ _ huses hleaf).elim
    | continued l t => exact (harms index _ _ huses hleaf).elim
  | exit =>
    rw [halt, LeafRuns, if_pos rfl] at hleaf
    rw [halt] at hchosen
    subst hleaf
    rcases hnext with ⟨m, hm, -⟩ | hleft
    · cases hm
    · rw [Outcome.leaveLoop, if_pos (h.caught s)] at hleft
      cases hleft
      exact .exit hchosen
  | error =>
    rw [halt, LeafRuns, h.source] at hleaf
    rw [halt] at hchosen
    subst hleaf
    rcases hnext with ⟨m, hm, -⟩ | hleft
    · cases hm
    · cases hleft
      exact .error hchosen

/-- A round of the loop follows the tree once. -/
theorem ends_round (h : Stepping w g tree .loop arms label suffix decision peek alt target)
    (next : Running σ → Outcome σ → Prop) :
    Ends w (.all (appendShared suffix (.continueTo label) (tree.fallsThrough .loop arms)
      (tree.sharedArms arms) decision)) s (Outcome.AfterRound label next o) ↔
      ∃ o₁, LeafRuns w .loop arms (target s) (peek s) o₁ (alt s) ∧
        Outcome.AfterRound label next o o₁ := by
  refine h.ends s _ (.continued label) _ fun hjumps =>
    ⟨fun _ _ => runs_continueTo_iff, fun _ => trivial, ?_, fun s => ?_⟩
  · intro s i
    obtain ⟨number, rfl⟩ := h.named rfl (ne_nil_of_jumpsPast hjumps)
    rfl
  · rw [Outcome.afterRound_normal, Outcome.afterRound_continued]

theorem runs_loop_of_leafRuns
    (h : Stepping w g tree .loop arms label suffix decision peek alt target) {choice : Alt}
    (hchoice : choiceAt w g tree s.source = some choice) {o₁ : Outcome σ}
    (hleaf : LeafRuns w .loop arms (target s) (peek s) o₁ choice)
    (hnext : Outcome.AfterRound label (fun m o => Runs w (.stmt (.loop label (appendShared suffix
      (.continueTo label) (tree.fallsThrough .loop arms) (tree.sharedArms arms) decision))) m o) o o₁) :
    Runs w (.stmt (.loop label (appendShared suffix (.continueTo label)
      (tree.fallsThrough .loop arms) (tree.sharedArms arms) decision))) s o := by
  rw [h.chosen s] at hchoice
  rw [runs_loop_iff]
  exact (h.ends_round _).2 ⟨o₁, Option.some.inj hchoice ▸ hleaf, hnext⟩

theorem runs_loop_iff_setRuns
    (h : Stepping w g tree .loop arms label suffix decision peek alt target)
    (harms : ArmsContained w tree arms) :
    Runs w (.stmt (.loop label (appendShared suffix (.continueTo label)
      (tree.fallsThrough .loop arms) (tree.sharedArms arms) decision))) s o ↔
      SetRuns w g .star tree arms peek s o := by
  constructor
  · intro hrun
    -- The induction is on the rounds of the loop.
    generalize hblock : Block.stmt _ = block at hrun
    induction hrun with
    | again once goesOn next _ ih =>
      cases hblock
      obtain ⟨o₁, hleaf, hnext⟩ := (h.ends_round (SetRuns w g .star tree arms peek)).1
        ⟨_, once, Or.inl ⟨_, goesOn, ih rfl⟩⟩
      exact h.setRuns_of_leafRuns harms hleaf hnext
    | leave once left _ =>
      cases hblock
      obtain ⟨o₁, hleaf, hnext⟩ := (h.ends_round (SetRuns w g .star tree arms peek)).1
        ⟨_, once, Or.inr left⟩
      exact h.setRuns_of_leafRuns harms hleaf hnext
    | _ => cases hblock
  · intro hset
    generalize hmode : Repetition.star = mode at hset
    induction hset with
    | once single => exact (single hmode.symm).elim
    | again _ chosen arm next ih =>
      exact h.runs_loop_of_leafRuns chosen arm (Or.inl ⟨_, rfl, ih⟩)
    | stop _ chosen arm => exact h.runs_loop_of_leafRuns chosen arm (Or.inr rfl)
    | exit chosen =>
      refine h.runs_loop_of_leafRuns chosen rfl (Or.inr ?_)
      rw [if_pos rfl, Outcome.leaveLoop, if_pos (h.caught _)]
    | error chosen =>
      refine h.runs_loop_of_leafRuns chosen rfl (Or.inr ?_)
      rw [h.source]
      rfl

/-- In a block, a jump to its end is a normal end. -/
theorem runs_block_iff_setRuns
    (h : Stepping w g tree wanted arms label suffix decision peek alt target)
    (harms : ArmsContained w tree arms) (hmode : mode ≠ .star) (hwanted : wanted ≠ .loop)
    (number : Nat) :
    Runs w (.stmt (.labeled (Lower.stopLabel number) (appendShared suffix
      (.breakTo (some (Lower.stopLabel number))) (tree.fallsThrough wanted arms)
      (tree.sharedArms arms) decision))) s o ↔ SetRuns w g mode tree arms peek s o := by
  have hends := h.ends s _ (.broke (some (Lower.stopLabel number)))
    (fun o₁ => o₁.leaveBlock (Lower.stopLabel number) = some o) fun _ =>
      ⟨fun _ _ => runs_breakTo_iff, fun _ => trivial,
        Outcome.passes_broke_stop suffix number, fun _ => by simp [Outcome.leaveBlock]⟩
  rw [runs_labeled_iff, h.setRuns_iff_leafRuns hmode hwanted]
  refine hends.trans ?_
  constructor
  · rintro ⟨o₁, hleaf, hleave⟩
    rw [(h.isContained harms hwanted hleaf).leaveBlock] at hleave
    cases hleave
    exact hleaf
  · intro hleaf
    exact ⟨o, hleaf, (h.isContained harms hwanted hleaf).leaveBlock _⟩

/-- Without jumps nothing has to surround the arms. -/
theorem runs_bare_iff_setRuns
    (h : Stepping w g tree wanted arms label suffix decision peek alt target)
    (hmode : mode ≠ .star) (hwanted : wanted ≠ .loop)
    (hjumps : jumpsPast (tree.fallsThrough wanted arms) (tree.sharedArms arms) = 0) :
    Runs w (.all (appendShared suffix skip (tree.fallsThrough wanted arms) (tree.sharedArms arms)
      decision)) s o ↔ SetRuns w g mode tree arms peek s o := by
  have hends := h.ends s skip (.broke none) (fun o₁ => o₁ = o) fun hpos =>
    absurd hpos (hjumps ▸ Nat.lt_irrefl 0)
  unfold Ends at hends
  rw [h.setRuns_iff_leafRuns hmode hwanted]
  simpa only [exists_eq_right] using hends

end Stepping

/-! ## The code of a set -/

variable [LawfulSource σ]

/-- What the decision of a set whose arms are contained does. -/
theorem exists_stepping (hwf : tree.WellFormed) {hasExit : Bool}
    (hvalid : tree.invalidAlt? arms.length hasExit = none) (harms : ArmsContained w tree arms)
    {label' : Option String} {st st' : LowerState}
    (hlabel : wanted = .loop → tree.sharedArms arms ≠ [] →
      ∃ number, label = some (Lower.stopLabel number))
    (h : Yields (m.lowerDecision wanted (tree.leafCodes suffix arms) .empty label tree) st
      (decision, label') st') :
    ∃ peek alt target, (∀ s : Running σ, s.Peeks (peek s)) ∧
      Stepping w m.grammar tree wanted arms label' suffix decision peek alt target := by
  obtain ⟨hstep, hdecides⟩ := decides_lowerDecision hwf w m _ _ _ _ _ _ _ _ h
  choose alt peek target hselect hpeeks htarget hruns using hdecides
  have huses : ∀ s, tree.uses (alt s) = true := fun s =>
    List.contains_iff_mem.2 (Decision.mem_leaves_of_select hwf (hselect s))
  -- Where arms are shared, the loop has its label from the start.
  have hlabels : wanted = .loop → tree.sharedArms arms ≠ [] →
      label' = label ∧ ∃ number, label' = some (Lower.stopLabel number) := by
    intro hwanted hshared
    obtain ⟨number, rfl⟩ := hlabel hwanted hshared
    rcases hstep with hnone | rfl
    · cases hnone
    · exact ⟨rfl, number, rfl⟩
  refine ⟨peek, alt, target, hpeeks, hselect, huses, fun s => (hpeeks s).source, ?_, ?_, ?_⟩
  · intro s
    rcases htarget s with heq | heq
    · rcases hstep with rfl | rfl
      · exact Or.inl heq
      · exact Or.inr heq
    · exact Or.inr heq
  · exact fun hwanted hshared => (hlabels hwanted hshared).2
  · intro s skip skipped P hskip
    refine ends_sharedArms harms (huses s) ?_ ?_ hskip (hruns s)
    · intro index hindex
      have hleaf := Decision.mem_leaves_of_select hwf (hselect s)
      rw [hindex] at hleaf
      simpa [Decision.isValidAlt] using List.find?_eq_none.1 hvalid _ hleaf
    · intro hwanted hshared
      obtain ⟨heq, number, hnumber⟩ := hlabels hwanted hshared
      refine ⟨number, ?_⟩
      rcases htarget s with htarget | htarget
      · rw [htarget, ← heq, hnumber]
      · rw [htarget, hnumber]

/-- **The code of an alternative set follows its prediction tree.** -/
theorem runs_lowerAlternatives (hwf : tree.WellFormed)
    (hvalid : tree.invalidAlt? arms.length alts.hasExit = none) (harms : ArmsContained w tree arms)
    {st st' : LowerState} (h : Yields (m.lowerAlternatives alts tree arms) st code st') :
    ∃ peek, (∀ s : Running σ, s.Peeks (peek s)) ∧ ∀ s o,
      Runs w (.all code) s o ↔ SetRuns w m.grammar alts.mode tree arms peek s o := by
  obtain ⟨label, suffix, decision, label', st₁, st₂, hlabel, hdecision, hcode⟩ :=
    yields_lowerAlternatives h
  obtain ⟨peek, alt, target, hpeeks, hstepping⟩ := exists_stepping hwf hvalid harms hlabel hdecision
  refine ⟨peek, hpeeks, fun s o => ?_⟩
  cases hcode with
  | loop hwanted =>
    rw [hwanted] at hstepping ⊢
    rw [runs_singleton_iff, enclosure_eq_loop.1 hwanted]
    exact hstepping.runs_loop_iff_setRuns harms
  | block number hwanted =>
    have hmode : alts.mode ≠ .star := fun hmode => hwanted (enclosure_eq_loop.2 hmode)
    rw [runs_singleton_iff]
    exact hstepping.runs_block_iff_setRuns harms hmode hwanted number
  | none hwanted hjumps =>
    have hmode : alts.mode ≠ .star := fun hmode => hwanted (enclosure_eq_loop.2 hmode)
    exact hstepping.runs_bare_iff_setRuns hmode hwanted hjumps

end

end PredictiveParser
