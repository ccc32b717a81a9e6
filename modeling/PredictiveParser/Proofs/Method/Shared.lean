import PredictiveParser.Method.Alternatives
import PredictiveParser.Proofs.Method.Running
import PredictiveParser.Proofs.Text.Names

/-!
# Shared arms

Shared arms stand behind the code that jumps to them, each behind a labeled block of its own. At the
end of each block but perhaps the first there is a jump past all arms.

What such code comes to is described from outside: `Ends w block s P` says that the block can end in a
way that `P` accepts, where `P` is what the enclosing loop or block makes of it. To the enclosure it
is all the same whether the code ends normally or jumps past the arms (`SkipsBy`).

* `ends_appendShared_of_passes`: code that jumps to no shared arm runs as if there were none.
* `ends_appendShared_of_jump`: code that jumps to a shared arm runs this arm and no other.
-/
namespace PredictiveParser

/-! ## Labels -/

theorem matchLabel_injective {suffix : String} {i j : Nat}
    (h : matchLabel suffix i = matchLabel suffix j) : i = j := by
  have hlist := congrArg String.toList h
  unfold matchLabel at hlist
  simp only [String.toList_append, List.append_cancel_right_eq, List.append_cancel_left_eq] at hlist
  have := toString_nat_injective (String.toList_inj.1 hlist)
  omega

/-- No loop or block of an alternative set is named like a shared arm. -/
theorem matchLabel_ne_stopLabel (suffix : String) (i number : Nat) :
    matchLabel suffix i ≠ Lower.stopLabel number := by
  intro h
  have hlist := congrArg (fun s => s.toList.head?) h
  unfold matchLabel Lower.stopLabel at hlist
  split at hlist <;> simp [String.toList_append] at hlist

section

variable {σ : Type}

/-! ## Ends of a run -/

/-- The statements behind are run, or the method has returned. -/
def Outcome.IsContained : Outcome σ → Prop
  | .normal _ => True
  | .failed _ => True
  | _ => False

/-- The outcome is no jump to a shared arm of the set with this suffix, nor one that no block lets
through. -/
def Outcome.Passes (suffix : String) (o : Outcome σ) : Prop :=
  ∀ i, o.leaveBlock (matchLabel suffix i) = some o

theorem Outcome.passes_normal (suffix : String) (s : Running σ) :
    (Outcome.normal s).Passes suffix := fun _ => rfl

theorem Outcome.passes_failed (suffix : String) (t : σ) :
    (Outcome.failed t).Passes suffix := fun _ => rfl

theorem Outcome.IsContained.leaveBlock {o : Outcome σ} (h : o.IsContained) (label : String) :
    o.leaveBlock label = some o := by
  cases o with
  | normal s => rfl
  | failed t => rfl
  | broke label s => exact h.elim
  | continued label s => exact h.elim

theorem Outcome.IsContained.passes {o : Outcome σ} (h : o.IsContained) (suffix : String) :
    o.Passes suffix := fun i => h.leaveBlock (matchLabel suffix i)

/-- A jump to the end of an enclosing loop or block is none to a shared arm. -/
theorem Outcome.passes_broke_stop (suffix : String) (number : Nat) (s : Running σ) :
    (Outcome.broke (some (Lower.stopLabel number)) s).Passes suffix := by
  intro i
  rw [leaveBlock, if_neg (matchLabel_ne_stopLabel suffix i number).symm]

variable [Source σ]

/-- The block can end in a way that `P` accepts. -/
def Ends (w : World σ) (block : Block) (s : Running σ) (P : Outcome σ → Prop) : Prop :=
  ∃ o, Runs w block s o ∧ P o

/-- The statement jumps past all shared arms, which for `P` is a normal end. -/
structure SkipsBy (w : World σ) (suffix : String) (skip : Stmt) (skipped : Running σ → Outcome σ)
    (P : Outcome σ → Prop) : Prop where
  runs : ∀ s o, Runs w (.stmt skip) s o ↔ o = skipped s
  abrupt : ∀ s, (skipped s).IsAbrupt
  passes : ∀ s, (skipped s).Passes suffix
  same : ∀ s, P (skipped s) ↔ P (.normal s)

variable {w : World σ} {suffix : String} {skip : Stmt} {skipped : Running σ → Outcome σ}
  {P : Outcome σ → Prop} {jumpOver : Bool} {shared : List (Nat × List Stmt)} {code : List Stmt}
  {s : Running σ}

theorem ends_congr_runs {block block' : Block} {s' : Running σ}
    (h : ∀ o, Runs w block s o ↔ Runs w block' s' o) : Ends w block s P ↔ Ends w block' s' P :=
  exists_congr fun o => and_congr_left fun _ => h o

/-! ## One shared arm -/

/-- The code in front of a shared arm, in its block. -/
def blockBody (skip : Stmt) (jumpOver : Bool) (code : List Stmt) : List Stmt :=
  if jumpOver then code ++ [skip] else code

theorem appendShared_cons (index : Nat) (arm : List Stmt) (rest : List (Nat × List Stmt)) :
    appendShared suffix skip jumpOver ((index, arm) :: rest) code =
      appendShared suffix skip true rest
        (.labeled (matchLabel suffix index) (blockBody skip jumpOver code) :: arm) := by
  rw [appendShared]
  rfl

theorem runs_blockBody {o : Outcome σ}
    (hnormal : jumpOver = false → ∀ m, ¬ Runs w (.all code) s (.normal m)) :
    Runs w (.all (blockBody skip jumpOver code)) s o ↔
      (∃ m, Runs w (.all code) s (.normal m) ∧ Runs w (.stmt skip) m o) ∨
        Runs w (.all code) s o ∧ o.IsAbrupt := by
  cases jumpOver with
  | true =>
    unfold blockBody
    rw [if_pos rfl, runs_append_iff]
    simp only [runs_singleton_iff]
  | false =>
    unfold blockBody
    rw [if_neg Bool.false_ne_true]
    constructor
    · intro h
      rcases o.normal_or_isAbrupt with ⟨m, rfl⟩ | habrupt
      · exact (hnormal rfl m h).elim
      · exact Or.inr ⟨h, habrupt⟩
    · rintro (⟨m, hm, -⟩ | ⟨h, -⟩)
      · exact (hnormal rfl m hm).elim
      · exact h

theorem runs_blockBody_of_jump {label : String} {s' : Running σ}
    (hjump : ∀ o, Runs w (.all code) s o ↔ o = .broke (some label) s') (o : Outcome σ) :
    Runs w (.all (blockBody skip jumpOver code)) s o ↔ o = .broke (some label) s' := by
  rw [runs_blockBody fun _ m hm => nomatch (hjump _).1 hm]
  constructor
  · rintro (⟨m, hm, -⟩ | ⟨h, -⟩)
    · cases (hjump _).1 hm
    · exact (hjump o).1 h
  · rintro rfl
    exact Or.inr ⟨(hjump _).2 rfl, trivial⟩

/-- Behind its block, code that passes the shared arm never comes to it. -/
theorem runs_block_of_passes {index : Nat} {arm : List Stmt} {o : Outcome σ}
    (hskip : jumpOver = true → SkipsBy w suffix skip skipped P)
    (hnormal : jumpOver = false → ∀ m, ¬ Runs w (.all code) s (.normal m))
    (hpasses : ∀ o, Runs w (.all code) s o → o.Passes suffix) :
    Runs w (.all (.labeled (matchLabel suffix index) (blockBody skip jumpOver code) :: arm)) s o ↔
      (∃ m, Runs w (.all code) s (.normal m) ∧ o = skipped m) ∨
        Runs w (.all code) s o ∧ o.IsAbrupt := by
  have hbody : ∀ o, Runs w (.all (blockBody skip jumpOver code)) s o ↔
      (∃ m, Runs w (.all code) s (.normal m) ∧ o = skipped m) ∨
        Runs w (.all code) s o ∧ o.IsAbrupt := by
    intro o
    rw [runs_blockBody hnormal]
    refine or_congr_left (exists_congr fun m => and_congr_right fun hm => ?_)
    cases jumpOver with
    | true => exact (hskip rfl).runs m o
    | false => exact (hnormal rfl m hm).elim
  -- No way out of the block body is normal, and the block lets all of them through.
  have hblock : ∀ o, (∃ m, Runs w (.all code) s (.normal m) ∧ o = skipped m) ∨
      Runs w (.all code) s o ∧ o.IsAbrupt →
      o.IsAbrupt ∧ o.leaveBlock (matchLabel suffix index) = some o := by
    rintro o (⟨m, hm, rfl⟩ | ⟨h, habrupt⟩)
    · cases jumpOver with
      | true => exact ⟨(hskip rfl).abrupt m, (hskip rfl).passes m index⟩
      | false => exact (hnormal rfl m hm).elim
    · exact ⟨habrupt, hpasses o h index⟩
  have hlabeled : ∀ o, Runs w (.stmt (.labeled (matchLabel suffix index)
      (blockBody skip jumpOver code))) s o ↔ Runs w (.all (blockBody skip jumpOver code)) s o := by
    intro o
    rw [runs_labeled_iff]
    constructor
    · rintro ⟨o', hrun, hleave⟩
      rw [(hblock o' ((hbody o').1 hrun)).2] at hleave
      cases hleave
      exact hrun
    · intro hrun
      exact ⟨o, hrun, (hblock o ((hbody o).1 hrun)).2⟩
  rw [runs_cons_iff, hlabeled, hbody]
  constructor
  · rintro (⟨m, hm, -⟩ | ⟨h, -⟩)
    · exact ((hblock _ ((hbody _).1 ((hlabeled _).1 hm))).1).elim
    · exact h
  · intro h
    exact Or.inr ⟨h, (hblock o h).1⟩

/-- A jump to the shared arm leads to it. -/
theorem runs_block_of_jump {index : Nat} {arm : List Stmt} {s' : Running σ} {o : Outcome σ}
    (hjump : ∀ o, Runs w (.all code) s o ↔ o = .broke (some (matchLabel suffix index)) s') :
    Runs w (.all (.labeled (matchLabel suffix index) (blockBody skip jumpOver code) :: arm)) s o ↔
      Runs w (.all arm) s' o := by
  have hlabeled : ∀ o, Runs w (.stmt (.labeled (matchLabel suffix index)
      (blockBody skip jumpOver code))) s o ↔ o = .normal s' := by
    intro o
    rw [runs_labeled_iff]
    simp only [runs_blockBody_of_jump hjump, exists_eq_left, Outcome.leaveBlock, if_pos,
      Option.some.injEq]
    exact eq_comm
  rw [runs_cons_iff]
  simp only [hlabeled]
  constructor
  · rintro (⟨m, hm, h⟩ | ⟨rfl, habrupt⟩)
    · cases hm
      exact h
    · exact habrupt.elim
  · intro h
    exact Or.inl ⟨s', rfl, h⟩

/-- A jump to another arm passes this one. -/
theorem runs_block_of_other {index other : Nat} {arm : List Stmt} {s' : Running σ} {o : Outcome σ}
    (hne : other ≠ index)
    (hjump : ∀ o, Runs w (.all code) s o ↔ o = .broke (some (matchLabel suffix other)) s') :
    Runs w (.all (.labeled (matchLabel suffix index) (blockBody skip jumpOver code) :: arm)) s o ↔
      o = .broke (some (matchLabel suffix other)) s' := by
  have hlabel : matchLabel suffix other ≠ matchLabel suffix index :=
    fun h => hne (matchLabel_injective h)
  have hlabeled : ∀ o, Runs w (.stmt (.labeled (matchLabel suffix index)
      (blockBody skip jumpOver code))) s o ↔ o = .broke (some (matchLabel suffix other)) s' := by
    intro o
    rw [runs_labeled_iff]
    simp only [runs_blockBody_of_jump hjump, exists_eq_left, Outcome.leaveBlock, if_neg hlabel,
      Option.some.injEq]
    exact eq_comm
  rw [runs_cons_iff]
  simp only [hlabeled]
  constructor
  · rintro (⟨m, hm, -⟩ | ⟨h, -⟩)
    · cases hm
    · exact h
  · rintro rfl
    exact Or.inr ⟨rfl, trivial⟩

/-! ## All shared arms -/

theorem jumpsPast_cons {entry : Nat × List Stmt} {rest : List (Nat × List Stmt)}
    (h : 0 < jumpsPast true rest) : 0 < jumpsPast jumpOver (entry :: rest) := by
  unfold jumpsPast at h ⊢
  rw [if_pos rfl] at h
  split
  · exact Nat.succ_pos _
  · exact h

theorem ne_nil_of_jumpsPast (h : 0 < jumpsPast jumpOver shared) : shared ≠ [] := by
  rintro rfl
  unfold jumpsPast at h
  split at h <;> exact Nat.lt_irrefl 0 h

/-- Code that jumps to no shared arm runs as if there were none. -/
theorem ends_appendShared_of_passes
    (hskip : 0 < jumpsPast jumpOver shared → SkipsBy w suffix skip skipped P)
    (hnormal : shared ≠ [] → jumpOver = false → ∀ m, ¬ Runs w (.all code) s (.normal m))
    (hpasses : shared ≠ [] → ∀ o, Runs w (.all code) s o → o.Passes suffix) :
    Ends w (.all (appendShared suffix skip jumpOver shared code)) s P ↔ Ends w (.all code) s P := by
  induction shared generalizing code jumpOver with
  | nil => rfl
  | cons entry rest ih =>
    obtain ⟨index, arm⟩ := entry
    have hskip' : jumpOver = true → SkipsBy w suffix skip skipped P := by
      rintro rfl
      exact hskip (Nat.succ_pos _)
    have hnormal' := hnormal (List.cons_ne_nil _ _)
    have hpasses' := hpasses (List.cons_ne_nil _ _)
    have hblock : ∀ o, Runs w (.all (.labeled (matchLabel suffix index)
        (blockBody skip jumpOver code) :: arm)) s o ↔
        (∃ m, Runs w (.all code) s (.normal m) ∧ o = skipped m) ∨
          Runs w (.all code) s o ∧ o.IsAbrupt :=
      fun o => runs_block_of_passes hskip' hnormal' hpasses'
    rw [appendShared_cons, ih]
    · constructor
      · rintro ⟨o, hrun, hP⟩
        rcases (hblock o).1 hrun with ⟨m, hm, rfl⟩ | ⟨h, -⟩
        · cases jumpOver with
          | true => exact ⟨.normal m, hm, ((hskip' rfl).same m).1 hP⟩
          | false => exact (hnormal' rfl m hm).elim
        · exact ⟨o, h, hP⟩
      · rintro ⟨o, hrun, hP⟩
        rcases o.normal_or_isAbrupt with ⟨m, rfl⟩ | habrupt
        · cases jumpOver with
          | true =>
            exact ⟨skipped m, (hblock _).2 (Or.inl ⟨m, hrun, rfl⟩), ((hskip' rfl).same m).2 hP⟩
          | false => exact (hnormal' rfl m hrun).elim
        · exact ⟨o, (hblock o).2 (Or.inr ⟨hrun, habrupt⟩), hP⟩
    · exact fun hjumps => hskip (jumpsPast_cons hjumps)
    · exact fun _ => nofun
    · intro _ o hrun
      rcases (hblock o).1 hrun with ⟨m, hm, rfl⟩ | ⟨h, -⟩
      · cases jumpOver with
        | true => exact (hskip' rfl).passes m
        | false => exact (hnormal' rfl m hm).elim
      · exact hpasses' o h

/-- Code that jumps to a shared arm runs this arm and no other. -/
theorem ends_appendShared_of_jump {index : Nat} {arm : List Stmt} {s' : Running σ}
    (hskip : 0 < jumpsPast jumpOver shared → SkipsBy w suffix skip skipped P)
    (hnodup : (shared.map Prod.fst).Nodup) (hmem : (index, arm) ∈ shared)
    (hjump : ∀ o, Runs w (.all code) s o ↔ o = .broke (some (matchLabel suffix index)) s')
    (harm : ∀ o, Runs w (.all arm) s' o → o.Passes suffix) :
    Ends w (.all (appendShared suffix skip jumpOver shared code)) s P ↔ Ends w (.all arm) s' P := by
  induction shared generalizing code jumpOver with
  | nil => cases hmem
  | cons entry rest ih =>
    obtain ⟨first, body⟩ := entry
    rw [List.map_cons, List.nodup_cons] at hnodup
    have hskip' : 0 < jumpsPast true rest → SkipsBy w suffix skip skipped P :=
      fun hjumps => hskip (jumpsPast_cons hjumps)
    rw [appendShared_cons]
    by_cases hfirst : index = first
    · subst hfirst
      have hbody : body = arm := by
        rcases List.mem_cons.1 hmem with heq | hrest
        · cases heq
          rfl
        · exact (hnodup.1 (List.mem_map.2 ⟨_, hrest, rfl⟩)).elim
      subst hbody
      -- From here on the arm stands in place of the code, and it passes the other arms.
      rw [ends_appendShared_of_passes hskip' (fun _ => nofun) fun _ o hrun =>
        harm o ((runs_block_of_jump hjump).1 hrun)]
      exact ends_congr_runs fun o => runs_block_of_jump hjump
    · refine ih hskip' hnodup.2 ?_ fun o => runs_block_of_other hfirst hjump
      rcases List.mem_cons.1 hmem with heq | hrest
      · cases heq
        exact (hfirst rfl).elim
      · exact hrest

end

end PredictiveParser
