import PredictiveParser.Method.Level
import PredictiveParser.Proofs.Grammar.Kinds
import PredictiveParser.Proofs.Method.Running
import PredictiveParser.Proofs.Yields

/-!
# A lowered level takes the first branch that accepts

In a chain of conditionals each branch is tested by a set that may contain more than its own
terminals, but only such as earlier branches have taken; the last branch needs no test in a
well-formed tree. In a multi-way branch the case of a branch is its set without the terminals of the
branches before it, so the case that is taken is that of the first branch that accepts.

`yields_lowerLevel`: what a level is lowered to, in each of three cases.

`runs_lowerLevel`: with nothing changed but the lookahead variable of the level, the code of a level
goes on with the code of the first branch that accepts.
-/
namespace PredictiveParser

section

variable {σ : Type} [Source σ]

/-! ## Peeking -/

/-- Nothing has changed but lookahead variables, which were set to what they stand for. -/
structure Running.Peeks (s s' : Running σ) : Prop where
  source : s'.source = s.source
  vars : ∀ n, s'.vars n = s.vars n ∨ s'.vars n = some (Source.lookahead s.source n)

namespace Running

variable {s s' s'' : Running σ}

theorem Peeks.refl (s : Running σ) : s.Peeks s := ⟨rfl, fun _ => Or.inl rfl⟩

theorem Peeks.trans (h : s.Peeks s') (h' : s'.Peeks s'') : s.Peeks s'' := by
  refine ⟨h'.source.trans h.source, fun n => ?_⟩
  rcases h'.vars n with hn | hn
  · rw [hn]
    exact h.vars n
  · rw [hn, h.source]
    exact Or.inr rfl

theorem peeks_assign (s : Running σ) (offset : Nat) :
    s.Peeks (s.assign offset (some (Source.lookahead s.source offset))) := by
  refine ⟨rfl, fun n => ?_⟩
  unfold Running.assign
  simp only
  split
  · rename_i heq
    rw [heq]
    exact Or.inr rfl
  · exact Or.inl rfl

end Running

end

/-! ## Cases of a multi-way branch -/

section

variable {c : Int} {fallback : List Stmt}

theorem chosenCase_append {first rest : List (CharSet × List Stmt)}
    (h : ∀ entry ∈ first, entry.1.contains c = false) :
    chosenCase c fallback (first ++ rest) = chosenCase c fallback rest := by
  induction first with
  | nil => rfl
  | cons entry first ih =>
    rw [List.cons_append, chosenCase, h entry List.mem_cons_self]
    exact ih fun e he => h e (List.mem_cons_of_mem _ he)

theorem chosenCase_eq_fallback {cases : List (CharSet × List Stmt)}
    (h : ∀ entry ∈ cases, entry.1.contains c = false) : chosenCase c fallback cases = fallback := by
  rw [← List.append_nil cases, chosenCase_append h, chosenCase]

theorem contains_of_mem_remainders {covered r : CharSet} {branches : List (Branch Decision)}
    (hr : r ∈ remainders covered branches) (hc : r.contains c = true) :
    covered.contains c = false ∧ ∃ branch ∈ branches, branch.set.contains c = true := by
  induction branches generalizing covered with
  | nil => cases hr
  | cons branch rest ih =>
    rcases List.mem_cons.1 hr with rfl | hr
    · rw [CharSet.contains_subtract, Bool.and_eq_true, Bool.not_eq_true'] at hc
      exact ⟨hc.2, branch, List.mem_cons_self, hc.1⟩
    · obtain ⟨hcovered, other, ho, hoc⟩ := ih hr
      rw [CharSet.contains_union, Bool.or_eq_false_iff] at hcovered
      exact ⟨hcovered.1, other, List.mem_cons_of_mem _ ho, hoc⟩

/-- Of the sets of the cases, only that of the first branch that accepts holds the terminal. -/
theorem remainders_split {covered : CharSet} {before : List (Branch Decision)}
    {branch : Branch Decision} (after : List (Branch Decision)) (hcovered : covered.contains c = false)
    (hbefore : ∀ b ∈ before, b.set.contains c = false) (hbranch : branch.set.contains c = true) :
    ∃ pre set post, remainders covered (before ++ branch :: after) = pre ++ set :: post ∧
      pre.length = before.length ∧ post.length = after.length ∧
      (∀ r ∈ pre, r.contains c = false) ∧ set.contains c = true ∧
      ∀ r ∈ post, r.contains c = false := by
  induction before generalizing covered with
  | nil =>
    refine ⟨[], branch.set.subtract covered, remainders (covered.union branch.set) after, rfl, rfl,
      ?_, nofun, ?_, ?_⟩
    · generalize covered.union branch.set = covered'
      induction after generalizing covered' with
      | nil => rfl
      | cons b rest ih => rw [remainders, List.length_cons, ih, List.length_cons]
    · rw [CharSet.contains_subtract, hbranch, hcovered]
      rfl
    · intro r hr
      by_contra hc
      have := (contains_of_mem_remainders hr (Bool.not_eq_false _ ▸ hc)).1
      rw [CharSet.contains_union, hbranch, Bool.or_true] at this
      cases this
  | cons first before ih =>
    have hfirst := hbefore first List.mem_cons_self
    have hcovered' : (covered.union first.set).contains c = false := by
      rw [CharSet.contains_union, hcovered, hfirst]
      rfl
    obtain ⟨pre, set, post, heq, hpre, hpost, hno, hset, hlater⟩ :=
      ih hcovered' fun b hb => hbefore b (List.mem_cons_of_mem _ hb)
    refine ⟨first.set.subtract covered :: pre, set, post, ?_, ?_, hpost, ?_, hset, hlater⟩
    · rw [List.cons_append, remainders, heq, List.cons_append]
    · rw [List.length_cons, hpre, List.length_cons]
    · intro r hr
      rcases List.mem_cons.1 hr with rfl | hr
      · rw [CharSet.contains_subtract, hfirst]
        rfl
      · exact hno r hr

/-- The multi-way branch takes the case whose set holds the terminal, if it has it. -/
theorem chosenCase_caseCodes {cases : List Nat} {pre post : List CharSet} {set : CharSet}
    {codes₁ codes₂ : List (List Stmt)} {code : List Stmt} (hlen : pre.length = codes₁.length)
    (hpre : ∀ r ∈ pre, r.contains c = false) (hset : set.contains c = true)
    (hpost : ∀ r ∈ post, r.contains c = false) :
    chosenCase c fallback (caseCodes cases (pre ++ set :: post) (codes₁ ++ code :: codes₂)) =
      if cases.contains codes₁.length then code else fallback := by
  have hno : ∀ {sets : List CharSet} {codes : List (List Stmt)} {n : Nat}
      {kept : (CharSet × List Stmt) × Nat → Bool}, (∀ r ∈ sets, r.contains c = false) →
      ∀ entry ∈ (((sets.zip codes).zipIdx n).filter kept).map Prod.fst,
        entry.1.contains c = false := by
    intro sets codes n kept hsets entry he
    obtain ⟨⟨⟨r, body⟩, index⟩, hm, rfl⟩ := List.mem_map.1 he
    have hm := List.fst_mem_of_mem_zipIdx (List.mem_filter.1 hm).1
    exact hsets r (List.of_mem_zip hm).1
  unfold caseCodes
  rw [List.zip_append hlen, List.zip_cons_cons, List.zipIdx_append, List.zipIdx_cons,
    List.filter_append, List.map_append, chosenCase_append (hno hpre), List.length_zip, hlen,
    Nat.min_self, Nat.zero_add, List.filter_cons]
  simp only
  split
  · rw [List.map_cons, chosenCase, hset]
    rfl
  · exact chosenCase_eq_fallback (hno hpost)

end

/-! ## What a level is lowered to -/

/-- The code that decides between the branches of a level: a chain of tests, or a multi-way branch with
the chain behind its cases. -/
def LevelPlan.decision (plan : LevelPlan) (offset : Nat) (branches : List (Branch Decision))
    (codes : List (List Stmt)) (chain : List Stmt) : List Stmt :=
  match plan.cases? with
  | none => chain
  | some cases =>
    [.switch (plan.subject offset) (caseCodes cases (remainders .empty branches) codes) chain]

/-- What a level is lowered to, and the state afterwards. -/
inductive LevelLowered (m : MethodPlan) (plan : LevelPlan) (offset : Nat) (isAssertion : Bool)
    (branches : List (Branch Decision)) (codes : List (List Stmt)) (st : LowerState) :
    List Stmt → LowerState → Prop where
  | sole (short : branches.length ≤ 1) :
      LevelLowered m plan offset isAssertion branches codes st codes.flatten st
  | tested (several : ¬ branches.length ≤ 1) (reads : plan.readsLookahead = false)
      {chain : List Stmt}
      (tests : m.branchChain offset isAssertion plan.cases 0 (branches.zip codes) = .ok chain) :
      LevelLowered m plan offset isAssertion branches codes st
        (plan.decision offset branches codes chain) st
  | read (several : ¬ branches.length ≤ 1) (reads : plan.readsLookahead = true) {chain : List Stmt}
      (tests : m.branchChain offset isAssertion plan.cases 0 (branches.zip codes) = .ok chain) :
      LevelLowered m plan offset isAssertion branches codes st
        (.snippet (.readLookahead offset) :: plan.decision offset branches codes chain)
        { st with offsets := insertAscending offset st.offsets }

theorem yields_lowerLevel {m : MethodPlan} {plan : LevelPlan} {offset : Nat} {isAssertion : Bool}
    {branches : List (Branch Decision)} {codes : List (List Stmt)} {code : List Stmt}
    {st st' : LowerState} : Yields (m.lowerLevel plan offset isAssertion branches codes) st code st' ↔
      LevelLowered m plan offset isAssertion branches codes st code st' := by
  unfold MethodPlan.lowerLevel
  constructor
  · intro h
    split at h
    · rename_i hshort
      obtain ⟨rfl, rfl⟩ := yields_pure.1 h
      exact .sole hshort
    · rename_i hseveral
      obtain ⟨chain, hchain, h⟩ := yields_lift_bind.1 h
      by_cases hreads : plan.readsLookahead = true
      · simp only [if_pos hreads] at h
        obtain ⟨_, st₁, hread, h⟩ := yields_bind.1 h
        obtain ⟨rfl, rfl⟩ := yields_pure.1 h
        obtain rfl := yields_modify.1 hread
        exact .read hseveral hreads hchain
      · simp only [if_neg hreads] at h
        obtain ⟨rfl, rfl⟩ := yields_pure.1 h
        exact .tested hseveral (Bool.eq_false_iff.2 hreads) hchain
  · intro h
    cases h with
    | sole short =>
      rw [if_pos short]
      exact yields_pure.2 ⟨rfl, rfl⟩
    | tested several reads tests =>
      rw [if_neg several]
      refine yields_lift_bind.2 ⟨_, tests, ?_⟩
      simp only [reads, Bool.false_eq_true, if_false]
      exact yields_pure.2 ⟨rfl, rfl⟩
    | read several reads tests =>
      rw [if_neg several]
      refine yields_lift_bind.2 ⟨_, tests, ?_⟩
      simp only [reads, if_true]
      exact yields_bind.2 ⟨⟨⟩, _, yields_modify.2 rfl, yields_pure.2 ⟨rfl, rfl⟩⟩

/-! ## Chains of conditionals -/

section

variable {σ : Type} [Source σ] {w : World σ} {m : MethodPlan} {s : Running σ} {offset : Nat}
  {isAssertion : Bool}

/-- Whether a branch accepts the input, with the checks of a grammar. -/
def Branch.acceptsIn (w : World σ) (g : Grammar) (s : σ) (offset : Nat) (isAssertion : Bool)
    (branch : Branch Decision) : Bool :=
  branch.acceptsAt (Source.lookahead s) (g.checkHolds w.value s) offset isAssertion

/-- A branch with others after it is left to the multi-way branch, or it stands in front of them with its
test. -/
theorem branchChain_cases {cases : List Nat} {index : Nat} {branch : Branch Decision}
    {own chain : List Stmt} {next : Branch Decision × List Stmt}
    {rest : List (Branch Decision × List Stmt)}
    (h : m.branchChain offset isAssertion cases index ((branch, own) :: next :: rest) = .ok chain) :
    ∃ otherwise, m.branchChain offset isAssertion cases (index + 1) (next :: rest) = .ok otherwise ∧
      (cases.contains index = true ∧ chain = otherwise ∨
        cases.contains index = false ∧ ∃ test, m.branchTest offset isAssertion branch = .ok test ∧
          chain = [.ifElse test own otherwise]) := by
  rw [MethodPlan.branchChain] at h
  obtain ⟨otherwise, hotherwise, h⟩ := bind_eq_ok.1 h
  refine ⟨otherwise, hotherwise, ?_⟩
  split at h
  · rename_i hcase
    exact Or.inl ⟨hcase, (pure_eq_ok.1 h).symm⟩
  · rename_i hcase
    obtain ⟨test, htest, h⟩ := bind_eq_ok.1 h
    exact Or.inr ⟨Bool.eq_false_iff.2 hcase, test, htest, (pure_eq_ok.1 h).symm⟩

/-- A chain goes on with the first branch that accepts, when that branch is not left out and the
tests on the way to it say whether their branches accept. -/
theorem runs_branchChain {cases : List Nat} {index : Nat}
    {before after : List (Branch Decision × List Stmt)} {branch : Branch Decision}
    {code chain : List Stmt}
    (h : m.branchChain offset isAssertion cases index (before ++ (branch, code) :: after) = .ok chain)
    (hbefore : ∀ pair ∈ before, pair.1.acceptsIn w m.grammar s.source offset isAssertion = false)
    (hbranch : branch.acceptsIn w m.grammar s.source offset isAssertion = true)
    (hcase : after ≠ [] → cases.contains (index + before.length) = false)
    (htest : ∀ pair ∈ before ++ [(branch, code)], ∀ test,
      m.branchTest offset isAssertion pair.1 = .ok test →
      (∃ i < before.length + after.length, cases.contains (index + i) = false) →
      test.value? w s = some (pair.1.acceptsIn w m.grammar s.source offset isAssertion))
    (o : Outcome σ) : Runs w (.all chain) s o ↔ Runs w (.all code) s o := by
  induction before generalizing index chain with
  | nil =>
    cases after with
    | nil =>
      cases h
      exact Iff.rfl
    | cons next after =>
      have hcase := hcase (List.cons_ne_nil _ _)
      obtain ⟨otherwise, -, ⟨hleft, -⟩ | ⟨-, test, hbt, rfl⟩⟩ := branchChain_cases h
      · exact nomatch hleft.symm.trans hcase
      have hvalue := htest (branch, code) (by simp) test hbt ⟨0, by simp, hcase⟩
      rw [runs_singleton_iff, runs_ifElse_iff hvalue, hbranch]
      exact Iff.rfl
  | cons first before ih =>
    obtain ⟨firstBranch, firstCode⟩ := first
    rw [List.cons_append] at h
    obtain ⟨next, rest, hrest⟩ : ∃ next rest, before ++ (branch, code) :: after = next :: rest := by
      cases before with
      | nil => exact ⟨_, _, rfl⟩
      | cons b before => exact ⟨_, _, rfl⟩
    rw [hrest] at h
    obtain ⟨otherwise, hotherwise, hchain⟩ := branchChain_cases h
    rw [← hrest] at hotherwise
    have hih : Runs w (.all otherwise) s o ↔ Runs w (.all code) s o := by
      refine ih hotherwise (fun pair hp => hbefore pair (List.mem_cons_of_mem _ hp)) ?_ ?_
      · intro hne
        rw [Nat.add_right_comm]
        exact hcase hne
      · rintro pair hp test hbt ⟨i, hi, hcases⟩
        refine htest pair (List.mem_cons_of_mem _ hp) test hbt ⟨i + 1, ?_, ?_⟩
        · rw [List.length_cons]
          omega
        · rw [← hcases]
          congr 1
          omega
    rcases hchain with ⟨-, rfl⟩ | ⟨hfirst, test, hbt, rfl⟩
    · exact hih
    · have hvalue := htest (firstBranch, firstCode) List.mem_cons_self test hbt
        ⟨0, Nat.add_pos_left (Nat.succ_pos _) _, hfirst⟩
      rw [hbefore (firstBranch, firstCode) List.mem_cons_self] at hvalue
      rw [runs_singleton_iff, runs_ifElse_iff hvalue]
      exact hih

/-! ## Tests of branches -/

theorem checkTest_eq_ok {id : NodeId} {check : Check} {test : CheckTest}
    (h : m.checkTest id check offset = .ok test) :
    test.ref = ⟨id, offset⟩ ∧ test.negate = check.negate := by
  unfold MethodPlan.checkTest at h
  simp only at h
  split at h
  · cases pure_eq_ok.1 h
    exact ⟨rfl, rfl⟩
  · cases h
  · split at h
    · obtain ⟨name, -, h⟩ := bind_eq_ok.1 h
      cases pure_eq_ok.1 h
      exact ⟨rfl, rfl⟩
    · cases h

theorem holds_checkTests {α : Type} {w : World α} {checks : CheckSet} {tests : List CheckTest}
    (h : m.checkTests checks = .ok tests) (s : α) :
    tests.all (CheckTest.holds w s) = checks.all (m.grammar.checkHolds w.value s) := by
  induction checks generalizing tests with
  | nil =>
    cases pure_eq_ok.1 h
    rfl
  | cons ref rest ih =>
    rw [MethodPlan.checkTests] at h
    obtain ⟨node, hnode, h⟩ := bind_eq_ok.1 h
    have hkind := Grammar.kindAt?_of_node (liftM_eq_ok.1 hnode)
    rw [List.all_cons]
    split at h
    · rename_i check hcheck
      obtain ⟨test, htest, h⟩ := bind_eq_ok.1 h
      obtain ⟨others, hothers, h⟩ := bind_eq_ok.1 h
      cases pure_eq_ok.1 h
      obtain ⟨href, hnegate⟩ := checkTest_eq_ok htest
      rw [List.all_cons, ih hothers, CheckTest.holds, href, hnegate, Grammar.checkHolds, hkind,
        hcheck]
    · rename_i hne
      have hskip : m.grammar.checkHolds w.value s ref = true := by
        rw [Grammar.checkHolds, hkind]
        split
        · rename_i check heq
          exact (hne check (Option.some.inj heq)).elim
        · rfl
      rw [hskip, Bool.true_and]
      exact ih h

theorem value?_assertion {branch : Branch Decision} {test : Test}
    (h : m.branchTest offset true branch = .ok test) :
    test.value? w s = some (branch.acceptsIn w m.grammar s.source offset true) := by
  obtain ⟨tests, htests, heq⟩ := bind_eq_ok.1 h
  cases pure_eq_ok.1 heq
  have hall := mapM_eq_ok.1 htests
  clear h htests heq
  rw [Test.value?, Branch.acceptsIn, Branch.acceptsAt, accepts, if_pos rfl]
  generalize branch.checks = checks at hall
  have hany : (tests.any fun all => all.all (CheckTest.holds w s.source)) =
      checks.any fun set => set.all (m.grammar.checkHolds w.value s.source) := by
    induction hall with
    | nil => rfl
    | cons hset _ ih => rw [List.any_cons, List.any_cons, ih, holds_checkTests hset]
  have hempty : tests.isEmpty = checks.isEmpty := by
    cases hall <;> rfl
  rw [hany, hempty]

theorem value?_lookahead [LawfulSource σ] {branch : Branch Decision} {test : Test}
    (h : m.branchTest offset false branch = .ok test)
    (hvar : s.vars offset = some (Source.lookahead s.source offset))
    (hcovered : branch.covered.contains (Source.lookahead s.source offset) = false) :
    test.value? w s = some (branch.acceptsIn w m.grammar s.source offset false) := by
  cases pure_eq_ok.1 h
  rw [Test.value?, hvar, Option.map_some, CharSet.holds_test (isTerminal s.source offset),
    CharSet.contains_optimize hcovered]
  rfl

/-- Up to the first branch that accepts, no branch has the terminal among those covered before it. -/
theorem covered_of_coversBefore {c : Int} {covered : CharSet}
    {before after : List (Branch Decision)} {branch : Branch Decision}
    (h : Decision.CoversBefore covered (before ++ branch :: after))
    (hcovered : covered.contains c = false) (hbefore : ∀ b ∈ before, b.set.contains c = false) :
    ∀ b ∈ before ++ [branch], b.covered.contains c = false := by
  induction before generalizing covered with
  | nil =>
    intro b hb
    rw [List.mem_singleton.1 hb, h.1]
    exact hcovered
  | cons first before ih =>
    obtain ⟨hfirst, hrest⟩ := h
    intro b hb
    rcases List.mem_cons.1 hb with rfl | hb
    · rw [hfirst]
      exact hcovered
    · refine ih hrest ?_ (fun b hb => hbefore b (List.mem_cons_of_mem _ hb)) b hb
      rw [CharSet.contains_union, hcovered, hbefore first List.mem_cons_self]
      rfl

/-! ## Levels -/

theorem exists_split_codes {before after : List (Branch Decision)} {branch : Branch Decision}
    {codes : List (List Stmt)} (h : (before ++ branch :: after).length = codes.length) :
    ∃ codes₁ code codes₂, codes = codes₁ ++ code :: codes₂ ∧ before.length = codes₁.length ∧
      after.length = codes₂.length := by
  rw [List.length_append, List.length_cons] at h
  have hlt : before.length < codes.length := by omega
  refine ⟨codes.take before.length, codes[before.length], codes.drop (before.length + 1), ?_, ?_, ?_⟩
  · rw [List.getElem_cons_drop, List.take_append_drop]
  · rw [List.length_take]
    omega
  · rw [List.length_drop]
    omega

/-- A lookahead variable that some test of a level needs is read first. -/
theorem readsLookahead_of_tested {threshold : Nat} {branches : List (Branch Decision)} {i : Nat}
    (hi : i < branches.length - 1)
    (hcases : (LevelPlan.ofLevel threshold false branches).cases.contains i = false) :
    (LevelPlan.ofLevel threshold false branches).readsLookahead = true := by
  unfold LevelPlan.cases LevelPlan.ofLevel at *
  simp only [Bool.false_eq_true, if_false] at *
  rw [Bool.or_eq_true]
  left
  rw [List.any_eq_true]
  exact ⟨i, List.mem_range.2 hi, by rw [hcases]; rfl⟩

variable [LawfulSource σ]

/-- What the decision of a lookahead level does, once the terminal is in its variable if that is
read. -/
theorem runs_lookaheadDecision {threshold : Nat} {before after : List (Branch Decision)}
    {branch : Branch Decision} {codes₁ codes₂ : List (List Stmt)} {body chain : List Stmt}
    {plan : LevelPlan}
    (hplan : plan = LevelPlan.ofLevel threshold false (before ++ branch :: after))
    (hcovers : Decision.CoversBefore .empty (before ++ branch :: after))
    (hlen : before.length = codes₁.length) (hlen' : after.length = codes₂.length)
    (hbefore : ∀ b ∈ before, b.set.contains (Source.lookahead s.source offset) = false)
    (hbranch : branch.set.contains (Source.lookahead s.source offset) = true)
    (hvar : plan.readsLookahead = true →
      s.vars offset = some (Source.lookahead s.source offset))
    (hchain : m.branchChain offset false plan.cases 0
      ((before ++ branch :: after).zip (codes₁ ++ body :: codes₂)) = .ok chain) (o : Outcome σ) :
    Runs w (.all (plan.decision offset (before ++ branch :: after) (codes₁ ++ body :: codes₂) chain))
      s o ↔ Runs w (.all body) s o := by
  rw [List.zip_append hlen, List.zip_cons_cons] at hchain
  have hzip : (before.zip codes₁).length = before.length := by
    rw [List.length_zip, hlen, Nat.min_self]
  have hcovered := covered_of_coversBefore hcovers (CharSet.contains_empty _) hbefore
  -- Whenever the chain gets to run, the branch is not one of the cases.
  have hruns : plan.cases.contains before.length = false →
      (Runs w (.all chain) s o ↔ Runs w (.all body) s o) := by
    intro hcase
    refine runs_branchChain hchain ?_ hbranch ?_ ?_ o
    · intro pair hp
      exact hbefore pair.1 (List.of_mem_zip hp).1
    · rw [hzip, Nat.zero_add]
      exact fun _ => hcase
    · rintro pair hp test htest ⟨i, hi, hcases⟩
      refine value?_lookahead htest (hvar ?_) (hcovered pair.1 ?_)
      · rw [hplan] at hcases ⊢
        refine readsLookahead_of_tested (i := i) ?_ ?_
        · rw [hzip, List.length_zip, hlen', Nat.min_self] at hi
          rw [List.length_append, List.length_cons]
          omega
        · rw [Nat.zero_add] at hcases
          exact hcases
      · rcases List.mem_append.1 hp with hp | hp
        · exact List.mem_append_left _ (List.of_mem_zip hp).1
        · rw [List.mem_singleton.1 hp]
          exact List.mem_append_right _ (List.mem_singleton.2 rfl)
  unfold LevelPlan.decision
  cases hcases : plan.cases? with
  | none =>
    refine hruns ?_
    rw [LevelPlan.cases, hcases]
    rfl
  | some cases =>
    have hsubject : (plan.subject offset).value? s = some (Source.lookahead s.source offset) := by
      unfold LevelPlan.subject
      split
      · rename_i hreads
        exact hvar hreads
      · rfl
    obtain ⟨pre, set, post, heq, hpre, -, hno, hset, hlater⟩ :=
      remainders_split after (CharSet.contains_empty _) hbefore hbranch
    simp only
    rw [runs_singleton_iff, runs_switch_iff hsubject, heq,
      chosenCase_caseCodes (hpre.trans hlen) hno hset hlater, ← hlen]
    split
    · exact Iff.rfl
    · rename_i hcase
      refine hruns ?_
      rw [LevelPlan.cases, hcases]
      simpa using hcase

theorem Decision.WellFormed.coversBefore {branches : List (Branch Decision)} {coverage : CharSet}
    (h : (Decision.level offset false branches coverage).WellFormed) :
    Decision.CoversBefore .empty branches := by
  cases h with
  | lookahead _ covering _ => exact covering

/-- **A level goes on with the code of the first branch that accepts.** -/
theorem runs_lowerLevel {branches : List (Branch Decision)} {coverage : CharSet}
    {codes : List (List Stmt)} {code : List Stmt} {st st' : LowerState}
    (hwf : (Decision.level offset isAssertion branches coverage).WellFormed)
    (hlen : branches.length = codes.length)
    (h : Yields (m.lowerLevel (LevelPlan.ofLevel m.switchThreshold isAssertion branches) offset
      isAssertion branches codes) st code st') (w : World σ) (s : Running σ) :
    ∃ branch body s', branches.find? (·.acceptsIn w m.grammar s.source offset isAssertion) =
        some branch ∧ (branch, body) ∈ branches.zip codes ∧ s.Peeks s' ∧
      ∀ o, Runs w (.all code) s o ↔ Runs w (.all body) s' o := by
  obtain ⟨accepting, haccepting, hacc⟩ :=
    hwf.exists_acceptsAt (m.grammar.checkHolds w.value s.source) (isTerminal s.source)
  obtain ⟨branch, hfind⟩ : ∃ branch, branches.find?
      (·.acceptsIn w m.grammar s.source offset isAssertion) = some branch :=
    Option.isSome_iff_exists.1 (List.find?_isSome.2 ⟨accepting, haccepting, hacc⟩)
  obtain ⟨hbranch, before, after, rfl, hbefore⟩ := List.find?_eq_some_iff_append.1 hfind
  obtain ⟨codes₁, body, codes₂, rfl, hlen₁, hlen₂⟩ := exists_split_codes hlen
  have hbefore : ∀ b ∈ before, b.acceptsIn w m.grammar s.source offset isAssertion = false :=
    fun b hb => by simpa using hbefore b hb
  have hmem : (branch, body) ∈ (before ++ branch :: after).zip (codes₁ ++ body :: codes₂) := by
    rw [List.zip_append hlen₁, List.zip_cons_cons]
    exact List.mem_append_right _ List.mem_cons_self
  cases yields_lowerLevel.1 h with
  | sole hshort =>
    rw [List.length_append, List.length_cons] at hshort
    obtain rfl : before = [] := List.length_eq_zero_iff.1 (by omega)
    obtain rfl : after = [] := List.length_eq_zero_iff.1 (by omega)
    obtain rfl : codes₁ = [] := List.length_eq_zero_iff.1 hlen₁.symm
    obtain rfl : codes₂ = [] := List.length_eq_zero_iff.1 hlen₂.symm
    refine ⟨branch, body, s, hfind, hmem, .refl s, fun o => ?_⟩
    rw [List.nil_append, List.flatten_cons, List.flatten_nil, List.append_nil]
  | tested _ hreads hchain =>
    refine ⟨branch, body, s, hfind, hmem, .refl s, fun o => ?_⟩
    cases isAssertion with
    | true =>
      rw [List.zip_append hlen₁, List.zip_cons_cons] at hchain
      refine runs_branchChain hchain ?_ hbranch (fun _ => rfl) ?_ o
      · intro pair hp
        exact hbefore pair.1 (List.of_mem_zip hp).1
      · intro pair _ test htest _
        exact value?_assertion htest
    | false =>
      exact runs_lookaheadDecision rfl hwf.coversBefore hlen₁ hlen₂ hbefore hbranch
        (fun h => (Bool.eq_false_iff.1 hreads h).elim) hchain o
  | read _ hreads hchain =>
    cases isAssertion with
    | true => cases hreads
    | false =>
      refine ⟨branch, body, _, hfind, hmem, Running.peeks_assign s offset, fun o => ?_⟩
      have hread : ∀ m, Runs w (.stmt (.snippet (.readLookahead offset))) s (.normal m) ↔
          m = s.assign offset (some (Source.lookahead s.source offset)) := fun m =>
        runs_snippet_iff.trans (by rw [Snippet.Does, Outcome.normal.injEq])
      rw [runs_cons_iff, ← runs_lookaheadDecision
        (s := s.assign offset (some (Source.lookahead s.source offset))) rfl hwf.coversBefore hlen₁ hlen₂
        hbefore hbranch (fun _ => Running.vars_assign_self _ _ _) hchain o]
      constructor
      · rintro (⟨m, hm, hrest⟩ | ⟨hm, habrupt⟩)
        · rw [(hread m).1 hm] at hrest
          exact hrest
        · rw [runs_snippet_iff.1 hm] at habrupt
          exact habrupt.elim
      · exact fun hrest => Or.inl ⟨_, (hread _).2 rfl, hrest⟩

end

end PredictiveParser
