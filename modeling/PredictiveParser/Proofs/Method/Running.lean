import Mathlib.Tactic.Common
import PredictiveParser.Input.Source
import PredictiveParser.Method.Stmt

/-!
# Running statements

The statements of a method run on a source of input and on the lookahead variables. A run ends
normally, gives up, or jumps; a loop catches the jumps that name it or no label, a labeled block those
that name it. What is not determined by the statements themselves is given by a `World`: the values of
checks, what code written by the author of the grammar does, and what called methods do.

`Runs` is the relation between statements, the state before and the outcome. A run that does not end,
or that reads a lookahead variable before it is set, has no outcome; nor has a jump without a label
out of a labeled block, which is no valid program.

* `runs_append_iff`, `runs_cons_iff`, `runs_loop_iff` and the like: everything that such a run can be.
* `Runs.unique`: where the world is determined, so is the outcome.
-/
namespace PredictiveParser

/-- What statements depend on besides their own state. -/
structure World (σ : Type) where
  /-- The value of what each check evaluates, so many terminals ahead of a place. -/
  value : CheckRef → σ → Bool
  /-- What code written by the author of the grammar does to the input. -/
  act : Tokens → σ → σ → Prop
  /-- What called methods do: their form and name, where they start, whether they match, and where
  they end. -/
  call : Form → String → σ → Bool → σ → Prop

/-- Where running statements stand. -/
structure Running (σ : Type) where
  source : σ
  /-- The lookahead variables that were set. -/
  vars : Nat → Option Int

namespace Running

variable {σ : Type}

def assign (s : Running σ) (offset : Nat) (value : Option Int) : Running σ :=
  { s with vars := fun n => if n = offset then value else s.vars n }

/-- Goes on to another place of the input. -/
def moveTo (s : Running σ) (source : σ) : Running σ :=
  { s with source }

@[simp] theorem source_assign (s : Running σ) (offset : Nat) (value : Option Int) :
    (s.assign offset value).source = s.source := rfl

@[simp] theorem source_moveTo (s : Running σ) (source : σ) : (s.moveTo source).source = source := rfl

@[simp] theorem vars_moveTo (s : Running σ) (source : σ) : (s.moveTo source).vars = s.vars := rfl

theorem vars_assign_self (s : Running σ) (offset : Nat) (value : Option Int) :
    (s.assign offset value).vars offset = value := if_pos rfl

end Running

/-- How statements end. -/
inductive Outcome (σ : Type) where
  | normal (state : Running σ)
  | broke (label : Option String) (state : Running σ)
  | continued (label : Option String) (state : Running σ)
  /-- The method returns and says that the input does not match. -/
  | failed (source : σ)

namespace Outcome

variable {σ : Type}

/-- The statements behind are not run. -/
def IsAbrupt : Outcome σ → Prop
  | .normal _ => False
  | _ => True

/-- The outcome of a labeled block whose body ends like this. -/
def leaveBlock (label : String) : Outcome σ → Option (Outcome σ)
  | .normal s => some (.normal s)
  | .broke none _ => none
  | .broke (some other) s => some (if other = label then .normal s else .broke (some other) s)
  | .continued none _ => none
  | .continued (some other) s => some (.continued (some other) s)
  | .failed t => some (.failed t)

/-- Where a loop goes on whose body ends like this, if it does. -/
def repeats (label : Option String) : Outcome σ → Option (Running σ)
  | .normal s => some s
  | .continued target s => if target = none ∨ target = label then some s else none
  | _ => none

/-- The outcome of a loop whose body ends like this, unless the loop goes on. -/
def leaveLoop (label : Option String) : Outcome σ → Option (Outcome σ)
  | .normal _ => none
  | .broke target s =>
    some (if target = none ∨ target = label then .normal s else .broke target s)
  | .continued target s =>
    if target = none ∨ target = label then none else some (.continued target s)
  | .failed t => some (.failed t)

@[simp] theorem isAbrupt_normal (s : Running σ) : ¬ (normal s).IsAbrupt := id

@[simp] theorem isAbrupt_broke (label : Option String) (s : Running σ) :
    (broke label s).IsAbrupt := trivial

@[simp] theorem isAbrupt_continued (label : Option String) (s : Running σ) :
    (continued label s).IsAbrupt := trivial

@[simp] theorem isAbrupt_failed (t : σ) : (failed t).IsAbrupt := trivial

/-- An outcome is normal, or what comes behind is not run. -/
theorem normal_or_isAbrupt (o : Outcome σ) : (∃ s, o = .normal s) ∨ o.IsAbrupt := by
  cases o with
  | normal s => exact Or.inl ⟨s, rfl⟩
  | _ => exact Or.inr trivial

/-- A loop does not both go on and end. -/
theorem repeats_leaveLoop {o : Outcome σ} {label : Option String} {m : Running σ}
    (h : o.repeats label = some m) : o.leaveLoop label = none := by
  cases o with
  | normal state => rfl
  | continued target state =>
    rw [repeats] at h
    split at h
    · rename_i hcaught
      rw [leaveLoop, if_pos hcaught]
    · cases h
  | broke target state => cases h
  | failed t => cases h

/-- What a loop makes of a round that ends like this, where `next` is what its next rounds do. -/
def AfterRound (label : Option String) (next : Running σ → Outcome σ → Prop)
    (o o₁ : Outcome σ) : Prop :=
  (∃ m, o₁.repeats label = some m ∧ next m o) ∨ o₁.leaveLoop label = some o

section

variable {label : Option String} {next : Running σ → Outcome σ → Prop} {o : Outcome σ}
  {s : Running σ}

theorem afterRound_normal : AfterRound label next o (.normal s) ↔ next s o := by
  simp [AfterRound, repeats, leaveLoop]

theorem afterRound_continued : AfterRound label next o (.continued label s) ↔ next s o := by
  simp [AfterRound, repeats, leaveLoop]

end

end Outcome

/-! ## Tests -/

section

variable {σ : Type}

def CheckTest.holds (w : World σ) (s : σ) (test : CheckTest) : Bool :=
  w.value test.ref s != test.negate

def Test.value? (w : World σ) (s : Running σ) : Test → Option Bool
  | .code _ => none
  | .inSet offset set => (s.vars offset).map fun c => set.test.holds c
  | .checks alternatives =>
    some (alternatives.isEmpty || alternatives.any fun all => all.all (CheckTest.holds w s.source))

/-- In both worlds checks have the same values, and whatever code and called methods do in the one
they do in the other if they do anything. -/
structure World.Agrees (w w' : World σ) : Prop where
  value : w.value = w'.value
  act : ∀ tokens s t t', w.act tokens s t → w'.act tokens s t' → t = t'
  call : ∀ form name s ok t ok' t', w.call form name s ok t → w'.call form name s ok' t' →
    ok = ok' ∧ t = t'

theorem CheckTest.holds_eq {w w' : World σ} (hw : w.Agrees w') (s : σ) (test : CheckTest) :
    test.holds w s = test.holds w' s := by
  rw [CheckTest.holds, CheckTest.holds, hw.value]

theorem Test.value?_eq {w w' : World σ} (hw : w.Agrees w') (s : Running σ) (test : Test) :
    test.value? w s = test.value? w' s := by
  cases test with
  | checks alternatives =>
    have hholds : CheckTest.holds w s.source = CheckTest.holds w' s.source :=
      funext (CheckTest.holds_eq hw s.source)
    rw [Test.value?, Test.value?, hholds]
  | _ => rfl

end

section

variable {σ : Type} [Source σ]

/-- What a multi-way branch looks at, if it has a value. -/
def Subject.value? (s : Running σ) : Subject → Option Int
  | .code _ => none
  | .stored offset => s.vars offset
  | .direct offset => some (Source.lookahead s.source offset)

def chosenCase (c : Int) (fallback : List Stmt) : List (CharSet × List Stmt) → List Stmt
  | [] => fallback
  | (set, body) :: rest => if set.contains c then body else chosenCase c fallback rest

/-! ## Snippets -/

/-- What a call that was tried leads to. -/
def Outcome.ofCall (s : Running σ) (ok : Bool) (t : σ) : Outcome σ :=
  if ok then .normal (s.moveTo t) else .failed t

def Snippet.Does (w : World σ) (s : Running σ) (o : Outcome σ) : Snippet → Prop
  | .code tokens => ∃ t, w.act tokens s.source t ∧ o = .normal (s.moveTo t)
  | .declareLookahead offset => o = .normal (s.assign offset none)
  | .readLookahead offset =>
    o = .normal (s.assign offset (some (Source.lookahead s.source offset)))
  | .matchTerminal set _ =>
    o = .ofCall s (Source.matchSet s.source set.set.ranges).1.toBool
      (Source.matchSet s.source set.set.ranges).2
  | .recognizeTerminal set =>
    o = .ofCall s (Source.tryMatchSet s.source set.set.ranges).1
      (Source.tryMatchSet s.source set.set.ranges).2
  | .skipTerminal _ => o = .normal (s.moveTo (Source.skip s.source).2)
  | .callRule method _ => ∃ ok t, w.call .parser method s.source ok t ∧ o = .ofCall s ok t
  | .callRecognizer method => ∃ ok t, w.call .recognizer method s.source ok t ∧ o = .ofCall s ok t
  | .require _ test =>
    o = if test.holds w s.source then .normal s else .failed s.source
  | .unexpected _ => o = .failed s.source
  | .mismatch => o = .failed s.source

/-! ## Statements -/

/-- What is run: a statement, or several one after the other. -/
inductive Block where
  | stmt (stmt : Stmt)
  | all (stmts : List Stmt)

inductive Runs (w : World σ) : Block → Running σ → Outcome σ → Prop where
  | nil {s : Running σ} : Runs w (.all []) s (.normal s)
  | cons {stmt : Stmt} {rest : List Stmt} {s m : Running σ} {o : Outcome σ}
      (first : Runs w (.stmt stmt) s (.normal m)) (others : Runs w (.all rest) m o) :
      Runs w (.all (stmt :: rest)) s o
  | stop {stmt : Stmt} {rest : List Stmt} {s : Running σ} {o : Outcome σ}
      (first : Runs w (.stmt stmt) s o) (abrupt : o.IsAbrupt) : Runs w (.all (stmt :: rest)) s o
  | snippet {snippet : Snippet} {s : Running σ} {o : Outcome σ} (does : snippet.Does w s o) :
      Runs w (.stmt (.snippet snippet)) s o
  | ifElse {test : Test} {thenBody elseBody : List Stmt} {value : Bool} {s : Running σ}
      {o : Outcome σ} (tested : test.value? w s = some value)
      (body : Runs w (.all (if value then thenBody else elseBody)) s o) :
      Runs w (.stmt (.ifElse test thenBody elseBody)) s o
  | again {label : Option String} {body : List Stmt} {s m : Running σ} {o o' : Outcome σ}
      (once : Runs w (.all body) s o) (goesOn : o.repeats label = some m)
      (next : Runs w (.stmt (.loop label body)) m o') : Runs w (.stmt (.loop label body)) s o'
  | leave {label : Option String} {body : List Stmt} {s : Running σ} {o o' : Outcome σ}
      (once : Runs w (.all body) s o) (left : o.leaveLoop label = some o') :
      Runs w (.stmt (.loop label body)) s o'
  | labeled {label : String} {body : List Stmt} {s : Running σ} {o o' : Outcome σ}
      (inside : Runs w (.all body) s o) (left : o.leaveBlock label = some o') :
      Runs w (.stmt (.labeled label body)) s o'
  | breakTo {label : Option String} {s : Running σ} :
      Runs w (.stmt (.breakTo label)) s (.broke label s)
  | continueTo {label : Option String} {s : Running σ} :
      Runs w (.stmt (.continueTo label)) s (.continued label s)
  | switch {subject : Subject} {cases : List (CharSet × List Stmt)} {fallback : List Stmt} {c : Int}
      {s : Running σ} {o : Outcome σ} (looked : subject.value? s = some c)
      (body : Runs w (.all (chosenCase c fallback cases)) s o) :
      Runs w (.stmt (.switch subject cases fallback)) s o

/-! ## Everything that a run can be -/

variable {w : World σ} {s : Running σ} {o : Outcome σ}

theorem runs_nil_iff : Runs w (.all []) s o ↔ o = .normal s := by
  constructor
  · intro h
    cases h
    rfl
  · rintro rfl
    exact .nil

theorem runs_cons_iff {stmt : Stmt} {rest : List Stmt} : Runs w (.all (stmt :: rest)) s o ↔
    (∃ m, Runs w (.stmt stmt) s (.normal m) ∧ Runs w (.all rest) m o) ∨
      Runs w (.stmt stmt) s o ∧ o.IsAbrupt := by
  constructor
  · intro h
    cases h with
    | cons first others => exact Or.inl ⟨_, first, others⟩
    | stop first abrupt => exact Or.inr ⟨first, abrupt⟩
  · rintro (⟨m, first, others⟩ | ⟨first, abrupt⟩)
    · exact .cons first others
    · exact .stop first abrupt

theorem runs_append_iff {first rest : List Stmt} : Runs w (.all (first ++ rest)) s o ↔
    (∃ m, Runs w (.all first) s (.normal m) ∧ Runs w (.all rest) m o) ∨
      Runs w (.all first) s o ∧ o.IsAbrupt := by
  induction first generalizing s with
  | nil =>
    rw [List.nil_append, runs_nil_iff]
    constructor
    · exact fun h => Or.inl ⟨s, .nil, h⟩
    · rintro (⟨m, hm, h⟩ | ⟨rfl, h⟩)
      · cases runs_nil_iff.1 hm
        exact h
      · exact h.elim
  | cons stmt first ih =>
    rw [List.cons_append, runs_cons_iff, runs_cons_iff]
    constructor
    · rintro (⟨m, h, hrest⟩ | ⟨h, habrupt⟩)
      · rcases ih.1 hrest with ⟨m', hm', hrest⟩ | ⟨hfirst, habrupt⟩
        · exact Or.inl ⟨m', .cons h hm', hrest⟩
        · exact Or.inr ⟨Or.inl ⟨m, h, hfirst⟩, habrupt⟩
      · exact Or.inr ⟨Or.inr ⟨h, habrupt⟩, habrupt⟩
    · rintro (⟨m', hm', hrest⟩ | ⟨⟨m, h, hfirst⟩ | ⟨h, -⟩, habrupt⟩)
      · rcases runs_cons_iff.1 hm' with ⟨m, h, hfirst⟩ | ⟨-, habrupt⟩
        · exact Or.inl ⟨m, h, ih.2 (Or.inl ⟨m', hfirst, hrest⟩)⟩
        · exact habrupt.elim
      · exact Or.inl ⟨m, h, ih.2 (Or.inr ⟨hfirst, habrupt⟩)⟩
      · exact Or.inr ⟨h, habrupt⟩

/-- A statement alone. -/
theorem runs_singleton_iff {stmt : Stmt} :
    Runs w (.all [stmt]) s o ↔ Runs w (.stmt stmt) s o := by
  rw [runs_cons_iff]
  constructor
  · rintro (⟨m, h, hnil⟩ | ⟨h, -⟩)
    · rw [runs_nil_iff.1 hnil]
      exact h
    · exact h
  · intro h
    rcases o.normal_or_isAbrupt with ⟨m, rfl⟩ | habrupt
    · exact Or.inl ⟨m, h, .nil⟩
    · exact Or.inr ⟨h, habrupt⟩

theorem runs_snippet_iff {snippet : Snippet} :
    Runs w (.stmt (.snippet snippet)) s o ↔ snippet.Does w s o := by
  constructor
  · intro h
    cases h with
    | snippet does => exact does
  · exact .snippet

theorem runs_ifElse_iff {test : Test} {thenBody elseBody : List Stmt} {value : Bool}
    (h : test.value? w s = some value) : Runs w (.stmt (.ifElse test thenBody elseBody)) s o ↔
      Runs w (.all (if value then thenBody else elseBody)) s o := by
  constructor
  · intro hrun
    cases hrun with
    | ifElse tested body =>
      rw [h] at tested
      cases tested
      exact body
  · exact .ifElse h

theorem runs_switch_iff {subject : Subject} {cases : List (CharSet × List Stmt)}
    {fallback : List Stmt} {c : Int} (h : subject.value? s = some c) :
    Runs w (.stmt (.switch subject cases fallback)) s o ↔
      Runs w (.all (chosenCase c fallback cases)) s o := by
  constructor
  · intro hrun
    cases hrun with
    | switch looked body =>
      rw [h] at looked
      cases looked
      exact body
  · exact .switch h

theorem runs_labeled_iff {label : String} {body : List Stmt} :
    Runs w (.stmt (.labeled label body)) s o ↔
      ∃ o', Runs w (.all body) s o' ∧ o'.leaveBlock label = some o := by
  constructor
  · intro h
    cases h with
    | labeled inside left => exact ⟨_, inside, left⟩
  · rintro ⟨o', inside, left⟩
    exact .labeled inside left

theorem runs_loop_iff {label : Option String} {body : List Stmt} :
    Runs w (.stmt (.loop label body)) s o ↔ ∃ o', Runs w (.all body) s o' ∧
      ((∃ m, o'.repeats label = some m ∧ Runs w (.stmt (.loop label body)) m o) ∨
        o'.leaveLoop label = some o) := by
  constructor
  · intro h
    cases h with
    | again once goesOn next => exact ⟨_, once, Or.inl ⟨_, goesOn, next⟩⟩
    | leave once left => exact ⟨_, once, Or.inr left⟩
  · rintro ⟨o', once, ⟨m, goesOn, next⟩ | left⟩
    · exact .again once goesOn next
    · exact .leave once left

theorem runs_breakTo_iff {label : Option String} :
    Runs w (.stmt (.breakTo label)) s o ↔ o = .broke label s := by
  constructor
  · intro h
    cases h
    rfl
  · rintro rfl
    exact .breakTo

theorem runs_continueTo_iff {label : Option String} :
    Runs w (.stmt (.continueTo label)) s o ↔ o = .continued label s := by
  constructor
  · intro h
    cases h
    rfl
  · rintro rfl
    exact .continueTo

/-! ## Determined runs -/

variable {w' : World σ} {o' : Outcome σ}

theorem Snippet.Does.unique (hw : w.Agrees w') {snippet : Snippet} (h : snippet.Does w s o)
    (h' : snippet.Does w' s o') : o = o' := by
  cases snippet with
  | code tokens =>
    obtain ⟨t, ht, rfl⟩ := h
    obtain ⟨t', ht', rfl⟩ := h'
    rw [hw.act _ _ _ _ ht ht']
  | callRule method saver =>
    obtain ⟨ok, t, ht, rfl⟩ := h
    obtain ⟨ok', t', ht', rfl⟩ := h'
    obtain ⟨rfl, rfl⟩ := hw.call _ _ _ _ _ _ _ ht ht'
    rfl
  | callRecognizer method =>
    obtain ⟨ok, t, ht, rfl⟩ := h
    obtain ⟨ok', t', ht', rfl⟩ := h'
    obtain ⟨rfl, rfl⟩ := hw.call _ _ _ _ _ _ _ ht ht'
    rfl
  | require form test =>
    rw [Snippet.Does, CheckTest.holds_eq hw] at h
    exact Eq.trans h (Eq.symm h')
  | _ => exact Eq.trans h (Eq.symm h')

/-- **Runs are determined.** -/
theorem Runs.unique (hw : w.Agrees w') {block : Block} (h : Runs w block s o)
    (h' : Runs w' block s o') : o = o' := by
  induction h generalizing o' with
  | nil => exact (runs_nil_iff.1 h').symm
  | cons first others ih₁ ih₂ =>
    rcases runs_cons_iff.1 h' with ⟨m, hfirst, hrest⟩ | ⟨hfirst, habrupt⟩
    · cases ih₁ hfirst
      exact ih₂ hrest
    · cases ih₁ hfirst
      exact habrupt.elim
  | stop first abrupt ih =>
    rcases runs_cons_iff.1 h' with ⟨m, hfirst, -⟩ | ⟨hfirst, -⟩
    · cases ih hfirst
      exact abrupt.elim
    · exact ih hfirst
  | snippet does => exact does.unique hw (runs_snippet_iff.1 h')
  | ifElse tested body ih => exact ih ((runs_ifElse_iff (Test.value?_eq hw _ _ ▸ tested)).1 h')
  | again once goesOn next ih₁ ih₂ =>
    obtain ⟨o₁, hbody, ⟨m, hrepeats, hnext⟩ | hleft⟩ := runs_loop_iff.1 h'
    · cases ih₁ hbody
      rw [goesOn] at hrepeats
      cases hrepeats
      exact ih₂ hnext
    · cases ih₁ hbody
      rw [Outcome.repeats_leaveLoop goesOn] at hleft
      cases hleft
  | leave once left ih =>
    obtain ⟨o₁, hbody, ⟨m, hrepeats, -⟩ | hleft⟩ := runs_loop_iff.1 h'
    · cases ih hbody
      rw [Outcome.repeats_leaveLoop hrepeats] at left
      cases left
    · cases ih hbody
      rw [left] at hleft
      exact Option.some.inj hleft
  | labeled inside left ih =>
    obtain ⟨o₁, hbody, hleft⟩ := runs_labeled_iff.1 h'
    cases ih hbody
    rw [left] at hleft
    exact Option.some.inj hleft
  | breakTo => exact (runs_breakTo_iff.1 h').symm
  | continueTo => exact (runs_continueTo_iff.1 h').symm
  | switch looked body ih => exact ih ((runs_switch_iff looked).1 h')

end

end PredictiveParser
