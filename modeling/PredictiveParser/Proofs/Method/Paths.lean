import PredictiveParser.Proofs.Method.Running

/-!
# Lookahead variables on the paths through a method

A path goes through statements without regard to what conditions say: each side of a conditional and each
case of a multi-way branch may be taken, and a path may stop short anywhere. What it comes across are
accesses to lookahead variables and steps that may consume terminals.

A path is fresh when each variable it looks at was read before, with nothing consumed in between.
`Stmt.looksFresh` is a test for this that goes through the statements once: it keeps the variables that were
read, and forgets them behind each statement with others inside. It is right about all paths
(`Path.fresh`).
-/
namespace PredictiveParser

/-! ## Accesses -/

/-- What matters to a lookahead variable. -/
inductive Access where
  /-- The terminal so many places ahead is read into its variable. -/
  | read (offset : Nat)
  /-- A condition or a multi-way branch looks at the variable. -/
  | look (offset : Nat)
  /-- Terminals may be consumed. -/
  | consume

/-- The variables that are up to date, if these were so before. -/
def Access.after (known : List Nat) : Access → List Nat
  | .read offset => offset :: known
  | .look _ => known
  | .consume => []

/-- Each variable that is looked at was known, or it was read on the way. Consuming makes all of them
unknown. -/
def Fresh : List Nat → List Access → Prop
  | _, [] => True
  | known, .look offset :: rest => offset ∈ known ∧ Fresh known rest
  | known, access :: rest => Fresh (access.after known) rest

section

variable {known others : List Nat} {trace rest : List Access} {offset : Nat}

theorem subset_foldl_after (h : known ⊆ others) (trace : List Access) :
    trace.foldl Access.after known ⊆ trace.foldl Access.after others := by
  induction trace generalizing known others with
  | nil => exact h
  | cons access rest ih =>
    refine ih ?_
    cases access with
    | read offset => exact List.cons_subset_cons offset h
    | look offset => exact h
    | consume => exact List.Subset.refl []

theorem Fresh.mono (h : Fresh known trace) (hsub : known ⊆ others) : Fresh others trace := by
  induction trace generalizing known others with
  | nil => trivial
  | cons access rest ih =>
    cases access with
    | read offset => exact ih h (List.cons_subset_cons offset hsub)
    | look offset => exact ⟨hsub h.1, ih h.2 hsub⟩
    | consume => exact ih h (List.Subset.refl [])

theorem fresh_append : Fresh known (trace ++ rest) ↔
    Fresh known trace ∧ Fresh (trace.foldl Access.after known) rest := by
  induction trace generalizing known with
  | nil => exact (and_iff_right trivial).symm
  | cons access trace ih =>
    cases access with
    | read offset => exact ih
    | look offset => exact (and_congr_right fun _ => ih).trans and_assoc.symm
    | consume => exact ih

/-- **A variable that is looked at on a fresh path** was known from the start, or it was read. In either
case nothing has been consumed since. -/
theorem Fresh.exists_read {before after : List Access}
    (h : Fresh known (before ++ .look offset :: after)) :
    offset ∈ known ∧ .consume ∉ before ∨
      ∃ earlier between, before = earlier ++ .read offset :: between ∧ .consume ∉ between := by
  induction before generalizing known with
  | nil => exact Or.inl ⟨h.1, List.not_mem_nil⟩
  | cons access rest ih =>
    cases access with
    | read other =>
      rcases ih h with ⟨hknown, hno⟩ | ⟨earlier, between, rfl, hno⟩
      · rcases List.mem_cons.1 hknown with rfl | hknown
        · exact Or.inr ⟨[], rest, rfl, hno⟩
        · exact Or.inl ⟨hknown, by simpa using hno⟩
      · exact Or.inr ⟨.read other :: earlier, between, rfl, hno⟩
    | look other =>
      rcases ih h.2 with ⟨hknown, hno⟩ | ⟨earlier, between, rfl, hno⟩
      · exact Or.inl ⟨hknown, by simpa using hno⟩
      · exact Or.inr ⟨.look other :: earlier, between, rfl, hno⟩
    | consume =>
      rcases ih h with ⟨hknown, -⟩ | ⟨earlier, between, rfl, hno⟩
      · cases hknown
      · exact Or.inr ⟨.consume :: earlier, between, rfl, hno⟩

end

/-! ## Paths -/

/-- How a path ends. -/
inductive Ending where
  | normal
  | broke (label : Option String)
  | continued (label : Option String)
  /-- The method returns. -/
  | failed
  /-- The path stops short. -/
  | underway
deriving DecidableEq

namespace Ending

/-- The ending behind a labeled block whose body ends like this. -/
def leaveBlock (label : String) : Ending → Option Ending
  | .broke none => none
  | .broke (some other) => some (if other = label then .normal else .broke (some other))
  | .continued none => none
  | ending => some ending

/-- Whether a loop goes on whose body ends like this. -/
def repeats (label : Option String) : Ending → Bool
  | .normal => true
  | .continued target => target = none ∨ target = label
  | _ => false

/-- The ending behind a loop whose body ends like this, unless the loop goes on. -/
def leaveLoop (label : Option String) : Ending → Option Ending
  | .normal => none
  | .broke target => some (if target = none ∨ target = label then .normal else .broke target)
  | .continued target =>
    if target = none ∨ target = label then none else some (.continued target)
  | ending => some ending

end Ending

/-- What a snippet comes across. Code written by the author of the grammar may consume anything. -/
def Snippet.accesses : Snippet → List Access
  | .readLookahead offset => [.read offset]
  | .declareLookahead _ => []
  | .require .. => []
  | .unexpected _ => []
  | .mismatch => []
  | _ => [.consume]

def Snippet.endings : Snippet → List Ending
  | .unexpected _ => [.failed]
  | .mismatch => [.failed]
  | .code _ => [.normal]
  | .declareLookahead _ => [.normal]
  | .readLookahead _ => [.normal]
  | .skipTerminal _ => [.normal]
  | _ => [.normal, .failed]

def Test.offset? : Test → Option Nat
  | .inSet offset _ => some offset
  | _ => none

def Subject.offset? : Subject → Option Nat
  | .stored offset => some offset
  | _ => none

def looks (offset : Option Nat) : List Access :=
  (offset.map .look).toList

/-- What may be come across on the way through statements, and how the way may end. -/
inductive Path : Block → List Access → Ending → Prop where
  | underway {block : Block} : Path block [] .underway
  | nil : Path (.all []) [] .normal
  | cons {stmt : Stmt} {rest : List Stmt} {trace trace' : List Access} {ending : Ending}
      (first : Path (.stmt stmt) trace .normal) (others : Path (.all rest) trace' ending) :
      Path (.all (stmt :: rest)) (trace ++ trace') ending
  | stop {stmt : Stmt} {rest : List Stmt} {trace : List Access} {ending : Ending}
      (first : Path (.stmt stmt) trace ending) (abrupt : ending ≠ .normal) :
      Path (.all (stmt :: rest)) trace ending
  | snippet {snippet : Snippet} {ending : Ending} (ends : ending ∈ snippet.endings) :
      Path (.stmt (.snippet snippet)) snippet.accesses ending
  | thenBody {test : Test} {thenBody elseBody : List Stmt} {trace : List Access} {ending : Ending}
      (body : Path (.all thenBody) trace ending) :
      Path (.stmt (.ifElse test thenBody elseBody)) (looks test.offset? ++ trace) ending
  | elseBody {test : Test} {thenBody elseBody : List Stmt} {trace : List Access} {ending : Ending}
      (body : Path (.all elseBody) trace ending) :
      Path (.stmt (.ifElse test thenBody elseBody)) (looks test.offset? ++ trace) ending
  | again {label : Option String} {body : List Stmt} {trace trace' : List Access}
      {ending ending' : Ending} (once : Path (.all body) trace ending)
      (goesOn : ending.repeats label = true) (next : Path (.stmt (.loop label body)) trace' ending') :
      Path (.stmt (.loop label body)) (trace ++ trace') ending'
  | leave {label : Option String} {body : List Stmt} {trace : List Access} {ending ending' : Ending}
      (once : Path (.all body) trace ending) (left : ending.leaveLoop label = some ending') :
      Path (.stmt (.loop label body)) trace ending'
  | labeled {label : String} {body : List Stmt} {trace : List Access} {ending ending' : Ending}
      (inside : Path (.all body) trace ending) (left : ending.leaveBlock label = some ending') :
      Path (.stmt (.labeled label body)) trace ending'
  | breakTo {label : Option String} : Path (.stmt (.breakTo label)) [] (.broke label)
  | continueTo {label : Option String} : Path (.stmt (.continueTo label)) [] (.continued label)
  | handled {subject : Subject} {cases : List (CharSet × List Stmt)} {fallback : List Stmt}
      {entry : CharSet × List Stmt} {trace : List Access} {ending : Ending} (mem : entry ∈ cases)
      (body : Path (.all entry.2) trace ending) :
      Path (.stmt (.switch subject cases fallback)) (looks subject.offset? ++ trace) ending
  | fallback {subject : Subject} {cases : List (CharSet × List Stmt)} {fallback : List Stmt}
      {trace : List Access} {ending : Ending} (body : Path (.all fallback) trace ending) :
      Path (.stmt (.switch subject cases fallback)) (looks subject.offset? ++ trace) ending

/-! ## A test for fresh paths -/

namespace Stmt

/-- The variables that are known behind a statement. -/
def knownAfter (known : List Nat) : Stmt → List Nat
  | .snippet s => s.accesses.foldl Access.after known
  | _ => []

mutual

/-- Whether each condition and multi-way branch in a statement looks at a variable that is known there, where
these are known in front of the statement. Nothing is known where a loop starts again, nor behind a
statement with others inside. -/
def looksFresh (known : List Nat) : Stmt → Bool
  | .snippet _ => true
  | .ifElse test thenBody elseBody => test.offset?.all known.contains &&
      (allLookFresh known thenBody && allLookFresh known elseBody)
  | .loop _ body => allLookFresh [] body
  | .labeled _ body => allLookFresh known body
  | .breakTo _ => true
  | .continueTo _ => true
  | .switch subject cases fallback => subject.offset?.all known.contains &&
      (casesLookFresh known cases && allLookFresh known fallback)

def allLookFresh (known : List Nat) : List Stmt → Bool
  | [] => true
  | stmt :: rest => stmt.looksFresh known && allLookFresh (stmt.knownAfter known) rest

def casesLookFresh (known : List Nat) : List (CharSet × List Stmt) → Bool
  | [] => true
  | (_, body) :: rest => allLookFresh known body && casesLookFresh known rest

end

variable {known others : List Nat}

theorem casesLookFresh_iff {cases : List (CharSet × List Stmt)} :
    casesLookFresh known cases = true ↔ ∀ entry ∈ cases, allLookFresh known entry.2 = true := by
  induction cases with
  | nil => simp [casesLookFresh]
  | cons entry rest ih => rw [casesLookFresh, Bool.and_eq_true, ih, List.forall_mem_cons]

theorem allLookFresh_singleton {stmt : Stmt} : allLookFresh known [stmt] = stmt.looksFresh known := by
  rw [allLookFresh, allLookFresh, Bool.and_true]

theorem all_contains_mono {offset : Option Nat} (hsub : known ⊆ others)
    (h : offset.all known.contains = true) : offset.all others.contains = true := by
  cases offset with
  | none => rfl
  | some offset =>
    rw [Option.all_some, List.contains_iff_mem] at h ⊢
    exact hsub h

theorem knownAfter_mono (hsub : known ⊆ others) (stmt : Stmt) :
    stmt.knownAfter known ⊆ stmt.knownAfter others := by
  cases stmt with
  | snippet s => exact subset_foldl_after hsub s.accesses
  | _ => exact List.Subset.refl []

mutual

/-- It does not hurt when more is known. -/
theorem looksFresh_mono : ∀ (stmt : Stmt) {known others : List Nat}, known ⊆ others →
    stmt.looksFresh known = true → stmt.looksFresh others = true
  | .snippet _, _, _, _, _ => rfl
  | .ifElse test thenBody elseBody, _, _, hsub, h => by
    rw [looksFresh, Bool.and_eq_true, Bool.and_eq_true] at h ⊢
    exact ⟨all_contains_mono hsub h.1, allLookFresh_mono thenBody hsub h.2.1,
      allLookFresh_mono elseBody hsub h.2.2⟩
  | .loop _ body, _, _, _, h => h
  | .labeled _ body, _, _, hsub, h => allLookFresh_mono body hsub h
  | .breakTo _, _, _, _, _ => rfl
  | .continueTo _, _, _, _, _ => rfl
  | .switch subject cases fallback, _, _, hsub, h => by
    rw [looksFresh, Bool.and_eq_true, Bool.and_eq_true] at h ⊢
    exact ⟨all_contains_mono hsub h.1, casesLookFresh_mono cases hsub h.2.1,
      allLookFresh_mono fallback hsub h.2.2⟩

theorem allLookFresh_mono : ∀ (stmts : List Stmt) {known others : List Nat}, known ⊆ others →
    allLookFresh known stmts = true → allLookFresh others stmts = true
  | [], _, _, _, _ => rfl
  | stmt :: rest, _, _, hsub, h => by
    rw [allLookFresh, Bool.and_eq_true] at h ⊢
    exact ⟨looksFresh_mono stmt hsub h.1, allLookFresh_mono rest (knownAfter_mono hsub stmt) h.2⟩

theorem casesLookFresh_mono : ∀ (cases : List (CharSet × List Stmt)) {known others : List Nat},
    known ⊆ others → casesLookFresh known cases = true → casesLookFresh others cases = true
  | [], _, _, _, _ => rfl
  | (_, body) :: rest, _, _, hsub, h => by
    rw [casesLookFresh, Bool.and_eq_true] at h ⊢
    exact ⟨allLookFresh_mono body hsub h.1, casesLookFresh_mono rest hsub h.2⟩

end

/-- Statements that take nothing to be known may stand behind others. -/
theorem allLookFresh_append {first rest : List Stmt} (h : allLookFresh known first = true)
    (h' : allLookFresh [] rest = true) : allLookFresh known (first ++ rest) = true := by
  induction first generalizing known with
  | nil => exact allLookFresh_mono rest (List.nil_subset known) h'
  | cons stmt first ih =>
    rw [allLookFresh, Bool.and_eq_true] at h
    rw [List.cons_append, allLookFresh, Bool.and_eq_true]
    exact ⟨h.1, ih h.2⟩

theorem allLookFresh_flatten {parts : List (List Stmt)}
    (h : ∀ part ∈ parts, allLookFresh [] part = true) : allLookFresh [] parts.flatten = true := by
  induction parts with
  | nil => rfl
  | cons part rest ih =>
    obtain ⟨hpart, hrest⟩ := List.forall_mem_cons.1 h
    exact allLookFresh_append hpart (ih hrest)

end Stmt

open Stmt

/-- The test for what is run. -/
def Block.looksFresh (known : List Nat) : Block → Bool
  | .stmt s => s.looksFresh known
  | .all list => allLookFresh known list

theorem fresh_accesses (known : List Nat) (snippet : Snippet) : Fresh known snippet.accesses := by
  cases snippet <;> trivial

theorem Fresh.looks {known : List Nat} {offset : Option Nat} {trace : List Access}
    (hknown : offset.all known.contains = true) (h : Fresh known trace) :
    Fresh known (looks offset ++ trace) := by
  cases offset with
  | none => exact h
  | some offset => exact ⟨List.contains_iff_mem.1 hknown, h⟩

/-- **The test is right** about each path through a method. -/
theorem Path.fresh {block : Block} {trace : List Access} {ending : Ending}
    (h : Path block trace ending) : ∀ {known : List Nat}, block.looksFresh known = true →
      Fresh known trace := by
  induction h with
  | underway => exact fun _ => trivial
  | nil => exact fun _ => trivial
  | @cons stmt rest trace trace' ending first others ih₁ ih₂ =>
    intro known hfresh
    rw [Block.looksFresh, allLookFresh, Bool.and_eq_true] at hfresh
    refine fresh_append.2 ⟨ih₁ hfresh.1, Fresh.mono (ih₂ hfresh.2) ?_⟩
    -- What the test takes to be known is known.
    cases stmt with
    | snippet s =>
      cases first
      exact List.Subset.refl _
    | _ => exact List.nil_subset _
  | stop first abrupt ih =>
    intro known hfresh
    rw [Block.looksFresh, allLookFresh, Bool.and_eq_true] at hfresh
    exact ih hfresh.1
  | @snippet s ending ends => exact fun {known} _ => fresh_accesses known s
  | thenBody body ih =>
    intro known hfresh
    rw [Block.looksFresh, looksFresh, Bool.and_eq_true, Bool.and_eq_true] at hfresh
    exact Fresh.looks hfresh.1 (ih hfresh.2.1)
  | elseBody body ih =>
    intro known hfresh
    rw [Block.looksFresh, looksFresh, Bool.and_eq_true, Bool.and_eq_true] at hfresh
    exact Fresh.looks hfresh.1 (ih hfresh.2.2)
  | again once goesOn next ih₁ ih₂ =>
    intro known hfresh
    -- A round takes nothing to be known, nor does the next.
    have hround : Fresh [] _ := ih₁ hfresh
    exact fresh_append.2 ⟨hround.mono (List.nil_subset _), ih₂ hfresh⟩
  | leave once left ih =>
    intro known hfresh
    have hround : Fresh [] _ := ih hfresh
    exact hround.mono (List.nil_subset _)
  | labeled inside left ih => exact fun hfresh => ih hfresh
  | breakTo => exact fun _ => trivial
  | continueTo => exact fun _ => trivial
  | handled mem body ih =>
    intro known hfresh
    rw [Block.looksFresh, looksFresh, Bool.and_eq_true, Bool.and_eq_true] at hfresh
    exact Fresh.looks hfresh.1 (ih (casesLookFresh_iff.1 hfresh.2.1 _ mem))
  | fallback body ih =>
    intro known hfresh
    rw [Block.looksFresh, looksFresh, Bool.and_eq_true, Bool.and_eq_true] at hfresh
    exact Fresh.looks hfresh.1 (ih hfresh.2.2)

end PredictiveParser
