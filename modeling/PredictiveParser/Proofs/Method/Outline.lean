import PredictiveParser.Proofs.Method.Jumps

/-!
# What lowering does with code that is given to it

The code of arms is lowered first; then it is put at the leaves of a decision or behind it. An `Outline` is
code with gaps in the places of such code. That lowering yields the same outline, whatever fills the gaps,
says that it only moves this code around.

The gaps of an outline, its jumps and what it reads are its `Mark`s. A level has the marks of its branches,
each once, and perhaps reads a lookahead variable (`exists_outline_lowerLevel`); so a tree has the marks of
its leaves (`hasOutline_lowerDecision`).
-/
namespace PredictiveParser

open Lower

/-! ## Outlines -/

/-- A statement, with gaps for the code of arms. -/
inductive Outline where
  | arm (index : Nat)
  | snippet (snippet : Snippet)
  | ifElse (test : Test) (thenBody elseBody : List Outline)
  | loop (label : Option String) (body : List Outline)
  | labeled (label : String) (body : List Outline)
  | breakTo (label : Option String)
  | continueTo (label : Option String)
  | switch (subject : Subject) (cases : List (CharSet × List Outline)) (fallback : List Outline)

namespace Outline

section

variable (arms : List (List Stmt))

mutual

/-- The statements when these are the arms. -/
def fill : Outline → List Stmt
  | .arm index => arms.getD index []
  | .snippet s => [.snippet s]
  | .ifElse test thenBody elseBody => [.ifElse test (fillAll thenBody) (fillAll elseBody)]
  | .loop label body => [.loop label (fillAll body)]
  | .labeled label body => [.labeled label (fillAll body)]
  | .breakTo label => [.breakTo label]
  | .continueTo label => [.continueTo label]
  | .switch subject cases fallback => [.switch subject (fillCases cases) (fillAll fallback)]

def fillAll : List Outline → List Stmt
  | [] => []
  | outline :: rest => fill outline ++ fillAll rest

def fillCases : List (CharSet × List Outline) → List (CharSet × List Stmt)
  | [] => []
  | (set, body) :: rest => (set, fillAll body) :: fillCases rest

end

@[simp] theorem fillAll_nil : fillAll arms [] = [] := rfl

theorem fillAll_singleton (outline : Outline) : fillAll arms [outline] = fill arms outline :=
  List.append_nil _

theorem fillAll_append (first rest : List Outline) :
    fillAll arms (first ++ rest) = fillAll arms first ++ fillAll arms rest := by
  induction first with
  | nil => rfl
  | cons outline first ih => rw [List.cons_append, fillAll, fillAll, ih, List.append_assoc]

theorem fillAll_flatten (parts : List (List Outline)) :
    fillAll arms parts.flatten = (parts.map (fillAll arms)).flatten := by
  induction parts with
  | nil => rfl
  | cons part rest ih => rw [List.flatten_cons, fillAll_append, ih, List.map_cons, List.flatten_cons]

theorem fillCases_eq_map (cases : List (CharSet × List Outline)) :
    fillCases arms cases = cases.map fun entry => (entry.1, fillAll arms entry.2) := by
  induction cases with
  | nil => rfl
  | cons entry rest ih => rw [fillCases, ih, List.map_cons]

end

end Outline

/-! ## Marks -/

/-- What is told apart in code: gaps, jumps to the end of what has a label, and lookahead variables being
read. -/
inductive Mark where
  | arm (index : Nat)
  | jump (label : String)
  | read (offset : Nat)
deriving DecidableEq

def Mark.ofLabel (label : Option String) : List Mark :=
  (label.map .jump).toList

def Snippet.marks : Snippet → List Mark
  | .readLookahead offset => [.read offset]
  | _ => []

namespace Stmt

mutual

/-- The jumps in a statement that name the end of a loop or block, and what it reads. -/
def marks : Stmt → List Mark
  | .snippet s => s.marks
  | .ifElse _ thenBody elseBody => marksOf thenBody ++ marksOf elseBody
  | .loop _ body => marksOf body
  | .labeled _ body => marksOf body
  | .breakTo label => Mark.ofLabel label
  | .continueTo _ => []
  | .switch _ cases fallback => marksOfCases cases ++ marksOf fallback

def marksOf : List Stmt → List Mark
  | [] => []
  | stmt :: rest => stmt.marks ++ marksOf rest

def marksOfCases : List (CharSet × List Stmt) → List Mark
  | [] => []
  | (_, body) :: rest => marksOf body ++ marksOfCases rest

end

theorem marksOf_append (first rest : List Stmt) :
    marksOf (first ++ rest) = marksOf first ++ marksOf rest := by
  induction first with
  | nil => rfl
  | cons stmt first ih => rw [List.cons_append, marksOf, marksOf, ih, List.append_assoc]

theorem marksOf_singleton (stmt : Stmt) : marksOf [stmt] = stmt.marks :=
  List.append_nil _

theorem marksOf_flatten (parts : List (List Stmt)) :
    marksOf parts.flatten = parts.flatMap marksOf := by
  induction parts with
  | nil => rfl
  | cons part rest ih => rw [List.flatten_cons, marksOf_append, ih, List.flatMap_cons]

end Stmt

namespace Outline

mutual

def marks : Outline → List Mark
  | .arm index => [.arm index]
  | .snippet s => s.marks
  | .ifElse _ thenBody elseBody => marksOf thenBody ++ marksOf elseBody
  | .loop _ body => marksOf body
  | .labeled _ body => marksOf body
  | .breakTo label => Mark.ofLabel label
  | .continueTo _ => []
  | .switch _ cases fallback => marksOfCases cases ++ marksOf fallback

def marksOf : List Outline → List Mark
  | [] => []
  | outline :: rest => outline.marks ++ marksOf rest

def marksOfCases : List (CharSet × List Outline) → List Mark
  | [] => []
  | (_, body) :: rest => marksOf body ++ marksOfCases rest

end

theorem marksOf_append (first rest : List Outline) :
    marksOf (first ++ rest) = marksOf first ++ marksOf rest := by
  induction first with
  | nil => rfl
  | cons outline first ih => rw [List.cons_append, marksOf, marksOf, ih, List.append_assoc]

theorem marksOf_singleton (outline : Outline) : marksOf [outline] = outline.marks :=
  List.append_nil _

theorem marksOf_flatten (parts : List (List Outline)) :
    marksOf parts.flatten = parts.flatMap marksOf := by
  induction parts with
  | nil => rfl
  | cons part rest ih => rw [List.flatten_cons, marksOf_append, ih, List.flatMap_cons]

end Outline

/-- The marks there are once the gaps are filled. -/
def Mark.filled (arms : List (List Stmt)) : Mark → List Mark
  | .arm index => Stmt.marksOf (arms.getD index [])
  | mark => [mark]

namespace Outline

variable (arms : List (List Stmt))

theorem flatMap_filled_snippet (s : Snippet) : s.marks.flatMap (Mark.filled arms) = s.marks := by
  cases s <;> rfl

mutual

theorem marksOf_fill : ∀ outline : Outline,
    Stmt.marksOf (outline.fill arms) = outline.marks.flatMap (Mark.filled arms)
  | .arm index => (List.append_nil _).symm
  | .snippet s => by
    rw [fill, Stmt.marksOf_singleton, marks, flatMap_filled_snippet, Stmt.marks]
  | .ifElse test thenBody elseBody => by
    rw [fill, Stmt.marksOf_singleton, Stmt.marks, marks, List.flatMap_append,
      marksOf_fillAll thenBody, marksOf_fillAll elseBody]
  | .loop label body => by
    rw [fill, Stmt.marksOf_singleton, Stmt.marks, marks, marksOf_fillAll body]
  | .labeled label body => by
    rw [fill, Stmt.marksOf_singleton, Stmt.marks, marks, marksOf_fillAll body]
  | .breakTo label => by cases label <;> rfl
  | .continueTo label => rfl
  | .switch subject cases fallback => by
    rw [fill, Stmt.marksOf_singleton, Stmt.marks, marks, List.flatMap_append,
      marksOfCases_fillCases cases, marksOf_fillAll fallback]

/-- **Filled code** has the marks of the outline, and in each gap those of the arm. -/
theorem marksOf_fillAll : ∀ outlines : List Outline,
    Stmt.marksOf (fillAll arms outlines) = (marksOf outlines).flatMap (Mark.filled arms)
  | [] => rfl
  | outline :: rest => by
    rw [fillAll, Stmt.marksOf_append, marksOf, List.flatMap_append, marksOf_fill outline,
      marksOf_fillAll rest]

theorem marksOfCases_fillCases : ∀ cases : List (CharSet × List Outline),
    Stmt.marksOfCases (fillCases arms cases) = (marksOfCases cases).flatMap (Mark.filled arms)
  | [] => rfl
  | (_, body) :: rest => by
    rw [fillCases, Stmt.marksOfCases, marksOfCases, List.flatMap_append, marksOf_fillAll body,
      marksOfCases_fillCases rest]

end

end Outline

open Outline

/-! ## What lowering adds -/

/-- The name was made for the end of a loop or block. -/
def IsStop (label : String) : Prop := ∃ number, label = stopLabel number

/-- What lowering brings in besides the code that is given to it: reads, and jumps to the end of a loop
or block. -/
def Mark.IsOwn : Mark → Prop
  | .arm _ => False
  | .jump label => IsStop label
  | .read _ => True

/-- Between two states these marks were brought in, and the offsets of the reads among them were
recorded. -/
structure BringsIn (st : LowerState) (own : List Mark) (st' : LowerState) : Prop where
  kinds : ∀ mark ∈ own, mark.IsOwn
  offsets : ∀ n, n ∈ st'.offsets ↔ n ∈ st.offsets ∨ .read n ∈ own

namespace BringsIn

variable {st st' st'' : LowerState} {own later : List Mark}

/-- Where the offsets stay, nothing is brought in. -/
theorem of_eq (h : st'.offsets = st.offsets) : BringsIn st [] st' :=
  ⟨nofun, fun n => by rw [h]; simp⟩

theorem append (h : BringsIn st own st') (h' : BringsIn st' later st'') :
    BringsIn st (own ++ later) st'' where
  kinds := List.forall_mem_append.2 ⟨h.kinds, h'.kinds⟩
  offsets n := by rw [h'.offsets, h.offsets, List.mem_append, or_assoc]

end BringsIn

theorem bringsIn_needLookahead (offset : Nat) (st : LowerState) :
    BringsIn st [.read offset] { st with offsets := insertAscending offset st.offsets } :=
  ⟨List.forall_mem_singleton.2 trivial, fun n => by
    rw [mem_insertAscending, List.mem_singleton, Mark.read.injEq, or_comm]⟩

/-! ## Levels -/

section

variable {m : MethodPlan} {offset : Nat} {isAssertion : Bool} {cases : List Nat} {index : Nat}
  {chain code : List Stmt} {arms : List (List Stmt)} {st st' : LowerState}

/-- The bodies that are cases of a multi-way branch, where the place of the first is given. -/
def keptCases (cases : List Nat) (index : Nat) (sets : List CharSet) (bodies : List (List Outline)) :
    List (CharSet × List Outline) :=
  (((sets.zip bodies).zipIdx index).filter fun (_, place) => cases.contains place).map Prod.fst

theorem fillCases_keptCases (cases : List Nat) (sets : List CharSet) (bodies : List (List Outline)) :
    fillCases arms (keptCases cases 0 sets bodies) =
      caseCodes cases sets (bodies.map (fillAll arms)) := by
  rw [fillCases_eq_map]
  unfold keptCases caseCodes
  rw [List.zip_map_right, List.zipIdx_map, List.filter_map, List.map_map, List.map_map]
  rfl

/-- The chain has the same outline, whatever stands in its gaps. Each gap is in the chain or in one of the
cases, and not in both. -/
theorem exists_outline_branchChain {sets : List CharSet} {branches : List (Branch Decision)}
    {bodies : List (List Outline)} (hsets : sets.length = bodies.length)
    (hbranches : branches.length = bodies.length)
    (hcases : ∀ place ∈ cases, place + 1 < index + bodies.length)
    (h : m.branchChain offset isAssertion cases index (branches.zip (bodies.map (fillAll arms))) =
      .ok chain) :
    ∃ outline, (∀ arms, m.branchChain offset isAssertion cases index
        (branches.zip (bodies.map (fillAll arms))) = .ok (fillAll arms outline)) ∧
      (marksOfCases (keptCases cases index sets bodies) ++ marksOf outline).Perm
        (bodies.flatMap marksOf) := by
  induction bodies generalizing sets branches index chain with
  | nil =>
    refine ⟨[], fun arms => ?_, ?_⟩
    · rw [List.map_nil, List.zip_nil_right]
      rfl
    · unfold keptCases
      rw [List.zip_nil_right]
      exact .refl _
  | cons own rest ih =>
    obtain ⟨set, sets, rfl⟩ := List.exists_cons_of_length_eq_add_one hsets
    obtain ⟨branch, branches, rfl⟩ := List.exists_cons_of_length_eq_add_one hbranches
    rw [List.length_cons, List.length_cons, Nat.succ_inj] at hsets hbranches
    cases rest with
    | nil =>
      obtain rfl := List.length_eq_zero_iff.1 hsets
      obtain rfl := List.length_eq_zero_iff.1 hbranches
      have hlast : ¬ cases.contains index = true := by
        intro hm
        have := hcases index (List.contains_iff_mem.1 hm)
        simp at this
      refine ⟨own, fun arms => rfl, ?_⟩
      unfold keptCases
      rw [List.zip_cons_cons, List.zipIdx_cons, List.filter_cons, if_neg hlast]
      exact .of_eq (List.append_nil _).symm
    | cons next rest =>
      obtain ⟨set', sets, rfl⟩ := List.exists_cons_of_length_eq_add_one hsets
      obtain ⟨branch', branches, rfl⟩ := List.exists_cons_of_length_eq_add_one hbranches
      obtain ⟨otherwise, hotherwise, h⟩ := branchChain_cases h
      obtain ⟨outline, hfill, hperm⟩ := ih hsets hbranches (fun place hm => by
        have := hcases place hm
        simp only [List.length_cons] at this ⊢
        omega) hotherwise
      unfold keptCases at hperm ⊢
      rw [List.zip_cons_cons, List.zipIdx_cons, List.filter_cons, List.flatMap_cons]
      rcases h with ⟨hcase, -⟩ | ⟨hcase, test, htest, -⟩
      · refine ⟨outline, fun arms => bind_eq_ok.2 ⟨_, hfill arms, if_pos hcase⟩, ?_⟩
        rw [if_pos hcase, List.map_cons, marksOfCases, List.append_assoc]
        exact hperm.append_left _
      · have hcase := Bool.eq_false_iff.1 hcase
        refine ⟨[.ifElse test own outline], fun arms => bind_eq_ok.2 ⟨_, hfill arms, ?_⟩, ?_⟩
        · exact (if_neg hcase).trans (bind_eq_ok.2 ⟨test, htest, rfl⟩)
        · rw [if_neg hcase, marksOf_singleton, marks]
          exact (List.perm_append_comm_assoc _ _ _).trans (hperm.append_left _)

/-- The decision between the branches has the same outline, whatever stands in its gaps, and each gap of the
branches. -/
theorem exists_outline_decision {threshold : Nat} {branches : List (Branch Decision)}
    {bodies : List (List Outline)} {plan : LevelPlan}
    (hplan : plan = .ofLevel threshold isAssertion branches) (hlength : branches.length = bodies.length)
    (hchain : m.branchChain offset isAssertion plan.cases 0
      (branches.zip (bodies.map (fillAll arms))) = .ok chain) :
    ∃ otherwise decision : List Outline, (∀ arms, m.branchChain offset isAssertion plan.cases 0
        (branches.zip (bodies.map (fillAll arms))) = .ok (fillAll arms otherwise)) ∧
      (∀ arms, fillAll arms decision = plan.decision offset branches (bodies.map (fillAll arms))
        (fillAll arms otherwise)) ∧ (marksOf decision).Perm (bodies.flatMap marksOf) := by
  obtain ⟨otherwise, hfill, hperm⟩ := exists_outline_branchChain
    ((length_remainders .empty branches).trans hlength) hlength
    (fun place hm => by
      rw [Nat.zero_add, ← hlength]
      exact lt_of_mem_cases (hplan ▸ hm)) hchain
  refine ⟨otherwise, ?_⟩
  unfold LevelPlan.cases at hperm
  unfold LevelPlan.decision
  cases hcases : plan.cases? with
  | none =>
    rw [hcases] at hperm
    refine ⟨otherwise, hfill, fun arms => rfl, ?_⟩
    simpa [keptCases, marksOfCases] using hperm
  | some cases =>
    rw [hcases] at hperm
    refine ⟨[.switch (plan.subject offset) (keptCases cases 0 (remainders .empty branches) bodies)
      otherwise], hfill, fun arms => ?_, ?_⟩
    · rw [fillAll_singleton, fill, fillCases_keptCases]
    · rw [marksOf_singleton, marks]
      exact hperm

/-- **A level** has the same outline, whatever stands in its gaps, and has each gap of its branches. -/
theorem exists_outline_lowerLevel {threshold : Nat} {branches : List (Branch Decision)}
    {bodies : List (List Outline)} (hlength : branches.length = bodies.length)
    (h : Yields (m.lowerLevel (.ofLevel threshold isAssertion branches) offset isAssertion branches
      (bodies.map (fillAll arms))) st code st') :
    ∃ outline own, (∀ arms, Yields (m.lowerLevel (.ofLevel threshold isAssertion branches) offset
        isAssertion branches (bodies.map (fillAll arms))) st (fillAll arms outline) st') ∧
      BringsIn st own st' ∧ (marksOf outline).Perm (own ++ bodies.flatMap marksOf) := by
  cases yields_lowerLevel.1 h with
  | sole hshort =>
    refine ⟨bodies.flatten, [], fun arms => ?_, .of_eq rfl, .of_eq (marksOf_flatten _)⟩
    rw [fillAll_flatten]
    exact yields_lowerLevel.2 (.sole hshort)
  | tested hseveral hreads hchain =>
    obtain ⟨otherwise, decision, hfill, hdecision, hmarks⟩ :=
      exists_outline_decision rfl hlength hchain
    refine ⟨decision, [], fun arms => ?_, .of_eq rfl, hmarks⟩
    rw [hdecision]
    exact yields_lowerLevel.2 (.tested hseveral hreads (hfill arms))
  | read hseveral hreads hchain =>
    obtain ⟨otherwise, decision, hfill, hdecision, hmarks⟩ :=
      exists_outline_decision rfl hlength hchain
    refine ⟨.snippet (.readLookahead offset) :: decision, [.read offset], fun arms => ?_,
      bringsIn_needLookahead offset st, hmarks.cons _⟩
    rw [fillAll, hdecision]
    exact yields_lowerLevel.2 (.read hseveral hreads (hfill arms))

end

/-! ## Trees -/

def leafMarks (leaves : List (List Outline)) : Alt → List Mark
  | .arm index => marksOf (leaves.getD index [])
  | _ => []

section

variable {m : MethodPlan} {enclosure : Enclosure} {leaves : List (List Outline)} {coverage : CharSet}
  {label label' : Option String} {arms : List (List Stmt)} {code : List Stmt} {st st' : LowerState}

theorem offsets_levelLabel {plan : LevelPlan} {count : Nat}
    (h : Yields (MethodPlan.levelLabel plan enclosure count label) st label' st')
    (hlabel : ∀ name ∈ label, IsStop name) :
    (∀ name ∈ label', IsStop name) ∧ st'.offsets = st.offsets := by
  unfold MethodPlan.levelLabel at h
  split at h
  · obtain ⟨rfl, rfl⟩ := yields_map_nextStop h
    refine ⟨fun other hother => ?_, rfl⟩
    cases hother
    exact ⟨_, rfl⟩
  · obtain ⟨rfl, rfl⟩ := yields_pure.1 h
    exact ⟨hlabel, rfl⟩

theorem lowerError_marks {snippet : Snippet} (h : Yields (m.lowerError coverage) st snippet st') :
    snippet.marks = [] ∧ st'.offsets = st.offsets := by
  unfold MethodPlan.lowerError at h
  split at h
  · obtain ⟨rfl, rfl⟩ := yields_pure.1 h
    exact ⟨rfl, rfl⟩
  · obtain ⟨ref, st₁, href, h⟩ := yields_bind.1 h
    obtain ⟨rfl, rfl⟩ := yields_pure.1 h
    exact ⟨rfl, (idle_refer href).offsets⟩

/-- Lowering the tree gives the same outline, whatever stands in the gaps at its leaves. It has the marks
of the leaves, and jumps out of the loop around it. -/
def HasOutline (m : MethodPlan) (enclosure : Enclosure) (leaves : List (List Outline))
    (tree : Decision) : Prop :=
  ∀ coverage label arms st code label' st', (∀ name ∈ label, IsStop name) →
    Yields (m.lowerDecision enclosure (leaves.map (fillAll arms)) coverage label tree) st
      (code, label') st' →
    ∃ outline own, (∀ arms, Yields (m.lowerDecision enclosure (leaves.map (fillAll arms)) coverage
        label tree) st (fillAll arms outline, label') st') ∧
      (∀ name ∈ label', IsStop name) ∧ BringsIn st own st' ∧
      (marksOf outline).Perm (own ++ tree.leaves.flatMap (leafMarks leaves))

theorem getD_map_fillAll (arms : List (List Stmt)) (leaves : List (List Outline)) (index : Nat) :
    (leaves.map (fillAll arms)).getD index [] = fillAll arms (leaves.getD index []) := by
  rw [List.getD_eq_getElem?_getD, List.getD_eq_getElem?_getD, List.getElem?_map]
  cases leaves[index]? <;> rfl

theorem hasOutline_pick (alt : Alt) : HasOutline m enclosure leaves (.pick alt) := by
  intro coverage label arms st code label' st' hlabel h
  cases alt with
  | arm index =>
    rw [MethodPlan.lowerDecision] at h
    obtain ⟨heq, rfl⟩ := yields_pure.1 h
    cases heq
    refine ⟨leaves.getD index [], [], fun arms => ?_, hlabel, .of_eq rfl, ?_⟩
    · rw [MethodPlan.lowerDecision, getD_map_fillAll]
      exact yields_pure.2 ⟨rfl, rfl⟩
    · exact .of_eq (List.append_nil _).symm
  | exit =>
    rw [MethodPlan.lowerDecision] at h
    obtain ⟨heq, rfl⟩ := yields_pure.1 h
    cases heq
    by_cases hloop : enclosure = .loop
    · refine ⟨[.breakTo label], Mark.ofLabel label, fun arms => ?_, hlabel, ⟨?_, fun n => ?_⟩, .refl _⟩
      · rw [MethodPlan.lowerDecision, if_pos hloop]
        exact yields_pure.2 ⟨rfl, rfl⟩
      · intro mark hm
        obtain ⟨name, hname, rfl⟩ : ∃ name, label = some name ∧ mark = .jump name := by
          cases label with
          | none => cases hm
          | some name => exact ⟨name, rfl, List.mem_singleton.1 hm⟩
        exact hlabel name hname
      · cases label <;> simp [Mark.ofLabel]
    · refine ⟨[], [], fun arms => ?_, hlabel, .of_eq rfl, .refl _⟩
      rw [MethodPlan.lowerDecision, if_neg hloop]
      exact yields_pure.2 ⟨rfl, rfl⟩
  | error =>
    rw [MethodPlan.lowerDecision] at h
    obtain ⟨snippet, st₁, hsnippet, h⟩ := yields_bind.1 h
    obtain ⟨heq, rfl⟩ := yields_pure.1 h
    cases heq
    obtain ⟨hmarks, hoffsets⟩ := lowerError_marks hsnippet
    refine ⟨[.snippet snippet], [], fun arms => ?_, hlabel, .of_eq hoffsets, ?_⟩
    · rw [MethodPlan.lowerDecision]
      exact yields_bind.2 ⟨snippet, _, hsnippet, yields_pure.2 ⟨rfl, rfl⟩⟩
    · rw [marksOf_singleton, marks, hmarks]
      exact .refl _

theorem exists_outline_lowerBranches {branches : List (Branch Decision)} {codes : List (List Stmt)}
    (ih : ∀ branch ∈ branches, HasOutline m enclosure leaves branch.target)
    (hlabel : ∀ name ∈ label, IsStop name)
    (h : Yields (m.lowerBranches enclosure (leaves.map (fillAll arms)) coverage label branches) st
      (codes, label') st') :
    ∃ (bodies : List (List Outline)) (own : List Mark), branches.length = bodies.length ∧
      (∀ arms, Yields (m.lowerBranches enclosure (leaves.map (fillAll arms)) coverage label branches) st
        (bodies.map (fillAll arms), label') st') ∧
      (∀ name ∈ label', IsStop name) ∧ BringsIn st own st' ∧
      (bodies.flatMap marksOf).Perm
        (own ++ (Decision.leavesOf branches).flatMap (leafMarks leaves)) := by
  induction branches generalizing label st codes with
  | nil =>
    obtain ⟨rfl, rfl, rfl⟩ := yields_lowerBranches_nil.1 h
    refine ⟨[], [], rfl, fun arms => ?_, hlabel, .of_eq rfl, .refl _⟩
    exact yields_lowerBranches_nil.2 ⟨rfl, rfl, rfl⟩
  | cons branch rest ihrest =>
    obtain ⟨code, label₁, st₁, others, hfirst, hrest, rfl⟩ := yields_lowerBranches_cons.1 h
    obtain ⟨outline, own, hfill, hlabel₁, hown, hmarks⟩ :=
      ih _ List.mem_cons_self _ _ _ _ _ _ _ hlabel hfirst
    obtain ⟨bodies, owns, hlength, hfills, hlabel', howns, hmarks'⟩ :=
      ihrest (fun branch hm => ih branch (List.mem_cons_of_mem _ hm)) hlabel₁ hrest
    refine ⟨outline :: bodies, own ++ owns, congrArg Nat.succ hlength, fun arms => ?_, hlabel',
      hown.append howns, ?_⟩
    · exact yields_lowerBranches_cons.2 ⟨_, _, _, _, hfill arms, hfills arms, rfl⟩
    · rw [List.flatMap_cons, Decision.leavesOf, List.flatMap_append]
      refine (hmarks.append hmarks').trans (List.perm_iff_count.2 fun mark => ?_)
      simp only [List.count_append]
      omega

/-- **A lowered tree** has the same outline, whatever stands in the gaps at its leaves, and has each gap as
often as the leaves have it. -/
theorem hasOutline_lowerDecision (m : MethodPlan) (enclosure : Enclosure)
    (leaves : List (List Outline)) (tree : Decision) : HasOutline m enclosure leaves tree := by
  induction tree using Decision.induction with
  | pick alt => exact hasOutline_pick alt
  | level offset isAssertion branches coverage ih =>
    intro above label arms st code label' st' hlabel h
    obtain ⟨label₁, st₁, codes, st₂, hfirst, hbranches, hlevel⟩ := yields_lowerDecision_level.1 h
    obtain ⟨hlabel₁, hoffsets⟩ := offsets_levelLabel hfirst hlabel
    obtain ⟨bodies, own, hlength, hfills, hlabel', hown, hmarks⟩ :=
      exists_outline_lowerBranches ih hlabel₁ hbranches
    have hcodes : codes = bodies.map (fillAll arms) := by
      have heq := congrArg Prod.fst (hbranches.symm.trans (hfills arms))
      exact congrArg Prod.fst (Except.ok.inj heq)
    rw [hcodes] at hlevel
    obtain ⟨outline, read, hfill, hread, hmarks'⟩ := exists_outline_lowerLevel hlength hlevel
    refine ⟨outline, own ++ read, fun arms => ?_, hlabel',
      BringsIn.append (.append (.of_eq hoffsets) hown) hread, ?_⟩
    · exact yields_lowerDecision_level.2 ⟨label₁, st₁, _, st₂, hfirst, hfills arms, hfill arms⟩
    · rw [Decision.leaves]
      refine hmarks'.trans ((hmarks.append_left read).trans (List.perm_iff_count.2 fun mark => ?_))
      simp only [List.count_append]
      omega

end

end PredictiveParser
