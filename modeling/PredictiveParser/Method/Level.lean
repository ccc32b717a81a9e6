import PredictiveParser.Method.Lower

/-!
# Lowering a prediction tree

Each level of a prediction tree becomes a decision: a chain of conditionals whose last branch is
not tested, or a multi-way branch whose fallback is the chain of the branches it does not handle. A
level without a choice becomes the code of its only branch.

The leaves become the code of arms, jumps to the end of a loop, or the code for unexpected input.
-/
namespace PredictiveParser

/-- What surrounds the code of an alternative set. -/
inductive Enclosure where
  | none
  | loop
  /-- A block that runs once and is left by a jump to its label. -/
  | block
deriving DecidableEq

/-! ## Which branches a multi-way branch handles -/

/-- The sets of branches, each without what the branches before it accept. -/
def remainders (covered : CharSet) : List (Branch Decision) → List CharSet
  | [] => []
  | branch :: rest =>
    branch.set.subtract covered :: remainders (covered.union branch.set) rest

/-- Whether a set is short enough for a case of a multi-way branch. -/
def fitsCase (set : CharSet) : Bool :=
  !set.isEmpty && set.ranges.length ≤ inlineRanges

/-- The places of the sets that a multi-way branch handles, added to those it handles anyway. The
last set is left to the fallback. -/
def switchCases (given : List Nat) (sets : List CharSet) : List Nat :=
  ((sets.dropLast.zipIdx.filter fun (set, _) => fitsCase set).map Prod.snd).foldl
    (fun cases index => insertAscending index cases) given

def caseCodes (cases : List Nat) (sets : List CharSet) (codes : List (List Stmt)) :
    List (CharSet × List Stmt) :=
  ((sets.zip codes).zipIdx.filter fun (_, index) => cases.contains index).map Prod.fst

/-- The multi-way branch that handles the sets at the given places, refused when one of them does
not exist. -/
def switchOf (subject : Subject) (sets : List CharSet) (cases : List Nat)
    (codes : List (List Stmt)) (fallback : List Stmt) : Except Fault Stmt :=
  match cases.find? fun index => min sets.length codes.length ≤ index with
  | some index => .error (.noSuchBranch index)
  | none => .ok (.switch subject (caseCodes cases sets codes) fallback)

/-- How the branches of a level are told apart. -/
structure LevelPlan where
  /-- The cases of the multi-way branch, if there is one. -/
  cases? : Option (List Nat)
  /-- Whether the terminal is read into a variable first. -/
  readsLookahead : Bool

namespace LevelPlan

/-- The branches that are cases of a multi-way branch. -/
def cases (plan : LevelPlan) : List Nat :=
  plan.cases?.getD []

/-- Decides on a multi-way branch when it has enough cases. The terminal is read into a variable
when it is looked at in a test or reported as an error. -/
def ofLevel (switchThreshold : Nat) (isAssertion : Bool) (branches : List (Branch Decision)) :
    LevelPlan :=
  if isAssertion then ⟨none, false⟩
  else
    let cases := switchCases [] (remainders .empty branches)
    let cases? := if switchThreshold ≤ cases.length then some cases else none
    let tested := (List.range (branches.length - 1)).any fun i => !(cases?.getD []).contains i
    ⟨cases?, tested || branches.any (·.target.isPick .error)⟩

/-- What the multi-way branch of a level looks at. -/
def subject (plan : LevelPlan) (offset : Nat) : Subject :=
  if plan.readsLookahead then .stored offset else .direct offset

end LevelPlan

namespace MethodPlan

/-- The code for input that no branch accepts. -/
def lowerError (m : MethodPlan) (coverage : CharSet) : Lower Snippet := do
  match m.form with
  | .recognizer => return .mismatch
  | .parser => return .unexpected (← Lower.refer coverage)

/-- The condition under which a branch is taken, once the branches before it are ruled out. -/
def branchTest (m : MethodPlan) (offset : Nat) (isAssertion : Bool) (branch : Branch Decision) :
    Except (Failure GenerationError) Test := do
  if isAssertion then return .checks (← branch.checks.mapM m.checkTests)
  else return .inSet offset (branch.set.optimize branch.covered)

/-- The branches with their code as a chain of conditionals, without those that are cases of a
multi-way branch. `index` is the place of the first of them. -/
def branchChain (m : MethodPlan) (offset : Nat) (isAssertion : Bool) (cases : List Nat)
    (index : Nat) : List (Branch Decision × List Stmt) →
    Except (Failure GenerationError) (List Stmt)
  | [] => return []
  | [(_, code)] => return code
  | (branch, code) :: next :: rest => do
    let otherwise ← m.branchChain offset isAssertion cases (index + 1) (next :: rest)
    if cases.contains index then return otherwise
    return [.ifElse (← m.branchTest offset isAssertion branch) code otherwise]

/-- The decision of a level between branches with this code. -/
def lowerLevel (m : MethodPlan) (plan : LevelPlan) (offset : Nat) (isAssertion : Bool)
    (branches : List (Branch Decision)) (codes : List (List Stmt)) : Lower (List Stmt) := do
  if branches.length ≤ 1 then return codes.flatten
  let chain ← Lower.lift (m.branchChain offset isAssertion plan.cases 0 (branches.zip codes))
  let decision := match plan.cases? with
    | none => chain
    | some cases =>
      [.switch (plan.subject offset) (caseCodes cases (remainders .empty branches) codes) chain]
  if plan.readsLookahead then
    Lower.needLookahead offset
    return .snippet (.readLookahead offset) :: decision
  else return decision

/-- The label of the enclosing loop while a level is lowered: inside a multi-way branch a jump out
of the loop has to name it. -/
def levelLabel (plan : LevelPlan) (enclosure : Enclosure) (branchCount : Nat)
    (label : Option String) : Lower (Option String) :=
  if 1 < branchCount && plan.cases?.isSome && enclosure == .loop && label.isNone then
    some <$> Lower.nextStop
  else return label

mutual

/-- Lowers a prediction tree where `leaves` holds the code for each arm and `coverage` what the
level above accepts. The label is that of the enclosing loop, if it has got one; the result is the
code and the label afterwards. -/
def lowerDecision (m : MethodPlan) (enclosure : Enclosure) (leaves : List (List Stmt))
    (coverage : CharSet) (label : Option String) : Decision → Lower (List Stmt × Option String)
  | .pick (.arm index) => return (leaves.getD index [], label)
  | .pick .exit => return (if enclosure = .loop then [.breakTo label] else [], label)
  | .pick .error => do return ([.snippet (← m.lowerError coverage)], label)
  | .level offset isAssertion branches coverage => do
    let plan := LevelPlan.ofLevel m.switchThreshold isAssertion branches
    let label ← levelLabel plan enclosure branches.length label
    let (codes, label) ← m.lowerBranches enclosure leaves coverage label branches
    return (← m.lowerLevel plan offset isAssertion branches codes, label)

/-- Lowers what the branches of a level lead to, in order. -/
def lowerBranches (m : MethodPlan) (enclosure : Enclosure) (leaves : List (List Stmt))
    (coverage : CharSet) (label : Option String) :
    List (Branch Decision) → Lower (List (List Stmt) × Option String)
  | [] => return ([], label)
  | ⟨_, _, _, target⟩ :: rest => do
    let (code, label) ← m.lowerDecision enclosure leaves coverage label target
    let (codes, label) ← m.lowerBranches enclosure leaves coverage label rest
    return (code :: codes, label)

end

end MethodPlan

end PredictiveParser
