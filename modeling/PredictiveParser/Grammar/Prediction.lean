import PredictiveParser.CharSet.Display

/-!
# Prediction trees

After analysis every alternative set of a grammar has a tree that says how to choose between its
arms. A lookahead level tells its branches apart by the terminal a fixed number of places ahead, an
assertion level by zero-width checks. The leaves name what was chosen: an arm, the exit of a loop,
or the error that no arm matches.
-/
namespace PredictiveParser

/-- The place of a node in its grammar. -/
abbrev NodeId := Nat

def nodeText (node : NodeId) : String :=
  "#" ++ toString node

/-- What a prediction can choose. -/
inductive Alt where
  /-- The arm with this place, counted from zero. -/
  | arm (index : Nat)
  /-- Leave the loop. -/
  | exit
  /-- No arm matches. -/
  | error
deriving DecidableEq, Repr, Inhabited

namespace Alt

def text : Alt → String
  | .arm index => toString (index + 1)
  | .exit => "exit"
  | .error => "error"

/-- Arms in their order, then the exit, then the error. -/
def le : Alt → Alt → Bool
  | .arm i, .arm j => i ≤ j
  | .arm _, _ => true
  | .exit, .arm _ => false
  | .exit, _ => true
  | .error, .error => true
  | .error, _ => false

end Alt

/-- A zero-width check that was met while looking ahead, and how many terminals ahead of the
decision it has to be evaluated. -/
structure CheckRef where
  node : NodeId
  offset : Nat
deriving DecidableEq, Repr

def CheckRef.le (a b : CheckRef) : Bool :=
  a.node < b.node || (a.node == b.node && a.offset ≤ b.offset)

/-- Checks that must all hold, in ascending order and each of them once. -/
abbrev CheckSet := List CheckRef

def CheckSet.insert (ref : CheckRef) : CheckSet → CheckSet
  | [] => [ref]
  | other :: rest =>
    if ref = other then other :: rest
    else if ref.le other then ref :: other :: rest
    else other :: CheckSet.insert ref rest

structure Branch (δ : Type) where
  /-- The terminals that select the branch on a lookahead level. -/
  set : CharSet
  /-- Any one of these sets selects the branch on an assertion level. None at all is the
  unconditional fallback. -/
  checks : List CheckSet
  /-- The terminals of the branches before this one. -/
  covered : CharSet
  target : δ

/-- A prediction tree, or the choice at a leaf. -/
inductive Decision where
  | pick (alt : Alt)
  /-- A level that looks `offset` terminals ahead, or that tells its branches apart by checks. The
  coverage is the union of the sets of all branches except those that lead to the error. -/
  | level (offset : Nat) (isAssertion : Bool) (branches : List (Branch Decision))
      (coverage : CharSet)
deriving Inhabited

namespace Decision

def isPick (alt : Alt) : Decision → Bool
  | .pick other => other == alt
  | .level .. => false

mutual

def leaves : Decision → List Alt
  | .pick alt => [alt]
  | .level _ _ branches _ => leavesOf branches

def leavesOf : List (Branch Decision) → List Alt
  | [] => []
  | ⟨_, _, _, target⟩ :: rest => leaves target ++ leavesOf rest

end

def timesUsed (decision : Decision) (alt : Alt) : Nat :=
  decision.leaves.count alt

def uses (decision : Decision) (alt : Alt) : Bool :=
  decision.leaves.contains alt

/-- The choices at the leaves with how often each occurs, in the order of choices. -/
def usage (decision : Decision) : List (Alt × Nat) :=
  (decision.leaves.eraseDups.mergeSort Alt.le).map fun alt => (alt, decision.timesUsed alt)

mutual

/-- The number of levels on the longest way to a leaf. -/
def depth : Decision → Nat
  | .pick _ => 0
  | .level _ _ branches _ => 1 + depthOf branches

def depthOf : List (Branch Decision) → Nat
  | [] => 0
  | ⟨_, _, _, target⟩ :: rest => max (depth target) (depthOf rest)

end

mutual

/-- The offsets that some level has to read: those of lookahead levels with a choice. -/
def readOffsets : Decision → List Nat
  | .pick _ => []
  | .level offset isAssertion branches _ =>
    (if !isAssertion && 1 < branches.length then [offset] else []) ++ readOffsetsOf branches

def readOffsetsOf : List (Branch Decision) → List Nat
  | [] => []
  | ⟨_, _, _, target⟩ :: rest => readOffsets target ++ readOffsetsOf rest

end

/-- The offsets that some level has to read, in ascending order and each of them once. -/
def offsets (decision : Decision) : List Nat :=
  decision.readOffsets.eraseDups.mergeSort (· ≤ ·)

/-- Whether an alternative set with so many arms, and an exit or not, has this choice. -/
def isValidAlt (arms : Nat) (hasExit : Bool) : Alt → Bool
  | .arm index => index < arms
  | .exit => hasExit
  | .error => true

/-- The first leaf with a choice that the alternative set does not have. -/
def invalidAlt? (decision : Decision) (arms : Nat) (hasExit : Bool) : Option Alt :=
  decision.leaves.find? fun alt => !isValidAlt arms hasExit alt

end Decision

/-- The condition of a branch on an assertion level. -/
def checksText (checks : List CheckSet) : String :=
  if checks.isEmpty then "else"
  else
    let sets := checks.map fun set => "&&".intercalate (set.map fun ref => nodeText ref.node)
    "&[" ++ "||".intercalate sets ++ "]"

namespace Decision

mutual

/-- What follows the condition of a branch: its choice, or the lines of its subtree. -/
def targetText (depth : Nat) : Decision → String
  | .pick alt => " => " ++ alt.text ++ "\n"
  | .level offset isAssertion branches _ =>
    " =>\n" ++ branchesText (depth + 1) offset isAssertion branches

/-- The branches of a level, one line each and indented by two blanks per level above. -/
def branchesText (depth offset : Nat) (isAssertion : Bool) : List (Branch Decision) → String
  | [] => ""
  | ⟨set, checks, _, target⟩ :: rest =>
    let condition :=
      if isAssertion then checksText checks else "la" ++ toString offset ++ " " ++ set.text
    String.ofList (List.replicate (depth * 2) ' ') ++ condition ++ targetText depth target ++
      branchesText depth offset isAssertion rest

end

def text : Decision → String
  | .pick _ => ""
  | .level offset isAssertion branches _ => branchesText 0 offset isAssertion branches

end Decision

end PredictiveParser
