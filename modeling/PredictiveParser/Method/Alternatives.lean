import PredictiveParser.Method.Level

/-!
# Lowering an alternative set

An alternative set becomes the decision on its prediction tree with the code of its arms at the
leaves. The code of an arm that several leaves choose is shared unless it is short: it stands once,
behind a labeled block that the leaves leave by a jump.

A repeated set is surrounded by a loop. A set with shared arms that is not repeated is surrounded by
a block, whose end is where all its arms go on.
-/
namespace PredictiveParser

/-- The label of the block in front of a shared arm. -/
def matchLabel (suffix : String) (index : Nat) : String :=
  "match" ++ toString (index + 1) ++ suffix

/-- Puts shared arms behind the code that jumps to them, where `jumpOver` tells whether the code can
reach the end of the next block and `skip` leads from there past all arms. -/
def appendShared (suffix : String) (skip : Stmt) (jumpOver : Bool) :
    List (Nat × List Stmt) → List Stmt → List Stmt
  | [], code => code
  | (index, arm) :: rest, code =>
    let body := if jumpOver then code ++ [skip] else code
    appendShared suffix skip true rest (.labeled (matchLabel suffix index) body :: arm)

/-- How often the code of shared arms jumps past them. -/
def jumpsPast (jumpOver : Bool) (shared : List (Nat × List Stmt)) : Nat :=
  if jumpOver then shared.length else shared.length - 1

/-- The enclosure that the declarations of an alternative set ask for. -/
def Alternatives.enclosure (alts : Alternatives) : Enclosure :=
  match alts.mode with
  | .star => .loop
  | .opt => if alts.defaultArm.isSome then .block else .none
  | .once => .none

namespace Decision

/-- Whether the code of an arm is shared: several leaves choose it, and it is not short. -/
def sharesArm (tree : Decision) (index : Nat) (code : List Stmt) : Bool :=
  1 < tree.timesUsed (.arm index) && !isSimple code

def sharedArms (tree : Decision) (arms : List (List Stmt)) : List (Nat × List Stmt) :=
  (arms.mapIdx fun index code => (index, code)).filter fun (index, code) =>
    tree.sharesArm index code

/-- What stands at the leaves for each arm: its code, or a jump to it. -/
def leafCodes (tree : Decision) (suffix : String) (arms : List (List Stmt)) : List (List Stmt) :=
  arms.mapIdx fun index code =>
    if tree.sharesArm index code then [Stmt.breakTo (some (matchLabel suffix index))] else code

/-- Whether the decision can fall through into the first shared arm. When every arm is shared, only
the exit of a set that is not repeated does. -/
def fallsThrough (tree : Decision) (wanted : Enclosure) (arms : List (List Stmt)) : Bool :=
  (tree.uses .exit && wanted ≠ .loop) || (tree.sharedArms arms).length ≠ arms.length

end Decision

namespace Lower

/-- A label for the loop around a repeated set: shared arms have to name it. -/
def loopLabel (wanted : Enclosure) (shared : List (Nat × List Stmt)) : Lower (Option String) :=
  if wanted = .loop && !shared.isEmpty then some <$> nextStop else pure none

/-- What tells apart the labels of these shared arms. -/
def sharedSuffix (shared : List (Nat × List Stmt)) : Lower String :=
  if shared.isEmpty then pure "" else nextGotoSuffix

/-- Puts shared arms behind the decision that jumps to them, and surrounds both. -/
def surround (wanted : Enclosure) (label : Option String) (suffix : String) (jumpOver : Bool)
    (shared : List (Nat × List Stmt)) (decision : List Stmt) : Lower (List Stmt) :=
  let enclosure := if wanted = .none && 0 < jumpsPast jumpOver shared then .block else wanted
  match enclosure with
  | .loop => return [.loop label (appendShared suffix (.continueTo label) jumpOver shared decision)]
  | .block => do
    let stop ← nextStop
    return [.labeled stop (appendShared suffix (.breakTo (some stop)) jumpOver shared decision)]
  | .none => return appendShared suffix (.breakTo none) jumpOver shared decision

end Lower

namespace MethodPlan

/-- Warns of arms that are never chosen, and of a loop that is never left. -/
def warnUnreachable (m : MethodPlan) (id : NodeId) (alts : Alternatives) (tree : Decision) :
    Lower Unit := do
  let unreachable := (List.range alts.arms.length).filter fun i => !tree.uses (.arm i)
  match unreachable.map fun i => toString (i + 1) with
  | [] => pure ()
  | [only] => m.warn id ("Branch " ++ only ++ " is unreachable.")
  | several => m.warn id ("Branches " ++ ", ".intercalate several ++ " are unreachable.")
  if alts.hasExit && !tree.uses .exit then
    m.warn id "Infinite loop. The exit branch is unreachable."

def predictionTree (m : MethodPlan) (id : NodeId) (alts : Alternatives) :
    Except (Failure GenerationError) Decision :=
  match alts.prediction with
  | none => throw (.error (.missingPrediction m.rule.name id))
  | some tree =>
    match tree.invalidAlt? alts.arms.length alts.hasExit with
    | some alt => throw (.error (.armOutOfRange m.rule.name id alt))
    | none => return tree

/-- The code of an alternative set whose arms have this code. -/
def lowerAlternatives (m : MethodPlan) (alts : Alternatives) (tree : Decision)
    (arms : List (List Stmt)) : Lower (List Stmt) := do
  let shared := tree.sharedArms arms
  let label ← Lower.loopLabel alts.enclosure shared
  let suffix ← Lower.sharedSuffix shared
  let (decision, label) ←
    m.lowerDecision alts.enclosure (tree.leafCodes suffix arms) .empty label tree
  Lower.surround alts.enclosure label suffix (tree.fallsThrough alts.enclosure arms) shared decision

/-- Lowers an alternative set whose arms are lowered by `lowerArm`. An arm that is never chosen has
no code. -/
def lowerSet (m : MethodPlan) (lowerArm : NodeId → Lower (List Stmt)) (id : NodeId)
    (alts : Alternatives) : Lower (List Stmt) := do
  let tree ← Lower.lift (m.predictionTree id alts)
  m.warnUnreachable id alts tree
  let arms ← alts.arms.zipIdx.mapM fun (arm, index) =>
    if tree.uses (.arm index) then lowerArm arm else pure []
  m.lowerAlternatives alts tree arms

end MethodPlan

end PredictiveParser
