import PredictiveParser.Code.Reference
import PredictiveParser.Diagnostics
import PredictiveParser.Method.Signature
import PredictiveParser.Method.Tables

/-!
# Lowering: the single steps

A method is lowered node by node. What lowering produces besides statements is kept in
`LowerState`: tables of sets, messages, the lookahead variables in use, and how many labels were
given out. When lowering fails, tables and messages stay.

This module lowers what consumes input and what checks it; alternative sets follow in their own
modules.
-/
namespace PredictiveParser

open Template

/-- The method to be written. -/
structure MethodPlan where
  grammar : Grammar
  rule : Rule
  form : Form
  /-- The number of branches from which a decision is written as one multi-way branch. -/
  switchThreshold : Nat

/-- What lowering has produced besides statements. -/
structure LowerState where
  tables : Tables
  events : List Event
  /-- The offsets of the lookahead variables in use, in ascending order. -/
  offsets : List Nat
  /-- How many labels for loops and blocks were given out. -/
  stops : Nat
  /-- How many alternative sets have shared arms so far. -/
  gotos : Nat

abbrev Lower := ExceptT (Failure GenerationError) (StateM LowerState)

/-- Adds a number to ascending numbers, each of them once. -/
def insertAscending (n : Nat) : List Nat → List Nat
  | [] => [n]
  | m :: rest =>
    if n < m then n :: m :: rest
    else if n = m then m :: rest
    else m :: insertAscending n rest

namespace Lower

def lift {α : Type} (result : Except (Failure GenerationError) α) : Lower α :=
  ExceptT.mk (pure result)

/-- How code refers to a set. -/
def refer (set : CharSet) : Lower SetRef := do
  let state ← get
  let (ref, tables) := state.tables.refer set
  modify ({ · with tables })
  return ref

/-- Records that a lookahead variable is in use. -/
def needLookahead (offset : Nat) : Lower Unit :=
  modify fun state => { state with offsets := insertAscending offset state.offsets }

/-- The label with this number, counted from one. -/
def stopLabel (number : Nat) : String :=
  if number = 1 then "stop" else "stop" ++ toString number

def nextStop : Lower String := do
  modify fun state => { state with stops := state.stops + 1 }
  return stopLabel (← get).stops

/-- What tells apart the labels of shared arms: nothing for the first alternative set that has
some, then the letters from `b`, then numbers. -/
def gotoSuffix (number : Nat) : String :=
  if number = 0 then ""
  else if number ≤ 25 then String.singleton (Char.ofNat ('a'.toNat + number))
  else "_" ++ toString number

/-- A new suffix for the labels of shared arms. -/
def nextGotoSuffix : Lower String := do
  let number := (← get).gotos
  modify fun state => { state with gotos := state.gotos + 1 }
  return gotoSuffix number

end Lower

namespace MethodPlan

/-- Whether this is the form that reports warnings: the first that is written for the rule. -/
def reports (m : MethodPlan) : Bool :=
  m.form == .parser || m.rule.recognizerOnly

def warn (m : MethodPlan) (id : NodeId) (message : String) : Lower Unit :=
  if m.reports then
    modify fun state => { state with
      events := state.events ++ [.atNode m.grammar .warning m.rule.name id message] }
  else return ()

/-! ## Terminals and calls -/

/-- Matches one terminal. Its test is left out when every terminal is allowed, or when prediction
has made it. -/
def lowerTerminal (m : MethodPlan) (set : CharSet) (prematched : Option Bool)
    (saver : Option Saver) : Lower Snippet := do
  match m.form with
  | .recognizer => return .recognizeTerminal (← Lower.refer set)
  | .parser =>
    if set.isEverything || prematched == some true then return .skipTerminal saver
    else return .matchTerminal (← Lower.refer set) saver

def callSnippet (m : MethodPlan) (name : String) (saver : Option Saver) :
    Except (Failure GenerationError) Snippet := do
  match m.grammar.rule? name, m.form with
  | none, _ => throw (.error (.unknownRule m.rule.name name))
  | some callee, .parser => return .callRule (← checkedName callee.name) saver
  | some callee, .recognizer =>
    match callee.recognizer with
    | some recognizer => return .callRecognizer (← checkedName recognizer)
    | none => throw (.error (.missingRecognizer name))

/-! ## Checks -/

/-- What a lookahead reference stands for, `offset` terminals ahead. -/
def lookaheadCode (offset : Nat) (reference : Reference) : Option Tokens :=
  match reference.name? with
  | some name =>
    if name == lookaheadValue then some (lookaheadCall offset)
    else if name == lookaheadIndex then some (natLiteral offset)
    else none
  | none => none

/-- The test of a check, `offset` terminals ahead. -/
def checkTest (m : MethodPlan) (id : NodeId) (check : Check) (offset : Nat) :
    Except (Failure GenerationError) CheckTest := do
  let body : CheckCode ← match check.body with
    | .code tokens => pure (.expression (References.replace (lookaheadCode offset) tokens))
    | .syntactic _ none =>
      throw (.error (.missingRecognizer (m.rule.name ++ nodeText id)))
    | .syntactic _ (some rule) =>
      match (m.grammar.rule? rule).bind (·.recognizer) with
      | some name => do pure (.recognizer (← checkedName name))
      | none => throw (.error (.missingRecognizer rule))
  return ⟨⟨id, offset⟩, check.negate, body⟩

/-- The tests of the checks of a set. -/
def checkTests (m : MethodPlan) : CheckSet → Except (Failure GenerationError) (List CheckTest)
  | [] => return []
  | ref :: rest => do
    let node ← m.grammar.node ref.node
    match node.kind with
    | .check check =>
      let test ← m.checkTest ref.node check ref.offset
      return test :: (← m.checkTests rest)
    | _ => m.checkTests rest

end MethodPlan

end PredictiveParser
