import PredictiveParser.Method.Level
import PredictiveParser.Method.Signature
import PredictiveParser.Method.Tables
import PredictiveParser.Options

/-!
# The helper

What generated code does to read input is written by a helper, which is asked for one piece of code at
a time. It remembers the form of the method that was begun and how each set with a table was numbered,
and it collects the constants that hold the tables until they are taken. Then the next batch begins.

The tables of the generator (`Tables`) keep the sets alone, because their numbers and their constants
follow from these.
-/
namespace PredictiveParser

/-- What the helper is asked. -/
inductive Request where
  /-- Announces a method of this form. -/
  | begin (form : Form)
  | method (rule : Rule) (form : Form) (body : Tokens)
  /-- Matches a terminal of the set. -/
  | terminal (set : CharSet) (form : Form)
  | skip
  /-- The test of an expression, or the statement that gives up unless it holds. -/
  | check (negate : Bool) (expression : Tokens) (predict : Bool)
  /-- Which of the sets are cases of a multi-way branch, besides those given, and whether to write one. -/
  | cases (sets : List CharSet) (given : List Nat)
  | switch (sets : List CharSet) (cases : List Nat) (codes : List Tokens) (fallback la : Tokens)
  /-- Gives up because none of the terminals in the set came. -/
  | unexpected (covered : CharSet)
  | lookahead (offset : Nat)
  | lookaheadType
  | callRule (rule : Rule)
  | callRecognizer (name : String)
  /-- Runs a recognizer and goes back to where it started. -/
  | tryRecognizer (name : String)

inductive Answer where
  | done
  | code (tokens : Tokens)
  | cases (switch : Bool) (cases : List Nat)

structure Helper where
  form : Form
  switchThreshold : Nat
  /-- The sets that have a table, with its number. -/
  tables : List (CharSet × Nat)
  /-- The constants that were not taken yet. -/
  members : List Tokens

namespace Helper

/-- A helper before its first request. -/
def ofOptions (options : Options) : Helper where
  form := .parser
  switchThreshold := options.switchThreshold
  tables := []
  members := []

/-- How code refers to a set. A set that needs a table and has none gets the next one. -/
def refer (helper : Helper) (set : CharSet) : SetRef × Helper :=
  if set.ranges.length ≤ inlineRanges then (⟨set, none⟩, helper)
  else
    match helper.tables.find? fun entry => entry.1 = set with
    | some (_, number) => (⟨set, some number⟩, helper)
    | none =>
      let number := helper.tables.length
      (⟨set, some number⟩, { helper with
        tables := helper.tables ++ [(set, number)]
        members := helper.members ++ [Tables.member number set] })

/-- The code that matches a terminal in a method of a form. -/
def terminalCode (ref : SetRef) : Form → Tokens
  | .parser => matchExpr ref
  | .recognizer => recognizeCode ref

/-- The multi-way branch with this code behind its cases. -/
def switchCode (sets : List CharSet) (cases : List Nat) (codes : List Tokens) (fallback la : Tokens) :
    Except Fault Tokens := do
  let bodies := codes.map fun code => [Stmt.snippet (.code code)]
  let stmt ← switchOf (.code la) sets cases bodies [.snippet (.code fallback)]
  return stmt.render

/-- Answers a request. One that breaks a promise leaves the helper as it is. -/
def answer (helper : Helper) : Request → Except Fault Answer × Helper
  | .begin form => (.ok .done, { helper with form })
  | .method rule form body => (.code <$> rule.methodCode form body, helper)
  | .terminal set form =>
    let (ref, helper) := helper.refer set
    (.ok (.code (terminalCode ref form)), helper)
  | .skip => (.ok (.code skipExpr), helper)
  | .check negate expression predict =>
    let test := checkCode negate expression
    (.ok (.code (if predict then test else requireCheck helper.form test)), helper)
  | .cases sets given =>
    let cases := switchCases (given.foldl (fun cases index => insertAscending index cases) []) sets
    (.ok (.cases (helper.switchThreshold ≤ cases.length) cases), helper)
  | .switch sets cases codes fallback la => (.code <$> switchCode sets cases codes fallback la, helper)
  | .unexpected covered =>
    match helper.form with
    | .recognizer => (.ok (.code returnFalse), helper)
    | .parser =>
      let (ref, helper) := helper.refer covered
      (.ok (.code (unexpectedCode ref)), helper)
  | .lookahead offset => (.ok (.code (lookaheadCall offset)), helper)
  | .lookaheadType => (.ok (.code PredictiveParser.lookaheadType), helper)
  | .callRule rule => ((fun name => .code (callExpr name)) <$> checkedName rule.name, helper)
  | .callRecognizer name => ((fun name => .code (recognizerExpr name)) <$> checkedName name, helper)
  | .tryRecognizer name =>
    ((fun name => .code (CheckCode.recognizer name).code) <$> checkedName name, helper)

def run (helper : Helper) : List Request → List (Except Fault Answer) × Helper
  | [] => ([], helper)
  | request :: rest =>
    let (answer, helper) := helper.answer request
    let (answers, helper) := helper.run rest
    (answer :: answers, helper)

def takeMembers (helper : Helper) : List Tokens × Helper :=
  (helper.members, { helper with tables := [], members := [] })

/-- The helper after batches of requests, the constants being taken behind each of them. -/
def afterBatches (helper : Helper) (batches : List (List Request)) : Helper :=
  batches.foldl (fun helper batch => (helper.run batch).2.takeMembers.2) helper

end Helper

end PredictiveParser
