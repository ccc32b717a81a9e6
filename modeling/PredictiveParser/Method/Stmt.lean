import PredictiveParser.Code.Literal
import PredictiveParser.Error
import PredictiveParser.Grammar.Node
import PredictiveParser.Method.SetCode
import PredictiveParser.Text.Identifier

/-!
# Statements of generated methods

The body of a method is a tree of statements until it is finished; then it is written down as
code. The control structures are conditionals, loops, labeled blocks, multi-way branches and jumps
out of them; what is in between are snippets, each of which reads input, calls a rule, evaluates a
check or gives up.

A jump to shared code leaves a labeled block that ends right before that code.
-/
namespace PredictiveParser

open Template

/-- The two forms of a rule: one parses and returns a value, the other only says whether the input
matches. -/
inductive Form where
  | parser
  | recognizer
deriving DecidableEq, Inhabited

/-- The variable that holds the terminal `offset` places ahead. -/
def lookaheadVar (offset : Nat) : Tokens :=
  word ("la" ++ toString offset)

/-- The call that reads the terminal `offset` places ahead. -/
def lookaheadCall (offset : Nat) : Tokens :=
  selfCall "la" (natLiteral offset)

def lookaheadType : Tokens :=
  word "i32"

def returnFalse : Tokens :=
  words ["return", "false"] ++ op ";"

/-- Gives up unless the expression holds. -/
def requireCode (test failure : Tokens) : Tokens :=
  word "if" ++ op "!" ++ test ++ braces failure

/-! ## Checks -/

/-- What a check evaluates in generated code. -/
inductive CheckCode where
  | expression (tokens : Tokens)
  /-- Runs the recognizer of this name and goes back to where it started. -/
  | recognizer (name : String)

def CheckCode.code : CheckCode → Tokens
  | .expression tokens => tokens
  | .recognizer name =>
    selfCall "try_recognize" (op "|" ++ word "p" ++ op "|" ++ word "p" ++ op "." ++ word name ++
      parens [])

/-- The test of an expression that may be negated. -/
def checkCode (negate : Bool) (expression : Tokens) : Tokens :=
  if negate then op "!" ++ parens expression else parens expression

structure CheckTest where
  /-- The check and the offset for which the code was made. -/
  ref : CheckRef
  negate : Bool
  body : CheckCode

def CheckTest.code (test : CheckTest) : Tokens :=
  checkCode test.negate test.body.code

/-- The statement that gives up unless a test holds. -/
def requireCheck (form : Form) (test : Tokens) : Tokens :=
  match form with
  | .recognizer => requireCode test returnFalse
  | .parser =>
    requireCode test (words ["return", "Err"] ++
      parens (selfCall "check_failed" (stringLiteral (Tokens.text test))) ++ op ";")

/-! ## Snippets -/

/-- The expression that matches one terminal of a set. -/
def matchExpr (set : SetRef) : Tokens :=
  selfCall "match_set" set.code ++ op "?"

/-- The statement that matches one terminal of a set or says that it does not match. -/
def recognizeCode (set : SetRef) : Tokens :=
  requireCode (selfCall "try_match_set" set.code) returnFalse

def skipExpr : Tokens :=
  selfCall "skip" []

def callExpr (method : String) : Tokens :=
  selfCall method [] ++ op "?"

def recognizerExpr (method : String) : Tokens :=
  selfCall method []

/-- The statement that gives up because none of these terminals came. -/
def unexpectedCode (expected : SetRef) : Tokens :=
  words ["return", "Err"] ++ parens (selfCall "error_unexpected" expected.code) ++ op ";"

/-- The statement for an expression whose value may be stored. -/
def storeCode (saver : Option Saver) (expression : Tokens) : Tokens :=
  match saver with
  | some saver => saver.store expression
  | none => expression ++ op ";"

/-- What a statement does that has no statements inside it. -/
inductive Snippet where
  /-- Code written by the author of the grammar. -/
  | code (tokens : Tokens)
  | declareLookahead (offset : Nat)
  | readLookahead (offset : Nat)
  | matchTerminal (set : SetRef) (saver : Option Saver)
  | recognizeTerminal (set : SetRef)
  | skipTerminal (saver : Option Saver)
  | callRule (method : String) (saver : Option Saver)
  | callRecognizer (method : String)
  | require (form : Form) (test : CheckTest)
  | unexpected (expected : SetRef)
  | mismatch

def Snippet.render : Snippet → Tokens
  | .code tokens => tokens
  | .declareLookahead offset =>
    words ["let", "mut"] ++ lookaheadVar offset ++ op ":" ++ lookaheadType ++ op ";"
  | .readLookahead offset => lookaheadVar offset ++ op "=" ++ lookaheadCall offset ++ op ";"
  | .matchTerminal set saver => storeCode saver (matchExpr set)
  | .recognizeTerminal set => recognizeCode set
  | .skipTerminal saver => storeCode saver skipExpr
  | .callRule method saver => storeCode saver (callExpr method)
  | .callRecognizer method => requireCode (recognizerExpr method) returnFalse
  | .require form test => requireCheck form test.code
  | .unexpected expected => unexpectedCode expected
  | .mismatch => returnFalse

/-! ## Conditions -/

inductive Test where
  | code (tokens : Tokens)
  /-- Whether the lookahead variable for `offset` is in a set. -/
  | inSet (offset : Nat) (set : CharSet)
  /-- Whether all checks of one of these lists hold. -/
  | checks (alternatives : List (List CheckTest))

/-- Whether all checks of a list hold. -/
def allChecksCode (checks : List CheckTest) : Tokens :=
  if checks.isEmpty then word "true" else (op "&&").intercalate (checks.map CheckTest.code)

def Test.render : Test → Tokens
  | .code tokens => tokens
  | .inSet offset set => set.testCode (lookaheadVar offset)
  | .checks [] => word "true"
  | .checks [only] => allChecksCode only
  | .checks alternatives =>
    (op "||").intercalate (alternatives.map fun all => parens (allChecksCode all))

inductive Subject where
  | code (tokens : Tokens)
  /-- The lookahead variable for an offset. -/
  | stored (offset : Nat)
  /-- The terminal itself, read on the spot. -/
  | direct (offset : Nat)

def Subject.render : Subject → Tokens
  | .code tokens => tokens
  | .stored offset => lookaheadVar offset
  | .direct offset => lookaheadCall offset

/-! ## Statements -/

inductive Stmt where
  | snippet (snippet : Snippet)
  | ifElse (test : Test) (thenBody elseBody : List Stmt)
  | loop (label : Option String) (body : List Stmt)
  | labeled (label : String) (body : List Stmt)
  | breakTo (label : Option String)
  | continueTo (label : Option String)
  /-- Runs the statements behind the first set that holds the subject, else the fallback. -/
  | switch (subject : Subject) (cases : List (CharSet × List Stmt)) (fallback : List Stmt)

namespace Stmt

def isConditional : Stmt → Bool
  | .ifElse .. => true
  | _ => false

/-- The label of a jump, if it has one. -/
def labelCode (label : Option String) : Tokens :=
  (label.map lifetime).getD []

mutual

def render : Stmt → Tokens
  | .snippet s => s.render
  | .ifElse test thenBody elseBody =>
    word "if" ++ test.render ++ braces (renderAll thenBody) ++ renderElse elseBody
  | .loop none body => word "loop" ++ braces (renderAll body)
  | .loop (some label) body => lifetime label ++ op ":" ++ word "loop" ++ braces (renderAll body)
  | .labeled label body => lifetime label ++ op ":" ++ braces (renderAll body)
  | .breakTo label => word "break" ++ labelCode label ++ op ";"
  | .continueTo label => word "continue" ++ labelCode label ++ op ";"
  | .switch subject cases fallback =>
    word "match" ++ subject.render ++ braces (renderCases cases ++
      (word "_" ++ op "=>" ++ braces (renderAll fallback)))

def renderAll : List Stmt → Tokens
  | [] => []
  | stmt :: rest => stmt.render ++ renderAll rest

/-- The other side of a conditional; a conditional there continues the chain. -/
def renderElse : List Stmt → Tokens
  | [] => []
  | [stmt] =>
    word "else" ++ (if stmt.isConditional then stmt.render else braces stmt.render)
  | stmt :: next :: rest =>
    word "else" ++ braces (stmt.render ++ (next.render ++ renderAll rest))

def renderCases : List (CharSet × List Stmt) → Tokens
  | [] => []
  | (set, body) :: rest =>
    set.pattern ++ op "=>" ++ braces (renderAll body) ++ renderCases rest

end

mutual

def labels : Stmt → List String
  | .snippet _ => []
  | .ifElse _ thenBody elseBody => labelsOf thenBody ++ labelsOf elseBody
  | .loop label body => label.toList ++ labelsOf body
  | .labeled label body => label :: labelsOf body
  | .breakTo label => label.toList
  | .continueTo label => label.toList
  | .switch _ cases fallback => labelsOfCases cases ++ labelsOf fallback

def labelsOf : List Stmt → List String
  | [] => []
  | stmt :: rest => stmt.labels ++ labelsOf rest

def labelsOfCases : List (CharSet × List Stmt) → List String
  | [] => []
  | (_, body) :: rest => labelsOf body ++ labelsOfCases rest

end

/-- Statements as code, refused when a label is no name. -/
def render? (stmts : List Stmt) : Except Fault Tokens :=
  match (labelsOf stmts).find? fun label => !Text.isIdentifier label with
  | some label => .error (.invalidName label)
  | none => .ok (renderAll stmts)

end Stmt

/-! ## Code that may be repeated -/

/-- Whether code starts with a block of its own. -/
def startsBlock : Tokens → Bool
  | .ident name :: _ => name == "if" || name == "match" || name == "loop"
  | .group .. :: _ => true
  | _ => false

/-- The number of statements in code: one for each semicolon, and one for what stands behind the
last. -/
def statementCount (tokens : Tokens) : Nat :=
  let semicolons := tokens.countP (·.isPunct ';')
  match tokens.getLast? with
  | some last => if last.isPunct ';' then semicolons else semicolons + 1
  | none => 0

/-- Whether statements are so short that they may be written several times instead of being
shared. -/
def isSimple : List Stmt → Bool
  | [] => true
  | [.snippet s] => statementCount s.render ≤ 1 && !startsBlock s.render
  | [.breakTo _] => true
  | [.continueTo _] => true
  | _ => false

end PredictiveParser
