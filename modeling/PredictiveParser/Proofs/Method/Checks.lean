import Mathlib.Logic.Function.Iterate
import Mathlib.Tactic.IntervalCases
import PredictiveParser.Proofs.Grammar.Growth
import PredictiveParser.Proofs.Method.Matching

/-!
# What the tests of checks evaluate

Prediction tests checks before anything is consumed, so each of them has to be evaluated some terminals
ahead. The code of a test is run by a `Host`: it evaluates expressions and runs recognizers. Code with
references to what lies ahead is written with other code in their place, and means the same as with the
numbers that this code has (`Host.Substitutes`).

* `checksHold_branchTest`: an expression is evaluated as many terminals ahead as it has to be. A
  recognizer is run from where prediction stands, so the test of a branch is right when each of its
  recognizers has to be run there.
-/
namespace PredictiveParser

open MethodPlan

/-- What runs the tests in generated code. -/
structure Host (σ : Type) [Source σ] where
  /-- The value of code that stands for a number. -/
  number : Tokens → σ → Option Int
  /-- The value of a condition whose references stand for these numbers. -/
  condition : (Reference → Option Int) → Tokens → σ → Bool
  /-- Whether the recognizer of this name matches what comes next. -/
  recognizes : String → σ → Bool
  number_lookahead : ∀ n s, number (lookaheadCall n) s = some (Source.lookahead s n)
  number_index : ∀ (n : Nat) s, number (Template.natLiteral n) s = some (n : Int)

section

variable {σ : Type} [Source σ] {host : Host σ}

namespace Host

/-- Code with other code in the place of its references is the same condition as with the numbers that
this code stands for. -/
def Substitutes (host : Host σ) (tokens : Tokens) : Prop :=
  ∀ (code : Reference → Option Tokens) (s : σ),
    (∀ r tokens, code r = some tokens → (host.number tokens s).isSome = true) →
    host.condition (fun _ => none) (References.replace code tokens) s =
      host.condition (fun r => (code r).bind (host.number · s)) tokens s

/-- The lookahead references, where `next` is the terminal under inspection. -/
def lookaheadNumber (next : Int) (offset : Nat) (r : Reference) : Option Int :=
  match r.name? with
  | some name =>
    if name == lookaheadValue then some next
    else if name == lookaheadIndex then some (offset : Int)
    else none
  | none => none

/-- The values of checks, so many terminals ahead of a place. Where a recognizer is run is given by
`start`. -/
def checkValues (host : Host σ) (g : Grammar) (start : Nat → σ → σ) : CheckValues σ := fun ref s =>
  match g.kindAt? ref.node with
  | some (.check ⟨_, .code tokens, _⟩) =>
    host.condition (lookaheadNumber (Source.lookahead (Source.advance^[ref.offset] s) 0) ref.offset)
      tokens s
  | some (.check ⟨_, .syntactic _ (some rule), _⟩) =>
    ((g.rule? rule).bind (·.recognizer)).any fun name => host.recognizes name (start ref.offset s)
  | _ => false

end Host

def CheckCode.value (host : Host σ) (s : σ) : CheckCode → Bool
  | .expression tokens => host.condition (fun _ => none) tokens s
  | .recognizer name => host.recognizes name s

def CheckTest.isTrue (host : Host σ) (s : σ) (test : CheckTest) : Bool :=
  test.body.value host s != test.negate

/-- Whether the code of a test says that one of its lists of checks holds. -/
def Test.checksHold (host : Host σ) (s : σ) : Test → Bool
  | .checks alternatives =>
    alternatives.isEmpty || alternatives.any fun all => all.all (CheckTest.isTrue host s)
  | _ => false

end

section

variable {σ : Type} [Source σ] [LawfulSource σ] {host : Host σ} {m : MethodPlan} {id : NodeId}
  {check : Check} {offset : Nat}

theorem lookahead_iterate_advance (s : σ) (n m : Nat) :
    Source.lookahead (Source.advance^[n] s) m = Source.lookahead s (m + n) := by
  induction n generalizing s with
  | zero => rfl
  | succ n ih =>
    rw [Function.iterate_succ_apply, ih, lookahead_advance, Nat.add_assoc]

/-- The code that is written for lookahead references stands for what they mean ahead. -/
theorem number_lookaheadCode (host : Host σ) (offset : Nat) (s : σ) (r : Reference) :
    ((lookaheadCode offset r).bind (host.number · s)) =
      Host.lookaheadNumber (Source.lookahead (Source.advance^[offset] s) 0) offset r := by
  rw [lookahead_iterate_advance, Nat.zero_add]
  unfold lookaheadCode Host.lookaheadNumber
  cases r.name? with
  | none => rfl
  | some name =>
    dsimp only
    split
    · exact host.number_lookahead offset s
    · split
      · exact host.number_index offset s
      · rfl

omit [LawfulSource σ] in
theorem isSome_number_lookaheadCode (host : Host σ) (offset : Nat) (s : σ) {r : Reference}
    {tokens : Tokens} (h : lookaheadCode offset r = some tokens) :
    (host.number tokens s).isSome = true := by
  unfold lookaheadCode at h
  split at h
  · split at h
    · cases h
      rw [host.number_lookahead]
      rfl
    · split at h
      · cases h
        rw [host.number_index]
        rfl
      · cases h
  · cases h

/-- What the code of one check evaluates. -/
theorem value_checkTest {test : CheckTest} (hk : m.grammar.kindAt? id = some (.check check))
    (hcode : ∀ tokens, check.body = .code tokens → host.Substitutes tokens)
    (h : m.checkTest id check offset = .ok test) (s : σ) :
    test.body.value host s = host.checkValues m.grammar (fun _ s => s) ⟨id, offset⟩ s := by
  obtain ⟨negate, body, mark⟩ := check
  unfold MethodPlan.checkTest at h
  rw [Host.checkValues, hk]
  cases body with
  | code tokens =>
    cases pure_eq_ok.1 h
    rw [CheckCode.value, hcode tokens rfl _ s fun r code hr => isSome_number_lookaheadCode host offset s hr]
    simp only [number_lookaheadCode]
  | syntactic payload rule =>
    cases rule with
    | none => cases h
    | some rule =>
      simp only at h ⊢
      cases hname : (m.grammar.rule? rule).bind (·.recognizer) with
      | none =>
        rw [hname] at h
        cases h
      | some name =>
        rw [hname] at h
        obtain ⟨checked, hchecked, h⟩ := bind_eq_ok.1 h
        cases pure_eq_ok.1 h
        rw [CheckCode.value, checkedName_eq_ok (liftM_eq_ok.1 hchecked)]
        rfl

theorem isTrue_checkTests {checks : CheckSet} {tests : List CheckTest}
    (hcode : ∀ ref ∈ checks, ∀ check tokens, m.grammar.kindAt? ref.node = some (.check check) →
      check.body = .code tokens → host.Substitutes tokens)
    (h : m.checkTests checks = .ok tests) (s : σ) : tests.all (CheckTest.isTrue host s) =
      checks.all (m.grammar.checkHolds (host.checkValues m.grammar fun _ s => s) s) := by
  induction checks generalizing tests with
  | nil =>
    cases pure_eq_ok.1 h
    rfl
  | cons ref rest ih =>
    obtain ⟨hfirst, hrest⟩ := List.forall_mem_cons.1 hcode
    rw [MethodPlan.checkTests] at h
    obtain ⟨node, hnode, h⟩ := bind_eq_ok.1 h
    have hkind := Grammar.kindAt?_of_node (liftM_eq_ok.1 hnode)
    rw [List.all_cons, Grammar.checkHolds, hkind]
    split at h
    · rename_i check hcheck
      obtain ⟨test, htest, h⟩ := bind_eq_ok.1 h
      obtain ⟨others, hothers, h⟩ := bind_eq_ok.1 h
      cases pure_eq_ok.1 h
      rw [hcheck] at hkind ⊢
      obtain ⟨-, hnegate⟩ := checkTest_eq_ok htest
      rw [List.all_cons, ih hrest hothers, CheckTest.isTrue, hnegate,
        value_checkTest hkind (fun tokens => hfirst check tokens hkind) htest]
    · rename_i hne
      rw [ih hrest h]
      split
      · rename_i check heq
        exact (hne check (Option.some.inj heq)).elim
      · rw [Bool.true_and]

omit [LawfulSource σ] in
/-- Where recognizers are run makes no difference for checks that run none ahead. -/
theorem checkHolds_congr_start {g : Grammar} {start start' : Nat → σ → σ} {ref : CheckRef} {s : σ}
    (h : ∀ negate payload rule mark,
      g.kindAt? ref.node = some (.check ⟨negate, .syntactic payload rule, mark⟩) →
      start ref.offset s = start' ref.offset s) :
    g.checkHolds (host.checkValues g start) s ref = g.checkHolds (host.checkValues g start') s ref := by
  unfold Grammar.checkHolds Host.checkValues
  rcases hk : g.kindAt? ref.node with _ | ⟨items | alts | ⟨predict, matched⟩ | check | callee | set⟩
  all_goals try rfl
  obtain ⟨negate, tokens | ⟨payload, rule⟩, mark⟩ := check
  · rfl
  · simp only [h negate payload rule mark hk]

/-- **What the tests of an assertion level evaluate.** The test of a branch says whether one of the
branch's sets of checks holds, each expression where it has to be evaluated and each recognizer run
from here. So where no recognizer has to be run further ahead, it says whether one of the sets holds
with every check evaluated where it has to be. -/
theorem checksHold_branchTest {level : Nat} {branch : Branch Decision} {test : Test}
    (hcode : ∀ set ∈ branch.checks, ∀ ref ∈ set, ∀ check tokens,
      m.grammar.kindAt? ref.node = some (.check check) → check.body = .code tokens →
      host.Substitutes tokens)
    (h : m.branchTest level true branch = .ok test) (s : σ) :
    test.checksHold host s = (branch.checks.isEmpty || branch.checks.any fun set =>
      set.all (m.grammar.checkHolds (host.checkValues m.grammar fun _ s => s) s)) ∧
    ((∀ set ∈ branch.checks, ∀ ref ∈ set, ∀ negate payload rule mark,
        m.grammar.kindAt? ref.node = some (.check ⟨negate, .syntactic payload rule, mark⟩) →
        ref.offset = 0) →
      test.checksHold host s = (branch.checks.isEmpty || branch.checks.any fun set =>
        set.all (m.grammar.checkHolds (host.checkValues m.grammar fun offset s =>
          Source.advance^[offset] s) s))) := by
  obtain ⟨tests, htests, heq⟩ := bind_eq_ok.1 h
  cases pure_eq_ok.1 heq
  have hall := mapM_eq_ok.1 htests
  generalize branch.checks = checks at hall hcode
  have hempty : tests.isEmpty = checks.isEmpty := by
    cases hall <;> rfl
  have hany : (tests.any fun all => all.all (CheckTest.isTrue host s)) = checks.any fun set =>
      set.all (m.grammar.checkHolds (host.checkValues m.grammar fun _ s => s) s) := by
    clear h htests heq hempty
    induction hall with
    | nil => rfl
    | cons hset _ ih =>
      obtain ⟨hfirst, hrest⟩ := List.forall_mem_cons.1 hcode
      rw [List.any_cons, List.any_cons, ih hrest, isTrue_checkTests hfirst hset]
  have hhere : Test.checksHold host s (.checks tests) = (checks.isEmpty || checks.any fun set =>
      set.all (m.grammar.checkHolds (host.checkValues m.grammar fun _ s => s) s)) := by
    rw [Test.checksHold, hempty, hany]
  refine ⟨hhere, fun hsyntactic => hhere.trans (congrArg _ ?_)⟩
  have hsame : ∀ set ∈ checks, ∀ ref ∈ set,
      m.grammar.checkHolds (host.checkValues m.grammar fun _ s => s) s ref =
        m.grammar.checkHolds (host.checkValues m.grammar fun offset s => Source.advance^[offset] s) s
          ref := by
    intro set hset ref href
    refine checkHolds_congr_start fun negate payload rule mark hk => ?_
    rw [hsyntactic set hset ref href negate payload rule mark hk]
    rfl
  rw [Bool.eq_iff_iff, List.any_eq_true, List.any_eq_true]
  refine exists_congr fun set => and_congr_right fun hset => ?_
  rw [List.all_eq_true, List.all_eq_true]
  exact forall₂_congr fun ref href => by rw [hsame set hset ref href]

end

/-! ## An instance -/

/-- The condition that the terminal under inspection is the number of its place. -/
def comparison : Tokens :=
  [.punct '$' .alone, .ident "LA", .punct '=' .joint, .punct '=' .alone, .punct '$' .alone, .ident "LI"]

open Classical in
/-- The number that code stands for: a terminal ahead, or a literal. -/
noncomputable def numberOf (code : Tokens) (t : Tape) : Option Int :=
  if h : ∃ n, code = lookaheadCall n then some (Source.lookahead t h.choose)
  else if h : ∃ n : Nat, code = Template.natLiteral n then some (h.choose : Int)
  else none

noncomputable def operandOf (numbers : Reference → Option Int) (t : Tape) : Tokens → Option Int
  | [.punct '$' _, token] => (Reference.ofToken? token).bind numbers
  | code => numberOf code t

noncomputable def comparisonHolds (numbers : Reference → Option Int) (code : Tokens) (t : Tape) :
    Bool :=
  operandOf numbers t (code.takeWhile fun token => !token.isPunct '=') ==
    operandOf numbers t ((code.dropWhile fun token => !token.isPunct '=').drop 2)

theorem natLiteral_inj {n m : Nat} (h : Template.natLiteral n = Template.natLiteral m) : n = m := by
  have hspelling : toString n = toString m := by
    simpa [Template.natLiteral, Template.literal] using h
  exact Nat.repr_inj.1 hspelling

theorem lookaheadCall_inj {n m : Nat} (h : lookaheadCall n = lookaheadCall m) : n = m := by
  have hargs : Template.natLiteral n = Template.natLiteral m := by
    simpa [lookaheadCall, Template.selfCall, Template.parens] using h
  exact natLiteral_inj hargs

theorem lookaheadCall_ne_natLiteral (n m : Nat) : lookaheadCall n ≠ Template.natLiteral m := by
  intro h
  have hlength := congrArg List.length h
  simp [lookaheadCall, Template.selfCall, Template.natLiteral, Template.literal, Template.word,
    Template.parens, Template.op, Template.opChars] at hlength

theorem numberOf_lookaheadCall (n : Nat) (t : Tape) :
    numberOf (lookaheadCall n) t = some (Source.lookahead t n) := by
  have h : ∃ m, lookaheadCall n = lookaheadCall m := ⟨n, rfl⟩
  rw [numberOf, dif_pos h, ← lookaheadCall_inj h.choose_spec]

theorem numberOf_natLiteral (n : Nat) (t : Tape) :
    numberOf (Template.natLiteral n) t = some (n : Int) := by
  have h : ∃ m, Template.natLiteral n = Template.natLiteral m := ⟨n, rfl⟩
  have hcall : ¬ ∃ m, Template.natLiteral n = lookaheadCall m := fun ⟨m, hm⟩ =>
    lookaheadCall_ne_natLiteral m n hm.symm
  rw [numberOf, dif_neg hcall, dif_pos h, ← natLiteral_inj h.choose_spec]

theorem eq_of_numberOf {code : Tokens} {t : Tape} (h : (numberOf code t).isSome = true) :
    (∃ n, code = lookaheadCall n) ∨ ∃ n, code = Template.natLiteral n := by
  unfold numberOf at h
  split at h
  · rename_i hcall
    exact Or.inl hcall
  · split at h
    · rename_i hliteral
      exact Or.inr hliteral
    · cases h

/-- What stands in a comparison for a reference: code for a number, or the reference itself. -/
theorem operandOf_getD {code : Option Tokens} {t : Tape}
    (h : ∀ tokens, code = some tokens → (numberOf tokens t).isSome = true) (name : String) :
    operandOf (fun _ => none) t (code.getD [.punct '$' .alone, .ident name]) =
        code.bind (numberOf · t) ∧
      ∀ token ∈ code.getD [.punct '$' .alone, .ident name], (!token.isPunct '=') = true := by
  cases code with
  | none => exact ⟨rfl, by simp [Token.isPunct]⟩
  | some tokens =>
    rcases eq_of_numberOf (h tokens rfl) with ⟨n, rfl⟩ | ⟨n, rfl⟩
    · exact ⟨rfl, by simp [lookaheadCall, Template.selfCall, Template.word, Template.parens,
        Template.op, Template.opChars, Token.isPunct]⟩
    · exact ⟨rfl, fun token htoken => by rw [List.mem_singleton.1 htoken]; rfl⟩

/-- A host that compares numbers. Its only recognizer looks for the terminal 1. -/
noncomputable def comparing : Host Tape where
  number := numberOf
  condition := comparisonHolds
  recognizes _ t := Source.lookahead t 0 == 1
  number_lookahead := numberOf_lookaheadCall
  number_index := numberOf_natLiteral

theorem comparing_substitutes : comparing.Substitutes comparison := by
  intro code t hcode
  have hreplace : References.replace code comparison =
      (code (.name "LA")).getD [.punct '$' .alone, .ident "LA"] ++
        (.punct '=' .joint :: .punct '=' .alone ::
          (code (.name "LI")).getD [.punct '$' .alone, .ident "LI"]) := by
    simp [comparison, References.replace, References.at?, References.replaceIn, Token.isPunct,
      Reference.ofToken?]
  obtain ⟨hfirst, hplain⟩ := operandOf_getD (hcode (.name "LA")) "LA"
  obtain ⟨hsecond, -⟩ := operandOf_getD (hcode (.name "LI")) "LI"
  have htake : (References.replace code comparison).takeWhile (fun token => !token.isPunct '=') =
      (code (.name "LA")).getD [.punct '$' .alone, .ident "LA"] := by
    rw [hreplace, List.takeWhile_append_of_pos hplain]
    exact List.append_nil _
  have hdrop : ((References.replace code comparison).dropWhile fun token =>
      !token.isPunct '=').drop 2 = (code (.name "LI")).getD [.punct '$' .alone, .ident "LI"] := by
    rw [hreplace, List.dropWhile_append_of_pos hplain]
    rfl
  show comparisonHolds _ (References.replace code comparison) t = _
  rw [comparisonHolds, htake, hdrop, hfirst, hsecond]
  rfl

/-- A check that the terminal is the number of its place, and one that runs a recognizer. -/
def compared : MethodPlan where
  grammar := {
    nodes := #[.ofKind (.check ⟨false, .code comparison, none⟩),
      .ofKind (.terminal (.ofRanges [(1, 1)]) none),
      .ofKind (.check ⟨false, .syntactic 1 (some "One"), none⟩)]
    rules := [("One", { Rule.ofBody "One" 1 with recognizer := some "scan_One" })] }
  rule := .ofBody "Start" 0
  form := .parser
  switchThreshold := 4

/-- Both checks have to be evaluated one terminal ahead. -/
def comparedBranch (check : NodeId) : Branch Decision :=
  ⟨.everything, [[⟨check, 1⟩]], .empty, .pick .error⟩

/-- The numbers 3, 1, 1, .. -/
def ones : Tape where
  cell n := if n = 0 then 3 else 1
  isTerminal_cell n := by split <;> exact ⟨by decide, by decide⟩
  position := 0

theorem comparedBranch_code {check : NodeId} : ∀ set ∈ (comparedBranch check).checks, ∀ ref ∈ set,
    ∀ test tokens, compared.grammar.kindAt? ref.node = some (.check test) → test.body = .code tokens →
      comparing.Substitutes tokens := by
  intro set hset ref href test tokens hk hbody
  have hid : ref.node < 3 := Grammar.lt_size_of_kindAt? hk
  generalize ref.node = id at hk hid
  interval_cases id <;> cases hk
  · cases hbody
    exact comparing_substitutes
  · cases hbody

/-- One terminal ahead there is a 1: the expression says so, and the recognizer does not. -/
theorem compared_checksHold :
    (∃ test, compared.branchTest 0 true (comparedBranch 0) = .ok test ∧
      test.checksHold comparing ones = true) ∧
    ∃ test, compared.branchTest 0 true (comparedBranch 2) = .ok test ∧
      test.checksHold comparing ones = false ∧
      compared.grammar.checkHolds (comparing.checkValues compared.grammar fun offset t =>
        Source.advance^[offset] t) ones ⟨2, 1⟩ = true := by
  have made : ∀ check, check = 0 ∨ check = 2 →
      ∃ test, compared.branchTest 0 true (comparedBranch check) = .ok test := by
    rintro check (rfl | rfl) <;> exact ⟨_, rfl⟩
  constructor
  · obtain ⟨test, htest⟩ := made 0 (Or.inl rfl)
    refine ⟨test, htest, ?_⟩
    rw [(checksHold_branchTest comparedBranch_code htest ones).2 ?_]
    · rfl
    · intro set hset ref href negate payload rule mark hk
      rw [List.mem_singleton.1 hset] at href
      rw [List.mem_singleton.1 href] at hk
      cases hk
  · obtain ⟨test, htest⟩ := made 2 (Or.inr rfl)
    refine ⟨test, htest, ?_, rfl⟩
    rw [(checksHold_branchTest comparedBranch_code htest ones).1]
    rfl

end PredictiveParser
