import PredictiveParser.Method.Lower
import PredictiveParser.Proofs.Code.Only
import PredictiveParser.Proofs.Success

/-!
# References of rendered code

What a method holds besides the templates of this library is code that the author of the grammar wrote:
actions, and the expressions of checks. `Stmt.authored` lists it. Templates hold no references, so the
references of rendered code are those of the authored code in it (`only_renderAll`, `only_methodCode`).
-/
namespace PredictiveParser

open Template References

/-! ## Authored code -/

def CheckTest.authored (test : CheckTest) : List Tokens :=
  match test.body with
  | .expression tokens => [tokens]
  | .recognizer _ => []

def Snippet.authored : Snippet → List Tokens
  | .code tokens => [tokens]
  | .require _ test => test.authored
  | _ => []

def Test.authored : Test → List Tokens
  | .code tokens => [tokens]
  | .inSet .. => []
  | .checks alternatives => alternatives.flatten.flatMap CheckTest.authored

def Subject.authored : Subject → List Tokens
  | .code tokens => [tokens]
  | _ => []

namespace Stmt

mutual

def authored : Stmt → List Tokens
  | .snippet s => s.authored
  | .ifElse test thenBody elseBody => test.authored ++ (authoredOf thenBody ++ authoredOf elseBody)
  | .loop _ body => authoredOf body
  | .labeled _ body => authoredOf body
  | .breakTo _ => []
  | .continueTo _ => []
  | .switch subject cases fallback =>
    subject.authored ++ (authoredOfCases cases ++ authoredOf fallback)

def authoredOf : List Stmt → List Tokens
  | [] => []
  | stmt :: rest => stmt.authored ++ authoredOf rest

def authoredOfCases : List (CharSet × List Stmt) → List Tokens
  | [] => []
  | (_, body) :: rest => authoredOf body ++ authoredOfCases rest

end

end Stmt

/-! ## References of rendered code -/

section

variable {P : Reference → Prop}

theorem only_charCode (c : Int) : Only P (charCode c) := by
  unfold charCode
  split
  · exact (only_literal _).append (only_words _)
  · exact only_intLiteral c

theorem only_comparison (comparison : Comparison) {la : Tokens} (h : Only P la) :
    Only P (comparison.code la) := by
  cases comparison <;> unfold Comparison.code <;>
    apply_rules [only_op, only_charCode, Only.append]

theorem only_testCode (set : CharSet) {la : Tokens} (h : Only P la) : Only P (set.testCode la) := by
  have hall : ∀ comparisons : List Comparison,
      Only P ((op "||").intercalate (comparisons.map (·.code la))) := by
    refine fun comparisons => only_intercalate (only_op rfl) fun code hm => ?_
    obtain ⟨comparison, -, rfl⟩ := List.mem_map.1 hm
    exact only_comparison comparison h
  unfold CharSet.testCode
  cases set.test with
  | never => exact only_word _
  | always => exact only_word _
  | anyOf comparisons => exact hall comparisons
  | noneOf comparisons => exact (only_op rfl).append (only_parens (hall comparisons))

theorem only_pattern (set : CharSet) : Only P set.pattern := by
  refine only_intercalate (only_op rfl) fun code hm => ?_
  obtain ⟨range, -, rfl⟩ := List.mem_map.1 hm
  unfold CharSet.rangePattern
  split <;> apply_rules [only_op, only_intLiteral, Only.append]

theorem only_rangeList (set : CharSet) : Only P set.rangeList := by
  refine (only_op rfl).append (only_brackets (only_intercalate (only_op rfl) fun code hm => ?_))
  obtain ⟨range, -, rfl⟩ := List.mem_map.1 hm
  apply_rules [only_parens, only_op, only_charCode, Only.append]

theorem only_setRef (ref : SetRef) : Only P ref.code := by
  unfold SetRef.code
  split
  · exact only_path _
  · exact only_rangeList _

theorem only_member (index : Nat) (set : CharSet) : Only P (Tables.member index set) := by
  unfold Tables.member
  apply_rules [only_rangeList, only_words, only_op, only_lifetime, only_brackets, only_parens,
    only_word, Only.append]

theorem only_checkTest {test : CheckTest} (h : ∀ code ∈ test.authored, Only P code) :
    Only P test.code := by
  obtain ⟨ref, negate, body⟩ := test
  have hbody : Only P body.code := by
    cases body with
    | expression tokens => exact h tokens (List.mem_singleton_self _)
    | recognizer name =>
      clear h
      apply_rules [only_selfCall, only_op, only_word, only_parens, Only.nil, Only.append]
  unfold CheckTest.code checkCode
  split
  · exact (only_op rfl).append (only_parens hbody)
  · exact only_parens hbody

theorem only_returnFalse : Only P returnFalse :=
  (only_words _).append (only_op rfl)

theorem only_requireCode {test failure : Tokens} (htest : Only P test) (hfailure : Only P failure) :
    Only P (requireCode test failure) := by
  unfold requireCode
  apply_rules [only_word, only_op, only_braces, Only.append]

theorem only_storeCode (saver : Option Saver) {expression : Tokens} (h : Only P expression) :
    Only P (storeCode saver expression) := by
  cases saver with
  | none => exact h.append (only_op rfl)
  | some saver =>
    show Only P (saver.store expression)
    unfold Saver.store
    split <;> apply_rules [only_word, only_op, only_parens, Only.append]

theorem only_snippet {snippet : Snippet} (h : ∀ code ∈ snippet.authored, Only P code) :
    Only P snippet.render := by
  cases snippet with
  | code tokens => exact h tokens (List.mem_singleton_self _)
  | declareLookahead offset =>
    clear h
    apply_rules [only_words, only_word, only_op, Only.append]
  | readLookahead offset =>
    clear h
    apply_rules [only_word, only_op, only_selfCall, only_natLiteral, Only.append]
  | matchTerminal set saver =>
    exact only_storeCode saver ((only_selfCall _ (only_setRef set)).append (only_op rfl))
  | recognizeTerminal set =>
    exact only_requireCode (only_selfCall _ (only_setRef set)) only_returnFalse
  | skipTerminal saver => exact only_storeCode saver (only_selfCall _ .nil)
  | callRule method saver =>
    exact only_storeCode saver ((only_selfCall _ .nil).append (only_op rfl))
  | callRecognizer method => exact only_requireCode (only_selfCall _ .nil) only_returnFalse
  | require form test =>
    have htest := only_checkTest h
    cases form with
    | recognizer => exact only_requireCode htest only_returnFalse
    | parser =>
      clear h
      apply_rules [only_requireCode, only_words, only_parens, only_selfCall, only_literal, only_op,
        Only.append]
  | unexpected expected =>
    clear h
    apply_rules [only_words, only_parens, only_selfCall, only_setRef, only_op, Only.append]
  | mismatch => exact only_returnFalse

theorem only_allChecksCode {checks : List CheckTest}
    (h : ∀ test ∈ checks, ∀ code ∈ test.authored, Only P code) : Only P (allChecksCode checks) := by
  unfold allChecksCode
  split
  · exact only_word _
  · refine only_intercalate (only_op rfl) fun code hm => ?_
    obtain ⟨test, htest, rfl⟩ := List.mem_map.1 hm
    exact only_checkTest (h test htest)

theorem only_test {test : Test} (h : ∀ code ∈ test.authored, Only P code) : Only P test.render := by
  cases test with
  | code tokens => exact h tokens (List.mem_singleton_self _)
  | inSet offset set => exact only_testCode set (only_word _)
  | checks alternatives =>
    have hall : ∀ checks ∈ alternatives, Only P (allChecksCode checks) := by
      refine fun checks hchecks => only_allChecksCode fun test htest code hcode => ?_
      exact h code (List.mem_flatMap.2 ⟨test, List.mem_flatten.2 ⟨checks, hchecks, htest⟩, hcode⟩)
    match alternatives, hall with
    | [], _ => exact only_word _
    | [only], hall => exact hall only (List.mem_singleton_self _)
    | first :: second :: rest, hall =>
      refine only_intercalate (only_op rfl) fun code hm => ?_
      obtain ⟨checks, hchecks, rfl⟩ := List.mem_map.1 hm
      exact only_parens (hall checks hchecks)

theorem only_subject {subject : Subject} (h : ∀ code ∈ subject.authored, Only P code) :
    Only P subject.render := by
  cases subject with
  | code tokens => exact h tokens (List.mem_singleton_self _)
  | stored offset => exact only_word _
  | direct offset => exact only_selfCall _ (only_natLiteral _)

theorem only_labelCode (label : Option String) : Only P (Stmt.labelCode label) := by
  cases label with
  | none => exact .nil
  | some name => exact only_lifetime name

mutual

theorem only_render : ∀ stmt : Stmt, (∀ code ∈ stmt.authored, Only P code) → Only P stmt.render
  | .snippet _, h => only_snippet h
  | .ifElse test thenBody elseBody, h => by
    rw [Stmt.authored, List.forall_mem_append, List.forall_mem_append] at h
    have htest := only_test h.1
    have hthen := only_renderAll thenBody h.2.1
    have helse := only_renderElse elseBody h.2.2
    clear h
    rw [Stmt.render]
    apply_rules [only_word, only_braces, Only.append]
  | .loop label body, h => by
    have hbody := only_renderAll body h
    clear h
    cases label <;> rw [Stmt.render] <;>
      apply_rules [only_lifetime, only_op, only_word, only_braces, Only.append]
  | .labeled label body, h => by
    have hbody := only_renderAll body h
    clear h
    rw [Stmt.render]
    apply_rules [only_lifetime, only_op, only_braces, Only.append]
  | .breakTo label, _ => ((only_word _).append (only_labelCode label)).append (only_op rfl)
  | .continueTo label, _ => ((only_word _).append (only_labelCode label)).append (only_op rfl)
  | .switch subject cases fallback, h => by
    rw [Stmt.authored, List.forall_mem_append, List.forall_mem_append] at h
    have hsubject := only_subject h.1
    have hcases := only_renderCases cases h.2.1
    have hfallback := only_renderAll fallback h.2.2
    clear h
    rw [Stmt.render]
    apply_rules [only_word, only_op, only_braces, Only.append]

/-- **Rendered code has the references of the authored code in it.** -/
theorem only_renderAll : ∀ stmts : List Stmt, (∀ code ∈ Stmt.authoredOf stmts, Only P code) →
    Only P (Stmt.renderAll stmts)
  | [], _ => .nil
  | stmt :: rest, h => by
    rw [Stmt.authoredOf, List.forall_mem_append] at h
    exact (only_render stmt h.1).append (only_renderAll rest h.2)

theorem only_renderElse : ∀ stmts : List Stmt, (∀ code ∈ Stmt.authoredOf stmts, Only P code) →
    Only P (Stmt.renderElse stmts)
  | [], _ => .nil
  | [stmt], h => by
    rw [Stmt.authoredOf, List.forall_mem_append] at h
    have hstmt := only_render stmt h.1
    rw [Stmt.renderElse]
    split <;> apply_rules [only_word, only_braces, Only.append]
  | stmt :: next :: rest, h => by
    rw [Stmt.authoredOf, List.forall_mem_append, Stmt.authoredOf, List.forall_mem_append] at h
    have hstmt := only_render stmt h.1
    have hnext := only_render next h.2.1
    have hrest := only_renderAll rest h.2.2
    rw [Stmt.renderElse]
    apply_rules [only_word, only_braces, Only.append]

theorem only_renderCases : ∀ cases : List (CharSet × List Stmt),
    (∀ code ∈ Stmt.authoredOfCases cases, Only P code) → Only P (Stmt.renderCases cases)
  | [], _ => .nil
  | (set, body) :: rest, h => by
    rw [Stmt.authoredOfCases, List.forall_mem_append] at h
    have hbody := only_renderAll body h.1
    have hrest := only_renderCases rest h.2
    rw [Stmt.renderCases]
    apply_rules [only_pattern, only_op, only_braces, Only.append]

end

theorem only_methodCode {rule : Rule} {form : Form} {body code : Tokens} (hbody : Only P body)
    (htype : Only P rule.valueType) (hvalue : Only P rule.valueCode)
    (h : rule.methodCode form body = .ok code) : Only P code := by
  obtain ⟨name, -, h⟩ := bind_eq_ok.1 h
  cases pure_eq_ok.1 h
  have hattribute : Only P allowAttribute := by
    refine (only_op rfl).append (only_brackets ((only_word _).append (only_parens ?_)))
    refine only_intercalate (only_op rfl) fun code hm => ?_
    obtain ⟨name, -, rfl⟩ := List.mem_map.1 hm
    exact only_word name
  have hpublic : Only P (if rule.isPrivate then [] else word "pub") := by
    split
    · exact .nil
    · exact only_word _
  have hreturns : Only P (rule.returnType form) := by
    cases form with
    | parser => exact (((only_path _).append (only_op rfl)).append htype).append (only_op rfl)
    | recognizer => exact only_word _
  have hfinal : Only P (rule.finalCode form) := by
    cases form with
    | parser => exact (only_word _).append (only_parens hvalue)
    | recognizer => exact only_word _
  apply_rules [only_words, only_parens, only_op, only_braces, Only.append]

end

end PredictiveParser
