import PredictiveParser.Proofs.Method.Rendering
import PredictiveParser.Proofs.Method.Scoped

/-!
# Names that generated code binds

Generated code binds names by `let mut`, at the top of a statement or in a group (`Tokens.bindings`). No
template leaves a declaration open, so the names that pieces of code bind can be added up (`Tokens.Binds`,
`Stmt.binds_renderAll`).

Of the templates for statements there is only one that binds a name, the declaration of a lookahead
variable. All other names are bound by authored code (`Stmt.perm_bindingsOf`).
-/
namespace PredictiveParser

open Template

/-! ## Code -/

/-- The name that `let mut` binds at the start of the code. -/
def Tokens.boundFirst : Tokens → List String
  | .ident first :: .ident second :: .ident name :: _ =>
    if first = "let" ∧ second = "mut" then [name] else []
  | _ => []

mutual

def Token.bindings : Token → List String
  | .group _ body => Tokens.bindings body
  | _ => []

/-- The names that code binds by `let mut`, those in groups included. -/
def Tokens.bindings : Tokens → List String
  | [] => []
  | token :: rest => Tokens.boundFirst (token :: rest) ++ (token.bindings ++ Tokens.bindings rest)

end

/-- The code binds just these names, whatever stands behind it. -/
def Tokens.Binds (code : Tokens) (names : List String) : Prop :=
  ∀ rest, Tokens.bindings (code ++ rest) = names ++ Tokens.bindings rest

/-- No declaration in the code goes on behind it. -/
def Tokens.Complete (code : Tokens) : Prop :=
  code.Binds (Tokens.bindings code)

namespace Tokens

variable {code code' separator : Tokens} {names names' : List String} {name : String}

theorem bindings_cons (token : Token) (rest : Tokens) :
    bindings (token :: rest) = boundFirst (token :: rest) ++ (token.bindings ++ bindings rest) := by
  rw [bindings]

theorem Binds.bindings (h : Binds code names) : Tokens.bindings code = names := by
  have hnil := h []
  rwa [List.append_nil, Tokens.bindings, List.append_nil] at hnil

theorem Binds.complete (h : Binds code names) : Complete code := by
  unfold Tokens.Complete
  rwa [h.bindings]

theorem Binds.nil : Binds [] [] := fun _ => rfl

theorem Binds.append (h : Binds code names) (h' : Binds code' names') :
    Binds (code ++ code') (names ++ names') := fun rest => by
  rw [List.append_assoc, h, h', List.append_assoc]

theorem Binds.template (h : Binds code []) (h' : Binds code' names) : Binds (code ++ code') names :=
  h.append h'

theorem Binds.closed (h : Binds code names) (h' : Binds code' []) : Binds (code ++ code') names :=
  List.append_nil names ▸ h.append h'

theorem binds_punct (c : Char) (spacing : Spacing) : Binds [.punct c spacing] [] := fun rest => by
  rw [List.singleton_append, bindings_cons]
  rfl

theorem binds_opChars (chars : List Char) : Binds (opChars chars) [] := by
  induction chars with
  | nil => exact .nil
  | cons c rest ih =>
    cases rest with
    | nil => exact binds_punct c .alone
    | cons next rest => exact (binds_punct c .joint).template ih

theorem binds_op (operator : String) : Binds (op operator) [] :=
  binds_opChars _

theorem binds_literal (spelling : String) : Binds (literal spelling) [] := fun rest => by
  rw [literal, List.singleton_append, bindings_cons]
  rfl

theorem binds_intLiteral (n : Int) : Binds (intLiteral n) [] := by
  unfold intLiteral
  split
  · exact (binds_op _).template (binds_literal _)
  · exact binds_literal _

theorem binds_group (delimiter : Delimiter) (code : Tokens) :
    Binds [.group delimiter code] (bindings code) := fun rest => by
  rw [List.singleton_append, bindings_cons, Token.bindings]
  rfl

theorem binds_parens (code : Tokens) : Binds (parens code) (bindings code) :=
  binds_group _ _

theorem binds_brackets (code : Tokens) : Binds (brackets code) (bindings code) :=
  binds_group _ _

theorem binds_braces (code : Tokens) : Binds (braces code) (bindings code) :=
  binds_group _ _

theorem boundFirst_of_ne (h : name ≠ "let") (rest : Tokens) : boundFirst (.ident name :: rest) = [] := by
  unfold boundFirst
  split
  · rename_i heq
    cases heq
    exact if_neg fun hboth => h hboth.1
  · rfl

theorem binds_word (h : name ≠ "let") : Binds (word name) [] := fun rest => by
  rw [word, List.singleton_append, bindings_cons, boundFirst_of_ne h]
  rfl

theorem binds_words {words : List String} (h : "let" ∉ words) : Binds (Template.words words) [] := by
  induction words with
  | nil => exact .nil
  | cons first rest ih =>
    obtain ⟨hfirst, hrest⟩ := not_or.1 (mt List.mem_cons.2 h)
    exact (binds_word (Ne.symm hfirst)).template (ih hrest)

/-- Any name may stand in front of an operator. -/
theorem binds_word_punct (name : String) (c : Char) (spacing : Spacing) :
    Binds [.ident name, .punct c spacing] [] := fun rest => by
  rw [List.cons_append, bindings_cons, binds_punct c spacing]
  rfl

theorem binds_intercalate {α : Type} {items : List α} {render : α → Tokens} {bound : α → List String}
    (hseparator : Binds separator []) (h : ∀ item ∈ items, Binds (render item) (bound item)) :
    Binds (separator.intercalate (items.map render)) (items.flatMap bound) := by
  induction items with
  | nil => exact .nil
  | cons item rest ih =>
    obtain ⟨hitem, hrest⟩ := List.forall_mem_cons.1 h
    cases rest with
    | nil =>
      rw [List.map_singleton, List.intercalate_singleton, List.flatMap_singleton]
      exact hitem
    | cons next rest =>
      rw [List.map_cons, List.map_cons, List.intercalate_cons_cons, List.flatMap_cons,
        List.append_assoc]
      exact hitem.append (hseparator.template (ih hrest))

theorem binds_intercalate_nil {α : Type} {items : List α} {render : α → Tokens}
    (hseparator : Binds separator []) (h : ∀ item ∈ items, Binds (render item) []) :
    Binds (separator.intercalate (items.map render)) [] := by
  have hall : Binds (separator.intercalate (items.map render)) (items.flatMap fun _ => []) :=
    binds_intercalate hseparator h
  rwa [List.flatMap_eq_nil_iff.2 fun _ _ => rfl] at hall

theorem binds_call (name : String) (arguments : Tokens) :
    Binds (word name ++ Template.parens arguments) (bindings arguments) := fun rest => by
  rw [List.append_assoc, word, List.singleton_append, bindings_cons, binds_parens]
  rfl

theorem binds_selfCall (method : String) (arguments : Tokens) :
    Binds (Template.selfCall method arguments) (bindings arguments) := by
  rw [Template.selfCall, List.append_assoc]
  exact (binds_word_punct "self" '.' .alone).template (binds_call method arguments)

theorem Binds.parens (h : Binds code names) : Binds (parens code) names :=
  h.bindings ▸ binds_parens code

theorem Binds.brackets (h : Binds code names) : Binds (brackets code) names :=
  h.bindings ▸ binds_brackets code

theorem Binds.braces (h : Binds code names) : Binds (braces code) names :=
  h.bindings ▸ binds_braces code

theorem Binds.selfCall (h : Binds code names) (method : String) : Binds (selfCall method code) names :=
  h.bindings ▸ binds_selfCall method code

theorem binds_path {names : List String} (h : "let" ∉ names) : Binds (path names) [] := by
  refine binds_intercalate_nil (binds_op _) fun name hname => binds_word ?_
  rintro rfl
  exact h hname

end Tokens

/-! ## Templates -/

section

open Tokens

/-- The name of the variable for the terminal `offset` places ahead. -/
def lookaheadName (offset : Nat) : String :=
  "la" ++ toString offset

theorem lookaheadName_ne_let (offset : Nat) : lookaheadName offset ≠ "let" := by
  intro h
  have hlist := congrArg String.toList h
  rw [lookaheadName, String.toList_append] at hlist
  exact absurd (List.cons.inj (List.cons.inj hlist).2).1 (by decide)

theorem binds_lookaheadVar (offset : Nat) : Binds (lookaheadVar offset) [] :=
  binds_word (lookaheadName_ne_let offset)

theorem binds_charCode (c : Int) : Binds (charCode c) [] := by
  unfold charCode
  split
  · exact (binds_literal _).template (binds_words (by decide))
  · exact binds_intLiteral c

theorem binds_testCode (set : CharSet) {la : Tokens} (h : Binds la []) : Binds (set.testCode la) [] := by
  have hcomparison : ∀ comparison : Comparison, Binds (comparison.code la) [] := by
    intro comparison
    cases comparison <;> unfold Comparison.code <;>
      apply_rules [binds_op, binds_charCode, Binds.template]
  have hall : ∀ comparisons : List Comparison,
      Binds ((op "||").intercalate (comparisons.map (·.code la))) [] :=
    fun _ => binds_intercalate_nil (binds_op _) fun comparison _ => hcomparison comparison
  unfold CharSet.testCode
  cases set.test with
  | never => exact binds_word (by decide)
  | always => exact binds_word (by decide)
  | anyOf comparisons => exact hall comparisons
  | noneOf comparisons => exact (binds_op _).template (hall comparisons).parens

theorem binds_setRef (ref : SetRef) : Binds ref.code [] := by
  unfold SetRef.code
  split
  · rename_i index _
    refine binds_path ?_
    have htable : "let" ≠ tableName index := by
      intro h
      have hlist := congrArg String.toList h
      rw [tableName, String.toList_append] at hlist
      exact absurd (List.cons.inj hlist).1 (by decide)
    simp [htable]
  · refine (binds_op _).template (Binds.brackets (binds_intercalate_nil (binds_op _) fun range _ => ?_))
    exact Binds.parens (((binds_charCode _).template (binds_op _)).template (binds_charCode _))

theorem binds_checkTest (test : CheckTest) : Binds test.code (test.authored.flatMap bindings) := by
  obtain ⟨ref, negate, body⟩ := test
  have hbody : bindings body.code = (CheckTest.authored ⟨ref, negate, body⟩).flatMap bindings := by
    cases body with
    | expression tokens => exact (List.flatMap_singleton _ _).symm
    | recognizer name =>
      have hvariable : Binds (op "|" ++ word "p" ++ op "|" ++ word "p" ++ op ".") [] := by
        have hname : Binds (word "p") [] := binds_word (by decide)
        apply_rules [binds_op, Binds.template]
      refine Binds.bindings (Binds.selfCall ?_ _)
      rw [List.append_assoc]
      exact hvariable.template (binds_call name [])
  unfold CheckTest.code checkCode
  rw [← hbody]
  split
  · exact (binds_op _).template (binds_parens _)
  · exact binds_parens _

theorem binds_returnFalse : Binds returnFalse [] :=
  (binds_words (by decide)).template (binds_op _)

theorem binds_requireCode {test failure : Tokens} {names : List String} (htest : Binds test names)
    (hfailure : Binds failure []) : Binds (requireCode test failure) names :=
  (((binds_word (by decide)).template (binds_op _)).template htest).closed hfailure.braces

theorem binds_storeCode (saver : Option Saver) {expression : Tokens} (h : Binds expression []) :
    Binds (storeCode saver expression) [] := by
  cases saver with
  | none => exact h.template (binds_op _)
  | some saver =>
    show Binds (saver.store expression) []
    unfold Saver.store
    split
    · exact ((((binds_word_punct _ _ _).template (binds_word (by decide))).template h.parens).template
        (binds_op _))
    · exact ((binds_word_punct _ _ _).template h).template (binds_op _)

/-! ## Statements -/

theorem binds_declareLookahead (offset : Nat) :
    Binds (Snippet.declareLookahead offset).render [lookaheadName offset] := by
  have hname : Binds (words ["let", "mut"] ++ lookaheadVar offset) [lookaheadName offset] := by
    intro rest
    have hmut : "mut" ≠ "let" := by decide
    show Tokens.bindings (.ident "let" :: .ident "mut" :: .ident (lookaheadName offset) :: rest) = _
    rw [bindings_cons, bindings_cons, boundFirst_of_ne hmut, bindings_cons,
      boundFirst_of_ne (lookaheadName_ne_let offset)]
    rfl
  exact ((hname.closed (binds_op _)).closed (binds_word (by decide))).closed (binds_op _)

/-- Of the templates only the declaration of a lookahead variable binds a name. -/
theorem Snippet.binds_render {snippet : Snippet} (h : ∀ tokens, snippet ≠ .code tokens) :
    Binds snippet.render
      (((Stmt.introduced (.snippet snippet)).filterMap Introduced.offset?).map lookaheadName ++
        snippet.authored.flatMap Tokens.bindings) := by
  have hcall : ∀ method, Binds (selfCall method []) [] := fun method => Binds.nil.selfCall method
  cases snippet with
  | code tokens => exact absurd rfl (h tokens)
  | declareLookahead offset => exact binds_declareLookahead offset
  | readLookahead offset =>
    exact (((binds_lookaheadVar offset).template (binds_op _)).template
      ((binds_literal _).selfCall _)).template (binds_op _)
  | matchTerminal set saver =>
    exact binds_storeCode saver (((binds_setRef set).selfCall _).template (binds_op _))
  | recognizeTerminal set => exact binds_requireCode ((binds_setRef set).selfCall _) binds_returnFalse
  | skipTerminal saver => exact binds_storeCode saver (hcall _)
  | callRule method saver => exact binds_storeCode saver ((hcall method).template (binds_op _))
  | callRecognizer method => exact binds_requireCode (hcall method) binds_returnFalse
  | require form test =>
    cases form with
    | recognizer => exact binds_requireCode (binds_checkTest test) binds_returnFalse
    | parser =>
      refine binds_requireCode (binds_checkTest test) ?_
      exact ((binds_words (by decide)).template ((binds_literal _).selfCall _).parens).template
        (binds_op _)
  | unexpected expected =>
    exact ((binds_words (by decide)).template ((binds_setRef expected).selfCall _).parens).template
      (binds_op _)
  | mismatch => exact binds_returnFalse

theorem Snippet.bindings_render (snippet : Snippet) : Tokens.bindings snippet.render =
    ((Stmt.introduced (.snippet snippet)).filterMap Introduced.offset?).map lookaheadName ++
      snippet.authored.flatMap Tokens.bindings := by
  by_cases h : ∃ tokens, snippet = .code tokens
  · obtain ⟨tokens, rfl⟩ := h
    exact (List.flatMap_singleton _ _).symm
  · exact (Snippet.binds_render fun tokens heq => h ⟨tokens, heq⟩).bindings

theorem Snippet.complete_render {snippet : Snippet} (h : ∀ code ∈ snippet.authored, Tokens.Complete code) :
    Tokens.Complete snippet.render := by
  by_cases hcode : ∃ tokens, snippet = .code tokens
  · obtain ⟨tokens, rfl⟩ := hcode
    exact h tokens List.mem_cons_self
  · exact (Snippet.binds_render fun tokens heq => hcode ⟨tokens, heq⟩).complete

theorem Test.binds_render {test : Test} (h : ∀ tokens, test ≠ .code tokens) :
    Binds test.render (test.authored.flatMap Tokens.bindings) := by
  have hall : ∀ checks : List CheckTest, Binds (allChecksCode checks)
      ((checks.flatMap CheckTest.authored).flatMap Tokens.bindings) := by
    intro checks
    rw [List.flatMap_assoc]
    unfold allChecksCode
    split
    · rename_i hempty
      rw [List.isEmpty_iff.1 hempty]
      exact binds_word (by decide)
    · exact binds_intercalate (binds_op _) fun test _ => binds_checkTest test
  match test with
  | .code tokens => exact absurd rfl (h tokens)
  | .inSet offset set => exact binds_testCode set (binds_lookaheadVar offset)
  | .checks [] => exact (binds_word (by decide) : Binds (word "true") [])
  | .checks [only] =>
    rw [Test.authored, List.flatten_singleton]
    exact hall only
  | .checks (first :: second :: rest) =>
    have hany := binds_intercalate (binds_op "||")
      fun checks (_ : checks ∈ first :: second :: rest) => (hall checks).parens
    rw [Test.authored, List.flatMap_assoc, List.flatten_eq_flatMap, List.flatMap_assoc]
    simp only [List.flatMap_assoc] at hany
    exact hany

theorem Test.bindings_render (test : Test) :
    Tokens.bindings test.render = test.authored.flatMap Tokens.bindings := by
  by_cases h : ∃ tokens, test = .code tokens
  · obtain ⟨tokens, rfl⟩ := h
    exact (List.flatMap_singleton _ _).symm
  · exact (Test.binds_render fun tokens heq => h ⟨tokens, heq⟩).bindings

theorem Test.complete_render {test : Test} (h : ∀ code ∈ test.authored, Tokens.Complete code) :
    Tokens.Complete test.render := by
  by_cases hcode : ∃ tokens, test = .code tokens
  · obtain ⟨tokens, rfl⟩ := hcode
    exact h tokens List.mem_cons_self
  · exact (Test.binds_render fun tokens heq => hcode ⟨tokens, heq⟩).complete

theorem Subject.binds_render {subject : Subject} (h : ∀ tokens, subject ≠ .code tokens) :
    Binds subject.render (subject.authored.flatMap Tokens.bindings) := by
  cases subject with
  | code tokens => exact absurd rfl (h tokens)
  | stored offset => exact binds_lookaheadVar offset
  | direct offset => exact (binds_literal _).selfCall _

theorem Subject.bindings_render (subject : Subject) :
    Tokens.bindings subject.render = subject.authored.flatMap Tokens.bindings := by
  by_cases h : ∃ tokens, subject = .code tokens
  · obtain ⟨tokens, rfl⟩ := h
    exact (List.flatMap_singleton _ _).symm
  · exact (Subject.binds_render fun tokens heq => h ⟨tokens, heq⟩).bindings

theorem Subject.complete_render {subject : Subject} (h : ∀ code ∈ subject.authored, Tokens.Complete code) :
    Tokens.Complete subject.render := by
  by_cases hcode : ∃ tokens, subject = .code tokens
  · obtain ⟨tokens, rfl⟩ := hcode
    exact h tokens List.mem_cons_self
  · exact (Subject.binds_render fun tokens heq => hcode ⟨tokens, heq⟩).complete

end

namespace Stmt

mutual

/-- The names that the code of a statement binds, piece by piece. -/
def bindings : Stmt → List String
  | .snippet s => Tokens.bindings s.render
  | .ifElse test thenBody elseBody =>
    Tokens.bindings test.render ++ (bindingsOf thenBody ++ bindingsOf elseBody)
  | .loop _ body => bindingsOf body
  | .labeled _ body => bindingsOf body
  | .breakTo _ => []
  | .continueTo _ => []
  | .switch subject cases fallback =>
    Tokens.bindings subject.render ++ (bindingsOfCases cases ++ bindingsOf fallback)

def bindingsOf : List Stmt → List String
  | [] => []
  | stmt :: rest => stmt.bindings ++ bindingsOf rest

def bindingsOfCases : List (CharSet × List Stmt) → List String
  | [] => []
  | (_, body) :: rest => bindingsOf body ++ bindingsOfCases rest

end

/-- The names of these lookahead variables, and those that authored code binds. -/
def bound (introduced : List Introduced) (authored : List Tokens) : List String :=
  (introduced.filterMap Introduced.offset?).map lookaheadName ++ authored.flatMap Tokens.bindings

theorem count_bound_append (name : String) (introduced introduced' : List Introduced)
    (authored authored' : List Tokens) :
    (bound (introduced ++ introduced') (authored ++ authored')).count name =
      (bound introduced authored).count name + (bound introduced' authored').count name := by
  simp only [bound, List.filterMap_append, List.map_append, List.flatMap_append, List.count_append]
  omega

theorem count_bound_authored (name : String) (introduced : List Introduced)
    (authored authored' : List Tokens) : (bound introduced (authored ++ authored')).count name =
      (authored.flatMap Tokens.bindings).count name + (bound introduced authored').count name := by
  simp only [bound, List.flatMap_append, List.count_append]
  omega

mutual

theorem count_bindings (name : String) : ∀ stmt : Stmt,
    stmt.bindings.count name = (bound stmt.introduced stmt.authored).count name
  | .snippet s => by
    rw [bindings, s.bindings_render]
    rfl
  | .ifElse test thenBody elseBody => by
    rw [bindings, introduced, authored, count_bound_authored, count_bound_append, List.count_append,
      List.count_append, test.bindings_render, count_bindingsOf, count_bindingsOf]
  | .loop label body => by
    rw [bindings, count_bindingsOf]
    cases label <;> rfl
  | .labeled label body => by
    rw [bindings, count_bindingsOf]
    rfl
  | .breakTo _ => rfl
  | .continueTo _ => rfl
  | .switch subject cases fallback => by
    rw [bindings, introduced, authored, count_bound_authored, count_bound_append, List.count_append,
      List.count_append, subject.bindings_render, count_bindingsOfCases, count_bindingsOf]

theorem count_bindingsOf (name : String) : ∀ stmts : List Stmt,
    (bindingsOf stmts).count name = (bound (introducedOf stmts) (authoredOf stmts)).count name
  | [] => rfl
  | stmt :: rest => by
    rw [bindingsOf, introducedOf, authoredOf, List.count_append, count_bound_append, count_bindings,
      count_bindingsOf]

theorem count_bindingsOfCases (name : String) : ∀ cases : List (CharSet × List Stmt),
    (bindingsOfCases cases).count name =
      (bound (introducedOfCases cases) (authoredOfCases cases)).count name
  | [] => rfl
  | (_, body) :: rest => by
    rw [bindingsOfCases, introducedOfCases, authoredOfCases, List.count_append, count_bound_append,
      count_bindingsOf, count_bindingsOfCases]

end

/-! ### Rendered statements -/

section

open Tokens

theorem binds_lifetime (label : String) (c : Char) :
    Binds (lifetime label ++ [.punct c .alone]) [] :=
  (binds_punct _ _).template (binds_word_punct label c .alone)

theorem binds_jump {keyword : String} (h : keyword ≠ "let") (label : Option String) :
    Binds (word keyword ++ labelCode label ++ op ";") [] := by
  rw [List.append_assoc]
  refine (binds_word h).template ?_
  cases label with
  | none => exact binds_op _
  | some label => exact binds_lifetime label ';'

theorem binds_pattern (set : CharSet) : Binds set.pattern [] := by
  refine binds_intercalate_nil (binds_op _) fun range _ => ?_
  unfold CharSet.rangePattern
  split
  · exact binds_intLiteral _
  · exact ((binds_intLiteral _).template (binds_op _)).template (binds_intLiteral _)

mutual

theorem binds_render : ∀ stmt : Stmt, (∀ code ∈ stmt.authored, Tokens.Complete code) →
    Binds stmt.render stmt.bindings
  | .snippet s, h => s.complete_render h
  | .ifElse test thenBody elseBody, h => by
    rw [authored, List.forall_mem_append, List.forall_mem_append] at h
    have hthen := (binds_renderAll thenBody h.2.1).braces
    rw [render, List.append_assoc, List.append_assoc]
    refine (binds_word (by decide)).template ((Test.complete_render h.1).append ?_)
    exact hthen.append (binds_renderElse elseBody h.2.2)
  | .loop none body, h => by
    rw [render]
    exact (binds_word (by decide)).template (binds_renderAll body h).braces
  | .loop (some label) body, h => by
    rw [render]
    exact ((binds_lifetime label ':').template (binds_word (by decide))).template
      (binds_renderAll body h).braces
  | .labeled label body, h => by
    rw [render]
    exact (binds_lifetime label ':').template (binds_renderAll body h).braces
  | .breakTo label, _ => by
    rw [render]
    exact binds_jump (by decide) label
  | .continueTo label, _ => by
    rw [render]
    exact binds_jump (by decide) label
  | .switch subject cases fallback, h => by
    rw [authored, List.forall_mem_append, List.forall_mem_append] at h
    rw [render, List.append_assoc]
    refine (binds_word (by decide)).template ((Subject.complete_render h.1).append (Binds.braces ?_))
    refine (binds_renderCases cases h.2.1).append ?_
    exact ((binds_word (by decide)).template (binds_op _)).template (binds_renderAll fallback h.2.2).braces

theorem binds_renderAll : ∀ stmts : List Stmt, (∀ code ∈ authoredOf stmts, Tokens.Complete code) →
    Binds (renderAll stmts) (bindingsOf stmts)
  | [], _ => by
    rw [renderAll]
    exact .nil
  | stmt :: rest, h => by
    rw [authoredOf, List.forall_mem_append] at h
    rw [renderAll]
    exact (binds_render stmt h.1).append (binds_renderAll rest h.2)

theorem binds_renderElse : ∀ stmts : List Stmt, (∀ code ∈ authoredOf stmts, Tokens.Complete code) →
    Binds (renderElse stmts) (bindingsOf stmts)
  | [], _ => by
    rw [renderElse]
    exact .nil
  | [stmt], h => by
    rw [authoredOf, List.forall_mem_append] at h
    have hstmt := binds_render stmt h.1
    rw [renderElse, bindingsOf, bindingsOf, List.append_nil]
    refine (binds_word (by decide)).template ?_
    split
    · exact hstmt
    · exact hstmt.braces
  | stmt :: next :: rest, h => by
    rw [authoredOf, authoredOf, List.forall_mem_append, List.forall_mem_append] at h
    rw [renderElse]
    refine (binds_word (by decide)).template (Binds.braces ((binds_render stmt h.1).append ?_))
    exact (binds_render next h.2.1).append (binds_renderAll rest h.2.2)

theorem binds_renderCases : ∀ cases : List (CharSet × List Stmt),
    (∀ code ∈ authoredOfCases cases, Tokens.Complete code) →
      Binds (renderCases cases) (bindingsOfCases cases)
  | [], _ => by
    rw [renderCases]
    exact .nil
  | (set, body) :: rest, h => by
    rw [authoredOfCases, List.forall_mem_append] at h
    rw [renderCases]
    refine Binds.append ?_ (binds_renderCases rest h.2)
    exact ((binds_pattern set).template (binds_op _)).template (binds_renderAll body h.1).braces

end

end

/-- **What statements bind** are the lookahead variables that they declare, and the names that the authored
code in them binds. -/
theorem perm_bindingsOf (stmts : List Stmt) :
    (bindingsOf stmts).Perm (bound (introducedOf stmts) (authoredOf stmts)) :=
  List.perm_iff_count.2 fun name => count_bindingsOf name stmts

end Stmt

end PredictiveParser
