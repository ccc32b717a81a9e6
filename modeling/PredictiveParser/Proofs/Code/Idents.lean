import Mathlib.Tactic.Common
import PredictiveParser.Code.Template
import PredictiveParser.Proofs.Text.Names

/-!
# Names in code

`Tokens.idents` lists the names and keywords of a piece of code, those inside groups included. The names of
code that is put together are those of its parts, so for each template it is one equation what names it
adds to the names of what it encloses.
-/
namespace PredictiveParser

open Template

mutual

def Token.idents : Token → List String
  | .ident name => [name]
  | .punct .. => []
  | .literal _ => []
  | .group _ body => Tokens.idents body

/-- The names in a piece of code, in the order in which they are printed. -/
def Tokens.idents : Tokens → List String
  | [] => []
  | token :: rest => token.idents ++ Tokens.idents rest

end

namespace Tokens

variable {name : String} {names : List String} {code code' separator : Tokens} {codes : List Tokens}

@[simp] theorem idents_nil : idents [] = [] := by
  rw [idents]

theorem idents_cons (token : Token) (rest : Tokens) :
    idents (token :: rest) = token.idents ++ idents rest := by
  rw [idents]

@[simp] theorem idents_append : idents (code ++ code') = idents code ++ idents code' := by
  induction code with
  | nil => rw [idents_nil, List.nil_append, List.nil_append]
  | cons token rest ih => rw [List.cons_append, idents_cons, idents_cons, ih, List.append_assoc]

theorem idents_intercalate (h : idents separator = []) :
    idents (separator.intercalate codes) = codes.flatMap idents := by
  induction codes with
  | nil => exact idents_nil
  | cons code rest ih =>
    cases rest with
    | nil => rw [List.intercalate_singleton, List.flatMap_singleton]
    | cons next rest =>
      rw [List.intercalate_cons_cons, idents_append, idents_append, ih, h, List.append_nil,
        List.flatMap_cons, List.flatMap_cons, List.flatMap_cons]

/-! ## Templates -/

@[simp] theorem idents_word : idents (word name) = [name] := by
  rw [word, idents_cons, idents_nil, List.append_nil, Token.idents]

@[simp] theorem idents_words : idents (words names) = names := by
  induction names with
  | nil => exact idents_nil
  | cons name rest ih =>
    have hwords : words (name :: rest) = word name ++ words rest := rfl
    rw [hwords, idents_append, idents_word, ih, List.singleton_append]

@[simp] theorem idents_opChars (chars : List Char) : idents (opChars chars) = [] := by
  induction chars with
  | nil => exact idents_nil
  | cons c rest ih =>
    cases rest with
    | nil => rw [opChars, idents_cons, idents_nil, Token.idents, List.append_nil]
    | cons next rest =>
      have hchars : opChars (c :: next :: rest) = .punct c .joint :: opChars (next :: rest) := rfl
      rw [hchars, idents_cons, ih, Token.idents, List.append_nil]

@[simp] theorem idents_op (operator : String) : idents (op operator) = [] :=
  idents_opChars _

@[simp] theorem idents_literal (spelling : String) : idents (literal spelling) = [] := by
  rw [literal, idents_cons, idents_nil, Token.idents, List.append_nil]

@[simp] theorem idents_intLiteral (n : Int) : idents (intLiteral n) = [] := by
  unfold intLiteral natLiteral
  split <;> simp

@[simp] theorem idents_lifetime : idents (lifetime name) = [name] := by
  rw [lifetime, idents_cons, idents_cons, idents_nil, Token.idents, Token.idents]
  rfl

@[simp] theorem idents_group (delimiter : Delimiter) :
    idents [.group delimiter code] = idents code := by
  rw [idents_cons, idents_nil, Token.idents, List.append_nil]

@[simp] theorem idents_parens : idents (parens code) = idents code :=
  idents_group _

@[simp] theorem idents_brackets : idents (brackets code) = idents code :=
  idents_group _

@[simp] theorem idents_braces : idents (braces code) = idents code :=
  idents_group _

@[simp] theorem idents_path : idents (path names) = names := by
  rw [path, idents_intercalate (idents_op _), List.flatMap_map]
  simp

@[simp] theorem idents_absolutePath : idents (absolutePath names) = names := by
  rw [absolutePath, idents_append, idents_op, idents_path, List.nil_append]

@[simp] theorem idents_selfCall (method : String) :
    idents (selfCall method code) = "self" :: method :: idents code := by
  simp [selfCall]

end Tokens

/-! ## Raw names -/

namespace Text

variable {name : String}

/-- A name that may be a keyword, because of the mark in front of it. -/
def IsRawName (name : String) : Prop :=
  ∃ plain, isIdentifier plain = true ∧ name = "r#" ++ plain

/-- What a name in code is like. -/
def IsName (name : String) : Prop :=
  isIdentifier name = true ∨ IsRawName name

/-- The mark of a raw name cannot stand inside a name. -/
theorem not_isIdentifier_append (h : IsRawName name) (front : String) :
    ¬ isIdentifier (front ++ name) = true := by
  obtain ⟨plain, -, rfl⟩ := h
  intro hname
  have hall := List.all_eq_true.1 (all_isIdentContinue hname) '#' (by simp)
  exact absurd hall (by decide)

theorem IsName.isIdentifier_append (h : IsName name) {front : String}
    (hfront : isIdentifier front = true) :
    isIdentifier (front ++ name) = true ↔ ¬ IsRawName name := by
  refine ⟨fun hname hraw => not_isIdentifier_append hraw front hname, fun hraw => ?_⟩
  exact isIdentifier_append_of hfront (h.resolve_right hraw)

end Text

/-- All names in the code are names. -/
def Tokens.Named (code : Tokens) : Prop :=
  ∀ name ∈ Tokens.idents code, Text.IsName name

end PredictiveParser
