import Mathlib.Tactic.Common
import PredictiveParser.Code.Reference
import PredictiveParser.Code.Template

/-!
# Code with known references

`References.Only P` says of a piece of code that each of its dollar signs begins a reference and that
all of these satisfy `P`. Other than what `References.find` lists, this does not depend on what the
code stands next to: it is kept when pieces are put behind each other (`Only.append`) or into groups. A
single dollar sign at the end of a piece would make a reference with whatever follows.

`Only.replace` is the spec of `References.replace`, and the templates hold no references at all.
-/
namespace PredictiveParser

open Template

namespace References

variable {P Q : Reference → Prop} {f : Reference → Option Tokens} {token next : Token}
  {code code' rest : Tokens} {r : Reference}

/-- Each dollar sign of the code begins a reference for which `P` holds. -/
inductive Only (P : Reference → Prop) : Tokens → Prop where
  | nil : Only P []
  | plain {token : Token} {rest : Tokens} (noDollar : token.isPunct '$' = false)
      (inside : ∀ delimiter body, token = .group delimiter body → Only P body)
      (behind : Only P rest) : Only P (token :: rest)
  | reference {token next : Token} {rest : Tokens} {r : Reference} (found : at? token next = some r)
      (holds : P r) (behind : Only P rest) : Only P (token :: next :: rest)

/-- The code has no dollar sign. -/
abbrev NoDollar (code : Tokens) : Prop :=
  Only (fun _ => False) code

theorem Only.append (h : Only P code) (h' : Only P code') : Only P (code ++ code') := by
  induction h with
  | nil => exact h'
  | plain noDollar inside behind _ ih => exact .plain noDollar inside ih
  | reference found holds behind ih => exact .reference found holds ih

/-! ## Searching and replacing -/

theorem at?_eq_none (h : token.isPunct '$' = false) : at? token next = none := by
  rw [at?, h]
  rfl

theorem find_plain (h : token.isPunct '$' = false) :
    find (token :: rest) = findIn token ++ find rest := by
  cases rest with
  | nil => rw [find, find, List.append_nil]
  | cons next rest => rw [find, at?_eq_none h]

theorem replace_plain (h : token.isPunct '$' = false) :
    replace f (token :: rest) = replaceIn f token :: replace f rest := by
  cases rest with
  | nil => rw [replace, replace]
  | cons next rest => rw [replace, at?_eq_none h]

theorem find_reference (h : at? token next = some r) :
    find (token :: next :: rest) = r :: find rest := by
  rw [find, h]

theorem replace_reference (h : at? token next = some r) :
    replace f (token :: next :: rest) = (f r).getD [token, next] ++ replace f rest := by
  rw [replace, h]

theorem Only.find (h : Only P code) : ∀ r ∈ find code, P r := by
  induction h with
  | nil => exact nofun
  | @plain token rest noDollar inside behind ihInside ihBehind =>
    rw [find_plain noDollar]
    intro r hr
    rcases List.mem_append.1 hr with hr | hr
    · cases token with
      | group delimiter body => exact ihInside delimiter body rfl r hr
      | _ => cases hr
    · exact ihBehind r hr
  | reference found holds behind ih =>
    rw [find_reference found]
    intro r hr
    rcases List.mem_cons.1 hr with rfl | hr
    · exact holds
    · exact ih r hr

/-- What is known of the references that are found is known of all. -/
theorem Only.imp (h : Only P code) (himp : ∀ r ∈ References.find code, P r → Q r) : Only Q code := by
  induction h with
  | nil => exact .nil
  | @plain token rest noDollar inside behind ihInside ihBehind =>
    rw [find_plain noDollar] at himp
    refine .plain noDollar ?_ (ihBehind fun r hr => himp r (List.mem_append_right _ hr))
    rintro delimiter body rfl
    exact ihInside delimiter body rfl fun r hr => himp r (List.mem_append_left _ hr)
  | reference found holds behind ih =>
    rw [find_reference found] at himp
    exact .reference found (himp _ List.mem_cons_self holds)
      (ih fun r hr => himp r (List.mem_cons_of_mem _ hr))

theorem NoDollar.only (h : NoDollar code) : Only P code :=
  h.imp fun _ _ => False.elim

/-- **Replacing references.** What comes of a reference is what it is replaced by, or itself. -/
theorem Only.replace (h : Only P code)
    (hreplaced : ∀ r new, P r → f r = some new → Only Q new) (hkept : ∀ r, P r → f r = none → Q r) :
    Only Q (replace f code) := by
  induction h with
  | nil => exact .nil
  | @plain token rest noDollar inside behind ihInside ihBehind =>
    rw [replace_plain noDollar]
    cases token with
    | group delimiter body =>
      refine .plain rfl (fun delimiter' body' heq => ?_) ihBehind
      cases heq
      exact ihInside delimiter body rfl
    | _ => exact .plain noDollar nofun ihBehind
  | @reference token next rest r found holds behind ih =>
    rw [replace_reference found]
    cases hf : f r with
    | none => exact .reference found (hkept r holds hf) ih
    | some new => exact (hreplaced r new holds hf).append ih

/-! ## Templates -/

theorem Only.flatten {codes : List Tokens} (h : ∀ code ∈ codes, Only P code) :
    Only P codes.flatten := by
  induction codes with
  | nil => exact .nil
  | cons code rest ih =>
    exact (h code List.mem_cons_self).append (ih fun code hm => h code (List.mem_cons_of_mem _ hm))

theorem only_of_isPlain (h : ∀ token ∈ code, token.isPunct '$' = false ∧
    ∀ delimiter body, token ≠ .group delimiter body) : Only P code := by
  induction code with
  | nil => exact .nil
  | cons token rest ih =>
    obtain ⟨hdollar, hgroup⟩ := h token List.mem_cons_self
    refine .plain hdollar (fun delimiter body heq => (hgroup delimiter body heq).elim) ?_
    exact ih fun token hm => h token (List.mem_cons_of_mem _ hm)

theorem only_word (name : String) : Only P (word name) :=
  .plain rfl nofun .nil

theorem only_words (names : List String) : Only P (words names) := by
  refine only_of_isPlain fun token hm => ?_
  obtain ⟨name, -, rfl⟩ := List.mem_map.1 hm
  exact ⟨rfl, nofun⟩

theorem only_opChars {chars : List Char} (h : '$' ∉ chars) : Only P (opChars chars) := by
  have hplain : ∀ (c : Char) (spacing : Spacing), '$' ≠ c →
      (Token.punct c spacing).isPunct '$' = false := fun c spacing hc => by
    rw [Token.isPunct, beq_eq_false_iff_ne]
    exact hc.symm
  induction chars with
  | nil => exact .nil
  | cons c rest ih =>
    rw [List.mem_cons, not_or] at h
    cases rest with
    | nil => exact .plain (hplain c _ h.1) nofun .nil
    | cons next rest => exact .plain (hplain c _ h.1) nofun (ih h.2)

theorem only_op {operator : String} (h : operator.toList.contains '$' = false) :
    Only P (op operator) := by
  refine only_opChars fun hm => ?_
  rw [List.contains_iff_mem.2 hm] at h
  cases h

theorem only_literal (spelling : String) : Only P (literal spelling) :=
  .plain rfl nofun .nil

theorem only_natLiteral (n : Nat) : Only P (natLiteral n) :=
  only_literal _

theorem only_lifetime (name : String) : Only P (lifetime name) :=
  .plain rfl nofun (.plain rfl nofun .nil)

theorem only_group {delimiter : Delimiter} (h : Only P code) : Only P [.group delimiter code] :=
  .plain rfl (fun _ _ heq => by cases heq; exact h) .nil

theorem only_parens (h : Only P code) : Only P (parens code) :=
  only_group h

theorem only_brackets (h : Only P code) : Only P (brackets code) :=
  only_group h

theorem only_braces (h : Only P code) : Only P (braces code) :=
  only_group h

theorem only_intLiteral (n : Int) : Only P (intLiteral n) := by
  unfold intLiteral
  split
  · exact (only_op rfl).append (only_natLiteral _)
  · exact only_natLiteral _

theorem only_intercalate {separator : Tokens} {codes : List Tokens} (hseparator : Only P separator)
    (h : ∀ code ∈ codes, Only P code) : Only P (separator.intercalate codes) := by
  induction codes with
  | nil => exact .nil
  | cons code rest ih =>
    have hcode := h code List.mem_cons_self
    have hrest := ih fun code hm => h code (List.mem_cons_of_mem _ hm)
    cases rest with
    | nil =>
      rw [List.intercalate_singleton]
      exact hcode
    | cons next rest =>
      rw [List.intercalate_cons_cons]
      exact (hcode.append hseparator).append hrest

theorem only_path (names : List String) : Only P (path names) := by
  refine only_intercalate (only_op rfl) fun code hm => ?_
  obtain ⟨name, -, rfl⟩ := List.mem_map.1 hm
  exact only_word name

theorem only_absolutePath (names : List String) : Only P (absolutePath names) :=
  (only_op rfl).append (only_path names)

theorem only_selfCall (method : String) (h : Only P code) : Only P (selfCall method code) := by
  unfold selfCall
  apply_rules [Only.append, only_word, only_op, only_parens]

end References

end PredictiveParser
