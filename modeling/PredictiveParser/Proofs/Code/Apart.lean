import PredictiveParser.Proofs.Code.Only

/-!
# Dollar signs that stand apart

Where no two dollar signs are neighbours, putting names in the place of references leaves the other
references as they are and makes no new ones (`find_replace`). Behind another dollar sign it can make one:
when `$a` becomes the name `a`, then `$$a` becomes a reference.

Code in which nothing is left to replace stays as it is (`replace_eq_self`), so that replacing references
once is as good as doing it twice (`ReplacedOnce.replace_replace`).
-/
namespace PredictiveParser

open Template

mutual

/-- No two dollar signs inside the token are neighbours. -/
def Token.dollarsApart : Token → Bool
  | .group _ body => Tokens.dollarsApart body
  | _ => true

/-- No two dollar signs of the code are neighbours, those in groups included. -/
def Tokens.dollarsApart : Tokens → Bool
  | [] => true
  | [token] => token.dollarsApart
  | token :: next :: rest =>
    !(token.isPunct '$' && next.isPunct '$') && token.dollarsApart && Tokens.dollarsApart (next :: rest)

end

/-- The code in the place of a reference, if any, is a name. -/
def Reference.PutsNames (f : Reference → Option Tokens) : Prop :=
  ∀ reference new, f reference = some new → ∃ name, new = word name

namespace References

variable {f : Reference → Option Tokens} {token next : Token} {code rest : Tokens} {r : Reference}

/-! ## What is found after replacing -/

theorem isPunct_replaceIn (token : Token) (c : Char) :
    (replaceIn f token).isPunct c = token.isPunct c := by
  cases token <;> simp [replaceIn, Token.isPunct]

theorem ofToken?_replaceIn (h : Reference.ofToken? token = none) :
    Reference.ofToken? (replaceIn f token) = none := by
  cases token with
  | group delimiter body => cases delimiter <;> simp_all [replaceIn, Reference.ofToken?]
  | _ => simpa [replaceIn] using h

/-- Without a reference at the front, what is found is in the first token or behind it. -/
theorem find_cons_of_at? (h : at? token next = none) :
    find (token :: next :: rest) = findIn token ++ find (next :: rest) := by
  rw [find, h]

theorem replace_cons_of_at? (h : at? token next = none) :
    replace f (token :: next :: rest) = replaceIn f token :: replace f (next :: rest) := by
  rw [replace, h]

theorem find_ident (name : String) (rest : Tokens) : find (.ident name :: rest) = find rest := by
  have hplain : (Token.ident name).isPunct '$' = false := rfl
  simp [find_plain hplain, findIn]

/-- A lone dollar sign makes no reference after replacing either. -/
theorem find_dollar_replace (hdollar : token.isPunct '$' = true) (hnext : next.isPunct '$' = false)
    (hat : at? token next = none) :
    find (replaceIn f token :: replace f (next :: rest)) =
      findIn (replaceIn f token) ++ find (replace f (next :: rest)) := by
  rw [replace_plain hnext, find_cons_of_at?]
  rw [at?, if_pos hdollar] at hat
  rw [at?, isPunct_replaceIn, if_pos hdollar, ofToken?_replaceIn hat]

mutual

theorem findIn_replaceIn (hf : Reference.PutsNames f) :
    ∀ token : Token, token.dollarsApart = true →
      findIn (replaceIn f token) = (findIn token).filter fun r => (f r).isNone
  | .group _ body, h => by
    rw [replaceIn, findIn, findIn]
    exact find_replace hf body (by rwa [Token.dollarsApart] at h)
  | .ident _, _ => by simp [replaceIn, findIn]
  | .punct .., _ => by simp [replaceIn, findIn]
  | .literal _, _ => by simp [replaceIn, findIn]

/-- **What stays after replacing references** are those that nothing was put in the place of. -/
theorem find_replace (hf : Reference.PutsNames f) :
    ∀ code : Tokens, code.dollarsApart = true →
      find (replace f code) = (find code).filter fun r => (f r).isNone
  | [], _ => by simp [replace, find]
  | [token], h => by
    rw [Tokens.dollarsApart] at h
    rw [replace, find, find]
    exact findIn_replaceIn hf token h
  | token :: next :: rest, h => by
    simp only [Tokens.dollarsApart, Bool.and_eq_true, Bool.not_eq_true'] at h
    obtain ⟨⟨hapart, htoken⟩, hbehind⟩ := h
    cases hat : at? token next with
    | none =>
      rw [replace_cons_of_at? hat, find_cons_of_at? hat, List.filter_append,
        ← findIn_replaceIn hf token htoken, ← find_replace hf (next :: rest) hbehind]
      cases hdollar : token.isPunct '$' with
      | true =>
        rw [hdollar, Bool.true_and] at hapart
        exact find_dollar_replace hdollar hapart hat
      | false => rw [find_plain (by rwa [isPunct_replaceIn])]
    | some r =>
      have hrest : Tokens.dollarsApart rest = true := by
        cases rest with
        | nil => rfl
        | cons _ _ => rw [Tokens.dollarsApart, Bool.and_eq_true] at hbehind; exact hbehind.2
      rw [replace_reference hat, find_reference hat, List.filter_cons, ← find_replace hf rest hrest]
      cases hr : f r with
      | none => simp [find_reference hat]
      | some new =>
        obtain ⟨name, rfl⟩ := hf r new hr
        simp [word, find_ident]

end

mutual

theorem replaceIn_eq_self : ∀ token : Token, (∀ r ∈ findIn token, f r = none) → replaceIn f token = token
  | .group _ body, h => by
    rw [findIn] at h
    rw [replaceIn, replace_eq_self body h]
  | .ident _, _ => by simp [replaceIn]
  | .punct .., _ => by simp [replaceIn]
  | .literal _, _ => by simp [replaceIn]

/-- Code stays as it is when nothing is put in the place of its references. -/
theorem replace_eq_self : ∀ code : Tokens, (∀ r ∈ find code, f r = none) → replace f code = code
  | [], _ => by rw [replace]
  | [token], h => by
    rw [find] at h
    rw [replace, replaceIn_eq_self token h]
  | token :: next :: rest, h => by
    cases hat : at? token next with
    | none =>
      rw [find_cons_of_at? hat, List.forall_mem_append] at h
      rw [replace_cons_of_at? hat, replaceIn_eq_self token h.1, replace_eq_self (next :: rest) h.2]
    | some r =>
      rw [find_reference hat, List.forall_mem_cons] at h
      rw [replace_reference hat, h.1, replace_eq_self rest h.2]
      rfl

end

/-! ## Replacing once -/

/-- What is left after replacing references is what nothing was put in the place of. -/
def ReplacedOnce (f : Reference → Option Tokens) (code : Tokens) : Prop :=
  find (replace f code) = (find code).filter fun r => (f r).isNone

theorem replacedOnce_of_dollarsApart (hf : Reference.PutsNames f) (h : code.dollarsApart = true) :
    ReplacedOnce f code :=
  find_replace hf code h

theorem replacedOnce_of_forall (h : ∀ r ∈ find code, f r = none) : ReplacedOnce f code := by
  rw [ReplacedOnce, replace_eq_self code h]
  exact (List.filter_eq_self.2 fun r hr => by rw [h r hr, Option.isNone_none]).symm

/-- A second time there is nothing to replace. -/
theorem ReplacedOnce.replace_replace (h : ReplacedOnce f code) :
    replace f (replace f code) = replace f code := by
  refine replace_eq_self _ fun r hr => ?_
  rw [h] at hr
  exact Option.isNone_iff_eq_none.1 (List.mem_filter.1 hr).2

theorem ReplacedOnce.replace (h : ReplacedOnce f code) : ReplacedOnce f (replace f code) := by
  rw [ReplacedOnce, h.replace_replace, h, List.filter_filter]
  simp only [Bool.and_self]

/-! ## Pieces of code -/

/-- Code whose dollar signs all begin references makes no other ones with what is behind it. -/
theorem Only.find_append {P : Reference → Prop} (h : Only P code) (rest : Tokens) :
    References.find (code ++ rest) = References.find code ++ References.find rest := by
  induction h with
  | nil => rw [References.find, List.nil_append, List.nil_append]
  | plain noDollar inside behind _ ih =>
    rw [List.cons_append, find_plain noDollar, find_plain noDollar, ih, List.append_assoc]
  | reference found holds behind ih =>
    rw [List.cons_append, List.cons_append, find_reference found, find_reference found, ih,
      List.cons_append]

theorem NoDollar.find_eq_nil (h : NoDollar code) : find code = [] :=
  List.eq_nil_iff_forall_not_mem.2 h.find

theorem NoDollar.find_append (h : NoDollar code) (rest : Tokens) : find (code ++ rest) = find rest := by
  rw [Only.find_append h, h.find_eq_nil, List.nil_append]

/-- No reference goes over an operator. -/
theorem find_append_punct {c : Char} {spacing : Spacing}
    (hc : (Token.punct c spacing).isPunct '$' = false) :
    ∀ code : Tokens, find (code ++ .punct c spacing :: rest) = find code ++ find rest
  | [] => by simp [find_plain hc, findIn, find]
  | [token] => by
    have hat : at? token (.punct c spacing) = none := by simp [at?, Reference.ofToken?]
    simp [find_cons_of_at? hat, find_plain hc, findIn, find]
  | token :: next :: behind => by
    cases hat : at? token next with
    | none =>
      have ih := find_append_punct hc (next :: behind)
      rw [List.cons_append] at ih
      rw [List.cons_append, List.cons_append, find_cons_of_at? hat, ih, find_cons_of_at? hat,
        List.append_assoc]
    | some r =>
      rw [List.cons_append, List.cons_append, find_reference hat, find_append_punct hc behind,
        find_reference hat, List.cons_append]

end References

end PredictiveParser
