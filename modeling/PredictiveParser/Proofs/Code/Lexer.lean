import PredictiveParser.Code.Lexer
import PredictiveParser.Proofs.Code.Idents

/-!
# Names in code that was read

Code that was read from a text holds names where it has names: a name is read as a start character with
all that may continue it, or as such a name behind the mark of raw names. The names in a text are
found one after the other, and closing a group puts those inside it among those before it.
-/
namespace PredictiveParser

open Text

namespace Tokens

variable {code code' : Tokens} {token : Token}

theorem named_cons : Named (token :: code) ↔ (∀ name ∈ token.idents, IsName name) ∧ Named code := by
  rw [Named, idents_cons, List.forall_mem_append]
  rfl

theorem named_append : Named (code ++ code') ↔ Named code ∧ Named code' := by
  rw [Named, idents_append, List.forall_mem_append]
  rfl

theorem named_nil : Named [] :=
  fun _ h => absurd h (by rw [idents_nil]; exact List.not_mem_nil)

theorem Named.reverse (h : Named code) : Named code.reverse := by
  induction code with
  | nil => exact h
  | cons token rest ih =>
    rw [named_cons] at h
    rw [List.reverse_cons, named_append, named_cons]
    exact ⟨ih h.2, h.1, named_nil⟩

end Tokens

open Tokens

namespace Lexer

variable {cs rest : List Char} {token : Token} {reading reading' : Reading} {code : Tokens}

theorem before_append (front rest : List Char) : before (front ++ rest) rest = front := by
  rw [before, List.length_append, Nat.add_sub_cancel, List.take_left]

theorem plainName?_eq_some (h : plainName? cs = some rest) :
    ∃ name, cs = name ++ rest ∧ isIdentifierChars name = true := by
  unfold plainName? at h
  split at h
  · rename_i c tail
    split at h
    · rename_i hstart
      cases h
      refine ⟨c :: tail.takeWhile isIdentContinue, ?_, ?_⟩
      · rw [List.cons_append, List.takeWhile_append_dropWhile]
      · rw [isIdentifierChars, hstart, List.all_takeWhile]
        rfl
    · cases h
  · cases h

theorem anyName?_eq_some (h : anyName? cs = some rest) :
    ∃ name, cs = name ++ rest ∧ IsName (String.ofList name) := by
  unfold anyName? at h
  split at h
  · rename_i hraw
    obtain ⟨rest', hrest', h⟩ := Option.bind_eq_some_iff.1 h
    dsimp only at h
    split at h
    · cases h
    · cases h
      obtain ⟨tail, rfl⟩ := List.isPrefixOf_iff_prefix.1 hraw
      obtain ⟨name, htail, hname⟩ := plainName?_eq_some hrest'
      have htail : tail = name ++ rest := htail
      refine ⟨"r#".toList ++ name, by rw [htail, List.append_assoc], Or.inr ⟨String.ofList name, ?_, ?_⟩⟩
      · rw [isIdentifier, String.toList_ofList]
        exact hname
      · rw [String.ofList_append, String.ofList_toList]
  · obtain ⟨name, hcs, hname⟩ := plainName?_eq_some h
    refine ⟨name, hcs, Or.inl ?_⟩
    rw [isIdentifier, String.toList_ofList]
    exact hname

/-- **A name that is read** is a name. -/
theorem isName_of_name? (h : name? cs = some rest) : IsName (String.ofList (before cs rest)) := by
  unfold name? at h
  split at h
  · cases h
  · obtain ⟨name, rfl, hname⟩ := anyName?_eq_some h
    rwa [before_append]

theorem idents_operator? (h : operator? cs = some (token, rest)) : token.idents = [] := by
  unfold operator? at h
  split at h
  · cases h
  · split at h
    · cases h
    · obtain ⟨after, -, h⟩ := Option.bind_eq_some_iff.1 h
      split at h
      · cases h
      · cases h
        rw [Token.idents]
    · cases h
      rw [Token.idents]

theorem isName_of_leaf? (h : leaf? cs = some (token, rest)) : ∀ name ∈ token.idents, IsName name := by
  have hliteral : ∀ spelling, ∀ name ∈ (Token.literal spelling).idents, IsName name := by
    intro spelling name hname
    rw [Token.idents] at hname
    cases hname
  unfold leaf? at h
  rcases Option.or_eq_some_iff.1 h with h | ⟨-, h⟩
  · obtain ⟨_, -, h⟩ := Option.map_eq_some_iff.1 h
    cases h
    exact hliteral _
  · rcases Option.or_eq_some_iff.1 h with h | ⟨-, h⟩
    · exact idents_operator? h ▸ List.forall_mem_nil _
    · rcases Option.or_eq_some_iff.1 h with h | ⟨-, h⟩
      · obtain ⟨_, hname, h⟩ := Option.map_eq_some_iff.1 h
        cases h
        intro name hm
        rw [Token.idents, List.mem_singleton] at hm
        exact hm ▸ isName_of_name? hname
      · obtain ⟨_, -, h⟩ := Option.map_eq_some_iff.1 h
        cases h
        exact hliteral _

/-- All that was read so far is named. -/
structure Reading.Named (reading : Reading) : Prop where
  tokens : Tokens.Named reading.tokens
  enclosing : ∀ entry ∈ reading.enclosing, Tokens.Named entry.2

theorem named_docTokens (inner : Bool) (text : List Char) : Tokens.Named (docTokens inner text) := by
  have hdoc : ∀ name ∈ idents (docTokens inner text), name = "doc" := by
    cases inner <;> simp [docTokens, idents_cons, Token.idents]
  intro name hname
  rw [hdoc name hname]
  exact Or.inl (by decide)

theorem Reading.Named.step (h : reading.Named) (hstep : step? reading cs = some (reading', rest)) :
    reading'.Named := by
  unfold step? at hstep
  split at hstep
  · cases hstep
    exact ⟨named_append.2 ⟨(named_docTokens _ _).reverse, h.tokens⟩, h.enclosing⟩
  · split at hstep
    · cases hstep
      exact ⟨named_nil, List.forall_mem_cons.2 ⟨h.tokens, h.enclosing⟩⟩
    · split at hstep
      · split at hstep
        · rename_i henclosing
          split at hstep
          · cases hstep
            have hall := h.enclosing
            rw [henclosing, List.forall_mem_cons] at hall
            refine ⟨named_cons.2 ⟨?_, hall.1⟩, hall.2⟩
            rw [Token.idents]
            exact h.tokens.reverse
          · cases hstep
        · cases hstep
      · obtain ⟨⟨token, rest'⟩, hleaf, heq⟩ := Option.map_eq_some_iff.1 hstep
        cases heq
        exact ⟨named_cons.2 ⟨isName_of_leaf? hleaf, h.tokens⟩, h.enclosing⟩

theorem Reading.Named.readAll (h : reading.Named) (hread : readAll? reading cs = some code) :
    Tokens.Named code := by
  induction reading, cs using readAll?.induct with
  | case1 reading cs start hstart henclosing =>
    rw [readAll?, if_pos hstart, if_pos henclosing] at hread
    cases hread
    exact h.tokens.reverse
  | case2 reading cs start hstart henclosing =>
    rw [readAll?, if_pos hstart, if_neg henclosing] at hread
    cases hread
  | case3 reading cs start hstart reading' rest hstep hlt ih =>
    rw [readAll?, if_neg hstart, hstep] at hread
    exact ih (h.step hstep) ((if_pos hlt).symm.trans hread)
  | case4 reading cs start hstart reading' rest hstep hge =>
    rw [readAll?, if_neg hstart, hstep] at hread
    cases (if_neg hge).symm.trans hread
  | case5 reading cs start hstart hstep =>
    rw [readAll?, if_neg hstart, hstep] at hread
    cases hread

end Lexer

/-- **Code that was read** has names where it has names. -/
theorem Tokens.named_lex {source : String} {code : Tokens} (h : Tokens.lex source = some code) :
    Tokens.Named code :=
  Lexer.Reading.Named.readAll ⟨named_nil, List.forall_mem_nil _⟩ h

end PredictiveParser
