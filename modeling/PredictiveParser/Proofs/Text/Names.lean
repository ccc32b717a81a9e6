import PredictiveParser.Error

/-!
# Names that are put together

A name with more characters of names behind it is a name (`isIdentifier_append`), so the names that
generation makes from others are names: with a prefix, or with a number at the end. Different numbers
have different texts.
-/
namespace PredictiveParser

theorem toString_nat_injective {m n : Nat} (h : toString m = toString n) : m = n := by
  have hdigits : Nat.toDigits 10 m = Nat.toDigits 10 n := by
    have hrepr : m.repr.toList = n.repr.toList := congrArg String.toList h
    rwa [Nat.toList_repr, Nat.toList_repr] at hrepr
  calc
    m = Nat.ofDigitChars 10 (Nat.toDigits 10 m) 0 := Nat.ofDigitChars_ten_toDigits.symm
    _ = Nat.ofDigitChars 10 (Nat.toDigits 10 n) 0 := by rw [hdigits]
    _ = n := Nat.ofDigitChars_ten_toDigits

namespace Text

variable {s t : String}

/-- Every character of a name may stand inside a name. -/
theorem all_isIdentContinue (h : isIdentifier s = true) : s.toList.all isIdentContinue = true := by
  unfold isIdentifier at h
  cases hs : s.toList with
  | nil =>
    rw [hs] at h
    cases h
  | cons c rest =>
    rw [hs, isIdentifierChars, Bool.and_eq_true] at h
    rw [List.all_cons, Bool.and_eq_true]
    exact ⟨isIdentContinue_of_isIdentStart h.1, h.2⟩

theorem isIdentifier_append (hs : isIdentifier s = true) (ht : t.toList.all isIdentContinue = true) :
    isIdentifier (s ++ t) = true := by
  unfold isIdentifier at hs ⊢
  rw [String.toList_append]
  cases hlist : s.toList with
  | nil =>
    rw [hlist] at hs
    cases hs
  | cons c rest =>
    rw [hlist, isIdentifierChars, Bool.and_eq_true] at hs
    rw [List.cons_append, isIdentifierChars, List.all_append, hs.1, hs.2, ht]
    rfl

/-- Two names in a row are a name. -/
theorem isIdentifier_append_of (hs : isIdentifier s = true) (ht : isIdentifier t = true) :
    isIdentifier (s ++ t) = true :=
  isIdentifier_append hs (all_isIdentContinue ht)

theorem all_isIdentContinue_toString (n : Nat) :
    (toString n).toList.all isIdentContinue = true := by
  have hlist : (toString n).toList = Nat.toDigits 10 n := Nat.toList_repr
  rw [hlist, List.all_eq_true]
  intro c hc
  have hdigit : c.isDigit = true := Nat.isDigit_of_mem_toDigits (by decide) (by decide) hc
  simp [isIdentContinue, hdigit]

end Text

theorem checkedName_eq_ok {name name' : String} (h : checkedName name = .ok name') : name' = name := by
  unfold checkedName at h
  split at h
  · cases h
    rfl
  · cases h

theorem isIdentifier_of_checkedName {name name' : String} (h : checkedName name = .ok name') :
    Text.isIdentifier name' = true := by
  unfold checkedName at h
  split at h
  · rename_i hname
    cases h
    exact hname
  · cases h

theorem checkedName_cases (name : String) :
    checkedName name = pure name ∨ ∃ fault, checkedName name = .error fault := by
  unfold checkedName
  split
  · exact Or.inl rfl
  · exact Or.inr ⟨_, rfl⟩

theorem checkedName_of_isIdentifier {name : String} (h : Text.isIdentifier name = true) :
    checkedName name = .ok name :=
  if_pos h

end PredictiveParser
