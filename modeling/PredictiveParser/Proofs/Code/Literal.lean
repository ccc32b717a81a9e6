import PredictiveParser.CharSet.Display
import PredictiveParser.Code.Literal

/-!
# Literals are read back

A number written in decimal and a quoted character have the value that they were written for: no digit
is taken for the start of another kind of literal, and a backslash stands in front of the only two
printable ASCII characters that would not be read as themselves.

* `ofSpelling_toString`, `hasSuffix_toString`: numbers.
* `ofSpelling_quotedChar`: printable ASCII characters.
-/
namespace PredictiveParser.LiteralValue

open Lexer

/-! ## Numbers -/

/-- What holds a letter does not begin a number of digits. -/
theorem startsWith_eq_false {start : String} {c : Char} {cs : List Char} (hmem : c ∈ start.toList)
    (hc : c.isDigit = false) (h : ∀ d ∈ cs, d.isDigit = true) : startsWith start cs = false := by
  unfold startsWith
  rw [Bool.eq_false_iff]
  intro hstart
  have hin : c ∈ cs := (List.isPrefixOf_iff_prefix.1 hstart).subset hmem
  rw [h c hin] at hc
  cases hc

theorem digits?_cons {c : Char} {cs : List Char} (value : Nat) (hc : c.isDigit = true) :
    digits? 10 value (c :: cs) = digits? 10 (10 * value + (c.toNat - '0'.toNat)) cs := by
  have hne : ∀ {d : Char}, d.isDigit = false → (c == d) = false := by
    intro d hd
    rw [beq_eq_false_iff_ne]
    rintro rfl
    rw [hc] at hd
    cases hd
  have hlt : c.toNat - '0'.toNat < 10 := by
    have hle := (Char.isDigit_iff_toNat.1 hc).2
    have hzero : '0'.toNat = 48 := rfl
    have hnine : '9'.toNat = 57 := rfl
    omega
  rw [digits?, hne (by decide : '_'.isDigit = false), hne (by decide : '.'.isDigit = false),
    hne (by decide : 'e'.isDigit = false), hne (by decide : 'E'.isDigit = false), hexDigit?, if_pos hc]
  simp only [Bool.false_eq_true, if_false, Bool.and_false, Bool.or_self, hlt, if_true]
  rw [Nat.mul_comm value 10]

theorem digits?_of_isDigit {cs : List Char} (h : ∀ c ∈ cs, c.isDigit = true) (value : Nat) :
    digits? 10 value cs = some (Nat.ofDigitChars 10 cs value, []) := by
  induction cs generalizing value with
  | nil => rfl
  | cons c cs ih =>
    rw [digits?_cons value (h c List.mem_cons_self), Nat.ofDigitChars_cons]
    exact ih (fun d hd => h d (List.mem_cons_of_mem _ hd)) _

theorem isDigit_of_mem_toString {n : Nat} {c : Char} (h : c ∈ (toString n).toList) :
    c.isDigit = true := by
  have hlist : (toString n).toList = Nat.toDigits 10 n := Nat.toList_repr
  rw [hlist] at h
  exact Nat.isDigit_of_mem_toDigits (by decide) (by decide) h

theorem wholeNumber?_toString (n : Nat) : wholeNumber? (toString n).toList = some (n, []) := by
  have hdigits : ∀ c ∈ (toString n).toList, c.isDigit = true := fun _ => isDigit_of_mem_toString
  have hlist : (toString n).toList = Nat.toDigits 10 n := Nat.toList_repr
  unfold wholeNumber?
  rw [startsWith_eq_false (by decide : 'x' ∈ "0x".toList) rfl hdigits,
    startsWith_eq_false (by decide : 'o' ∈ "0o".toList) rfl hdigits,
    startsWith_eq_false (by decide : 'b' ∈ "0b".toList) rfl hdigits]
  simp only [Bool.false_eq_true, if_false]
  rw [digits?_of_isDigit hdigits, hlist, Nat.ofDigitChars_ten_toDigits]

/-- No other kind of literal starts with a digit. -/
theorem ofSpelling_of_wholeNumber? {spelling : String} {c : Char} {rest suffix : List Char} {n : Nat}
    (hlist : spelling.toList = c :: rest) (hc : c.isDigit = true)
    (hwhole : wholeNumber? (c :: rest) = some (n, suffix)) : ofSpelling spelling = .int false n := by
  have hne : ∀ {d : Char} {cs : List Char}, d.isDigit = false → c :: rest ≠ d :: cs := by
    intro d cs hd heq
    rw [List.head_eq_of_cons_eq heq, hd] at hc
    cases hc
  unfold ofSpelling
  rw [hlist]
  split <;> rename_i heq
  · exact (hne (by decide) heq).elim
  · exact (hne (by decide) heq).elim
  · exact (hne (by decide) heq).elim
  · exact (hne (by decide) heq).elim
  · exact (hne (by decide) heq).elim
  · cases heq
    rw [if_pos hc, hwhole]
  · cases heq

/-- A number that is written in decimal is read as this number. -/
theorem ofSpelling_toString (n : Nat) : ofSpelling (toString n) = .int false n := by
  have hwhole := wholeNumber?_toString n
  cases hlist : (toString n).toList with
  | nil =>
    have hdigits : (toString n).toList = Nat.toDigits 10 n := Nat.toList_repr
    exact (Nat.toDigits_ne_nil (hdigits.symm.trans hlist)).elim
  | cons c rest =>
    rw [hlist] at hwhole
    refine ofSpelling_of_wholeNumber? hlist (isDigit_of_mem_toString (n := n) ?_) hwhole
    rw [hlist]
    exact List.mem_cons_self

theorem hasSuffix_toString (n : Nat) : hasSuffix (toString n) = false := by
  unfold hasSuffix
  rw [wholeNumber?_toString]
  rfl

/-! ## Characters -/

theorem escaped_of_printable {c : Char} (hlo : 0x20 ≤ c.toNat) (hhi : c.toNat < 0x7f) :
    Text.escaped ['\''] c =
      if c = '\\' ∨ c = '\'' then String.ofList ['\\', c] else String.singleton c := by
  have hne : ∀ {d : Char}, d.toNat < 0x20 → (c == d) = false := by
    intro d hd
    rw [beq_eq_false_iff_ne]
    rintro rfl
    omega
  have hvisible : (Text.isGraphemeExtend c || !Text.isPrintable c) = false := by
    have hmark : Text.isGraphemeExtend c = false := by
      simp only [Text.isGraphemeExtend, Bool.and_eq_false_imp, decide_eq_true_eq]
      omega
    have hprint : Text.isPrintable c = true := by
      rw [Text.isPrintable, if_neg (by omega), if_pos hhi]
    rw [hmark, hprint]
    rfl
  unfold Text.escaped
  rw [hne (by decide : '\t'.toNat < 0x20), hne (by decide : '\n'.toNat < 0x20),
    hne (by decide : '\r'.toNat < 0x20), hne (by decide : '\x00'.toNat < 0x20), hvisible]
  simp

/-- A printable ASCII character between quotes is read as this character. -/
theorem ofSpelling_quotedChar {c : Char} (hlo : 0x20 ≤ c.toNat) (hhi : c.toNat < 0x7f) :
    ofSpelling (Text.quotedChar c) = .char c := by
  have hlist : (Text.quotedChar c).toList = '\'' :: (Text.escaped ['\''] c).toList ++ ['\''] := by
    simp [Text.quotedChar]
  rw [escaped_of_printable hlo hhi] at hlist
  unfold ofSpelling
  by_cases h : c = '\\' ∨ c = '\''
  · rw [hlist, if_pos h]
    rcases h with rfl | rfl <;> rfl
  · rw [hlist, if_neg h]
    have hc : c ≠ '\\' := fun heq => h (Or.inl heq)
    simp only [String.toList_singleton, List.cons_append, List.nil_append]

end PredictiveParser.LiteralValue
