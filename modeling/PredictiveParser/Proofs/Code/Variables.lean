import PredictiveParser.Code.Reference
import PredictiveParser.Proofs.Code.Idents
import PredictiveParser.Proofs.Text.Names

/-!
# The variables for references

The variable for a reference that is neither to a label nor to a rule has a name that is made from what
stands in the reference: a single name, the last component of a path, or the value of a literal
(`VariableSource`). `Reference.join_varName?` says so for every reference.

Names that are made from literals hold letters, digits and underscores of ASCII only, whatever the
literal is (`isIdentifier_varName_iff`). A character can be told from its part in such a name
(`sanitize_singleton_inj`). A longer text can be told where the end of each escape can be seen
(`sanitize_inj`).
-/
namespace PredictiveParser

/-! ## Hexadecimal numbers -/

namespace Text

/-- The digits of a number in hexadecimal are hexadecimal digits. -/
theorem exists_digitChar_of_mem {n : Nat} {c : Char} (h : c ∈ Nat.toDigits 16 n) :
    ∃ d : Fin 16, c = Nat.digitChar d := by
  induction n using Nat.strongRecOn with
  | ind n ih =>
    rw [Nat.toDigits_eq_if (by decide)] at h
    split at h
    · rename_i hlt
      exact ⟨⟨n, hlt⟩, List.mem_singleton.1 h⟩
    · rename_i hge
      rcases List.mem_append.1 h with h | h
      · exact ih (n / 16) (by omega) h
      · exact ⟨⟨n % 16, by omega⟩, List.mem_singleton.1 h⟩

theorem digitChar_injective : ∀ d d' : Fin 16, Nat.digitChar d = Nat.digitChar d' → d = d' := by
  decide

theorem toDigits_injective {m n : Nat} (h : Nat.toDigits 16 m = Nat.toDigits 16 n) : m = n := by
  have hlast : ∀ k, 16 ≤ k →
      Nat.toDigits 16 k = Nat.toDigits 16 (k / 16) ++ [(k % 16).digitChar] := fun k hk => by
    rw [Nat.toDigits_eq_if (by decide), if_neg (by omega)]
  have hlong : ∀ {d k : Nat}, 16 ≤ k → [d.digitChar] ≠ Nat.toDigits 16 k := by
    intro d k hk heq
    rw [hlast k hk] at heq
    have hlength := congrArg List.length heq
    rw [List.length_singleton, List.length_append, List.length_singleton] at hlength
    have hpos := Nat.length_toDigits_pos (b := 16) (n := k / 16)
    omega
  induction m using Nat.strongRecOn generalizing n with
  | ind m ih =>
    by_cases hm : m < 16
    · rw [Nat.toDigits_of_lt_base hm] at h
      by_cases hn : n < 16
      · rw [Nat.toDigits_of_lt_base hn, List.singleton_inj] at h
        exact congrArg Fin.val (digitChar_injective ⟨m, hm⟩ ⟨n, hn⟩ h)
      · exact absurd h (hlong (by omega))
    · by_cases hn : n < 16
      · rw [Nat.toDigits_of_lt_base hn] at h
        exact absurd h.symm (hlong (by omega))
      · rw [hlast m (by omega), hlast n (by omega)] at h
        obtain ⟨hfront, hdigit⟩ := List.append_inj' h rfl
        rw [List.singleton_inj] at hdigit
        have hquotient := ih (m / 16) (by omega) hfront
        have hrest := congrArg Fin.val
          (digitChar_injective ⟨m % 16, by omega⟩ ⟨n % 16, by omega⟩ hdigit)
        have hrest : m % 16 = n % 16 := hrest
        omega

/-- A number of two digits. -/
theorem toDigits_of_two {n : Nat} (hlo : 16 ≤ n) (hhi : n < 256) :
    Nat.toDigits 16 n = [(n / 16).digitChar, (n % 16).digitChar] := by
  rw [Nat.toDigits_eq_if (by decide), if_neg (by omega), Nat.toDigits_of_lt_base (by omega)]
  rfl

end Text

/-! ## Texts as parts of names -/

/-- A character as a part of a name. -/
def sanitizedChar (c : Char) : List Char :=
  if c.isAlphanum || c == '_' then [c] else 'x' :: Nat.toDigits 16 c.toNat

theorem nil_intercalate {α : Type} (parts : List (List α)) :
    ([] : List α).intercalate parts = parts.flatten := by
  induction parts with
  | nil => rfl
  | cons part rest ih =>
    cases rest with
    | nil => rw [List.intercalate_singleton, List.flatten_singleton]
    | cons next rest =>
      rw [List.intercalate_cons_cons, ih, List.append_nil, List.flatten_cons, List.flatten_cons,
        List.flatten_cons]

theorem toList_sanitize (s : String) : (sanitize s).toList = s.toList.flatMap sanitizedChar := by
  have hempty : "".toList = [] := rfl
  rw [sanitize, String.toList_intercalate, hempty, nil_intercalate, List.map_map, List.flatMap_def]
  refine congrArg List.flatten (List.map_congr_left fun c _ => ?_)
  rw [Function.comp_apply, sanitizedChar]
  split
  · exact String.toList_singleton c
  · have hmark : "x".toList = ['x'] := rfl
    rw [String.toList_append, hmark, Text.hex, String.toList_ofList, List.singleton_append]

theorem isIdentContinue_of_isAlphanum {c : Char} (h : (c.isAlphanum || c == '_') = true) :
    Text.isIdentContinue c = true := by
  unfold Text.isIdentContinue Text.isIdentStart
  unfold Char.isAlphanum at h
  simp only [Bool.or_eq_true] at h ⊢
  tauto

theorem all_isIdentContinue_sanitize (s : String) :
    (sanitize s).toList.all Text.isIdentContinue = true := by
  have hdigits : ∀ d : Fin 16, (Nat.digitChar d).isAlphanum = true := by decide
  rw [toList_sanitize, List.all_flatMap, List.all_eq_true]
  intro c _
  rw [sanitizedChar]
  split
  · rename_i hplain
    rw [List.all_cons, isIdentContinue_of_isAlphanum hplain]
    rfl
  · rw [List.all_cons, Bool.and_eq_true, List.all_eq_true]
    refine ⟨by decide, fun c hc => ?_⟩
    obtain ⟨d, rfl⟩ := Text.exists_digitChar_of_mem hc
    exact isIdentContinue_of_isAlphanum (by rw [hdigits d]; rfl)

theorem sanitizedChar_injective {c d : Char} (h : sanitizedChar c = sanitizedChar d) : c = d := by
  have hlong : ∀ {c d : Char}, [c] ≠ 'x' :: Nat.toDigits 16 d.toNat := fun heq =>
    Nat.toDigits_ne_nil (List.cons_eq_cons.1 heq).2.symm
  unfold sanitizedChar at h
  split at h
  · split at h
    · exact List.singleton_inj.1 h
    · exact absurd h hlong
  · split at h
    · exact absurd h.symm hlong
    · exact Char.toNat_inj.1 (Text.toDigits_injective (List.cons_eq_cons.1 h).2)

/-- **A single character** can be told from its part in a name. -/
theorem sanitize_singleton_inj {c d : Char} :
    sanitize (String.singleton c) = sanitize (String.singleton d) ↔ c = d := by
  refine ⟨fun h => sanitizedChar_injective ?_, fun h => by rw [h]⟩
  have hlist := congrArg String.toList h
  rwa [toList_sanitize, toList_sanitize, String.toList_singleton, String.toList_singleton,
    List.flatMap_singleton, List.flatMap_singleton] at hlist

/-- The character stands for itself and is not the mark of an escape, or its escape has two digits. -/
def LegibleChar (c : Char) : Prop :=
  c ≠ 'x' ∧ 0x10 ≤ c.toNat ∧ c.toNat < 0x100

/-- The text has such characters only. -/
def Legible (s : String) : Prop :=
  ∀ c ∈ s.toList, LegibleChar c

theorem sanitizedChar_cases {c : Char} (h : LegibleChar c) :
    sanitizedChar c = [c] ∨
      sanitizedChar c = ['x', (c.toNat / 16).digitChar, (c.toNat % 16).digitChar] := by
  unfold sanitizedChar
  split
  · exact Or.inl rfl
  · rw [Text.toDigits_of_two h.2.1 h.2.2]
    exact Or.inr rfl

/-- Where such a character ends can be seen from its beginning. -/
theorem length_sanitizedChar {c d : Char} {cs ds : List Char} (hc : LegibleChar c)
    (hd : LegibleChar d) (h : sanitizedChar c ++ cs = sanitizedChar d ++ ds) :
    (sanitizedChar c).length = (sanitizedChar d).length := by
  rcases sanitizedChar_cases hc with hplain | hescape
  · rcases sanitizedChar_cases hd with hplain' | hescape'
    · rw [hplain, hplain']
      rfl
    · rw [hplain, hescape'] at h
      exact absurd (List.cons_eq_cons.1 h).1 hc.1
  · rcases sanitizedChar_cases hd with hplain' | hescape'
    · rw [hescape, hplain'] at h
      exact absurd (List.cons_eq_cons.1 h).1.symm hd.1
    · rw [hescape, hescape']
      rfl

theorem flatMap_sanitizedChar_inj {cs ds : List Char} (hcs : ∀ c ∈ cs, LegibleChar c)
    (hds : ∀ d ∈ ds, LegibleChar d) (h : cs.flatMap sanitizedChar = ds.flatMap sanitizedChar) :
    cs = ds := by
  have hne : ∀ c, sanitizedChar c ≠ [] := by
    intro c
    unfold sanitizedChar
    split <;> exact List.cons_ne_nil _ _
  induction cs generalizing ds with
  | nil =>
    cases ds with
    | nil => rfl
    | cons d ds => exact absurd (List.append_eq_nil_iff.1 h.symm).1 (hne d)
  | cons c cs ih =>
    cases ds with
    | nil => exact absurd (List.append_eq_nil_iff.1 h).1 (hne c)
    | cons d ds =>
      rw [List.forall_mem_cons] at hcs hds
      rw [List.flatMap_cons, List.flatMap_cons] at h
      obtain ⟨hfirst, hrest⟩ := List.append_inj h (length_sanitizedChar hcs.1 hds.1 h)
      rw [sanitizedChar_injective hfirst, ih hcs.2 hds.2 hrest]

/-- **A text whose escapes end where one can see it** can be told from its part in a name. -/
theorem sanitize_inj {s t : String} (hs : Legible s) (ht : Legible t) (h : sanitize s = sanitize t) :
    s = t := by
  have hlist := congrArg String.toList h
  rw [toList_sanitize, toList_sanitize] at hlist
  exact String.toList_inj.1 (flatMap_sanitizedChar_inj hs ht hlist)

/-- The letter that marks an escape may also stand for itself. -/
example : sanitize "*" = sanitize "x2a" := by
  decide +kernel

/-! ## What variables are named after -/

/-- What the variable for a reference is named after. -/
inductive VariableSource where
  /-- The only name in the reference. -/
  | name (name : String)
  /-- The last component of a path. -/
  | component (name : String)
  /-- The value of a character. -/
  | character (c : Char)
  /-- The value of another literal, or its spelling when it has none. -/
  | text (s : String)
deriving DecidableEq

namespace VariableSource

def varName : VariableSource → String
  | .name n => "tok_" ++ n
  | .component n => "tok__" ++ n
  | .character c => "ch_" ++ sanitize (String.singleton c)
  | .text s => "lit_" ++ sanitize s

/-- What a name tells of its source. -/
def mark : VariableSource → String
  | .name _ => "tok_"
  | .component _ => "tok_"
  | .character _ => "ch_"
  | .text _ => "lit_"

def marked : VariableSource → String
  | .name n => n
  | .component n => "_" ++ n
  | .character c => sanitize (String.singleton c)
  | .text s => sanitize s

theorem varName_eq (source : VariableSource) : source.varName = source.mark ++ source.marked := by
  cases source with
  | component n =>
    have hmark : "tok__" = "tok_" ++ "_" := rfl
    rw [varName, hmark, String.append_assoc]
    rfl
  | _ => rfl

/-- The marks of all variables that are not labels. -/
def marks : List String :=
  ["tok_", "ch_", "lit_", "got_"]

theorem mark_mem (source : VariableSource) : source.mark ∈ marks := by
  cases source <;> simp [mark, marks]

/-- No mark is the start of another, so a name has one mark. -/
theorem mark_unique {m m' s t : String} (hm : m ∈ marks) (hm' : m' ∈ marks) (h : m ++ s = m' ++ t) :
    m = m' := by
  have hfree : ∀ m ∈ marks, ∀ m' ∈ marks, m.toList <+: m'.toList → m = m' := by decide
  have hstart : m.toList <+: (m ++ s).toList := ⟨s.toList, String.toList_append.symm⟩
  have hstart' : m'.toList <+: (m ++ s).toList := ⟨t.toList, by rw [h, String.toList_append]⟩
  rcases List.prefix_or_prefix_of_prefix hstart hstart' with hbefore | hbefore
  · exact hfree m hm m' hm' hbefore
  · exact (hfree m' hm' m hm hbefore).symm

/-- The name of the reference that becomes a part of the variable's. -/
def taken? : VariableSource → Option String
  | .name n => some n
  | .component n => some n
  | _ => none

/-- What the variable for a literal is named after. -/
def ofLiteral? (spelling : String) : Option VariableSource :=
  match LiteralValue.ofSpelling spelling with
  | .char c => some (.character c)
  | .string s => some (.text s)
  | .int _ n => some (.text (toString n))
  | .unknown => none
  | _ => some (.text spelling)

/-- What the variable for a reference `$( tokens )` is named after. -/
def ofCode? : Tokens → Option VariableSource
  | [.ident n] => some (.name n)
  | [.literal spelling] => ofLiteral? spelling
  | [.group .invisible body] => ofCode? body
  | tokens => (lastComponent? tokens).map .component

/-- What the variable for a reference is named after, if it can have one. -/
def ofReference? : Reference → Option VariableSource
  | .name n => if n == lookaheadValue || n == lookaheadIndex then none else some (.name n)
  | .literal spelling => ofLiteral? spelling
  | .code tokens => ofCode? tokens

end VariableSource

open VariableSource (ofLiteral? ofCode? ofReference? varName)

/-- **The variable for a literal** is named after its value. -/
theorem literalVarName_eq (spelling : String) : literalVarName spelling =
    match ofLiteral? spelling with
    | some source => .ok source.varName
    | none => .error (.unknownLiteral spelling) := by
  unfold literalVarName ofLiteral?
  cases LiteralValue.ofSpelling spelling <;> rfl

theorem join_map_literalVarName (spelling : String) :
    ((literalVarName spelling).map some).toOption.join = (ofLiteral? spelling).map varName := by
  rw [literalVarName_eq]
  cases ofLiteral? spelling <;> rfl

theorem join_codeVarName? (tokens : Tokens) :
    (codeVarName? tokens).toOption.join = (ofCode? tokens).map varName := by
  induction tokens using codeVarName?.induct with
  | case1 n =>
    rw [codeVarName?, ofCode?]
    rfl
  | case2 spelling =>
    rw [codeVarName?, ofCode?]
    exact join_map_literalVarName spelling
  | case3 body ih =>
    rw [codeVarName?, ofCode?]
    exact ih
  | case4 tokens hname hliteral hgroup =>
    rw [codeVarName?.eq_4 tokens hname hliteral hgroup, ofCode?.eq_4 tokens hname hliteral hgroup,
      Option.map_map]
    rfl

/-- **The variable for a reference** is named after its source. -/
theorem Reference.join_varName? (r : Reference) :
    r.varName?.toOption.join = (ofReference? r).map varName := by
  cases r with
  | name n =>
    unfold Reference.varName? ofReference?
    dsimp only
    split <;> rfl
  | literal spelling => exact join_map_literalVarName spelling
  | code tokens => exact join_codeVarName? tokens

theorem Reference.exists_source {r : Reference} {name : String} (h : r.varName? = .ok (some name)) :
    ∃ source, ofReference? r = some source ∧ name = source.varName := by
  have hjoin := r.join_varName?
  rw [h] at hjoin
  obtain ⟨source, hsource, hname⟩ := Option.map_eq_some_iff.1 hjoin.symm
  exact ⟨source, hsource, hname.symm⟩

/-! ## Variables that are no names -/

def Reference.idents : Reference → List String
  | .name n => [n]
  | .literal _ => []
  | .code tokens => Tokens.idents tokens

theorem Tokens.mem_idents {code : Tokens} {name : String} :
    name ∈ Tokens.idents code ↔ ∃ token ∈ code, name ∈ token.idents := by
  induction code with
  | nil => simp
  | cons token rest ih =>
    rw [Tokens.idents_cons, List.mem_append, ih]
    simp

theorem mem_idents_of_lastComponent? {tokens : Tokens} {last : String}
    (h : lastComponent? tokens = some last) : last ∈ Tokens.idents tokens := by
  unfold lastComponent? at h
  split at h
  · rename_i last' c spacing front hreverse
    have hmem : Token.ident last' ∈ tokens := by
      rw [← List.mem_reverse, hreverse]
      exact List.mem_cons_self
    obtain ⟨-, h⟩ := Option.ite_none_right_eq_some.1 h
    cases h
    exact Tokens.mem_idents.2 ⟨_, hmem, by rw [Token.idents]; exact List.mem_singleton_self _⟩
  · cases h

theorem taken?_ofLiteral? {spelling : String} {source : VariableSource}
    (h : ofLiteral? spelling = some source) : source.taken? = none := by
  unfold ofLiteral? at h
  cases hvalue : LiteralValue.ofSpelling spelling <;> rw [hvalue] at h <;> cases h <;> rfl

theorem mem_idents_of_ofCode? {tokens : Tokens} {source : VariableSource} {name : String}
    (h : ofCode? tokens = some source) (htaken : source.taken? = some name) :
    name ∈ Tokens.idents tokens := by
  induction tokens using codeVarName?.induct with
  | case1 n =>
    rw [ofCode?] at h
    cases h
    cases htaken
    exact Tokens.mem_idents.2 ⟨_, List.mem_cons_self, by rw [Token.idents]; exact List.mem_singleton_self _⟩
  | case2 spelling =>
    rw [ofCode?] at h
    cases (taken?_ofLiteral? h).symm.trans htaken
  | case3 body ih =>
    rw [ofCode?] at h
    rw [Tokens.idents_group]
    exact ih h
  | case4 tokens hname hliteral hgroup =>
    rw [ofCode?.eq_4 tokens hname hliteral hgroup] at h
    obtain ⟨last, hlast, rfl⟩ := Option.map_eq_some_iff.1 h
    cases htaken
    exact mem_idents_of_lastComponent? hlast

/-- The name from which a variable is made stands in the reference. -/
theorem Reference.mem_idents_of_taken? {r : Reference} {source : VariableSource} {name : String}
    (h : ofReference? r = some source) (htaken : source.taken? = some name) : name ∈ r.idents := by
  cases r with
  | name n =>
    rw [ofReference?] at h
    split at h
    · cases h
    · cases h
      cases htaken
      exact List.mem_singleton_self _
  | literal spelling => cases (taken?_ofLiteral? h).symm.trans htaken
  | code tokens => exact mem_idents_of_ofCode? h htaken

/-- The variable for the reference is made from a raw name. -/
def Reference.TakesRaw (r : Reference) : Prop :=
  ∃ source raw, ofReference? r = some source ∧ source.taken? = some raw ∧ Text.IsRawName raw

theorem isIdentifier_varName_of_taken? {source : VariableSource} {name : String}
    (htaken : source.taken? = some name) (hname : Text.IsName name) :
    Text.isIdentifier source.varName = true ↔ ¬ Text.IsRawName name := by
  cases source with
  | name n =>
    cases htaken
    exact hname.isIdentifier_append (by decide)
  | component n =>
    cases htaken
    exact hname.isIdentifier_append (by decide)
  | character c => cases htaken
  | text s => cases htaken

/-- **The variable for a reference** has a name that may stand in code, unless it is made from a raw name. -/
theorem Reference.isIdentifier_varName_iff {r : Reference} {name : String}
    (hidents : ∀ name ∈ r.idents, Text.IsName name) (h : r.varName? = .ok (some name)) :
    Text.isIdentifier name = true ↔ ¬ r.TakesRaw := by
  obtain ⟨source, hsource, rfl⟩ := Reference.exists_source h
  cases htaken : source.taken? with
  | some taken =>
    have hname := hidents taken (Reference.mem_idents_of_taken? hsource htaken)
    rw [isIdentifier_varName_of_taken? htaken hname, not_iff_not]
    constructor
    · exact fun hraw => ⟨source, taken, hsource, htaken, hraw⟩
    · rintro ⟨source', raw, hsource', hraw', hraw⟩
      cases hsource.symm.trans hsource'
      cases htaken.symm.trans hraw'
      exact hraw
  | none =>
    refine iff_of_true ?_ ?_
    · cases source with
      | name n => cases htaken
      | component n => cases htaken
      | character c => exact Text.isIdentifier_append (by decide) (all_isIdentContinue_sanitize _)
      | text s => exact Text.isIdentifier_append (by decide) (all_isIdentContinue_sanitize _)
    · rintro ⟨source', raw, hsource', hraw', -⟩
      cases hsource.symm.trans hsource'
      cases htaken.symm.trans hraw'

/-! ## References in code -/

namespace References

theorem mem_idents_of_at? {token next : Token} {r : Reference} (h : at? token next = some r)
    {name : String} (hname : name ∈ r.idents) : name ∈ next.idents := by
  obtain ⟨-, h⟩ := Option.ite_none_right_eq_some.1 h
  unfold Reference.ofToken? at h
  split at h <;> cases h
  · rwa [Token.idents]
  · cases hname
  · rwa [Token.idents]

mutual

theorem mem_idents_of_findIn : ∀ (token : Token), ∀ r ∈ findIn token, ∀ name ∈ r.idents,
    name ∈ token.idents
  | .group delimiter body, r, hr, name, hname => by
    rw [Token.idents]
    rw [findIn] at hr
    exact mem_idents_of_find body r hr name hname
  | .ident _, r, hr, _, _ => by cases hr
  | .punct .., r, hr, _, _ => by cases hr
  | .literal _, r, hr, _, _ => by cases hr

/-- The names in the references of code are names in the code. -/
theorem mem_idents_of_find : ∀ (code : Tokens), ∀ r ∈ find code, ∀ name ∈ r.idents,
    name ∈ Tokens.idents code
  | [], r, hr, _, _ => by cases hr
  | [token], r, hr, name, hname => by
    rw [find] at hr
    rw [Tokens.idents_cons]
    exact List.mem_append_left _ (mem_idents_of_findIn token r hr name hname)
  | token :: next :: rest, r, hr, name, hname => by
    rw [Tokens.idents_cons]
    rw [find] at hr
    split at hr
    · rename_i found hfound
      rw [Tokens.idents_cons]
      rcases List.mem_cons.1 hr with rfl | hr
      · exact List.mem_append_right _ (List.mem_append_left _ (mem_idents_of_at? hfound hname))
      · exact List.mem_append_right _ (List.mem_append_right _
          (mem_idents_of_find rest r hr name hname))
    · rcases List.mem_append.1 hr with hr | hr
      · exact List.mem_append_left _ (mem_idents_of_findIn token r hr name hname)
      · exact List.mem_append_right _ (mem_idents_of_find (next :: rest) r hr name hname)

end

end References

end PredictiveParser
