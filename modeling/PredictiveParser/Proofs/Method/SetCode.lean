import PredictiveParser.Input.Expected
import PredictiveParser.Method.Stmt
import PredictiveParser.Method.Tables
import PredictiveParser.Proofs.CharSet.Algebra
import PredictiveParser.Proofs.Code.Evaluation
import PredictiveParser.Proofs.Text.Names

/-!
# The code of sets of code points

A set is written as a test, as a pattern and as a list of ranges, which may be kept in a table. Whether
a terminal is in the set is the same in all of them: the test evaluates to it (`evaluate_testCode`), the
pattern accepts the ranges of the set (`patternRanges?_pattern`), and these are what a reference stands for
(`rangesOf?_refer`), once the tables are part of the code. `CharSet.renderings_agree` puts this together.
-/
namespace PredictiveParser

open Template Evaluation

/-! ## Tests -/

section

variable {env : String → Option Value} {la : Tokens} {c : Int}

theorem charCode_hasValue {n : Int} (hlo : eof ≤ n) (hhi : n ≤ maxChar) :
    HasValue env .cast (charCode n) (.int n) := by
  simp only [eof, maxChar] at hlo hhi
  unfold charCode printableAscii?
  split
  · rename_i ch heq
    split at heq
    · rename_i hprintable
      cases heq
      have hn : (Char.ofNat n.toNat).toNat = n.toNat := by
        rw [Char.toNat_ofNat, if_pos (Or.inl (by omega))]
      have hchar : HasValue env .cast _ (.int (Char.ofNat n.toNat).toNat) :=
        HasValue.charLiteral (by omega) (by omega)
      rwa [hn, Int.toNat_of_nonneg (by omega)] at hchar
    · cases heq
  · exact HasValue.intLiteral (by omega) (by omega)

/-- The comparison for a range evaluates to what it stands for. -/
theorem Comparison.code_hasValue (hla : HasValue env .cast la (.int c)) {range : Int × Int}
    (hrange : InUniverse range) :
    HasValue env .conjunction ((Comparison.ofRange range).code la)
      (.bool ((Comparison.ofRange range).holds c)) := by
  obtain ⟨hlo, hle, hhi⟩ := hrange
  have hfirst : HasValue env .cast (charCode range.1) (.int range.1) :=
    charCode_hasValue hlo (by omega)
  have hlast : HasValue env .cast (charCode range.2) (.int range.2) :=
    charCode_hasValue (by omega) hhi
  unfold Comparison.ofRange
  split
  · exact (hla.compare "==" rfl hfirst).conjunction
  · split
    · exact (hla.compare "<=" rfl hlast).conjunction
    · split
      · exact (hla.compare ">=" rfl hfirst).conjunction
      · have hboth := (hla.compare ">=" rfl hfirst).and (hla.compare "<=" rfl hlast)
        simpa only [Comparison.code, Comparison.holds, List.append_assoc] using hboth

theorem evaluate_anyOf (hla : HasValue env .cast la (.int c)) {s : CharSet} (hne : s.ranges ≠ []) :
    evaluate env ((SetTest.anyOf (s.ranges.map Comparison.ofRange)).code la) =
      some (.bool ((s.ranges.map Comparison.ofRange).any (·.holds c))) := by
  refine evaluate_or (by simpa using hne) fun comparison hmem => ?_
  obtain ⟨range, hrange, rfl⟩ := List.mem_map.1 hmem
  exact Comparison.code_hasValue hla (s.inUniverse range hrange)

/-- **The test of a set.** It evaluates to whether the terminal is in the set. -/
theorem evaluate_testCode (hc : IsTerminal c) (hla : HasValue env .cast la (.int c)) (s : CharSet) :
    evaluate env (s.testCode la) = some (.bool (s.contains c)) := by
  rw [← CharSet.holds_test hc, CharSet.testCode, CharSet.test]
  split
  · exact evaluate_word_false
  · rename_i hempty
    split
    · exact evaluate_word_true
    · rename_i heverything
      split
      · -- The complement has ranges, so the parentheses are not empty.
        refine evaluate_not (evaluate_anyOf hla fun hnone => heverything ?_)
        have hall : s.complement.isEmpty = true := by rw [CharSet.isEmpty, hnone, List.isEmpty_nil]
        rw [CharSet.isEverything_iff]
        refine CharSet.ext fun d => ?_
        by_cases hd : IsTerminal d
        · have hout := CharSet.isEmpty_iff.1 hall d
          rw [CharSet.contains_complement hd, Bool.not_eq_false'] at hout
          rw [hout, CharSet.contains_everything.2 hd]
        · rw [Bool.eq_false_iff.2 fun h => hd (CharSet.isTerminal_of_contains h),
            Bool.eq_false_iff.2 fun h => hd (CharSet.contains_everything.1 h)]
      · refine evaluate_anyOf hla fun hnone => hempty ?_
        rw [CharSet.isEmpty, hnone, List.isEmpty_nil]

end

/-! ## Patterns -/

def literalNumber? (spelling : String) : Option Int :=
  match Value.ofLiteral? spelling with
  | some (.int n) => some n
  | _ => none

/-- One end of a range in a pattern, and what stands behind it. -/
def patternEnd? : Tokens → Option (Int × Tokens)
  | .literal spelling :: rest => (literalNumber? spelling).map fun n => (n, rest)
  | .punct '-' _ :: .literal spelling :: rest => (literalNumber? spelling).map fun n => (-n, rest)
  | _ => none

/-- The range of a pattern without alternatives. A range from a greater number to a smaller one is no
pattern. -/
def patternRange? (code : Tokens) : Option (Int × Int) :=
  match patternEnd? code with
  | some (lo, []) => some (lo, lo)
  | some (lo, .punct '.' .joint :: .punct '.' .joint :: .punct '=' _ :: rest) =>
    match patternEnd? rest with
    | some (hi, []) => if lo ≤ hi then some (lo, hi) else none
    | _ => none
  | _ => none

def patternRanges? (code : Tokens) : Option (List (Int × Int)) :=
  (code.splitOnP (Token.isPunct '|')).mapM patternRange?

theorem splitOnP_intercalate {α : Type} {p : α → Bool} {separator : α} (hp : p separator = true)
    {parts : List (List α)} (hne : parts ≠ []) (h : ∀ part ∈ parts, ∀ x ∈ part, p x = false) :
    ([separator].intercalate parts).splitOnP p = parts := by
  induction parts with
  | nil => exact (hne rfl).elim
  | cons part parts ih =>
    have hpart := h part List.mem_cons_self
    cases parts with
    | nil => rw [List.intercalate_singleton, List.splitOnP_eq_singleton hpart]
    | cons next parts =>
      rw [List.intercalate_cons_cons, List.append_assoc, List.singleton_append,
        List.splitOnP_append_cons_of_forall_mem hpart separator hp,
        ih (List.cons_ne_nil next parts) fun q hq => h q (List.mem_cons_of_mem _ hq)]

/-- Items that are read back one by one are read back. -/
theorem mapM_map_of_forall {α β : Type} {read : β → Option α} {write : α → β} {items : List α}
    (h : ∀ x ∈ items, read (write x) = some x) : (items.map write).mapM read = some items := by
  induction items with
  | nil => rfl
  | cons x items ih =>
    rw [List.map_cons, List.mapM_cons, h x List.mem_cons_self,
      ih fun y hy => h y (List.mem_cons_of_mem _ hy)]
    rfl

theorem patternEnd?_intLiteral {n : Int} (hlo : -0x80000000 < n) (hhi : n < 0x80000000)
    (rest : Tokens) : patternEnd? (intLiteral n ++ rest) = some (n, rest) := by
  have hliteral : literalNumber? (toString n.natAbs) = some (n.natAbs : Int) := by
    rw [literalNumber?, Value.ofLiteral?_toString (by omega)]
  unfold intLiteral
  split
  · have hcode : op "-" ++ natLiteral n.natAbs ++ rest =
        .punct '-' .alone :: .literal (toString n.natAbs) :: rest := rfl
    rw [hcode, patternEnd?, hliteral, Option.map_some]
    congr 2
    omega
  · have hcode : natLiteral n.natAbs ++ rest = .literal (toString n.natAbs) :: rest := rfl
    rw [hcode, patternEnd?, hliteral, Option.map_some]
    congr 2
    omega

theorem patternRange?_rangePattern {range : Int × Int} (hrange : InUniverse range) :
    patternRange? (CharSet.rangePattern range) = some range := by
  obtain ⟨lo, hi⟩ := range
  obtain ⟨hlo, hle, hhi⟩ := hrange
  simp only [eof, maxChar] at hlo hle hhi
  have hfirst : ∀ rest, patternEnd? (intLiteral lo ++ rest) = some (lo, rest) :=
    patternEnd?_intLiteral (by omega) (by omega)
  have hlast := patternEnd?_intLiteral (n := hi) (by omega) (by omega) []
  rw [List.append_nil] at hlast
  unfold CharSet.rangePattern
  by_cases heq : lo = hi
  · have hend := hfirst []
    rw [List.append_nil] at hend
    rw [if_pos heq, patternRange?, hend, heq]
  · have hdots : op "..=" ++ intLiteral hi =
        .punct '.' .joint :: .punct '.' .joint :: .punct '=' .alone :: intLiteral hi := rfl
    rw [if_neg heq, List.append_assoc, hdots, patternRange?, hfirst]
    simp only [hlast, if_pos hle]

theorem isPunct_intLiteral {n : Int} {c : Char} (hc : c ≠ '-') :
    ∀ token ∈ intLiteral n, token.isPunct c = false := by
  have hminus : op "-" = [.punct '-' .alone] := rfl
  unfold intLiteral
  split <;> simp [hminus, natLiteral, literal, Token.isPunct, Ne.symm hc]

theorem isPunct_rangePattern (range : Int × Int) :
    ∀ token ∈ CharSet.rangePattern range, token.isPunct '|' = false := by
  have hdots : op "..=" = [.punct '.' .joint, .punct '.' .joint, .punct '=' .alone] := rfl
  have hend : ∀ n : Int, ∀ token ∈ intLiteral n, token.isPunct '|' = false :=
    fun n => isPunct_intLiteral (by decide)
  unfold CharSet.rangePattern
  split
  · exact hend _
  · intro token htoken
    rcases List.mem_append.1 htoken with htoken | htoken
    · rcases List.mem_append.1 htoken with htoken | htoken
      · exact hend _ token htoken
      · rw [hdots] at htoken
        simp only [List.mem_cons, List.not_mem_nil, or_false] at htoken
        rcases htoken with rfl | rfl | rfl <;> rfl
    · exact hend _ token htoken

/-- **The pattern of a set.** It accepts the ranges of the set. -/
theorem patternRanges?_pattern {s : CharSet} (hne : s.isEmpty = false) :
    patternRanges? s.pattern = some s.ranges := by
  have hbar : op "|" = [.punct '|' .alone] := rfl
  have hparts : s.ranges.map CharSet.rangePattern ≠ [] := by
    simpa [CharSet.isEmpty] using hne
  unfold patternRanges? CharSet.pattern
  rw [hbar, splitOnP_intercalate rfl hparts]
  · exact mapM_map_of_forall fun range hrange => patternRange?_rangePattern (s.inUniverse range hrange)
  · intro part hpart
    obtain ⟨range, -, rfl⟩ := List.mem_map.1 hpart
    exact isPunct_rangePattern range

/-! ## Lists of ranges -/

def pair? : Tokens → Option (Int × Int)
  | [.group .parenthesis body] =>
    match (body.splitOnP (Token.isPunct ',')).map (evaluate fun _ => none) with
    | [some (.int lo), some (.int hi)] => some (lo, hi)
    | _ => none
  | _ => none

def list? : Tokens → Option (List (Int × Int))
  | [.punct '&' _, .group .bracket body] =>
    if body.isEmpty then some [] else (body.splitOnP (Token.isPunct ',')).mapM pair?
  | _ => none

/-- The value of the constant of this name, if the member declares it as a list of ranges. -/
def constant? (name : String) : Tokens → Option Tokens
  | [.ident "const", .ident declared, .punct ':' _, .punct '&' _, .punct '\'' _, .ident "static",
      .group .bracket [.group .parenthesis [.ident "i32", .punct ',' _, .ident "i32"]],
      .punct '=' _, .punct '&' spacing, .group .bracket body, .punct ';' _] =>
    if declared = name then some [.punct '&' spacing, .group .bracket body] else none
  | _ => none

/-- The ranges that an expression stands for in code with these members: a list, or the name of a
table. -/
def rangesOf? (members : List Tokens) : Tokens → Option (List (Int × Int))
  | [.ident "Self", .punct ':' .joint, .punct ':' _, .ident name] =>
    (members.findSome? (constant? name)).bind list?
  | code => list? code

theorem isPunct_charCode (n : Int) : ∀ token ∈ charCode n, token.isPunct ',' = false := by
  unfold charCode
  split
  · simp [literal, words, Token.isPunct]
  · exact isPunct_intLiteral (by decide)

theorem pair?_parens {range : Int × Int} (hrange : InUniverse range) :
    pair? (parens (charCode range.1 ++ op "," ++ charCode range.2)) = some range := by
  obtain ⟨hlo, hle, hhi⟩ := hrange
  have hfirst : evaluate (fun _ => none) (charCode range.1) = some (.int range.1) :=
    (charCode_hasValue hlo (by omega)).comparison.conjunction.evaluate
  have hlast : evaluate (fun _ => none) (charCode range.2) = some (.int range.2) :=
    (charCode_hasValue (by omega) hhi).comparison.conjunction.evaluate
  have hparts : ∀ part ∈ [charCode range.1, charCode range.2], ∀ token ∈ part,
      token.isPunct ',' = false := by
    simp only [List.mem_cons, List.not_mem_nil, or_false, forall_eq_or_imp, forall_eq]
    exact ⟨isPunct_charCode _, isPunct_charCode _⟩
  have hcomma : charCode range.1 ++ op "," ++ charCode range.2 =
      [.punct ',' .alone].intercalate [charCode range.1, charCode range.2] := by
    rw [List.intercalate_cons_cons, List.intercalate_singleton]
    rfl
  rw [parens, pair?, hcomma, splitOnP_intercalate rfl (List.cons_ne_nil _ _) hparts, List.map_cons,
    List.map_singleton, hfirst, hlast]

theorem list?_intercalate {ranges : List (Int × Int)} {code : Int × Int → Tokens}
    (hgroup : ∀ range, ∃ body, code range = parens body)
    (hpair : ∀ range ∈ ranges, pair? (code range) = some range) :
    list? (op "&" ++ brackets ((op ",").intercalate (ranges.map code))) = some ranges := by
  have hcode : op "&" ++ brackets ((op ",").intercalate (ranges.map code)) =
      [.punct '&' .alone, .group .bracket ([.punct ',' .alone].intercalate (ranges.map code))] := rfl
  have hparts : ∀ part ∈ ranges.map code, ∀ token ∈ part, token.isPunct ',' = false := by
    intro part hpart
    obtain ⟨range, -, rfl⟩ := List.mem_map.1 hpart
    obtain ⟨body, hbody⟩ := hgroup range
    simp [hbody, parens, Token.isPunct]
  rw [hcode, list?]
  cases ranges with
  | nil => rfl
  | cons range ranges =>
    have hbody : ([.punct ',' .alone].intercalate ((range :: ranges).map code)).isEmpty = false := by
      obtain ⟨body, hbody⟩ := hgroup range
      rw [List.map_cons, hbody]
      cases ranges <;> rfl
    have hne : (range :: ranges).map code ≠ [] := List.cons_ne_nil _ _
    rw [hbody, if_neg Bool.false_ne_true, splitOnP_intercalate rfl hne hparts]
    exact mapM_map_of_forall hpair

/-- **The list of a set.** It holds the ranges of the set. -/
theorem list?_rangeList (s : CharSet) : list? s.rangeList = some s.ranges :=
  list?_intercalate (fun _ => ⟨_, rfl⟩) fun range hrange => pair?_parens (s.inUniverse range hrange)

theorem rangesOf?_rangeList (members : List Tokens) (s : CharSet) :
    rangesOf? members s.rangeList = some s.ranges := by
  rw [← list?_rangeList]
  rfl

/-! ## Tables -/

theorem tableName_inj {i j : Nat} : tableName i = tableName j ↔ i = j := by
  refine ⟨fun h => ?_, fun h => by rw [h]⟩
  have hlist := congrArg String.toList h
  rw [tableName, tableName, String.toList_append, String.toList_append,
    List.append_cancel_left_eq] at hlist
  exact toString_nat_injective (String.toList_inj.1 hlist)

theorem constant?_member (name : String) (index : Nat) (s : CharSet) :
    constant? name (Tables.member index s) =
      if tableName index = name then some s.rangeList else none := rfl

theorem findSome?_constant? {sets : List CharSet} {index : Nat} {s : CharSet} (start : Nat)
    (h : sets[index]? = some s) :
    (sets.mapIdx fun i t => Tables.member (start + i) t).findSome?
      (constant? (tableName (start + index))) = some s.rangeList := by
  induction sets generalizing index start with
  | nil => cases h
  | cons t sets ih =>
    rw [List.mapIdx_cons, List.findSome?_cons, constant?_member]
    cases index with
    | zero =>
      cases h
      rw [if_pos rfl]
    | succ index =>
      have hne : tableName (start + 0) ≠ tableName (start + (index + 1)) := by
        rw [ne_eq, tableName_inj]
        omega
      have hnext := ih (start + 1) h
      simp only [Nat.add_right_comm start 1] at hnext
      rw [if_neg hne]
      exact hnext

/-- A set has a table when it has more ranges than are written where it is used. -/
theorem refer_cases (tables : Tables) (s : CharSet) :
    (tables.refer s).1 = ⟨s, none⟩ ∨
      ∃ index, (tables.refer s).1 = ⟨s, some index⟩ ∧ (tables.refer s).2.sets[index]? = some s := by
  unfold Tables.refer
  split
  · exact Or.inl rfl
  · refine Or.inr ?_
    split
    · rename_i index hindex
      obtain ⟨hlt, hget, -⟩ := List.idxOf?_eq_some_iff.1 hindex
      exact ⟨index, rfl, by rw [List.getElem?_eq_getElem hlt, hget]⟩
    · exact ⟨_, rfl, List.getElem?_concat_length⟩

/-- **The reference to a set.** It stands for the ranges of the set, whatever tables are added later. -/
theorem rangesOf?_refer {tables later : Tables} {s : CharSet}
    (hlater : (tables.refer s).2.sets <+: later.sets) :
    rangesOf? later.members (tables.refer s).1.code = some s.ranges := by
  rcases refer_cases tables s with href | ⟨index, href, hget⟩
  · rw [href]
    exact rangesOf?_rangeList later.members s
  · obtain ⟨rest, hrest⟩ := hlater
    have hmember : later.sets[index]? = some s := by
      rw [← hrest, List.getElem?_append_left (List.getElem?_eq_some_iff.1 hget).1, hget]
    have hfound : later.members.findSome? (constant? (tableName index)) = some s.rangeList := by
      have h := findSome?_constant? 0 hmember
      simp only [Nat.zero_add] at h
      exact h
    have hcode : SetRef.code ⟨s, some index⟩ =
        [.ident "Self", .punct ':' .joint, .punct ':' .alone, .ident (tableName index)] := rfl
    rw [href, hcode, rangesOf?, hfound, Option.bind_some, list?_rangeList]

/-! ## All renderings -/

/-- The variables that hold lookahead are operands of comparisons. -/
theorem lookaheadVar_hasValue {env : String → Option Value} {offset : Nat} {v : Value}
    (h : env ("la" ++ toString offset) = some v) : HasValue env .cast (lookaheadVar offset) v := by
  have hne : ∀ {name : String}, name.toList.head? ≠ some 'l' → "la" ++ toString offset ≠ name := by
    rintro name hname rfl
    rw [String.toList_append] at hname
    exact hname rfl
  exact HasValue.word h ⟨hne (by decide), hne (by decide), hne (by decide)⟩

def patternAccepts? (code : Tokens) (n : Int) : Option Bool :=
  (patternRanges? code).map fun ranges => ranges.any fun range => range.1 ≤ n && n ≤ range.2

/-- **All renderings of a set agree.** Where an operand `la` holds a terminal, the test of the set, its
pattern, its list of ranges and any reference to it say whether the terminal is in the set, and so does
the test of the set that was widened by what is covered, for terminals that are not covered. -/
theorem CharSet.renderings_agree (s : CharSet) {env : String → Option Value} {la : Tokens} {c : Int}
    (hc : IsTerminal c) (hla : HasValue env .cast la (.int c)) :
    evaluate env (s.testCode la) = some (.bool (s.contains c)) ∧
    (s.isEmpty = false → patternAccepts? s.pattern c = some (s.contains c)) ∧
    (rangesOf? [] s.rangeList).map (inSet · c) = some (s.contains c) ∧
    (∀ tables later : Tables, (tables.refer s).2.sets <+: later.sets →
      (rangesOf? later.members (tables.refer s).1.code).map (inSet · c) = some (s.contains c)) ∧
    ∀ covered : CharSet,
      (covered.contains c = false →
        evaluate env ((s.optimize covered).testCode la) = some (.bool (s.contains c))) ∧
      (s.contains c = false → covered.contains c = false →
        evaluate env ((s.optimize covered).testCode la) = some (.bool false)) := by
  have hwidened : ∀ covered : CharSet, covered.contains c = false →
      evaluate env ((s.optimize covered).testCode la) = some (.bool (s.contains c)) := by
    intro covered hcovered
    rw [evaluate_testCode hc hla, CharSet.contains_optimize hcovered]
  refine ⟨evaluate_testCode hc hla s, ?_, ?_, ?_, ?_⟩
  · intro hne
    rw [patternAccepts?, patternRanges?_pattern hne]
    rfl
  · rw [rangesOf?_rangeList]
    rfl
  · intro tables later hlater
    rw [rangesOf?_refer hlater]
    rfl
  · intro covered
    refine ⟨hwidened covered, fun hs hcovered => ?_⟩
    rw [hwidened covered hcovered, hs]

/-- The vowels, which have too many ranges to be written where they are used. -/
def vowels : CharSet where
  ranges := [(97, 97), (101, 101), (105, 105), (111, 111), (117, 117)]
  canonical := by simp [Canonical, eof, maxChar]

/-- The variable `la0` holds the letter e. -/
def letterE (name : String) : Option Value :=
  if name = "la0" then some (.int 101) else none

theorem vowels_renderings_agree :
    evaluate letterE (vowels.testCode (lookaheadVar 0)) = some (.bool true) ∧
    patternAccepts? vowels.pattern 101 = some true ∧
    (rangesOf? [] vowels.rangeList).map (inSet · 101) = some true ∧
    (rangesOf? (Tables.members ⟨[vowels, .everything]⟩) (Tables.empty.refer vowels).1.code).map
      (inSet · 101) = some true ∧
    evaluate letterE ((vowels.optimize .endOfInput).testCode (lookaheadVar 0)) =
      some (.bool true) ∧
    evaluate letterE ((CharSet.endOfInput.optimize .empty).testCode (lookaheadVar 0)) =
      some (.bool false) := by
  have hc : IsTerminal 101 := ⟨by decide, by decide⟩
  have hla : HasValue letterE .cast (lookaheadVar 0) (.int 101) := lookaheadVar_hasValue rfl
  have hin : vowels.contains 101 = true := by decide
  obtain ⟨htest, hpattern, hlist, htable, hoptimize⟩ := CharSet.renderings_agree vowels hc hla
  obtain ⟨-, -, -, -, hnone⟩ := CharSet.renderings_agree .endOfInput hc hla
  rw [hin] at htest hpattern hlist
  have htables := htable .empty ⟨[vowels, .everything]⟩ ⟨[.everything], rfl⟩
  have hwidened := (hoptimize .endOfInput).1 (by decide)
  rw [hin] at htables hwidened
  exact ⟨htest, hpattern rfl, hlist, htables, hwidened, (hnone .empty).2 (by decide) (by decide)⟩

end PredictiveParser
