import PredictiveParser.Method.Helper
import PredictiveParser.Proofs.Code.Idents
import PredictiveParser.Proofs.Method.SetCode
import PredictiveParser.Proofs.Success

/-!
# Tables of a batch

The helper keeps the sets with their numbers beside the constants that it wrote for them. Both follow from
the sets alone (`Helper.Holds`), which are different ones, so a number stands for one set and a set for
one number. A batch only adds sets behind those there are, so what was said of an answer stays true until
the constants are taken (`Helper.run_holds`).

`Helper.tables_consistent` is about any batch of a helper that wrote other batches before: the tables which
its code names are the constants that are taken behind it.
-/
namespace PredictiveParser

open Template Tokens

/-! ## Names of tables in code -/

def isTableName (name : String) : Bool :=
  "SET".toList.isPrefixOf name.toList

theorem isTableName_tableName (n : Nat) : isTableName (tableName n) = true := by
  simp [isTableName, tableName]

def tableNames (code : Tokens) : List String :=
  (idents code).filter isTableName

section

variable {name : String} {code code' separator : Tokens} {codes : List Tokens}

theorem mem_tableNames : name ∈ tableNames code ↔ name ∈ idents code ∧ isTableName name = true :=
  List.mem_filter

theorem not_mem_tableNames (h : tableNames code = []) : name ∉ tableNames code := by
  rw [h]
  exact List.not_mem_nil

theorem tableNames_append : tableNames (code ++ code') = tableNames code ++ tableNames code' := by
  simp [tableNames]

theorem tableNames_intercalate (hseparator : idents separator = [])
    (h : ∀ code ∈ codes, tableNames code = []) : tableNames (separator.intercalate codes) = [] := by
  rw [tableNames, idents_intercalate hseparator, List.filter_flatMap, List.flatMap_eq_nil_iff]
  exact h

theorem tableNames_charCode (c : Int) : tableNames (charCode c) = [] := by
  unfold charCode
  split <;> simp +decide [tableNames]

theorem tableNames_pattern (set : CharSet) : tableNames set.pattern = [] := by
  refine tableNames_intercalate (idents_op _) fun code hcode => ?_
  obtain ⟨range, -, rfl⟩ := List.mem_map.1 hcode
  unfold CharSet.rangePattern
  split <;> simp [tableNames]

theorem tableNames_rangeList (set : CharSet) : tableNames set.rangeList = [] := by
  have hpairs : tableNames ((op ",").intercalate (set.ranges.map fun range =>
      parens (charCode range.1 ++ op "," ++ charCode range.2))) = [] := by
    refine tableNames_intercalate (idents_op _) fun code hcode => ?_
    obtain ⟨range, -, rfl⟩ := List.mem_map.1 hcode
    have hfirst := tableNames_charCode range.1
    have hlast := tableNames_charCode range.2
    unfold tableNames at hfirst hlast ⊢
    simp [hfirst, hlast]
  rw [CharSet.rangeList, tableNames_append, tableNames, tableNames, idents_op, idents_brackets]
  exact hpairs

/-- **The reference to a set** names its table, if it has one. -/
theorem tableNames_setRef (ref : SetRef) :
    tableNames ref.code = (ref.table.map tableName).toList := by
  unfold SetRef.code
  split
  · rename_i number hnumber
    have hself : isTableName "Self" = false := by decide
    rw [hnumber]
    simp [tableNames, hself, isTableName_tableName]
  · rename_i hnone
    rw [hnone, tableNames_rangeList]
    rfl

theorem tableNames_terminalCode (ref : SetRef) (form : Form) :
    tableNames (Helper.terminalCode ref form) = tableNames ref.code := by
  cases form with
  | parser => simp +decide [Helper.terminalCode, matchExpr, tableNames]
  | recognizer => simp +decide [Helper.terminalCode, recognizeCode, requireCode, returnFalse, tableNames]

theorem tableNames_unexpectedCode (ref : SetRef) :
    tableNames (unexpectedCode ref) = tableNames ref.code := by
  simp +decide [unexpectedCode, tableNames]

end

/-! ## Requests -/

namespace Request

/-- The set that a request is about, when its code tells whether a terminal is in the set. -/
def set? : Request → Option CharSet
  | .terminal set _ => some set
  | .unexpected covered => some covered
  | _ => none

def given : Request → List String
  | .method rule form body =>
    rule.methodName form :: (idents rule.valueType ++ idents rule.valueCode ++ idents body)
  | .check _ expression _ => idents expression
  | .switch _ _ codes fallback la => codes.flatMap idents ++ (idents fallback ++ idents la)
  | .callRule rule => [rule.name]
  | .callRecognizer name => [name]
  | .tryRecognizer name => [name]
  | _ => []

/-- In its answer to the request the helper names the table `n`, a name that was not handed in. -/
def Names (request : Request) (answer : Except Fault Answer) (n : Nat) : Prop :=
  ∃ code, answer = .ok (.code code) ∧ tableName n ∈ idents code ∧ tableName n ∉ request.given

end Request

/-! ## Code that is put around other code -/

section

variable {name : String} {code : Tokens}

/-- **A method** names what its rule and its body name. -/
theorem mem_given_of_methodCode {rule : Rule} {form : Form} {body : Tokens}
    (h : rule.methodCode form body = .ok code) (hname : name ∈ tableNames code) :
    name ∈ (Request.method rule form body).given := by
  obtain ⟨checked, hchecked, h⟩ := bind_eq_ok.1 h
  cases pure_eq_ok.1 h
  cases checkedName_eq_ok hchecked
  obtain ⟨hname, htable⟩ := mem_tableNames.1 hname
  have hother : ∀ names : List String, names.all (!isTableName ·) = true → name ∉ names := by
    intro names hall hm
    have hno := List.all_eq_true.1 hall name hm
    rw [htable] at hno
    cases hno
  have hattribute := hother (idents allowAttribute) (by decide)
  have hvisible : name ∉ idents (if rule.isPrivate then [] else word "pub") := by
    split
    · exact hother _ (by decide)
    · exact hother _ (by decide)
  cases form with
  | parser =>
    have hwords := hother ["fn", "mut", "self", "parsegen", "Result", "Ok"] (by decide)
    simp only [List.mem_cons, List.not_mem_nil, or_false, not_or] at hwords
    simpa [Request.given, Rule.returnType, Rule.finalCode, hattribute, hvisible, hwords, or_assoc,
      or_comm, or_left_comm] using hname
  | recognizer =>
    have hwords := hother ["fn", "mut", "self", "bool", "true"] (by decide)
    simp only [List.mem_cons, List.not_mem_nil, or_false, not_or] at hwords
    have hnames : name = rule.methodName .recognizer ∨ name ∈ idents body := by
      simpa [Rule.returnType, Rule.finalCode, hattribute, hvisible, hwords] using hname
    rcases hnames with rfl | hbody
    · exact List.mem_cons_self
    · exact List.mem_cons_of_mem _ (List.mem_append_right _ hbody)

theorem tableNames_checkCode (negate : Bool) (expression : Tokens) :
    tableNames (checkCode negate expression) = tableNames expression := by
  cases negate <;> simp [checkCode, tableNames]

theorem tableNames_requireCheck (form : Form) (test : Tokens) :
    tableNames (requireCheck form test) = tableNames test := by
  cases form with
  | parser => simp +decide [requireCheck, requireCode, stringLiteral, tableNames]
  | recognizer => simp +decide [requireCheck, requireCode, returnFalse, tableNames]

/-- The code of cases that are taken from others. -/
theorem mem_idents_renderCases {cases : List (CharSet × List Stmt)}
    (h : name ∈ tableNames (Stmt.renderCases cases)) :
    ∃ entry ∈ cases, name ∈ idents (Stmt.renderAll entry.2) := by
  induction cases with
  | nil => cases h
  | cons entry rest ih =>
    obtain ⟨set, body⟩ := entry
    rw [Stmt.renderCases, tableNames_append, tableNames_append, tableNames_append, tableNames_pattern,
      List.nil_append, List.mem_append, List.mem_append] at h
    rcases h with (harrow | hbody) | hrest
    · cases harrow
    · have hmem := (mem_tableNames.1 hbody).1
      rw [idents_braces] at hmem
      exact ⟨(set, body), List.mem_cons_self, hmem⟩
    · obtain ⟨entry, hentry, hmem⟩ := ih hrest
      exact ⟨entry, List.mem_cons_of_mem _ hentry, hmem⟩

theorem idents_renderAll_code (code : Tokens) :
    idents (Stmt.renderAll [.snippet (.code code)]) = idents code := by
  rw [Stmt.renderAll, Stmt.renderAll, Stmt.render, List.append_nil]
  rfl

theorem exists_code_of_mem_caseCodes {cases : List Nat} {sets : List CharSet} {codes : List Tokens}
    {entry : CharSet × List Stmt}
    (h : entry ∈ caseCodes cases sets (codes.map fun code => [.snippet (.code code)])) :
    ∃ code ∈ codes, entry.2 = [.snippet (.code code)] := by
  obtain ⟨⟨pair, index⟩, hmem, rfl⟩ := List.mem_map.1 h
  have hzip := List.fst_mem_of_mem_zipIdx (List.mem_filter.1 hmem).1
  obtain ⟨code, hcode, hbody⟩ := List.mem_map.1 (List.of_mem_zip hzip).2
  exact ⟨code, hcode, hbody.symm⟩

/-- **A multi-way branch** names what the code handed in names. -/
theorem mem_given_of_switchCode {sets : List CharSet} {cases : List Nat} {codes : List Tokens}
    {fallback la : Tokens} (h : Helper.switchCode sets cases codes fallback la = .ok code)
    (hname : name ∈ tableNames code) :
    name ∈ (Request.switch sets cases codes fallback la).given := by
  obtain ⟨stmt, hstmt, h⟩ := bind_eq_ok.1 h
  cases pure_eq_ok.1 h
  unfold switchOf at hstmt
  split at hstmt
  · cases hstmt
  · cases hstmt
    rw [Stmt.render, tableNames_append, tableNames_append, List.mem_append, List.mem_append] at hname
    simp only [Request.given, List.mem_append, List.mem_flatMap]
    rcases hname with (hmatch | hla) | hbody
    · exact absurd hmatch (not_mem_tableNames (by decide))
    · exact Or.inr (Or.inr (mem_tableNames.1 hla).1)
    · obtain ⟨hbody, htable⟩ := mem_tableNames.1 hbody
      rw [idents_braces, idents_append, List.mem_append] at hbody
      rcases hbody with hcases | hfallback
      · obtain ⟨entry, hentry, hmem⟩ := mem_idents_renderCases (mem_tableNames.2 ⟨hcases, htable⟩)
        obtain ⟨code, hcode, hentry⟩ := exists_code_of_mem_caseCodes hentry
        rw [hentry, idents_renderAll_code] at hmem
        exact Or.inl ⟨code, hcode, hmem⟩
      · rw [idents_append, idents_append, idents_braces, idents_renderAll_code, List.mem_append,
          List.mem_append] at hfallback
        rcases hfallback with (harm | harrow) | hfallback
        · exact absurd (mem_tableNames.2 ⟨harm, htable⟩) (not_mem_tableNames (by decide))
        · cases harrow
        · exact Or.inr (Or.inl hfallback)

end

/-! ## One request -/

theorem map_code_eq_ok {x : Except Fault Tokens} {code : Tokens}
    (h : Answer.code <$> x = .ok (.code code)) : x = .ok code := by
  cases x with
  | error fault => cases h
  | ok code' =>
    cases h
    rfl

/-- Code that is made from a checked name names no other table. -/
theorem mem_of_map_checkedName {make : String → Tokens} {name table : String} {code : Tokens}
    (hmake : tableNames (make name) = [name].filter isTableName)
    (h : (fun name => Answer.code (make name)) <$> checkedName name = .ok (.code code))
    (htable : table ∈ tableNames code) : table ∈ [name] := by
  rcases checkedName_cases name with hname | ⟨fault, hname⟩
  · rw [hname] at h
    cases h
    rw [hmake] at htable
    exact List.mem_of_mem_filter htable
  · rw [hname] at h
    cases h

namespace Helper

/-- **What an answer may do.** It refers to the set of the request, or names only what was handed in and
leaves the tables as they are. -/
theorem answer_cases (helper : Helper) (request : Request) :
    (∃ set code, request.set? = some set ∧ request.given = [] ∧
      helper.answer request = (.ok (.code code), (helper.refer set).2) ∧
      tableNames code = tableNames (helper.refer set).1.code) ∨
    (∃ form answer, helper.answer request = (answer, { helper with form }) ∧
      (request.set? = none ∨ answer = .ok (.code returnFalse)) ∧
      ∀ code, answer = .ok (.code code) → ∀ name ∈ tableNames code, name ∈ request.given) := by
  have hnothing : ∀ {code code' : Tokens} {names : List String}, tableNames code = [] →
      (.ok (.code code) : Except Fault Answer) = .ok (.code code') →
      ∀ name ∈ tableNames code', name ∈ names := by
    intro code code' names hnone h name hname
    cases h
    exact absurd hname (not_mem_tableNames hnone)
  cases request with
  | terminal set form => exact Or.inl ⟨set, _, rfl, rfl, rfl, tableNames_terminalCode _ form⟩
  | unexpected covered =>
    cases hform : helper.form with
    | parser =>
      refine Or.inl ⟨covered, unexpectedCode (helper.refer covered).1, rfl, rfl, ?_,
        tableNames_unexpectedCode _⟩
      simp only [answer, hform]
    | recognizer =>
      have hanswer : helper.answer (.unexpected covered) = (.ok (.code returnFalse), helper) := by
        simp only [answer, hform]
      exact Or.inr ⟨helper.form, _, hanswer, Or.inr rfl, fun _ => hnothing (by decide)⟩
  | begin form => exact Or.inr ⟨form, _, rfl, Or.inl rfl, nofun⟩
  | method rule form body =>
    exact Or.inr ⟨helper.form, _, rfl, Or.inl rfl, fun code h name hname =>
      mem_given_of_methodCode (map_code_eq_ok h) hname⟩
  | skip => exact Or.inr ⟨helper.form, _, rfl, Or.inl rfl, fun _ => hnothing (by decide)⟩
  | check negate expression predict =>
    refine Or.inr ⟨helper.form, _, rfl, Or.inl rfl, fun code h name hname => ?_⟩
    cases h
    have hnames : name ∈ tableNames expression := by
      cases predict with
      | true => rwa [if_pos rfl, tableNames_checkCode] at hname
      | false => rwa [if_neg Bool.false_ne_true, tableNames_requireCheck, tableNames_checkCode] at hname
    exact (mem_tableNames.1 hnames).1
  | cases sets given => exact Or.inr ⟨helper.form, _, rfl, Or.inl rfl, nofun⟩
  | switch sets cases codes fallback la =>
    exact Or.inr ⟨helper.form, _, rfl, Or.inl rfl, fun code h name hname =>
      mem_given_of_switchCode (map_code_eq_ok h) hname⟩
  | lookahead offset =>
    refine Or.inr ⟨helper.form, _, rfl, Or.inl rfl, fun _ => hnothing ?_⟩
    simp +decide [lookaheadCall, natLiteral, tableNames]
  | lookaheadType => exact Or.inr ⟨helper.form, _, rfl, Or.inl rfl, fun _ => hnothing (by decide)⟩
  | callRule rule =>
    exact Or.inr ⟨helper.form, _, rfl, Or.inl rfl, fun code h name hname =>
      mem_of_map_checkedName (by simp +decide [callExpr, tableNames]) h hname⟩
  | callRecognizer method =>
    exact Or.inr ⟨helper.form, _, rfl, Or.inl rfl, fun code h name hname =>
      mem_of_map_checkedName (by simp +decide [recognizerExpr, tableNames]) h hname⟩
  | tryRecognizer method =>
    exact Or.inr ⟨helper.form, _, rfl, Or.inl rfl, fun code h name hname =>
      mem_of_map_checkedName (by simp +decide [CheckCode.code, tableNames]) h hname⟩

end Helper

/-! ## The tables that the helper holds -/

/-- A set is written where it is used, or has a table, or gets the next one. -/
theorem Tables.refer_eq (tables : Tables) (set : CharSet) :
    (set.ranges.length ≤ inlineRanges ∧ tables.refer set = (⟨set, none⟩, tables)) ∨
    (inlineRanges < set.ranges.length ∧ ∃ n, tables.sets[n]? = some set ∧
      tables.refer set = (⟨set, some n⟩, tables)) ∨
    (inlineRanges < set.ranges.length ∧ set ∉ tables.sets ∧
      tables.refer set = (⟨set, some tables.sets.length⟩, ⟨tables.sets ++ [set]⟩)) := by
  unfold Tables.refer
  split
  · rename_i hshort
    exact Or.inl ⟨hshort, rfl⟩
  · rename_i hlong
    refine Or.inr ?_
    split
    · rename_i n hn
      obtain ⟨hlt, hget, -⟩ := List.idxOf?_eq_some_iff.1 hn
      exact Or.inl ⟨Nat.lt_of_not_le hlong, n, by rw [List.getElem?_eq_getElem hlt, hget], rfl⟩
    · rename_i hn
      exact Or.inr ⟨Nat.lt_of_not_le hlong, List.idxOf?_eq_none_iff.1 hn, rfl⟩

theorem find?_zipIdx {α : Type} [DecidableEq α] (x : α) (xs : List α) (start : Nat) :
    (xs.zipIdx start).find? (fun entry => entry.1 = x) =
      (xs.idxOf? x).map fun i => (x, start + i) := by
  induction xs generalizing start with
  | nil => rfl
  | cons y rest ih =>
    rw [List.zipIdx_cons, List.find?_cons, List.idxOf?_cons]
    by_cases h : y = x
    · simp [h]
    · simp [h, ih, Nat.add_comm 1, Nat.add_assoc]
      rfl

namespace Helper

/-- What the helper keeps are these tables. -/
structure Holds (helper : Helper) (tables : Tables) : Prop where
  numbered : helper.tables = tables.sets.zipIdx
  members : helper.members = tables.members
  distinct : tables.sets.Nodup

variable {helper : Helper} {tables : Tables}

theorem holds_ofOptions (options : Options) : (ofOptions options).Holds .empty :=
  ⟨rfl, rfl, List.nodup_nil⟩

theorem Holds.withForm (h : helper.Holds tables) (form : Form) :
    { helper with form }.Holds tables :=
  ⟨h.numbered, h.members, h.distinct⟩

theorem Holds.takeMembers (_ : helper.Holds tables) : helper.takeMembers.2.Holds .empty :=
  ⟨rfl, rfl, List.nodup_nil⟩

/-- The helper refers to a set as its tables do. -/
theorem Holds.refer (h : helper.Holds tables) (set : CharSet) :
    (helper.refer set).1 = (tables.refer set).1 ∧ (helper.refer set).2.Holds (tables.refer set).2 := by
  have hfound := find?_zipIdx set tables.sets 0
  rw [← h.numbered] at hfound
  have hcount : helper.tables.length = tables.sets.length := by rw [h.numbered, List.length_zipIdx]
  unfold Helper.refer Tables.refer
  split
  · exact ⟨rfl, h⟩
  · cases hindex : tables.sets.idxOf? set with
    | some n =>
      rw [hindex, Option.map_some, Nat.zero_add] at hfound
      rw [hfound]
      exact ⟨rfl, h⟩
    | none =>
      rw [hindex, Option.map_none] at hfound
      rw [hfound, hcount]
      refine ⟨rfl, ?_, ?_, ?_⟩
      · rw [List.zipIdx_append, ← h.numbered]
        simp
      · rw [h.members]
        simp [Tables.members, List.mapIdx_append]
      · exact List.Nodup.append h.distinct (List.nodup_singleton set)
          (List.disjoint_singleton.2 (List.idxOf?_eq_none_iff.1 hindex))

end Helper

/-! ## Requests one after the other -/

/-- A request with its answer. -/
abbrev Exchange := Request × Except Fault Answer

/-- The answer names the table `n`, where these tables have the set that was asked for. -/
structure Exchange.Refers (exchange : Exchange) (tables : Tables) (n : Nat) (set : CharSet) : Prop where
  named : exchange.1.Names exchange.2 n
  asked : exchange.1.set? = some set
  long : inlineRanges < set.ranges.length
  found : tables.sets[n]? = some set

theorem Exchange.Refers.extend {exchange : Exchange} {tables tables' : Tables} {n : Nat} {set : CharSet}
    (h : exchange.Refers tables n set) (hsets : tables.sets <+: tables'.sets) :
    exchange.Refers tables' n set := by
  obtain ⟨rest, hrest⟩ := hsets
  refine ⟨h.named, h.asked, h.long, ?_⟩
  rw [← hrest, List.getElem?_append_left (List.getElem?_eq_some_iff.1 h.found).1, h.found]

namespace Helper

/-- What these requests with their answers have to do with the tables before and behind them. -/
structure Kept (tables : Tables) (exchanges : List Exchange) (tables' : Tables) : Prop where
  extended : tables.sets <+: tables'.sets
  /-- A table that is named is that of the set which was asked for. -/
  named : ∀ exchange ∈ exchanges, ∀ n, exchange.1.Names exchange.2 n →
    ∃ set, exchange.Refers tables' n set
  /-- A set with many ranges is referred to by a table, unless the code does not depend on it. -/
  written : ∀ exchange ∈ exchanges, ∀ set, exchange.1.set? = some set →
    inlineRanges < set.ranges.length →
    exchange.2 = .ok (.code returnFalse) ∨ ∃ n, exchange.1.Names exchange.2 n
  /-- A table that was not there before is referred to. -/
  added : ∀ n set, tables'.sets[n]? = some set →
    tables.sets[n]? = some set ∨ ∃ exchange ∈ exchanges, exchange.Refers tables' n set

variable {helper : Helper} {tables tables' tables'' : Tables} {before after : List Exchange}

theorem Kept.nil (tables : Tables) : Kept tables [] tables :=
  ⟨List.prefix_rfl, List.forall_mem_nil _, List.forall_mem_nil _, fun _ _ h => Or.inl h⟩

theorem Kept.append (h : Kept tables before tables') (h' : Kept tables' after tables'') :
    Kept tables (before ++ after) tables'' := by
  refine ⟨h.extended.trans h'.extended, ?_, ?_, ?_⟩
  · intro exchange hm n hnames
    rcases List.mem_append.1 hm with hm | hm
    · obtain ⟨set, hset⟩ := h.named exchange hm n hnames
      exact ⟨set, hset.extend h'.extended⟩
    · exact h'.named exchange hm n hnames
  · intro exchange hm
    rcases List.mem_append.1 hm with hm | hm
    · exact h.written exchange hm
    · exact h'.written exchange hm
  · intro n set hset
    rcases h'.added n set hset with hset | ⟨exchange, hm, hrefers⟩
    · rcases h.added n set hset with hset | ⟨exchange, hm, hrefers⟩
      · exact Or.inl hset
      · exact Or.inr ⟨exchange, List.mem_append_left _ hm, hrefers.extend h'.extended⟩
    · exact Or.inr ⟨exchange, List.mem_append_right _ hm, hrefers⟩

/-- Code for a set names the table of its reference and no other. -/
theorem names_iff {request : Request} {code : Tokens} {ref : SetRef} (hgiven : request.given = [])
    (hcode : tableNames code = tableNames ref.code) (n : Nat) :
    request.Names (.ok (.code code)) n ↔ ref.table = some n := by
  have hidents : tableName n ∈ idents code ↔ ref.table = some n := by
    calc
      tableName n ∈ idents code ↔ tableName n ∈ tableNames code := by
        rw [mem_tableNames, and_iff_left (isTableName_tableName n)]
      _ ↔ ref.table = some n := by
        rw [hcode, tableNames_setRef, Option.mem_toList, Option.map_eq_some_iff]
        exact ⟨fun ⟨m, hm, hname⟩ => by rwa [tableName_inj.1 hname] at hm, fun h => ⟨n, h, rfl⟩⟩
  refine ⟨fun ⟨code', hcode', hm, _⟩ => ?_, fun h => ⟨code, rfl, hidents.2 h, ?_⟩⟩
  · cases hcode'
    exact hidents.1 hm
  · rw [hgiven]
    exact List.not_mem_nil

/-- The code for a set, when it gets its reference from these tables. -/
theorem kept_refer {request : Request} {set : CharSet} {code : Tokens} (tables : Tables)
    (hset : request.set? = some set) (hgiven : request.given = [])
    (hcode : tableNames code = tableNames (tables.refer set).1.code) :
    Kept tables [(request, .ok (.code code))] (tables.refer set).2 := by
  have hnames := names_iff hgiven hcode
  rcases tables.refer_eq set with ⟨hshort, href⟩ | ⟨hlong, n, hn, href⟩ | ⟨hlong, -, href⟩
  · rw [href] at hnames ⊢
    refine ⟨List.prefix_rfl, ?_, ?_, fun _ _ h => Or.inl h⟩
    · intro exchange hm n hn
      cases List.mem_singleton.1 hm
      cases (hnames n).1 hn
    · intro exchange hm set' hset' hlong
      cases List.mem_singleton.1 hm
      cases hset.symm.trans hset'
      exact absurd hlong (Nat.not_lt.2 hshort)
  · rw [href] at hnames ⊢
    refine ⟨List.prefix_rfl, ?_, ?_, fun _ _ h => Or.inl h⟩
    · intro exchange hm m hm'
      cases List.mem_singleton.1 hm
      cases (hnames m).1 hm'
      exact ⟨set, hm', hset, hlong, hn⟩
    · intro exchange hm _ _ _
      cases List.mem_singleton.1 hm
      exact Or.inr ⟨n, (hnames n).2 rfl⟩
  · rw [href] at hnames ⊢
    have hnew : (tables.sets ++ [set])[tables.sets.length]? = some set := List.getElem?_concat_length
    refine ⟨List.prefix_append _ _, ?_, ?_, ?_⟩
    · intro exchange hm m hm'
      cases List.mem_singleton.1 hm
      cases (hnames m).1 hm'
      exact ⟨set, hm', hset, hlong, hnew⟩
    · intro exchange hm _ _ _
      cases List.mem_singleton.1 hm
      exact Or.inr ⟨_, (hnames _).2 rfl⟩
    · intro n set' hset'
      by_cases hn : n < tables.sets.length
      · rw [List.getElem?_append_left hn] at hset'
        exact Or.inl hset'
      · have heq : n = tables.sets.length := by
          have hlt := (List.getElem?_eq_some_iff.1 hset').1
          rw [List.length_append, List.length_singleton] at hlt
          omega
        subst heq
        cases hnew.symm.trans hset'
        exact Or.inr ⟨_, List.mem_singleton_self _, (hnames _).2 rfl, hset, hlong, hnew⟩

/-- **One request.** -/
theorem Holds.answer (h : helper.Holds tables) (request : Request) :
    ∃ tables', (helper.answer request).2.Holds tables' ∧
      Kept tables [(request, (helper.answer request).1)] tables' := by
  rcases helper.answer_cases request with ⟨set, code, hset, hgiven, hanswer, hcode⟩ |
    ⟨form, answer, hanswer, hset, hgiven⟩
  · obtain ⟨href, hholds⟩ := h.refer set
    rw [hanswer]
    rw [href] at hcode
    exact ⟨_, hholds, kept_refer tables hset hgiven hcode⟩
  · rw [hanswer]
    refine ⟨tables, h.withForm form, List.prefix_rfl, ?_, ?_, fun _ _ h => Or.inl h⟩
    · intro exchange hm n hnames
      cases List.mem_singleton.1 hm
      obtain ⟨code, hcode, hname, hnot⟩ := hnames
      exact absurd (hgiven code hcode _ (mem_tableNames.2 ⟨hname, isTableName_tableName n⟩)) hnot
    · intro exchange hm set hset' _
      cases List.mem_singleton.1 hm
      rcases hset with hnone | hfalse
      · cases hnone.symm.trans hset'
      · exact Or.inl hfalse

/-- **Any number of requests.** -/
theorem Holds.run (h : helper.Holds tables) (requests : List Request) :
    ∃ tables', (helper.run requests).2.Holds tables' ∧
      Kept tables (requests.zip (helper.run requests).1) tables' := by
  induction requests generalizing helper tables with
  | nil => exact ⟨tables, h, .nil tables⟩
  | cons request rest ih =>
    obtain ⟨tables', hholds, hkept⟩ := h.answer request
    obtain ⟨tables'', hholds', hkept'⟩ := ih hholds
    exact ⟨tables'', hholds', hkept.append hkept'⟩

/-! ## Batches -/

theorem Holds.afterBatches (h : helper.Holds .empty) (batches : List (List Request)) :
    (helper.afterBatches batches).Holds .empty := by
  induction batches generalizing helper with
  | nil => exact h
  | cons batch rest ih =>
    obtain ⟨tables, hholds, -⟩ := h.run batch
    exact ih hholds.takeMembers

theorem switchThreshold_answer (helper : Helper) (request : Request) :
    (helper.answer request).2.switchThreshold = helper.switchThreshold := by
  have hrefer : ∀ set, (helper.refer set).2.switchThreshold = helper.switchThreshold := by
    intro set
    unfold Helper.refer
    split
    · rfl
    · split <;> rfl
  rcases helper.answer_cases request with ⟨set, code, -, -, hanswer, -⟩ | ⟨form, answer, hanswer, -, -⟩
  · rw [hanswer]
    exact hrefer set
  · rw [hanswer]

theorem switchThreshold_run (helper : Helper) (requests : List Request) :
    (helper.run requests).2.switchThreshold = helper.switchThreshold := by
  induction requests generalizing helper with
  | nil => rfl
  | cons request rest ih =>
    calc
      ((helper.answer request).2.run rest).2.switchThreshold =
          (helper.answer request).2.switchThreshold := ih _
      _ = helper.switchThreshold := switchThreshold_answer helper request

theorem switchThreshold_afterBatches (helper : Helper) (batches : List (List Request)) :
    (helper.afterBatches batches).switchThreshold = helper.switchThreshold := by
  induction batches generalizing helper with
  | nil => rfl
  | cons batch rest ih => exact (ih _).trans (switchThreshold_run helper batch)

theorem length_run (helper : Helper) (requests : List Request) :
    (helper.run requests).1.length = requests.length := by
  induction requests generalizing helper with
  | nil => rfl
  | cons request rest ih => exact congrArg (· + 1) (ih _)

theorem constant?_tableName (n i : Nat) (set : CharSet) :
    constant? (tableName n) (Tables.member i set) = if i = n then some set.rangeList else none := by
  rw [constant?_member]
  simp only [tableName_inj]

/-- The constants of a name are that of the table with this name. -/
theorem filterMap_constant? (sets : List CharSet) (n start : Nat) :
    (sets.mapIdx fun i set => Tables.member (start + i) set).filterMap
      (constant? (tableName (start + n))) = (sets[n]?.map CharSet.rangeList).toList := by
  induction sets generalizing n start with
  | nil => rfl
  | cons set rest ih =>
    have hrest : (rest.mapIdx fun i set => Tables.member (start + (i + 1)) set) =
        rest.mapIdx fun i set => Tables.member (start + 1 + i) set := by
      simp only [Nat.add_assoc, Nat.add_comm 1]
    rw [List.mapIdx_cons, List.filterMap_cons, constant?_tableName, hrest]
    cases n with
    | zero =>
      -- No later constant has the name of this one.
      have hnone : (rest.mapIdx fun i set => Tables.member (start + 1 + i) set).filterMap
          (constant? (tableName (start + 0))) = [] := by
        rw [List.filterMap_eq_nil_iff]
        intro constant hconstant
        obtain ⟨i, hi, rfl⟩ := List.mem_mapIdx.1 hconstant
        exact (constant?_tableName _ _ _).trans (if_neg (by omega))
      rw [if_pos rfl, hnone]
      rfl
    | succ n =>
      have hnext := ih n (start + 1)
      rw [Nat.add_assoc, Nat.add_comm 1] at hnext
      rw [if_neg (by omega), hnext]
      rfl

/-- What the code of a batch has to do with the constants that are taken behind it. -/
structure Consistent (batch : List Request) (answers : List (Except Fault Answer))
    (constants : List Tokens) : Prop where
  answered : answers.length = batch.length
  /-- A table that an answer names is declared once, with the ranges of the set that was asked for. -/
  defined : ∀ exchange ∈ batch.zip answers, ∀ n, exchange.1.Names exchange.2 n →
    ∃ set, exchange.1.set? = some set ∧ inlineRanges < set.ranges.length ∧
      constants.filterMap (constant? (tableName n)) = [set.rangeList]
  /-- Equal sets share a table, and different ones do not. -/
  shared : ∀ exchange ∈ batch.zip answers, ∀ exchange' ∈ batch.zip answers, ∀ n n',
    exchange.1.Names exchange.2 n → exchange'.1.Names exchange'.2 n' →
    (n = n' ↔ exchange.1.set? = exchange'.1.set?)
  /-- A set with many ranges is referred to by a table, unless the code does not depend on it. -/
  written : ∀ exchange ∈ batch.zip answers, ∀ set, exchange.1.set? = some set →
    inlineRanges < set.ranges.length →
    exchange.2 = .ok (.code returnFalse) ∨ ∃ n, exchange.1.Names exchange.2 n
  /-- The constants are numbered from zero, and each was asked for in this batch. -/
  fresh : ∀ n constant, constants[n]? = some constant → ∃ set, constant = Tables.member n set ∧
    ∃ exchange ∈ batch.zip answers, exchange.1.set? = some set ∧ exchange.1.Names exchange.2 n

theorem Kept.consistent {batch : List Request} {answers : List (Except Fault Answer)}
    (h : Kept .empty (batch.zip answers) tables) (hlength : answers.length = batch.length)
    (hdistinct : tables.sets.Nodup) : Consistent batch answers tables.members := by
  constructor
  case answered => exact hlength
  case defined =>
    intro exchange hm n hnames
    obtain ⟨set, hset⟩ := h.named exchange hm n hnames
    have hconstants := filterMap_constant? tables.sets n 0
    simp only [Nat.zero_add] at hconstants
    refine ⟨set, hset.asked, hset.long, hconstants.trans ?_⟩
    rw [hset.found]
    rfl
  case shared =>
    intro exchange hm exchange' hm' n n' hnames hnames'
    obtain ⟨set, hset⟩ := h.named exchange hm n hnames
    obtain ⟨set', hset'⟩ := h.named exchange' hm' n' hnames'
    rw [hset.asked, hset'.asked, Option.some.injEq]
    constructor
    · rintro rfl
      exact Option.some.inj (hset.found.symm.trans hset'.found)
    · rintro rfl
      exact (List.getElem?_inj (List.getElem?_eq_some_iff.1 hset.found).1 hdistinct).1
        (hset.found.trans hset'.found.symm)
  case written => exact h.written
  case fresh =>
    intro n constant hconstant
    rw [Tables.members, List.getElem?_mapIdx, Option.map_eq_some_iff] at hconstant
    obtain ⟨set, hset, rfl⟩ := hconstant
    rcases h.added n set hset with hnone | ⟨exchange, hm, hrefers⟩
    · cases hnone
    · exact ⟨set, rfl, exchange, hm, hrefers.asked, hrefers.named⟩

/-- **Tables are consistent.** Whatever a helper wrote before, the tables that the code of a batch names
are the constants taken behind it, each once and with the ranges of the set that the code is for. Equal sets
share a table and different ones do not. What is left is a helper without tables. -/
theorem tables_consistent (options : Options) (earlier : List (List Request)) (batch : List Request) :
    let helper := (ofOptions options).afterBatches earlier
    let helper' := (helper.run batch).2
    Consistent batch (helper.run batch).1 helper'.takeMembers.1 ∧
      helper'.takeMembers.2 = { ofOptions options with form := helper'.form } := by
  intro helper helper'
  have hstart : helper.Holds .empty := (holds_ofOptions options).afterBatches earlier
  obtain ⟨tables, hholds, hkept⟩ := hstart.run batch
  have hthreshold : helper'.switchThreshold = options.switchThreshold :=
    (switchThreshold_run helper batch).trans (switchThreshold_afterBatches _ earlier)
  constructor
  · have hconsistent := hkept.consistent (length_run helper batch) hholds.distinct
    rwa [← hholds.members] at hconsistent
  · show ({ helper' with tables := [], members := [] } : Helper) = _
    rw [hthreshold]
    rfl

/-- The vowels have a table in each batch, and one only. -/
example : ((((ofOptions .default).afterBatches [[.terminal vowels .parser]]).run
    [.terminal vowels .recognizer, .unexpected vowels]).2.takeMembers.1.map
      fun constant => (constant? "SET0" constant).isSome) = [true] := by
  decide

end Helper

end PredictiveParser
