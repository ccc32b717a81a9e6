import PredictiveParser.Proofs.Values.Declared

/-!
# Different references, different variables

A reference becomes its label, `got_` with the name of a rule, or a name that tells what it is made from:
`tok_` with a name, `tok__` with the last component of a path, `ch_` with a character, or `lit_` with the
text of another literal. So two references with different keys share a variable only if it is a label that
one of them names, or if they are made from sources that coincide (`VariableSource.Coincides`).

Sources are told apart by values and not by spellings: the characters `a` and `\x61` are one. Different
characters have different variables. Different texts have too, as long as the ends of their escapes can be
seen.
-/
namespace PredictiveParser

open VariableSource (ofLiteral? ofCode? ofReference?)

/-! ## Sources that coincide -/

namespace VariableSource

/-- Variables that are made from these have one name, though the references have different keys: paths with
the same end, equal characters, texts with equal escapes, or a path and a name that is its end behind an
underscore. -/
def Coincides : VariableSource → VariableSource → Prop
  | .component last, .component last' => last = last'
  | .name n, .component last => n = "_" ++ last
  | .component last, .name n => n = "_" ++ last
  | .character c, .character d => c = d
  | .text s, .text t => sanitize s = sanitize t
  | _, _ => False

variable {source source' : VariableSource}

/-- **Variables with one name** are made from one name, or their sources coincide. -/
theorem coincides_of_varName (h : source.varName = source'.varName) :
    source.Coincides source' ∨ ∃ n, source = .name n ∧ source' = .name n := by
  rw [varName_eq, varName_eq] at h
  have hmark := mark_unique source.mark_mem source'.mark_mem h
  have hmarked : source.marked = source'.marked := by rwa [hmark, String.append_right_inj] at h
  cases source with
  | name n =>
    cases source' with
    | name m => exact Or.inr ⟨n, rfl, congrArg name hmarked.symm⟩
    | component m => exact Or.inl hmarked
    | character d => simp [mark] at hmark
    | text t => simp [mark] at hmark
  | component n =>
    cases source' with
    | name m => exact Or.inl hmarked.symm
    | component m => exact Or.inl ((String.append_right_inj _).1 hmarked)
    | character d => simp [mark] at hmark
    | text t => simp [mark] at hmark
  | character c =>
    cases source' with
    | character d => exact Or.inl (sanitize_singleton_inj.1 hmarked)
    | _ => simp [mark] at hmark
  | text s =>
    cases source' with
    | text t => exact Or.inl hmarked
    | _ => simp [mark] at hmark

/-- No variable that is made from a source is one for the value of a rule. -/
theorem varName_ne_got (source : VariableSource) (callee : String) :
    source.varName ≠ "got_" ++ callee := by
  rw [varName_eq]
  intro h
  have hgot : "got_" ∈ marks := by decide
  have hmark := mark_unique source.mark_mem hgot h
  cases source <;> simp [mark] at hmark

theorem ofLiteral?_ne_name (spelling n : String) : ofLiteral? spelling ≠ some (.name n) := by
  intro h
  cases taken?_ofLiteral? h

theorem ofSpelling_of_character {spelling : String} {c : Char}
    (h : ofLiteral? spelling = some (.character c)) : LiteralValue.ofSpelling spelling = .char c := by
  unfold ofLiteral? at h
  cases hvalue : LiteralValue.ofSpelling spelling <;> rw [hvalue] at h <;> cases h
  rfl

theorem normalText_of_name {tokens : Tokens} {n : String} (h : ofCode? tokens = some (.name n)) :
    tokens.normalText = n := by
  induction tokens using codeVarName?.induct with
  | case1 name =>
    rw [ofCode?] at h
    cases h
    rw [Tokens.normalText.eq_2 _ (by rintro _ ⟨⟩)]
    rfl
  | case2 spelling =>
    rw [ofCode?] at h
    exact absurd h (ofLiteral?_ne_name spelling n)
  | case3 body ih =>
    rw [ofCode?] at h
    rw [Tokens.normalText]
    exact ih h
  | case4 tokens hname hliteral hgroup =>
    rw [ofCode?.eq_4 tokens hname hliteral hgroup] at h
    obtain ⟨last, -, hlast⟩ := Option.map_eq_some_iff.1 h
    cases hlast

/-- A variable that is made from a name stands for the references with this key. -/
theorem key_of_name {r : Reference} {n : String} (h : ofReference? r = some (.name n)) : r.key = n := by
  cases r with
  | name name =>
    rw [ofReference?] at h
    split at h
    · cases h
    · cases h
      rfl
  | literal spelling =>
    rw [ofReference?] at h
    exact absurd h (ofLiteral?_ne_name spelling n)
  | code tokens => exact normalText_of_name h

end VariableSource

/-! ## Literals -/

/-- Names for characters are different for different characters, and are not those for other literals. Names
for strings are different where the ends of all escapes can be seen. -/
structure SeparatesLiterals : Prop where
  characters : ∀ l l' c d, LiteralValue.ofSpelling l = .char c → LiteralValue.ofSpelling l' = .char d →
    (literalVarName l = literalVarName l' ↔ c = d)
  others : ∀ l l' c, LiteralValue.ofSpelling l = .char c → literalVarName l = literalVarName l' →
    LiteralValue.ofSpelling l' = .char c
  strings : ∀ l l' s t, LiteralValue.ofSpelling l = .string s → LiteralValue.ofSpelling l' = .string t →
    Legible s → Legible t → (literalVarName l = literalVarName l' ↔ s = t)

theorem separatesLiterals : SeparatesLiterals where
  characters l l' c d hc hd := by
    unfold literalVarName
    rw [hc, hd, Except.ok.injEq, String.append_right_inj]
    exact sanitize_singleton_inj
  others l l' c hc h := by
    have hl : ofLiteral? l = some (.character c) := by rw [ofLiteral?, hc]
    rw [literalVarName_eq, literalVarName_eq, hl] at h
    cases hl' : ofLiteral? l' with
    | none =>
      rw [hl'] at h
      cases h
    | some source =>
      rw [hl'] at h
      rcases VariableSource.coincides_of_varName (Except.ok.inj h) with hsame | ⟨n, hname, -⟩
      · cases source with
        | character d =>
          have hsame : c = d := hsame
          subst hsame
          exact VariableSource.ofSpelling_of_character hl'
        | _ => exact hsame.elim
      · cases hname
  strings l l' s t hs ht hlegible hlegible' := by
    unfold literalVarName
    rw [hs, ht, Except.ok.injEq, String.append_right_inj]
    exact ⟨sanitize_inj hlegible hlegible', congrArg sanitize⟩

/-! ## References -/

/-- The text by which references are to the node: that of a terminal without a label. -/
def Node.text? (node : Node) : Option String :=
  match node.kind, node.label with
  | .terminal .., none => node.basis.map Tokens.normalText
  | _, _ => none

namespace Scope

variable {scope : Scope} {refs : Referenced} {found : List String} {r r' : Reference}
  {key key' text text' value : String} {source source' : VariableSource}

/-- What the variable for references with this key is made from, if they are neither to a label nor to a
rule. -/
def source? (scope : Scope) (key : String) : Option VariableSource :=
  (scope.other? key).bind ofReference?

/-- References with these keys are made from sources that coincide. -/
def ShareSource (scope : Scope) (key key' : String) : Prop :=
  ∃ source source', scope.source? key = some source ∧ scope.source? key' = some source' ∧
    source.Coincides source'

/-- References with these keys may share the variable: it is a label, and one of them is to it, or they are
made from sources that coincide. -/
def MayShare (scope : Scope) (value key key' : String) : Prop :=
  value ∈ scope.labels ∧ (key = value ∨ key' = value) ∨ scope.ShareSource key key'

theorem key_of_source? {n : String} (h : scope.source? key = some (.name n)) : key = n := by
  obtain ⟨first, hfirst, hsource⟩ := Option.bind_eq_some_iff.1 h
  exact (isOther_of_other? hfirst).2.2.symm.trans (VariableSource.key_of_name hsource)

theorem exists_source? (h : (scope.other? key).bind Reference.variableName? = some value) :
    ∃ source, scope.source? key = some source ∧ value = source.varName := by
  obtain ⟨first, hfirst, hname⟩ := Option.bind_eq_some_iff.1 h
  obtain ⟨source, hsource, hvalue⟩ := Reference.exists_source (Reference.varName?_of_variableName? hname)
  exact ⟨source, Option.bind_eq_some_iff.2 ⟨first, hfirst, hsource⟩, hvalue⟩

/-- One name is for one key, unless the sources coincide. -/
theorem shareSource_of_varName (hsource : scope.source? key = some source)
    (hsource' : scope.source? key' = some source') (h : source.varName = source'.varName)
    (hkeys : key ≠ key') : scope.ShareSource key key' := by
  rcases VariableSource.coincides_of_varName h with hsame | ⟨n, rfl, rfl⟩
  · exact ⟨source, source', hsource, hsource', hsame⟩
  · exact absurd ((key_of_source? hsource).trans (key_of_source? hsource').symm) hkeys

/-- What a reference becomes is a label, a variable for the value of a rule, or made from its source. -/
theorem resolved_cases (hreads : refs.Reads scope)
    (h : Saving.resolve? refs found r = some value) :
    value ∈ scope.labels ∧ r.key = value ∨ value = "got_" ++ r.key ∨
      ∃ source, scope.source? r.key = some source ∧ value = source.varName := by
  rcases Saving.resolve?_cases h with ⟨rfl, hlabel⟩ | ⟨hvalue, -⟩ | ⟨other, hfind, -, hvalue⟩
  · exact Or.inl ⟨hreads.labels ▸ hlabel, rfl⟩
  · exact Or.inr (Or.inl hvalue)
  · rw [hreads.others] at hfind
    obtain ⟨first, hfirst, rfl⟩ := Option.map_eq_some_iff.1 hfind
    exact Or.inr (Or.inr (exists_source? (Option.bind_eq_some_iff.2 ⟨first, hfirst, hvalue⟩)))

/-- **References with different keys** share a variable only if they may. -/
theorem mayShare_of_resolve? (hreads : refs.Reads scope)
    (h : Saving.resolve? refs found r = some value) (h' : Saving.resolve? refs found r' = some value)
    (hkeys : r.key ≠ r'.key) : scope.MayShare value r.key r'.key := by
  rcases resolved_cases hreads h with ⟨hlabel, hkey⟩ | hrule | ⟨source, hsource, hname⟩
  · exact Or.inl ⟨hlabel, Or.inl hkey⟩
  · rcases resolved_cases hreads h' with ⟨hlabel, hkey⟩ | hrule' | ⟨source', -, hname'⟩
    · exact Or.inl ⟨hlabel, Or.inr hkey⟩
    · exact absurd ((String.append_right_inj _).1 (hrule.symm.trans hrule')) hkeys
    · exact absurd (hname'.symm.trans hrule) (source'.varName_ne_got _)
  · rcases resolved_cases hreads h' with ⟨hlabel, hkey⟩ | hrule' | ⟨source', hsource', hname'⟩
    · exact Or.inl ⟨hlabel, Or.inr hkey⟩
    · exact absurd (hname.symm.trans hrule') (source.varName_ne_got _)
    · exact Or.inr (shareSource_of_varName hsource hsource' (hname.symm.trans hname') hkeys)

theorem exists_source?_of_text? {node : Node} (htext : node.text? = some text)
    (h : scope.variableOf? node = some value) :
    ∃ source, scope.source? text = some source ∧ value = source.varName := by
  unfold Node.text? at htext
  split at htext
  · rename_i set mark hkind hlabel
    obtain ⟨basis, hbasis, rfl⟩ := Option.map_eq_some_iff.1 htext
    unfold variableOf? at h
    simp only [hkind, hlabel, hbasis, Option.none_or, Option.bind_some] at h
    exact exists_source? h
  · cases htext

/-- **Terminals with different texts** store their values in one variable only if its name is made from
sources that coincide. -/
theorem shareSource_of_variableOf? {node node' : Node} (htext : node.text? = some text)
    (htext' : node'.text? = some text') (h : scope.variableOf? node = some value)
    (h' : scope.variableOf? node' = some value) (htexts : text ≠ text') :
    scope.ShareSource text text' := by
  obtain ⟨source, hsource, hname⟩ := exists_source?_of_text? htext h
  obtain ⟨source', hsource', hname'⟩ := exists_source?_of_text? htext' h'
  exact shareSource_of_varName hsource hsource' (hname.symm.trans hname') htexts

end Scope

namespace Grammar

variable {g g' : Grammar} {name : String} {options : Options} {events : List Event}

/-- In the second grammar, what the rule matches has variables in the place of references. Two references
with different keys become one variable only if it is a label that one of them names, or if they are made
from sources that coincide. Two terminals without labels are to store their values in one variable only if
they have one text, or for such sources. -/
def SeparatesReferences (g : Grammar) (name : String) (g' : Grammar) : Prop :=
  ∃ rule ids resolve declared, g.rule? name = some rule ∧ g.walkMatched rule.body = .ok ids ∧
    g.CodeResolved rule.body ids resolve declared g' ∧
    (∀ r r' value, resolve r = some value → resolve r' = some value → r.key ≠ r'.key →
      (g.scopeOf g' ids).MayShare value r.key r'.key) ∧
    ∀ node node' text text' value, node.text? = some text → node'.text? = some text' →
      (g.scopeOf g' ids).variableOf? node = some value →
      (g.scopeOf g' ids).variableOf? node' = some value → text ≠ text' →
      (g.scopeOf g' ids).ShareSource text text'

/-- **Different references become different variables**, unless they may share one, and so do different
literals. -/
theorem separatesReferences_saveValues (h : g.saveValues name options = .ok (g', events)) :
    g.SeparatesReferences name g' ∧ SeparatesLiterals := by
  obtain ⟨steps⟩ := exists_savingSteps h
  exact ⟨⟨steps.rule, steps.ids, _, steps.saved.declared, steps.found, steps.walks_ids,
    steps.codeResolved, fun _ _ _ => Scope.mayShare_of_resolve? steps.reads_scopeOf,
    fun _ _ _ _ _ => Scope.shareSource_of_variableOf?⟩, separatesLiterals⟩

end Grammar

/-- Code that refers to one character by two spellings. -/
def spelledTwiceCode : Tokens :=
  [.punct '$' .alone, .literal "'a'", .punct ',' .alone, .punct '$' .alone, .literal "'\\x61'"]

/-- The rule `item` matches two terminals whose texts are these spellings, and has this code. -/
def spelledTwice : Grammar where
  nodes := #[{ Node.ofKind (.terminal (.ofRanges [(97, 98)]) none) with
      basis := some [.literal "'a'"] },
    { Node.ofKind (.terminal (.ofRanges [(98, 99)]) none) with
      basis := some [.literal "'\\x61'"] },
    { Node.ofKind (.sequence [0, 1]) with postAction := some spelledTwiceCode }]
  rules := [("item", .ofBody "item" 2)]

theorem saveValues_spelledTwice : (spelledTwice.saveValues "item" .default).toOption.map (fun saved =>
      saved.1.nodes.toList.map fun node => (node.saver.map Saver.name, node.postAction.map Tokens.text)) =
    some [(some "ch_a", none), (some "ch_a", none), (none, some "ch_a , ch_a")] := by
  decide +kernel

/-- Two references to literals with different keys become one variable. -/
theorem spelledTwice_shares : ∃ g' events, spelledTwice.saveValues "item" .default = .ok (g', events) ∧
    References.find spelledTwiceCode = [.literal "'a'", .literal "'\\x61'"] ∧
    g'.nodes.toList.map (fun node => (node.saver.map Saver.name, node.postAction.map Tokens.text)) =
      [(some "ch_a", none), (some "ch_a", none), (none, some "ch_a , ch_a")] := by
  obtain ⟨⟨g', events⟩, hsaved, hnodes⟩ := Option.map_eq_some_iff.1 saveValues_spelledTwice
  exact ⟨g', events, toOption_eq_some.1 hsaved, by rfl, hnodes⟩

theorem spelledTwice_separatesReferences : ∃ g' events,
    spelledTwice.saveValues "item" .default = .ok (g', events) ∧
      spelledTwice.SeparatesReferences "item" g' ∧ SeparatesLiterals := by
  obtain ⟨⟨g', events⟩, hsaved, -⟩ := Option.map_eq_some_iff.1 saveValues_spelledTwice
  have hsaved := toOption_eq_some.1 hsaved
  exact ⟨g', events, hsaved, Grammar.separatesReferences_saveValues hsaved⟩

end PredictiveParser
