import PredictiveParser.Proofs.Generation.Soundness

/-!
# Both forms of a rule agree

A rule can have a parser and a recognizer. They are lowered on their own, with other steps for
terminals, other labels and calls to other methods, and yet a recognizer succeeds exactly where the
parser of its rule does, and leaves the input at the same place (`Grammar.forms_agree`).

Both forms match what the body of the rule matches with the choices of prediction, so all that is left
is what they call. Recognizers call recognizers and parsers call parsers; a rule that is called in one
form is there in the other form too (`LoweredTogether.exists_recognizer`, `Linked`), and by induction
on how deep calls nest the two do the same.
-/
namespace PredictiveParser

open Grammar

def Method.callees (method : Method) : List (Form × String) :=
  Stmt.calleesOf method.body

/-- Each call names one of the methods, and no other method has that form and name. -/
def Linked (methods : List Method) : Prop :=
  ∀ method ∈ methods, ∀ form name, (form, name) ∈ method.callees →
    ∃! callee, callee ∈ methods ∧ callee.form = form ∧ callee.name = name

/-- It is enough that all methods are told apart by form and name. -/
theorem linked_of_nodup {methods : List Method}
    (hnodup : (methods.map fun method => (method.form, method.name)).Nodup)
    (hcalled : ∀ method ∈ methods, ∀ callee ∈ method.callees,
      callee ∈ methods.map fun method => (method.form, method.name)) : Linked methods := by
  intro method hm form name hcallee
  obtain ⟨callee, hmem, heq⟩ := List.mem_map.1 (hcalled method hm _ hcallee)
  injection heq with hform hname
  refine ⟨callee, ⟨hmem, hform, hname⟩, ?_⟩
  rintro other ⟨hother, hform', hname'⟩
  refine List.inj_on_of_nodup_map hnodup hother hmem ?_
  rw [hform, hname, hform', hname']

section

variable {σ : Type} [Source σ] {methods : List Method} {values : CheckValues σ} {method : Method}
  {depth depth' : Nat} {s t t' : σ} {ok ok' : Bool}

/-! ## What methods return is determined -/

/-- What calls do that a method makes, nested less than `depth` deep. -/
def Method.callsWithin (method : Method) (methods : List Method) (values : CheckValues σ)
    (depth : Nat) : Form → String → σ → Bool → σ → Prop := fun form name s ok t =>
  (form, name) ∈ method.callees ∧ PredictiveParser.callsWithin methods values depth form name s ok t

theorem runs_of_callsWithin {s : Running σ} {o : Outcome σ}
    (h : Runs (.quiet values (callsWithin methods values depth)) (.all method.body) s o) :
    Runs (.quiet values (method.callsWithin methods values depth)) (.all method.body) s o :=
  h.congr_callees fun _ _ hcallee _ _ _ hcall => ⟨hcallee, hcall⟩

theorem returnsWithin_unique (hlinked : Linked methods) (hm : method ∈ methods)
    (h : ReturnsWithin methods values depth method s ok t)
    (h' : ReturnsWithin methods values depth' method s ok' t') : ok = ok' ∧ t = t' := by
  induction depth generalizing method s ok t depth' ok' t' with
  | zero => exact h.elim
  | succ depth ih =>
    cases depth' with
    | zero => exact h'.elim
    | succ depth' =>
      obtain ⟨o, ho, hrun⟩ := returnsWithin_succ_iff.1 h
      obtain ⟨o', ho', hrun'⟩ := returnsWithin_succ_iff.1 h'
      have hagrees : World.Agrees (.quiet values (method.callsWithin methods values depth))
          (.quiet values (method.callsWithin methods values depth')) := by
        refine ⟨rfl, fun _ s t t' ht ht' => Eq.trans ht (Eq.symm ht'), ?_⟩
        rintro form name s ok t ok' t' ⟨hcallee, one, hone, hform, hname, hreturns⟩
          ⟨-, other, hother, hform', hname', hreturns'⟩
        obtain rfl := (hlinked method hm form name hcallee).unique ⟨hone, hform, hname⟩
          ⟨hother, hform', hname'⟩
        exact ih hone hreturns hreturns'
      cases (runs_of_callsWithin hrun).unique hagrees (runs_of_callsWithin hrun')
      rw [ho] at ho'
      cases ho'
      exact ⟨rfl, rfl⟩

/-- What a method returns is determined. -/
theorem Returns.unique (hlinked : Linked methods) (hm : method ∈ methods)
    (h : Returns methods values method s ok t) (h' : Returns methods values method s ok' t') :
    ok = ok' ∧ t = t' := by
  obtain ⟨depth, h⟩ := h
  obtain ⟨depth', h'⟩ := h'
  exact returnsWithin_unique hlinked hm h h'

end

/-! ## Methods of called rules -/

section

variable {g g' g₂ : Grammar} {methods : List Method} {parser recognizer : Method} {name callee : String}
  {rule : Rule}

/-- A rule has a method for each of its forms. -/
theorem Generated.exists_method (h : Generated g g₂.rules g₂.ruleNames methods)
    (hrule : g₂.rule? name = some rule) {form : Form} (hform : rule.hasForm form = true) :
    ∃ method ∈ methods, method.rule = rule ∧ method.form = form := by
  obtain ⟨g', rule', hrules, hmade⟩ := h.made name (mem_ruleNames_of_rule? hrule)
  have hfound := hmade.found
  rw [rule?_of_rules hrules, hrule] at hfound
  cases hfound
  obtain ⟨method, hm, hform⟩ := hmade.methods.complete form hform
  exact ⟨method, (List.mem_filter.1 hm).1, (hmade.methods.lowered method hm).1, hform⟩

/-- A parser and a recognizer of one rule were lowered in the same grammar, which was prepared for
it. -/
structure LoweredTogether (g g' : Grammar) (parser recognizer : Method) : Prop where
  keeps : g.Keeps g'
  found : g'.rule? parser.rule.name = some parser.rule
  old : ∃ old, g.rule? parser.rule.name = some old ∧ parser.rule.body = old.body
  prepared : g'.Prepared parser.rule.body
  same : recognizer.rule = parser.rule
  parserLowered : parser.LoweredIn g'
  recognizerLowered : recognizer.LoweredIn g'
  recognized : parser.rule.recognizer.isSome = true

theorem Generated.loweredTogether (h : Generated g g₂.rules g₂.ruleNames methods)
    (hp : parser ∈ methods) (hr : recognizer ∈ methods) (hparser : parser.form = .parser)
    (hrecognizer : recognizer.form = .recognizer)
    (hname : recognizer.rule.name = parser.rule.name) :
    ∃ g', g'.rules = g₂.rules ∧ LoweredTogether g g' parser recognizer := by
  obtain ⟨g', hrules, hmade, hhas, hlowered⟩ := h.of_mem hp
  have hunder : recognizer ∈ methodsUnder parser.rule.name methods :=
    List.mem_filter.2 ⟨hr, beq_iff_eq.2 hname⟩
  obtain ⟨hsame, hhas', hlowered'⟩ := hmade.methods.lowered recognizer hunder
  rw [hparser] at hhas
  rw [hrecognizer] at hhas'
  refine ⟨g', hrules, hmade.keeps, hmade.found, ?_, hmade.prepared hhas, hsame, hlowered, hlowered',
    hhas'⟩
  obtain hold | ⟨-, hnone⟩ := hmade.keeps.rules _ _ hmade.found
  · exact hold
  · rw [Rule.hasForm, hnone] at hhas
    cases hhas

/-- What the rule calls when it was lowered, it calls from the start. -/
theorem LoweredTogether.calls (h : LoweredTogether g g' parser recognizer) (hforest : g.Forest)
    (hkeyed : g.Keyed) (hgrown : g.Grown g₂) (hrules : g'.rules = g₂.rules) {id : NodeId}
    (hid : g'.MatchedBy parser.rule.body id) (hk : g'.kindAt? id = some (.call callee)) :
    g₂.Calls parser.rule.name callee := by
  obtain ⟨old, hold, hbody⟩ := h.old
  refine ⟨parser.rule, id, rule?_of_rules hrules _ ▸ h.found, ?_, ?_⟩
  · rw [hbody] at hid ⊢
    exact (hgrown.keeps hkeyed).shape.matchedBy (h.keeps.matchedBy hforest hold hid)
  · rw [hbody] at hid
    obtain ⟨kind, hkind, hbare⟩ := h.keeps.kind_of_matched hforest hold hid hk
    rw [NodeKind.of_bare_call hbare] at hkind
    obtain ⟨kind', hkind', hbare'⟩ := (hgrown.keeps hkeyed).shape id _ hkind
    rw [hkind', NodeKind.of_bare_call hbare']

/-- A rule that is called from a rule with both forms has a recognizer. -/
theorem LoweredTogether.exists_recognizer (h : LoweredTogether g g' parser recognizer)
    (hforest : g.Forest) (hkeyed : g.Keyed) (hgrown : g.Grown g₂) (hrecognized : g₂.Recognized)
    (hgenerated : Generated g g₂.rules g₂.ruleNames methods) (hrules : g'.rules = g₂.rules)
    {id : NodeId}
    (hid : g'.MatchedBy parser.rule.body id) (hk : g'.kindAt? id = some (.call callee))
    (hcallee : g₂.rule? callee = some rule) :
    ∃ method ∈ methods, method.rule = rule ∧ method.form = .recognizer := by
  have hcalls := h.calls hforest hkeyed hgrown hrules hid hk
  have hfound : g₂.rule? parser.rule.name = some parser.rule := rule?_of_rules hrules _ ▸ h.found
  have hhas : rule.hasForm .recognizer = true :=
    hrecognized _ _ _ _ hcalls hfound hcallee h.recognized
  exact hgenerated.exists_method hcallee hhas

end

/-! ## Agreement -/

section

variable {σ : Type} [Source σ] {values : CheckValues σ} {m m' : MethodPlan} {body : NodeId}
  {call call' : Form → String → σ → Bool → σ → Prop} {s t : σ}

/-- A plan for the same grammar matches the same where its calls do the same. -/
theorem MethodPlan.MatchesBy.transfer (h : m.MatchesBy values call (.node body) s t)
    (hg : m'.grammar = m.grammar)
    (hcall : ∀ id rule callee s t, m.grammar.MatchedBy body id →
      m.grammar.kindAt? id = some (.call rule) → m.grammar.rule? rule = some callee →
      call m.form (callee.methodName m.form) s true t →
      call' m'.form (callee.methodName m'.form) s true t) :
    m'.MatchesBy values call' (.node body) s t := by
  obtain ⟨c, hmatch⟩ := h
  unfold MethodPlan.MatchesBy
  rw [hg]
  refine matches_of_shape (fun id kind _ hk => ⟨kind, hk, rfl⟩) ?_ ?_ hmatch .refl
  · intro id alts alts' s alt hk hk' hchoice
    rw [hk] at hk'
    cases hk'
    exact hchoice
  · rintro id rule s c t hid hk ⟨-, callee, hcallee, hcalled⟩
    exact ⟨[], rfl, callee, hg ▸ hcallee, hcall id rule callee s t hid hk hcallee hcalled⟩

end

section

variable {σ : Type} [Source σ] [LawfulSource σ] {values : CheckValues σ} {g g₂ : Grammar}
  {methods : List Method} {parser recognizer : Method} {depth : Nat} {s t : σ}

theorem Method.name_of_parser (h : parser.form = .parser) : parser.name = parser.rule.name := by
  rw [Method.name, h, Rule.methodName]

/-- Where a parser succeeds, so does the recognizer of its rule. -/
theorem returnsWithin_recognizer (hforest : g.Forest) (hkeyed : g.Keyed) (hgrown : g.Grown g₂)
    (hrecognized : g₂.Recognized) (hgenerated : Generated g g₂.rules g₂.ruleNames methods)
    (hp : parser ∈ methods) (hr : recognizer ∈ methods) (hparser : parser.form = .parser)
    (hrecognizer : recognizer.form = .recognizer)
    (hname : recognizer.rule.name = parser.rule.name)
    (h : ReturnsWithin methods values depth parser s true t) :
    ReturnsWithin methods values depth recognizer s true t := by
  induction depth generalizing parser recognizer s t with
  | zero => exact h.elim
  | succ depth ih =>
    obtain ⟨g', hrules, htogether⟩ :=
      hgenerated.loweredTogether hp hr hparser hrecognizer hname
    have hprepared : g'.Prepared recognizer.rule.body := htogether.same ▸ htogether.prepared
    rw [returnsWithin_iff_matchesBy hprepared htogether.recognizerLowered, htogether.same]
    have hmatch := (returnsWithin_iff_matchesBy htogether.prepared htogether.parserLowered).1 h
    refine hmatch.transfer rfl ?_
    rintro id rule callee s t hid hk hcallee ⟨one, hone, hform, hcalled, hreturns⟩
    have hcallee₂ : g₂.rule? rule = some callee := rule?_of_rules hrules rule ▸ hcallee
    obtain ⟨other, hother, rfl, hform'⟩ :=
      htogether.exists_recognizer hforest hkeyed hgrown hrecognized hgenerated hrules hid hk hcallee₂
    have hparser' : one.form = .parser := hform.trans hparser
    have hsame : other.rule.name = one.rule.name := by
      rw [← Method.name_of_parser hparser', hcalled]
      exact (congrArg other.rule.methodName hparser).symm
    refine ⟨other, hother, hform'.trans hrecognizer.symm, ?_,
      ih hone hother hparser' hform' hsame hreturns⟩
    rw [Method.name, hform']
    exact (congrArg other.rule.methodName hrecognizer).symm

/-- Where a recognizer succeeds, so does the parser of its rule. -/
theorem returnsWithin_parses (hforest : g.Forest) (hkeyed : g.Keyed) (hgrown : g.Grown g₂)
    (hrecognized : g₂.Recognized) (hgenerated : Generated g g₂.rules g₂.ruleNames methods)
    (hlinked : Linked methods) (hp : parser ∈ methods) (hr : recognizer ∈ methods)
    (hparser : parser.form = .parser) (hrecognizer : recognizer.form = .recognizer)
    (hname : recognizer.rule.name = parser.rule.name)
    (h : ReturnsWithin methods values depth recognizer s true t) :
    ReturnsWithin methods values depth parser s true t := by
  induction depth generalizing parser recognizer s t with
  | zero => exact h.elim
  | succ depth ih =>
    obtain ⟨g', hrules, htogether⟩ :=
      hgenerated.loweredTogether hp hr hparser hrecognizer hname
    have hprepared : g'.Prepared recognizer.rule.body := htogether.same ▸ htogether.prepared
    obtain ⟨s', rfl, hrun⟩ := returnsWithin_true_iff.1 h
    have hmatch := (realizes_body hprepared htogether.recognizerLowered values
      (recognizer.callsWithin methods values depth)).sound _ s' trivial (runs_of_callsWithin hrun)
    rw [htogether.same] at hmatch
    -- What parsers do when they are called, as far as recognizers tell.
    let told : Form → String → σ → Bool → σ → Prop := fun form name s ok t =>
      form = .parser ∧ ok = true ∧ ∃ one ∈ methods, one.form = .recognizer ∧ one.rule.name = name ∧
        ReturnsWithin methods values depth one s true t
    have hparsed : (parser.planIn g').MatchesBy values told (.node parser.rule.body) s s'.source := by
      refine hmatch.transfer rfl ?_
      rintro id rule callee s t hid hk hcallee ⟨hmem, one, hone, hform, hcalled, hreturns⟩
      have hcallee₂ : g₂.rule? rule = some callee := rule?_of_rules hrules rule ▸ hcallee
      obtain ⟨other, hother, rfl, hform'⟩ :=
        htogether.exists_recognizer hforest hkeyed hgrown hrecognized hgenerated hrules hid hk hcallee₂
      -- No two recognizers have the name under which this one is called.
      have hsame : one = other := by
        refine (hlinked recognizer hr _ _ hmem).unique ⟨hone, hform, hcalled⟩
          ⟨hother, hform'.trans hrecognizer.symm, ?_⟩
        rw [Method.name, hform']
        exact (congrArg other.rule.methodName hrecognizer).symm
      subst hsame
      exact ⟨hparser, rfl, one, hone, hform', (congrArg one.rule.methodName hparser).symm, hreturns⟩
    obtain ⟨s'', hrun', hs''⟩ := (realizes_body htogether.prepared htogether.parserLowered values
      told).complete ⟨s, fun _ => none⟩ _ hparsed
    refine returnsWithin_true_iff.2 ⟨s'', hs'', hrun'.congr_callees ?_⟩
    rintro form name hmem s ok t ⟨rfl, rfl, one, hone, hform, rfl, hreturns⟩
    obtain ⟨other, ⟨hother, hform', hcalled⟩, -⟩ := hlinked parser hp _ _ hmem
    have hsame : one.rule.name = other.rule.name := by
      rw [← hcalled, Method.name_of_parser hform']
    exact ⟨other, hother, hform', hcalled, ih hother hone hform' hform hsame hreturns⟩

/-- **Both forms of a rule agree.** Methods were generated from a grammar that was made with the
builders, no rule was left out, and each call names one of the methods. On any input and for any values
of the checks, the recognizer of a rule succeeds exactly where its parser does, at the same place; and
there is nothing else that either of them can return. -/
theorem Grammar.forms_agree {options : Options} {state : Generation} (hbuilt : g.Built)
    (hmethods : g.methods options = (.ok methods, state))
    (hskip : ∀ name cause, .skipped name cause ∉ state.events) (hlinked : Linked methods)
    (hp : parser ∈ methods) (hr : recognizer ∈ methods) (hparser : parser.form = .parser)
    (hrecognizer : recognizer.form = .recognizer)
    (hname : recognizer.rule.name = parser.rule.name) (s : σ) :
    (∀ t, Returns methods values recognizer s true t ↔ Returns methods values parser s true t) ∧
      ∀ ok t ok' t', Returns methods values parser s ok t → Returns methods values recognizer s ok' t' →
        ok' = ok ∧ (ok = true → t' = t) := by
  have hkeyed := hbuilt.fresh.keyed
  obtain ⟨hforest, g₂, hgrown, hrecognized, hgenerated⟩ :=
    generated_of_methods hkeyed hbuilt.fresh.clean hmethods hskip
  have hagree : ∀ t, Returns methods values recognizer s true t ↔
      Returns methods values parser s true t := by
    intro t
    constructor
    · rintro ⟨depth, h⟩
      exact ⟨depth, returnsWithin_parses hforest hkeyed hgrown hrecognized hgenerated hlinked hp hr
        hparser hrecognizer hname h⟩
    · rintro ⟨depth, h⟩
      exact ⟨depth, returnsWithin_recognizer hforest hkeyed hgrown hrecognized hgenerated hp hr
        hparser hrecognizer hname h⟩
  refine ⟨hagree, fun ok t ok' t' h h' => ?_⟩
  cases ok with
  | true =>
    obtain ⟨rfl, rfl⟩ := h'.unique hlinked hr ((hagree t).2 h)
    exact ⟨rfl, fun _ => rfl⟩
  | false =>
    cases ok' with
    | true =>
      obtain ⟨hne, -⟩ := h.unique hlinked hp ((hagree t').1 h')
      cases hne
    | false => exact ⟨rfl, nofun⟩

end

/-- The recognizer of `w` succeeds on `b;` as its parser does, though it jumps to its arm. -/
theorem words_forms_agree : ∃ methods state word scanWord,
    words.methods .default = (.ok methods, state) ∧ word ∈ methods ∧ scanWord ∈ methods ∧
    scanWord.form = .recognizer ∧ Returns methods allHold word (wordsAt 0) true (wordsAt 2) ∧
    Returns methods allHold scanWord (wordsAt 0) true (wordsAt 2) := by
  obtain ⟨word, scanWord, letter, scanLetter, state, hmethods, hevents, hword, hscanWord, hletter,
    hscanLetter⟩ := words_methods
  have hreturns : Returns [word, scanWord, letter, scanLetter] allHold word (wordsAt 0) true
      (wordsAt 2) := word_returns (by simp) hword hletter
  have hskip : ∀ name cause, .skipped name cause ∉ state.events := by simp [hevents]
  obtain ⟨⟨hwf, hwr, hwn⟩, hwb⟩ := outline_eq_iff.1 hword
  obtain ⟨⟨hsf, hsr, hsn⟩, hsb⟩ := outline_eq_iff.1 hscanWord
  obtain ⟨⟨hlf, hlr, hln⟩, hlb⟩ := outline_eq_iff.1 hletter
  obtain ⟨⟨htf, htr, htn⟩, htb⟩ := outline_eq_iff.1 hscanLetter
  have hlinked : Linked [word, scanWord, letter, scanLetter] := by
    refine linked_of_nodup ?_ ?_
    · simp [hwf, hwn, hsf, hsn, hlf, hln, htf, htn]
    · simp [Method.callees, hwf, hwn, hwb, hsf, hsn, hsb, hlf, hln, hlb, htf, htn, htb, wordCode,
        wordRound, scanWordCode, letterCode, scanLetterCode, Stmt.calleesOf, Stmt.callees,
          Snippet.callee?]
  have hw : word ∈ [word, scanWord, letter, scanLetter] := List.mem_cons_self
  have hs : scanWord ∈ [word, scanWord, letter, scanLetter] := by simp
  exact ⟨_, state, word, scanWord, hmethods, hw, hs, hsf, hreturns,
    ((Grammar.forms_agree words_built hmethods hskip hlinked hw hs hwf hsf (hsr.trans hwr.symm)
      (wordsAt 0)).1 (wordsAt 2)).2 hreturns⟩

end PredictiveParser
