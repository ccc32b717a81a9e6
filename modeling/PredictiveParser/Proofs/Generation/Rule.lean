import PredictiveParser.Generation
import PredictiveParser.Proofs.Analysis.Prepared
import PredictiveParser.Proofs.Grammar.Growth
import PredictiveParser.Proofs.Values.Saving

/-!
# Generating the methods of one rule

Generation takes one rule after the other: it analyzes the rule, decides where its values are saved,
and lowers the rule once for each of its forms. A rule that fails is left out, which the journal says.
No step ever takes something back that the journal said, so where the final journal speaks of no rule
left out, each rule went through all steps (`Generate.yields_rule_of_ruleOrSkip`).
-/
namespace PredictiveParser

/-! ## What generation says -/

namespace Generate

variable {α : Type} {P : Event → Prop} {options : Options} {follow : FollowSets} {name : String}

theorem logs_generate_say {events : List Event} (h : ∀ event ∈ events, P event) :
    Logs Generation.events P (say events) :=
  logs_modify fun _ => .append h

theorem logs_generate_setGrammar (g : Grammar) : Logs Generation.events P (setGrammar g) :=
  logs_modify fun state => .refl P state.events

theorem logs_pass {step : Pass α} (h : Logs Prod.snd P step) :
    Logs Generation.events P (pass step) := by
  intro state
  exact h (state.grammar, state.events)

theorem logs_makeMethod (rule : Rule) (form : Form) (options : Options) :
    Logs Generation.events (fun _ => True) (makeMethod rule form options) := by
  intro state
  exact .append fun _ _ => trivial

theorem logs_methodsOf (rule : Rule) (options : Options) (form : Form) :
    Logs Generation.events (fun _ => True) (methodsOf rule options form) := by
  unfold methodsOf
  split
  · exact (logs_makeMethod rule form options).bind fun method => logs_pure [method]
  · exact logs_pure []

theorem logs_rule (options : Options) (follow : FollowSets) (name : String) :
    Logs Generation.events (fun _ => True) (rule options follow name) := by
  unfold rule
  have hanalysis := (Grammar.logs_analyzeRule name follow options).imp fun _ _ => trivial
  refine (logs_pass hanalysis).bind fun _ => ?_
  refine (logs_get.bind fun state => logs_pure _).bind fun g₁ => ?_
  refine Logs.bind (logs_lift _) fun saved => ?_
  refine (logs_generate_setGrammar _).bind fun _ => ?_
  refine (logs_generate_say fun _ _ => trivial).bind fun _ => ?_
  split
  · exact logs_throw _
  · refine (logs_methodsOf _ options .parser).bind fun parser => ?_
    exact (logs_methodsOf _ options .recognizer).bind fun recognizer => logs_pure _

theorem logs_ruleOrSkip (options : Options) (follow : FollowSets) (name : String) :
    Logs Generation.events (fun _ => True) (ruleOrSkip options follow name) := by
  refine (logs_rule options follow name).tryCatch fun failure => ?_
  split
  · exact logs_throw _
  · exact (logs_generate_say fun _ _ => trivial).bind fun _ => logs_pure _

end Generate

/-! ## What becomes of a rule -/

/-- The method is what lowering its rule in a grammar gives. -/
def Method.LoweredIn (method : Method) (g : Grammar) : Prop :=
  ∃ threshold st st',
    Yields (MethodPlan.lowerMethod ⟨g, method.rule, method.form, threshold⟩) st method st'

theorem yields_lowerMethod {m : MethodPlan} {method : Method} {st st' : LowerState}
    (h : Yields m.lowerMethod st method st') :
    method.rule = m.rule ∧ method.form = m.form ∧ ∃ st₁, Yields m.lowerBody st method.body st₁ := by
  obtain ⟨body, st₁, hbody, h⟩ := yields_bind.1 h
  obtain ⟨code, -, h⟩ := yields_lift_bind.1 h
  obtain ⟨rfl, -⟩ := yields_pure.1 h
  exact ⟨rfl, rfl, st₁, hbody⟩

/-- The methods are those of a rule, lowered in a grammar: one for each form the rule has. -/
structure MethodsOf (g : Grammar) (rule : Rule) (methods : List Method) : Prop where
  lowered : ∀ method ∈ methods,
    method.rule = rule ∧ rule.hasForm method.form = true ∧ method.LoweredIn g
  complete : ∀ form, rule.hasForm form = true → ∃ method ∈ methods, method.form = form

namespace Generate

variable {options : Options} {follow : FollowSets} {name : String} {s s' : Generation}

theorem yields_grammar_bind {β : Type} {f : Grammar → Generate β} {b : β} :
    Yields (grammar >>= f) s b s' ↔ Yields (f s.grammar) s b s' := by
  unfold grammar
  rw [bind_assoc, yields_get_bind, pure_bind]

theorem yields_pass {α : Type} {step : Pass α} {a : α} :
    Yields (pass step) s a s' ↔ ∃ g journal, Yields step (s.grammar, s.events) a (g, journal) ∧
      s' = { s with grammar := g, events := journal } := by
  constructor
  · intro h
    have h := yields_get_bind.1 h
    obtain ⟨_, s₁, hset, h⟩ := yields_bind.1 h
    obtain ⟨hresult, rfl⟩ := yields_lift.1 h
    exact ⟨_, _, Prod.ext hresult rfl, yields_set.1 hset⟩
  · rintro ⟨g, journal, hstep, rfl⟩
    have hstep : step (s.grammar, s.events) = (.ok a, g, journal) := hstep
    refine yields_get_bind.2 (yields_bind.2 ⟨⟨⟩, _, yields_set.2 rfl, yields_lift.2 ?_⟩)
    rw [hstep]
    exact ⟨rfl, rfl⟩

theorem yields_makeMethod {rule : Rule} {form : Form} {method : Method}
    (h : Yields (makeMethod rule form options) s method s') :
    s'.grammar = s.grammar ∧ method.rule = rule ∧ method.form = form ∧
      method.LoweredIn s.grammar := by
  have h := yields_get_bind.1 h
  obtain ⟨_, s₁, hset, h⟩ := yields_bind.1 h
  obtain ⟨hmethod, rfl⟩ := yields_lift.1 h
  have hlower : Yields (MethodPlan.lowerMethod ⟨s.grammar, rule, form, options.switchThreshold⟩)
      ⟨s.tables, [], [], 0, 0⟩ method _ := Prod.ext hmethod rfl
  have hgrammar : s'.grammar = s.grammar := by
    rw [yields_set.1 hset]
  clear hmethod hset h
  obtain ⟨rfl, rfl, -⟩ := yields_lowerMethod hlower
  exact ⟨hgrammar, rfl, rfl, options.switchThreshold, _, _, hlower⟩

theorem yields_methodsOf {rule : Rule} {form : Form} {methods : List Method}
    (h : Yields (methodsOf rule options form) s methods s') :
    s'.grammar = s.grammar ∧
      (∀ method ∈ methods, method.rule = rule ∧ rule.hasForm method.form = true ∧
        method.LoweredIn s.grammar) ∧
      (rule.hasForm form = true → ∃ method ∈ methods, method.form = form) := by
  unfold methodsOf at h
  split at h
  · rename_i hform
    obtain ⟨method, s₁, hmethod, h⟩ := yields_bind.1 h
    obtain ⟨rfl, rfl⟩ := yields_pure.1 h
    obtain ⟨hgrammar, hrule, rfl, hlowered⟩ := yields_makeMethod hmethod
    refine ⟨hgrammar, fun method' hm => ?_, fun _ => ⟨method, List.mem_singleton_self _, rfl⟩⟩
    rw [List.mem_singleton.1 hm]
    exact ⟨hrule, hform, hlowered⟩
  · rename_i hform
    obtain ⟨rfl, rfl⟩ := yields_pure.1 h
    exact ⟨rfl, nofun, fun h => (hform h).elim⟩

/-- What generating a rule does, one step after the other. What each step says is said behind what was
said before. -/
theorem yields_rule_iff {methods : List Method} :
    Yields (rule options follow name) s methods s' ↔
      ∃ g journal g' saved r parsers s₁ recognizers,
        Yields (Grammar.analyzeRule name follow options) (s.grammar, s.events) ⟨⟩ (g, journal) ∧
        g.saveValues name options = .ok (g', saved) ∧ g'.rule? name = some r ∧
        Yields (methodsOf r options .parser) { s with grammar := g', events := journal ++ saved }
          parsers s₁ ∧
        Yields (methodsOf r options .recognizer) s₁ recognizers s' ∧
        methods = parsers ++ recognizers := by
  constructor
  · intro h
    obtain ⟨_, s₁, hpass, h⟩ := yields_bind.1 h
    obtain ⟨g, journal, hanalysis, rfl⟩ := yields_pass.1 hpass
    obtain ⟨⟨g', saved⟩, hsaved, h⟩ := yields_lift_bind.1 (yields_grammar_bind.1 h)
    obtain ⟨_, s₃, hs₃, h⟩ := yields_bind.1 h
    obtain ⟨_, s₄, hs₄, h⟩ := yields_bind.1 h
    cases yields_modify.1 hs₃
    cases yields_modify.1 hs₄
    split at h
    · exact (not_yields_throw h).elim
    · rename_i r hr
      obtain ⟨parsers, s₅, hparsers, h⟩ := yields_bind.1 h
      obtain ⟨recognizers, s₆, hrecognizers, h⟩ := yields_bind.1 h
      obtain ⟨rfl, rfl⟩ := yields_pure.1 h
      exact ⟨g, journal, g', saved, r, parsers, s₅, recognizers, hanalysis, hsaved, hr, hparsers,
        hrecognizers, rfl⟩
  · rintro ⟨g, journal, g', saved, r, parsers, s₅, recognizers, hanalysis, hsaved, hr, hparsers,
      hrecognizers, rfl⟩
    refine yields_bind.2 ⟨_, _, yields_pass.2 ⟨g, journal, hanalysis, rfl⟩,
      yields_grammar_bind.2 (yields_lift_bind.2 ⟨_, hsaved, ?_⟩)⟩
    refine yields_bind.2 ⟨⟨⟩, _, yields_modify.2 rfl, yields_bind.2 ⟨⟨⟩, _, yields_modify.2 rfl, ?_⟩⟩
    rw [hr]
    exact yields_bind.2 ⟨_, _, hparsers, yields_bind.2 ⟨_, _, hrecognizers, rfl⟩⟩

/-- A rule that is generated is analyzed, gets its values saved, and is lowered once for each form. -/
theorem yields_rule {methods : List Method} (h : Yields (rule options follow name) s methods s') :
    ∃ g journal events r, Yields (Grammar.analyzeRule name follow options) (s.grammar, s.events) ⟨⟩
        (g, journal) ∧ g.saveValues name options = .ok (s'.grammar, events) ∧ events ⊆ s'.events ∧
      s'.grammar.rule? name = some r ∧ MethodsOf s'.grammar r methods := by
  obtain ⟨g, journal, g', events, r, parsers, s₁, recognizers, hanalysis, hsaved, hr, hparsers,
    hrecognizers, rfl⟩ := yields_rule_iff.1 h
  obtain ⟨hsame, hlowered, hcomplete⟩ := yields_methodsOf hparsers
  obtain ⟨hsame', hlowered', hcomplete'⟩ := yields_methodsOf hrecognizers
  rw [hsame] at hlowered'
  obtain rfl : s'.grammar = g' := hsame'.trans hsame
  have hlater := (((logs_methodsOf r options .parser).yields hparsers).trans
    ((logs_methodsOf r options .recognizer).yields hrecognizers)).subset
  refine ⟨g, journal, events, r, hanalysis, hsaved,
    List.Subset.trans (List.subset_append_right _ _) hlater, hr, ?_, ?_⟩
  · intro method hm
    rcases List.mem_append.1 hm with hm | hm
    · exact hlowered method hm
    · exact hlowered' method hm
  · intro form hform
    cases form with
    | parser =>
      obtain ⟨method, hm, hform⟩ := hcomplete hform
      exact ⟨method, List.mem_append_left _ hm, hform⟩
    | recognizer =>
      obtain ⟨method, hm, hform⟩ := hcomplete' hform
      exact ⟨method, List.mem_append_right _ hm, hform⟩

/-- A rule is generated, or the journal says that it is left out and reports why. -/
theorem yields_ruleOrSkip {methods : List Method}
    (h : Yields (ruleOrSkip options follow name) s methods s') :
    Yields (rule options follow name) s methods s' ∨ ∃ cause, .skipped name cause ∈ s'.events ∧
      .report ⟨.error, .ofRule name, cause.message⟩ ∈ s'.events := by
  unfold Yields ruleOrSkip at h
  rw [run_tryCatch] at h
  split at h
  · rename_i methods' s₁ hrule
    cases h
    exact Or.inl hrule
  · rename_i failure s₁ hrule
    cases failure with
    | fault cause => cases h
    | error cause =>
      obtain ⟨_, s₂, hsay, h⟩ := yields_bind.1 h
      obtain ⟨-, rfl⟩ := yields_pure.1 h
      rw [yields_modify.1 hsay]
      exact Or.inr ⟨cause, by simp, by simp⟩

/-- Where the journal does not say that a rule is left out, the rule is generated. -/
theorem yields_rule_of_ruleOrSkip {methods : List Method}
    (h : Yields (ruleOrSkip options follow name) s methods s')
    (hskip : ∀ cause, .skipped name cause ∉ s'.events) :
    Yields (rule options follow name) s methods s' :=
  (yields_ruleOrSkip h).resolve_right fun ⟨cause, hm, _⟩ => hskip cause hm

end Generate

end PredictiveParser
