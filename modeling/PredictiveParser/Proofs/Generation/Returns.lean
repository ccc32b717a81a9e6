import PredictiveParser.Proofs.Generation.Run
import PredictiveParser.Proofs.Method.Calls

/-!
# What methods return

A call runs a generated method of the called form and name, so what a method returns is defined by
recursion on how deep calls nest (`ReturnsWithin`). A method that was lowered in a prepared grammar
succeeds where the body of its rule matches, with calls that run other methods
(`returnsWithin_iff_matchesBy`).
-/
namespace PredictiveParser

section

variable {σ : Type}

/-- What a method returns whose statements end like this: whether it succeeds, and where. -/
def Outcome.returned : Outcome σ → Option (Bool × σ)
  | .normal s => some (true, s.source)
  | .failed t => some (false, t)
  | _ => none

theorem Outcome.returned_eq_true {o : Outcome σ} {t : σ} :
    o.returned = some (true, t) ↔ ∃ s, o = .normal s ∧ s.source = t := by
  cases o <;> simp [returned]

end

section

variable {σ : Type} [Source σ]

/-- A method returns, where calls nest less than `depth` deep. Actions do nothing, and a check has
the value that `values` gives it. -/
def ReturnsWithin (methods : List Method) (values : CheckValues σ) :
    (depth : Nat) → Method → σ → Bool → σ → Prop
  | 0, _, _, _, _ => False
  | depth + 1, method, s, ok, t => ∃ o, o.returned = some (ok, t) ∧
      Runs (.quiet values fun form name s ok t => ∃ callee ∈ methods, callee.form = form ∧
        callee.name = name ∧ ReturnsWithin methods values depth callee s ok t)
        (.all method.body) ⟨s, fun _ => none⟩ o

/-- The method returns: whether it succeeds, and where it leaves the input. -/
def Returns (methods : List Method) (values : CheckValues σ) (method : Method) (s : σ) (ok : Bool)
    (t : σ) : Prop :=
  ∃ depth, ReturnsWithin methods values depth method s ok t

/-- What calls do that nest less than `depth` deep. -/
def callsWithin (methods : List Method) (values : CheckValues σ) (depth : Nat) :
    Form → String → σ → Bool → σ → Prop := fun form name s ok t =>
  ∃ callee ∈ methods, callee.form = form ∧ callee.name = name ∧
    ReturnsWithin methods values depth callee s ok t

variable {methods : List Method} {values : CheckValues σ} {method : Method} {depth : Nat}
  {g : Grammar} {s t : σ} {ok : Bool}

theorem returnsWithin_succ_iff : ReturnsWithin methods values (depth + 1) method s ok t ↔
    ∃ o, o.returned = some (ok, t) ∧
      Runs (.quiet values (callsWithin methods values depth)) (.all method.body)
        ⟨s, fun _ => none⟩ o :=
  Iff.rfl

theorem returnsWithin_true_iff : ReturnsWithin methods values (depth + 1) method s true t ↔
    ∃ s', s'.source = t ∧ Runs (.quiet values (callsWithin methods values depth)) (.all method.body)
      ⟨s, fun _ => none⟩ (.normal s') := by
  rw [returnsWithin_succ_iff]
  constructor
  · rintro ⟨o, ho, hrun⟩
    obtain ⟨s', rfl, hs'⟩ := Outcome.returned_eq_true.1 ho
    exact ⟨s', hs', hrun⟩
  · rintro ⟨s', hs', hrun⟩
    exact ⟨.normal s', Outcome.returned_eq_true.2 ⟨s', rfl, hs'⟩, hrun⟩

/-! ## Lowered methods -/

/-- Declaring variables consumes nothing. -/
theorem runs_declarations {call : Form → String → σ → Bool → σ → Prop} (offsets : List Nat)
    (code : List Stmt) (s : Running σ) : ∃ s' : Running σ, s'.source = s.source ∧ ∀ o,
      Runs (.quiet values call)
        (.all (offsets.map (fun offset => .snippet (.declareLookahead offset)) ++ code)) s o ↔
      Runs (.quiet values call) (.all code) s' o := by
  induction offsets generalizing s with
  | nil => exact ⟨s, rfl, fun o => Iff.rfl⟩
  | cons offset rest ih =>
    obtain ⟨s', hs', hruns⟩ := ih (s.assign offset none)
    refine ⟨s', hs', fun o => ?_⟩
    rw [← hruns o, List.map_cons, List.cons_append, runs_cons_iff]
    simp only [runs_snippet_iff, Snippet.Does]
    constructor
    · rintro (⟨m, hm, hrest⟩ | ⟨rfl, habrupt⟩)
      · cases hm
        exact hrest
      · exact habrupt.elim
    · intro hrest
      exact Or.inl ⟨_, rfl, hrest⟩

/-- The method as it was planned, up to how its branches are written. -/
def Method.planIn (method : Method) (g : Grammar) : MethodPlan :=
  ⟨g, method.rule, method.form, 0⟩

end

section

variable {σ : Type} [Source σ] [LawfulSource σ] {methods : List Method} {values : CheckValues σ}
  {method : Method} {depth : Nat} {g : Grammar} {s t : σ} {ok : Bool}

/-- The statements of a method match what the body of its rule matches. -/
theorem realizes_body (hg : g.Prepared method.rule.body) (h : method.LoweredIn g)
    (values : CheckValues σ) (call : Form → String → σ → Bool → σ → Prop) :
    Realizes (method.planIn g) values call (fun _ => True) (.node method.rule.body) method.body := by
  obtain ⟨threshold, st, st', h⟩ := h
  obtain ⟨-, -, st₁, hbody⟩ := yields_lowerMethod h
  obtain ⟨code, st₂, hcode, hbody⟩ := yields_bind.1 hbody
  have hbody := yields_get_bind.1 hbody
  obtain ⟨hbody, -⟩ := yields_pure.1 hbody
  obtain ⟨hsound, hcomplete⟩ := realizes_lowerDown hg .refl hcode values call
  rw [hbody]
  constructor
  · intro s t _ hrun
    obtain ⟨s', hs', hruns⟩ := runs_declarations st₂.offsets code s
    rw [← hs']
    exact hsound s' t (hg.entered_body s'.source) ((hruns _).1 hrun)
  · intro s t hmatch
    obtain ⟨s', hs', hruns⟩ := runs_declarations st₂.offsets code s
    rw [← hs'] at hmatch
    obtain ⟨t', hrun, ht'⟩ := hcomplete s' t hmatch
    exact ⟨t', (hruns _).2 hrun, ht'⟩

/-- **A method succeeds where the body of its rule matches.** -/
theorem returnsWithin_iff_matchesBy (hg : g.Prepared method.rule.body) (h : method.LoweredIn g) :
    ReturnsWithin methods values (depth + 1) method s true t ↔
      (method.planIn g).MatchesBy values (callsWithin methods values depth)
        (.node method.rule.body) s t := by
  obtain ⟨hsound, hcomplete⟩ := realizes_body hg h values (callsWithin methods values depth)
  rw [returnsWithin_true_iff]
  constructor
  · rintro ⟨s', rfl, hrun⟩
    exact hsound _ s' trivial hrun
  · intro hmatch
    obtain ⟨s', hrun, hs'⟩ := hcomplete ⟨s, fun _ => none⟩ t hmatch
    exact ⟨s', hs', hrun⟩

end

end PredictiveParser
