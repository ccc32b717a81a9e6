import Mathlib
import PredictiveParser.Proofs.Generation.Frame
import PredictiveParser.Proofs.Method.Authored
import PredictiveParser.Proofs.Values.Settling

/-!
# References in generated code

Generated code should not hold references any more. `Grammar.escapes_of_generate` says which of them can
still be there when generation has no error to report (`Grammar.Escapes`): those in the value of a rule,
those to what lies ahead in actions, and those in a check that a rule shows to prediction but whose
values were not saved when the rule was written. All others are resolved.

The invariant of the run is that all nodes matched by the rules that were written are settled
(`Settled`). A method takes over the code of settled nodes and of the checks that its rule shows
(`Settled.writes`).
-/
namespace PredictiveParser

open References

/-! ## Grammars with tidy code -/

/-- Each dollar sign in nodes and values begins a reference, and types have none. -/
structure Grammar.WellWritten (g : Grammar) (options : Options) : Prop where
  nodes : g.Tidy
  values : ∀ name rule, g.rule? name = some rule → Only (fun _ => True) rule.valueCode
  types : g.PlainTypes options

namespace Grammar

variable {g g' : Grammar} {id new : NodeId} {options : Options}

theorem Tidy.addNode (h : g.Tidy) {node : Node} (hnode : node.Tidy) : (g.addNode node).1.Tidy := by
  intro id node' hnode'
  rcases node_addNode hnode' with rfl | hold
  · exact hnode
  · exact h id node' hold

theorem Tidy.sameCode (h : g.Tidy) (hsame : g.SameCode g') : g'.Tidy :=
  hsame.settles.tidy h

theorem tidy_copyAll {copy : Grammar → NodeId → Except Fault (Grammar × NodeId)}
    (hcopy : ∀ g id g' new, g.Tidy → copy g id = .ok (g', new) → g'.Tidy) {ids news : List NodeId}
    (hg : g.Tidy) (h : copyAll copy g ids = .ok (g', news)) : g'.Tidy := by
  induction ids generalizing g news with
  | nil =>
    cases pure_eq_ok.1 h
    exact hg
  | cons id rest ih =>
    rw [copyAll] at h
    obtain ⟨⟨g₁, first⟩, hfirst, h⟩ := bind_eq_ok.1 h
    obtain ⟨⟨g₂, others⟩, hothers, h⟩ := bind_eq_ok.1 h
    cases pure_eq_ok.1 h
    exact ih (hcopy _ _ _ _ hg hfirst) hothers

/-- A copy has the code of the original. -/
theorem tidy_copyDown {depth : Nat} (hg : g.Tidy) (h : copyDown depth g id = .ok (g', new)) :
    g'.Tidy := by
  induction depth generalizing g id g' new with
  | zero => cases h
  | succ depth ih =>
    rw [copyDown] at h
    obtain ⟨node, hnode, h⟩ := bind_eq_ok.1 h
    have hold := hg id node hnode
    split at h
    · obtain ⟨⟨g₁, news⟩, hitems, h⟩ := bind_eq_ok.1 h
      cases pure_eq_ok.1 h
      exact (tidy_copyAll (fun _ _ _ _ => ih) hg hitems).addNode (.of_no_expression hold.actions rfl)
    · obtain ⟨⟨g₁, news⟩, harms, h⟩ := bind_eq_ok.1 h
      cases pure_eq_ok.1 h
      exact (tidy_copyAll (fun _ _ _ _ => ih) hg harms).addNode (.of_no_expression hold.actions rfl)
    · obtain ⟨⟨g₁, predict⟩, hpredict, h⟩ := bind_eq_ok.1 h
      obtain ⟨⟨g₂, matched⟩, hmatched, h⟩ := bind_eq_ok.1 h
      cases pure_eq_ok.1 h
      exact (ih (ih hg hpredict) hmatched).addNode (.of_no_expression hold.actions rfl)
    · obtain ⟨⟨g₁, payload⟩, hpayload, h⟩ := bind_eq_ok.1 h
      cases pure_eq_ok.1 h
      exact (ih hg hpayload).addNode (.of_no_expression hold.actions rfl)
    · cases pure_eq_ok.1 h
      exact hg.addNode hold

theorem sameCode_withCheckRule (rule : String) (node : Node) :
    node.SameCode (node.withCheckRule rule) := by
  obtain ⟨kind, label, isList, saver, pre, post, basis⟩ := node
  rcases kind with _ | _ | _ | ⟨_, _ | _, _⟩ | _ | _ <;> exact ⟨rfl, rfl, rfl⟩

theorem WellWritten.addRule (h : g.WellWritten options) {rule : Rule}
    (hvalue : Only (fun _ => True) rule.valueCode) (htype : NoDollar rule.valueType)
    (hadd : g.addRule rule = .ok g') : g'.WellWritten options := by
  obtain ⟨-, rfl⟩ := addRule_eq_ok.1 hadd
  have hrules : ∀ name rule', (g.rules ++ [(rule.name, rule)]).lookup name = some rule' →
      g.rule? name = some rule' ∨ rule' = rule := by
    intro name rule' hrule
    rw [List.lookup_append, Option.or_eq_some_iff] at hrule
    rcases hrule with hold | ⟨-, hnew⟩
    · exact Or.inl hold
    · rw [List.lookup_cons] at hnew
      split at hnew
      · cases hnew
        exact Or.inr rfl
      · cases hnew
  refine ⟨h.nodes, fun name rule' hrule => ?_, h.types.terminal, h.types.list,
    fun name rule' hrule => ?_⟩
  · rcases hrules name rule' hrule with hold | rfl
    · exact h.values name rule' hold
    · exact hvalue
  · rcases hrules name rule' hrule with hold | rfl
    · exact h.types.rules name rule' hold
    · exact htype

theorem WellWritten.synthesizeRule (h : g.WellWritten options) {pending : PendingCheck}
    (hs : g.synthesizeRule pending = .ok g') : g'.WellWritten options := by
  unfold Grammar.synthesizeRule at hs
  obtain ⟨⟨g₁, body⟩, hcopy, hs⟩ := bind_eq_ok.1 hs
  have hcopy := liftM_eq_ok.1 hcopy
  have hrules : g₁.rules = g.rules := (extends_copyDown hcopy).1.rules
  simp only at hs
  split at hs
  · cases hs
  · rename_i g₂ hadd
    have hcopied : g₁.WellWritten options :=
      ⟨tidy_copyDown h.nodes hcopy, fun name rule hrule =>
        h.values name rule (rule?_of_rules hrules name ▸ hrule), h.types.of_rules hrules⟩
    have hadded := hcopied.addRule (only_parens .nil) (only_parens .nil) hadd
    have hmodify := liftM_eq_ok.1 hs
    have hrules' := (modifyNode_eq_ok hmodify).1
    exact ⟨hadded.nodes.sameCode (sameCode_modifyNode hmodify (sameCode_withCheckRule _)),
      fun name rule hrule => hadded.values name rule (rule?_of_rules hrules' name ▸ hrule),
      hadded.types.of_rules hrules'⟩

theorem WellWritten.synthesizeRounds {rounds : Nat} (h : g.WellWritten options)
    (hs : synthesizeRounds rounds g = .ok g') : g'.WellWritten options := by
  refine rounds_invariant (P := fun now => now.WellWritten options)
    (fun now pending next hnow _ hround => ?_) h hs
  exact foldlM_invariant (P := fun current => current.WellWritten options)
    (fun _ _ _ _ hwritten hstep => hwritten.synthesizeRule hstep) hnow hround

theorem WellWritten.nameRecognizers (h : g.WellWritten options) (called : List String) :
    (called.foldl (fun g name => g.modifyRule name fun rule =>
      { rule with recognizer := rule.recognizer.or (some (recognizerName name)) }) g).WellWritten
        options := by
  induction called generalizing g with
  | nil => exact h
  | cons name rest ih =>
    have hrules : ∀ other rule, (g.modifyRule name fun rule =>
        { rule with recognizer := rule.recognizer.or (some (recognizerName name)) }).rule? other =
          some rule → ∃ old, g.rule? other = some old ∧ rule.valueCode = old.valueCode ∧
            rule.valueType = old.valueType := by
      intro other rule hrule
      rw [rule?_modifyRule] at hrule
      obtain ⟨old, hold, rfl⟩ := Option.map_eq_some_iff.1 hrule
      refine ⟨old, hold, ?_⟩
      split <;> exact ⟨rfl, rfl⟩
    refine ih ⟨h.nodes, fun other rule hrule => ?_, h.types.terminal, h.types.list,
      fun other rule hrule => ?_⟩
    · obtain ⟨old, hold, hvalue, -⟩ := hrules other rule hrule
      exact hvalue ▸ h.values other old hold
    · obtain ⟨old, hold, -, htype⟩ := hrules other rule hrule
      exact htype ▸ h.types.rules other old hold

theorem WellWritten.assignRecognizers (h : g.WellWritten options)
    (ha : g.assignRecognizers = .ok g') : g'.WellWritten options := by
  unfold Grammar.assignRecognizers at ha
  obtain ⟨reached, -, ha⟩ := bind_eq_ok.1 ha
  cases pure_eq_ok.1 ha
  exact h.nameRecognizers _

/-! ## What escapes -/

/-- The values of the node are saved when the rule under this name is written. -/
def SavedBy (g : Grammar) (name : String) (id : NodeId) : Prop :=
  g.SavedWith (g.ruleNames.takeWhile (· != name) ++ [name]) id

/-- A reference that can be in the code of the rule under this name. -/
inductive Escapes (g : Grammar) (name : String) (r : Reference) : Prop where
  /-- The value of a rule is written as it is. -/
  | value {own : Rule} (rule : g.rule? name = some own) (found : r ∈ find own.valueCode)
  /-- References to what lies ahead are resolved in checks only. -/
  | action {own : Rule} {id : NodeId} {holder : Node} {action : Tokens}
      (rule : g.rule? name = some own) (matched : g.MatchedBy own.body id)
      (node : g.node id = .ok holder) (written : holder.HasAction action) (found : r ∈ find action)
      (ahead : r.isLookahead = true)
  /-- Prediction tests a check whose values are not saved. -/
  | check {own : Rule} {id : NodeId} {holder : Node} {code : Tokens}
      (rule : g.rule? name = some own) (shown : g.Shows own.body id)
      (node : g.node id = .ok holder) (written : holder.kind.expression? = some code)
      (found : r ∈ find code) (value : r.isLookahead = false) (unsaved : ¬g.SavedBy name id)

end Grammar

/-! ## References to what lies ahead -/

theorem isSome_lookaheadCode {r : Reference} (h : r.isLookahead = true) (offset : Nat) :
    (MethodPlan.lookaheadCode offset r).isSome = true := by
  cases r with
  | name n =>
    unfold Reference.isLookahead at h
    rw [Bool.or_eq_true] at h
    unfold MethodPlan.lookaheadCode Reference.name?
    simp only
    split
    · rfl
    · rename_i hvalue
      rw [if_pos (h.resolve_left hvalue)]
      rfl
  | _ => cases h

theorem isLookahead_of_lookaheadCode {r : Reference} {offset : Nat} {code : Tokens}
    (h : MethodPlan.lookaheadCode offset r = some code) : r.isLookahead = true ∧ NoDollar code := by
  cases r with
  | name n =>
    unfold MethodPlan.lookaheadCode Reference.name? at h
    simp only at h
    unfold Reference.isLookahead
    rw [Bool.or_eq_true]
    split at h
    · rename_i hvalue
      cases h
      exact ⟨Or.inl hvalue, only_selfCall _ (only_natLiteral _)⟩
    · split at h
      · rename_i hindex
        cases h
        exact ⟨Or.inr hindex, only_natLiteral _⟩
      · cases h
  | _ => cases h

/-- Checks are written without references to what lies ahead. -/
theorem only_lookaheadCode {P : Reference → Prop} {code : Tokens} (h : Only P code) (offset : Nat) :
    Only (fun r => P r ∧ r.isLookahead = false) (replace (MethodPlan.lookaheadCode offset) code) := by
  refine h.replace (fun r new _ hnew => (isLookahead_of_lookaheadCode hnew).2.only) ?_
  intro r hr hnone
  refine ⟨hr, ?_⟩
  cases hlookahead : r.isLookahead with
  | false => rfl
  | true =>
    have hsome := isSome_lookaheadCode hlookahead offset
    rw [hnone] at hsome
    cases hsome

/-! ## The run -/

/-- These rules were written, and their values are saved. -/
structure Settled (g : Grammar) (written : List String) (g' : Grammar) : Prop where
  shape : g.SameShape g'
  rules : g'.rules = g.rules
  settles : g.Settles (g.SavedWith written) g'

section

variable {g g' : Grammar} {options : Options} {follow : FollowSets} {name : String}
  {written names : List String} {methods : List Method} {s s' : Generation}

theorem mem_of_mem_takeWhile {other : String}
    (h : other ∈ (written ++ name :: names).takeWhile (· != name)) : other ∈ written := by
  induction written with
  | nil =>
    rw [List.nil_append, List.takeWhile_cons_of_neg (by simp)] at h
    cases h
  | cons first rest ih =>
    rw [List.cons_append, List.takeWhile_cons] at h
    split at h
    · exact List.mem_cons.2 ((List.mem_cons.1 h).imp_right ih)
    · cases h

theorem Grammar.SavedBy.savedWith {id : NodeId} (hnames : g.ruleNames = written ++ name :: names)
    (hid : g.SavedBy name id) : g.SavedWith (written ++ [name]) id := by
  obtain ⟨earlier, hearlier, hsaved⟩ := hid
  refine ⟨earlier, ?_, hsaved⟩
  rw [hnames] at hearlier
  rcases List.mem_append.1 hearlier with hearlier | hearlier
  · exact List.mem_append_left _ (mem_of_mem_takeWhile hearlier)
  · exact List.mem_append_right _ hearlier

/-- A rule is lowered in a grammar where its own nodes are settled, too. -/
theorem Settled.writes {rule : Rule} {m : MethodPlan} (hg : g.Tidy)
    (h : Settled g (written ++ [name]) m.grammar)
    (hnames : g.ruleNames = written ++ name :: names) (hrule : g.rule? name = some rule)
    (htrees : ∀ id alts tree, g.MatchedBy rule.body id →
      m.grammar.kindAt? id = some (.alternatives alts) → alts.prediction = some tree →
      tree.TestsOnly (g.Shows rule.body)) :
    m.Writes (Only (g.Escapes name)) (g.Shows rule.body) rule.body where
  actions id node' action hid hnode' haction := by
    have hid := h.shape.symm.matchedBy hid
    have hsaved : g.SavedWith (written ++ [name]) id :=
      ⟨name, List.mem_append_right _ (List.mem_singleton_self _), rule, hrule, hid⟩
    obtain ⟨node, hnode, hsettles⟩ := h.settles.settled id node' hsaved hnode'
    refine (hsettles.actions action haction).imp fun r _ hr => ?_
    obtain ⟨hahead, old, hold, hfound⟩ := hr
    exact .action hrule hid hnode hold hfound hahead
  checks id kind code offset hid hk hcode := by
    obtain ⟨node', hnode', rfl⟩ := Grammar.kindAt?_eq_some.1 hk
    by_cases hsaved : g.SavedWith (written ++ [name]) id
    · obtain ⟨node, -, hsettles⟩ := h.settles.settled id node' hsaved hnode'
      refine (only_lookaheadCode (hsettles.expression code hcode) offset).imp fun r _ hr => ?_
      rw [hr.1] at hr
      cases hr.2
    · obtain ⟨node, hnode, hsame⟩ := h.settles.kept id node' hsaved hnode'
      have hold := hsame.expression ▸ hcode
      have honly := ((hg id node hnode).expression code hold).imp fun r hr _ => hr
      refine (only_lookaheadCode honly offset).imp fun r _ hr => ?_
      exact .check hrule hid hnode hold hr.1 hr.2 fun hearlier => hsaved (hearlier.savedWith hnames)
  matched id hid := (g.closed_shows rule.body).matchedBy .refl (h.shape.symm.matchedBy hid)
  trees id alts tree hid hk htree := htrees id alts tree (h.shape.symm.matchedBy hid) hk htree

/-- **One rule.** -/
theorem Settled.step (hg : g.WellWritten options) (h : Settled g written s.grammar)
    (hnames : g.ruleNames = written ++ name :: names)
    (hrule : Yields (Generate.rule options follow name) s methods s')
    (hquiet : ∀ message, .report message ∈ s'.events → message.severity ≠ .error) :
    Settled g (written ++ [name]) s'.grammar ∧ ∀ method ∈ methods,
      g.rule? name = some method.rule ∧ Only (g.Escapes name) method.code := by
  obtain ⟨g₁, journal, events, rule, hanalysis, hsaved, hevents, hfound, hmethods⟩ :=
    Generate.yields_rule hrule
  have hannotates := Grammar.annotates_saveValues hsaved
  obtain ⟨analyzed, hanalyzed, hshape, hrules, -⟩ := Grammar.frame_analyzeRule hanalysis
  have hshape₁ : g.SameShape g₁ := h.shape.trans hshape
  have hrules₁ : g₁.rules = g.rules := hrules.trans h.rules
  have hrules' : s'.grammar.rules = g.rules := hannotates.rules.trans hrules₁
  have hrule₁ : g₁.rule? name = some rule :=
    (Grammar.rule?_of_rules hannotates.rules name).symm.trans hfound
  have hcode : g.Settles (g.SavedWith written) g₁ :=
    (h.settles.trans (Grammar.sameCode_analyzeRule hanalysis).settles).congr
      fun id => .of_eq (or_false _)
  obtain ⟨_, hsame, hsettles⟩ := Grammar.settles_saveValues (hcode.tidy hg.nodes)
    (hg.types.of_rules hrules₁) hsaved fun message hm => hquiet message (hevents hm)
  cases hrule₁.symm.trans hsame
  have hold : g.rule? name = some rule := (Grammar.rule?_of_rules hrules' name).symm.trans hfound
  have hsettled : Settled g (written ++ [name]) s'.grammar := by
    refine ⟨hshape₁.trans hannotates.kinds.sameShape, hrules', (hcode.trans hsettles).congr ?_⟩
    intro id
    have hmatched : g₁.MatchedBy rule.body id ↔ g.MatchedBy rule.body id :=
      ⟨hshape₁.symm.matchedBy, hshape₁.matchedBy⟩
    rw [hmatched]
    unfold Grammar.SavedWith
    simp only [List.mem_append, List.mem_singleton, or_and_right, exists_or, exists_eq_left, hold,
      Option.some.injEq, exists_eq_left']
  refine ⟨hsettled, fun method hm => ?_⟩
  obtain ⟨hmethod, -, threshold, st, st', hlower⟩ := hmethods.lowered method hm
  rw [hmethod] at hlower ⊢
  refine ⟨hold, (hsettled.writes hg.nodes hnames hold ?_).lowerMethod ?_ ?_ hlower⟩
  · intro id alts tree hid hk htree
    have hk₁ := hannotates.kinds.symm.alternatives hk
    have hbefore : s.grammar.rule? name = some rule :=
      (Grammar.rule?_of_rules h.rules name).trans hold
    refine (Grammar.testsOnly_of_analyzeRule hanalysis hbefore (h.shape.matchedBy hid) hk₁ htree).imp ?_
    exact fun _ => h.shape.symm.shows h.rules.symm
  · exact (hg.types.rules name rule hold).only
  · exact (hg.values name rule hold).imp fun r hr _ => .value hold hr

/-- **All rules**, by induction on those still to come. -/
theorem Settled.run {parts : List (List Method)} (hg : g.WellWritten options)
    (h : Settled g written s.grammar) (hnames : g.ruleNames = written ++ names)
    (hrun : Yields (names.mapM (Generate.ruleOrSkip options follow)) s parts s')
    (hquiet : ∀ message, .report message ∈ s'.events → message.severity ≠ .error) :
    ∀ method ∈ parts.flatten, ∃ name,
      g.rule? name = some method.rule ∧ Only (g.Escapes name) method.code := by
  induction names generalizing s parts written with
  | nil =>
    obtain ⟨rfl, -⟩ := yields_mapM_nil.1 hrun
    exact nofun
  | cons name names ih =>
    obtain ⟨own, s₁, parts, hown, hrest, rfl⟩ := yields_mapM_cons.1 hrun
    have hevents : s₁.events ⊆ s'.events :=
      ((logs_mapM (Generate.logs_ruleOrSkip options follow) names).yields hrest).subset
    have hquiet₁ : ∀ message, .report message ∈ s₁.events → message.severity ≠ .error :=
      fun message hm => hquiet message (hevents hm)
    -- A rule that is left out is reported as an error.
    have hrule := (Generate.yields_ruleOrSkip hown).resolve_right
      fun ⟨cause, _, hm⟩ => hquiet₁ _ hm rfl
    obtain ⟨hsettled, hmethods⟩ := h.step hg hnames hrule hquiet₁
    intro method hm
    rcases List.mem_append.1 hm with hm | hm
    · exact ⟨name, hmethods method hm⟩
    · exact ih hsettled (by rw [hnames, List.append_assoc, List.singleton_append]) hrest method hm

end

/-- The item is the code of a method and holds only references that can be in the code of its rule, or it
holds none at all. -/
def Grammar.EscapesOnly (g : Grammar) (methods : List Method) (item : Tokens) : Prop :=
  (∃ method ∈ methods, item = method.code ∧ ∃ name, g.rule? name = some method.rule ∧
    ∀ r ∈ find item, g.Escapes name r) ∨ find item = []

/-- **What escapes substitution.** When all dollar signs in code begin references, types have none, and
generation has no error to report, each reference in the code that is generated for a rule is in the value
of the rule, speaks of what lies ahead in one of its actions, or is in a check that the rule shows to
prediction and whose values were not saved. -/
theorem Grammar.escapes_of_generate {g g' : Grammar} {options : Options} {items : List Tokens}
    {events : List Event} (hg : g.WellWritten options)
    (h : g.generate options = (.ok items, g', events))
    (hquiet : ∀ message, .report message ∈ events → message.severity ≠ .error) :
    ∃ g₁ g₂ methods state, g.synthesizeRecognizers = .ok g₁ ∧ g₁.assignRecognizers = .ok g₂ ∧
      g.methods options = (.ok methods, state) ∧ ∀ item ∈ items, g₂.EscapesOnly methods item := by
  unfold Grammar.generate at h
  cases hmethods : g.methods options with
  | mk result state =>
    rw [hmethods] at h
    simp only [Prod.mk.injEq] at h
    obtain ⟨hitems, -, rfl⟩ := h
    cases result with
    | error failure => cases hitems
    | ok methods =>
      cases hitems
      obtain ⟨-, g₁, g₂, follow, parts, s₂, hg₁, hg₂, rfl, hparts, rfl⟩ := Generate.yields_all hmethods
      have hwritten : s₂.grammar.WellWritten options :=
        (hg.synthesizeRounds hg₁).assignRecognizers hg₂
      have hstart : Settled s₂.grammar [] s₂.grammar := by
        refine ⟨.refl _, rfl, (Grammar.SameCode.refl _).settles.congr fun id => ?_⟩
        simp [Grammar.SavedWith]
      have hrun := hstart.run hwritten (List.nil_append _).symm hparts hquiet
      refine ⟨g₁, s₂.grammar, _, state, hg₁, hg₂, rfl, fun item hitem => ?_⟩
      rcases List.mem_append.1 hitem with hitem | hitem
      · obtain ⟨method, hm, rfl⟩ := List.mem_map.1 hitem
        obtain ⟨name, hrule, hescapes⟩ := hrun method hm
        exact Or.inl ⟨method, hm, rfl, name, hrule, hescapes.find⟩
      · -- Tables hold no code of the grammar.
        obtain ⟨index, hindex, rfl⟩ := List.mem_mapIdx.1 hitem
        have hnone := only_member (P := fun _ => False) index state.tables.sets[index]
        exact Or.inr (List.eq_nil_iff_forall_not_mem.2 hnone.find)

/-! ## An instance -/

/-- The terminal has an action that looks ahead and a label that the value of the rule refers to. -/
def labeled : Grammar where
  nodes := #[{ Node.ofKind (.terminal (.ofRanges [(65, 65)]) none) with
    label := some "x", preAction := some [.punct '$' .alone, .ident "LA"] }]
  rules := [("Start", { Rule.ofBody "Start" 0 with
    returns := some [.ident "i32"], result := some [.punct '$' .alone, .ident "x"] })]

theorem labeled_wellWritten : labeled.WellWritten .default := by
  have hnode : ∀ id node, labeled.node id = .ok node → node = labeled.nodes[0] := by
    intro id node hnode
    obtain ⟨hid, rfl⟩ := Array.getElem?_eq_some_iff.1 (Grammar.node_eq_ok.1 hnode)
    cases Nat.lt_one_iff.1 hid
    rfl
  have hrule : ∀ name rule, labeled.rule? name = some rule →
      rule.valueType = [.ident "i32"] ∧ rule.valueCode = [.punct '$' .alone, .ident "x"] := by
    intro name rule hrule
    have hm := Grammar.mem_rules_of_rule? hrule
    cases List.mem_singleton.1 hm
    exact ⟨rfl, rfl⟩
  refine ⟨fun id node h => ?_, fun name rule h => ?_, ?_, only_word _, fun name rule h => ?_⟩
  · rw [hnode id node h]
    refine ⟨?_, nofun⟩
    rintro action (haction | haction)
    · cases haction
      exact .reference rfl trivial .nil
    · cases haction
  · rw [(hrule name rule h).2]
    exact .reference rfl trivial .nil
  · rintro type ⟨⟩
    exact only_word _
  · rw [(hrule name rule h).1]
    exact only_word _

/-- The references in the code of `labeled`, when there is nothing to say about it. -/
def labeledReferences : Option (List (List String)) :=
  match labeled.generate .default with
  | (.ok items, _, events) =>
    if events.isEmpty then some (items.map fun item => (find item).map Reference.key) else none
  | _ => none

theorem labeled_references : labeledReferences = some [["LA", "x"]] := by decide +kernel

theorem labeled_escapes : labeled.WellWritten .default ∧ ∃ items g' events,
    labeled.generate .default = (.ok items, g', events) ∧
      (∀ message, .report message ∈ events → message.severity ≠ .error) ∧
      items.map (fun item => (find item).map Reference.key) = [["LA", "x"]] ∧
      ∃ g₁ g₂ methods state, labeled.synthesizeRecognizers = .ok g₁ ∧
        g₁.assignRecognizers = .ok g₂ ∧ labeled.methods .default = (.ok methods, state) ∧
        ∀ item ∈ items, g₂.EscapesOnly methods item := by
  have hreferences := labeled_references
  unfold labeledReferences at hreferences
  split at hreferences
  · rename_i items g' events hgenerate
    split at hreferences
    · rename_i hempty
      have hquiet : ∀ message, .report message ∈ events → message.severity ≠ .error := by
        rw [List.isEmpty_iff.1 hempty]
        exact nofun
      exact ⟨labeled_wellWritten, items, g', events, hgenerate, hquiet,
        Option.some.inj hreferences,
        Grammar.escapes_of_generate labeled_wellWritten hgenerate hquiet⟩
    · cases hreferences
  · cases hreferences

end PredictiveParser
