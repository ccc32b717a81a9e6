import PredictiveParser.Proofs.Generation.Frame
import PredictiveParser.Proofs.Values.Messages
import PredictiveParser.Proofs.Values.Paired

/-!
# The passes over different rules commute

Before its methods are written, a rule is analyzed and its values are saved (`Passes`). Both read the shape
of the whole grammar, since lookahead goes into the rules that are called. But they leave the shape as it
is, and besides it they read and write nodes that the rule matches. No rule shares a node with another, so a
pass comes to the same in all grammars that share these nodes (`Passes.shares`), and the order of two rules
does not count (`passes_commute`).
-/
namespace PredictiveParser

def Event.about : Event → String
  | .report message => message.location.rule
  | .skipped rule _ => rule

theorem Event.Concerns.about {rule : String} {event : Event} (h : event.Concerns rule) :
    event.about = rule := by
  obtain ⟨message, rfl, hrule⟩ := h
  exact hrule

namespace Grammar

variable {g g' h : Grammar} {own : NodeId → Prop} {name : String} {rule : Rule} {follow : FollowSets}
  {options : Options} {journal journal' : List Event}

/-- The rule under a name is analyzed, and then its values are saved. -/
def Passes (follow : FollowSets) (options : Options) (name : String)
    (before after : Grammar × List Event) : Prop :=
  ∃ g journal events, Yields (analyzeRule name follow options) before ⟨⟩ (g, journal) ∧
    g.saveValues name options = .ok (after.1, events) ∧ after.2 = journal ++ events

/-- This is what generation does with a rule before it writes the methods. -/
theorem passes_of_rule {s s' : Generation} {methods : List Method}
    (hrun : Yields (Generate.rule options follow name) s methods s') :
    ∃ journal, Passes follow options name (s.grammar, s.events) (s'.grammar, journal) := by
  obtain ⟨g₁, journal, events, -, hanalysis, hsaved, -⟩ := Generate.yields_rule hrun
  exact ⟨_, g₁, journal, events, hanalysis, hsaved, rfl⟩

/-- A pass changes nodes that the rule matches, and says what concerns the rule. -/
theorem Passes.reworks (hpass : Passes follow options name (g, journal) (g', journal')) :
    ∃ rule, g.rule? name = some rule ∧ g.Reworks (g.MatchedBy rule.body) g' ∧
      Adds (Event.Concerns name) journal journal' := by
  obtain ⟨g₁, journal₁, events, hanalysis, hsaved, hjournal⟩ := hpass
  obtain rfl : journal' = journal₁ ++ events := hjournal
  obtain ⟨rule, hrule, -⟩ := frame_analyzeRule hanalysis
  have hlog := (logs_analyzeRule name follow options).yields hanalysis
  exact ⟨rule, hrule, reworks_saved hrule hanalysis hsaved,
    hlog.trans (.append (concerns_saveValues hsaved))⟩

/-- **A pass comes to the same in grammars that share what the rule matches.** -/
theorem Passes.shares (hpass : Passes follow options name (g, journal) (g', journal'))
    (hrule : g.rule? name = some rule) (ha : g.Shares (g.MatchedBy rule.body) h) :
    ∃ h' events, journal' = journal ++ events ∧ g'.Shares (g.MatchedBy rule.body) h' ∧
      ∀ journal₂, Passes follow options name (h, journal₂) (h', journal₂ ++ events) := by
  obtain ⟨g₁, journal₁, saving, hanalysis, hsaved, hjournal⟩ := hpass
  obtain rfl : journal' = journal₁ ++ saving := hjournal
  obtain ⟨_, proven, h₁, analysis, hrule', rfl, ha₁, -, -, hanalysis'⟩ := ha.analyzeRule
    (fun other id hother hid => Option.some.inj (hrule.symm.trans hother) ▸ hid) hanalysis
  cases hrule.symm.trans hrule'
  have hworks := reworks_analyzeRule hrule hanalysis
  have ha₂ : g₁.Shares (g.MatchedBy rule.body) h₁ := ha₁.imp fun id n m hn =>
    ⟨hn.bare, hn.own, fun hid => hn.predicted (Or.inl hid), fun hid => hn.marked (Or.inr hid)⟩
  obtain ⟨⟨h', events⟩, hsaved', ha', hevents⟩ := ha₂.saveValues
    (fun other id hother hid => by
      rw [rule?_of_rules hworks.rules, hrule] at hother
      exact Option.some.inj hother ▸ hworks.shape.symm.matchedBy hid)
    (fun id child hid hlink => hid.tail (hworks.shape.symm.link hlink)) _ hsaved
  cases hevents
  refine ⟨h', analysis ++ saving, List.append_assoc _ _ _, ha', fun journal₂ => ?_⟩
  exact ⟨h₁, _, saving, hanalysis' journal₂, hsaved', (List.append_assoc _ _ _).symm⟩

/-- What is said about one rule stands in a journal in the same order, whatever is said of another one in
between. -/
theorem filter_about {a b : String} (hne : a ≠ b) {ofA ofB : List Event}
    (hA : ∀ event ∈ ofA, event.Concerns a) (hB : ∀ event ∈ ofB, event.Concerns b) (rule : String) :
    (ofA ++ ofB).filter (·.about == rule) = (ofB ++ ofA).filter (·.about == rule) := by
  have hother : ∀ {name : String} {events : List Event}, (∀ event ∈ events, event.Concerns name) →
      name ≠ rule → events.filter (·.about == rule) = [] := by
    intro name events hevents hname
    refine List.filter_eq_nil_iff.2 fun event hevent => ?_
    rw [(hevents event hevent).about, beq_iff_eq]
    exact hname
  rw [List.filter_append, List.filter_append]
  by_cases ha : a = rule
  · rw [hother hB (ha ▸ hne.symm), List.append_nil, List.nil_append]
  · rw [hother hA ha, List.append_nil, List.nil_append]

/-- What is written at some nodes leaves the others as they are. -/
theorem Reworks.shares {written : NodeId → Prop} (h : g.Reworks written g')
    (hapart : ∀ id, own id → ¬ written id) : g.Shares own g' :=
  shares_of_nodes h.shape h.rules fun id hid => h.frame id (hapart id hid)

/-- And so it shares them backwards. -/
theorem Reworks.shares_symm {written : NodeId → Prop} (h : g.Reworks written g')
    (hapart : ∀ id, own id → ¬ written id) : g'.Shares own g :=
  shares_of_nodes h.shape.symm h.rules.symm fun id hid => (h.frame id (hapart id hid)).symm

/-- **Two orders of writing at different nodes** come to the same grammar, if each writer leaves the same at
its nodes in both orders. -/
theorem eq_of_reworks {ofA ofB : NodeId → Prop} {gA gB gAB gBA : Grammar}
    (hapart : ∀ id, ofA id → ¬ ofB id) (hA : g.Reworks ofA gA) (hAB : gA.Reworks ofB gAB)
    (hB : g.Reworks ofB gB) (hBA : gB.Reworks ofA gBA) (hsameA : gA.Shares ofA gBA)
    (hsameB : gAB.Shares ofB gB) : gBA = gAB := by
  have hnodes : ∀ id : NodeId, gBA.nodes[id]? = gAB.nodes[id]? := by
    intro id
    by_cases hidA : ofA id
    · rw [hsameA.nodes hidA, hAB.frame id (hapart id hidA)]
    by_cases hidB : ofB id
    · rw [hBA.frame id hidA, hsameB.nodes hidB]
    -- Nobody has written here.
    rw [hBA.frame id hidA, hB.frame id hidB, hAB.frame id hidB, hA.frame id hidA]
  have hrules : gBA.rules = gAB.rules := by rw [hBA.rules, hB.rules, hAB.rules, hA.rules]
  obtain ⟨nodes, rules⟩ := gBA
  obtain ⟨nodes', rules'⟩ := gAB
  cases hrules
  cases Array.ext_getElem? hnodes
  rfl

/-- **The passes over two rules commute.** If the one order succeeds, so does the other. It leaves the same
grammar, and of each rule it says the same. -/
theorem passes_commute (hvalid : g.validate = .ok ()) {a b : String} (hne : a ≠ b)
    {mid : Grammar × List Event} (hfirst : Passes follow options a (g, journal) mid)
    (hsecond : Passes follow options b mid (g', journal')) :
    ∃ mid' journal'', Passes follow options b (g, journal) mid' ∧
      Passes follow options a mid' (g', journal'') ∧
      ∀ rule, journal''.filter (·.about == rule) = journal'.filter (·.about == rule) := by
  obtain ⟨g₁, journal₁⟩ := mid
  obtain ⟨ruleA, hruleA, hA, ofA, rfl, hofA⟩ := hfirst.reworks
  obtain ⟨ruleB, hruleB₁, hAB, ofB, rfl, hofB⟩ := hsecond.reworks
  have hruleB : g.rule? b = some ruleB := (rule?_of_rules hA.rules b).symm.trans hruleB₁
  have hapart : ∀ id, g.MatchedBy ruleA.body id → ¬ g.MatchedBy ruleB.body id := fun id hidA hidB =>
    hne ((forest_of_validate hvalid).rule_unique hruleA hruleB (reaches_of_matched hidA)
      (reaches_of_matched hidB))
  -- The second rule is as it was at the start, so its pass may come first.
  have hmatched : g₁.MatchedBy ruleB.body = g.MatchedBy ruleB.body := funext fun id =>
    propext ⟨hA.shape.symm.matchedBy, hA.shape.matchedBy⟩
  rw [hmatched] at hAB
  obtain ⟨h₁, ofB', hjournalB, hsameB, hpassB⟩ := hsecond.shares hruleB₁ <| hmatched ▸
    hA.shares_symm fun id hidB hidA => hapart id hidA hidB
  obtain rfl := List.append_cancel_left hjournalB
  obtain ⟨_, hrule, hB, -⟩ := (hpassB journal).reworks
  cases hruleB.symm.trans hrule
  -- The first rule is untouched by it.
  obtain ⟨h₂, ofA', hjournalA, hsameA, hpassA⟩ := hfirst.shares hruleA (hB.shares hapart)
  obtain rfl := List.append_cancel_left hjournalA
  obtain ⟨_, hrule, hBA, -⟩ := (hpassA (journal ++ ofB)).reworks
  cases ((rule?_of_rules hB.rules a).trans hruleA).symm.trans hrule
  rw [hmatched] at hsameB
  obtain rfl : h₂ = g' := eq_of_reworks hapart hA hAB hB
    (hBA.mono fun id => hB.shape.symm.matchedBy) hsameA hsameB
  refine ⟨_, _, hpassB journal, hpassA _, fun rule => ?_⟩
  rw [List.append_assoc, List.append_assoc, List.filter_append, List.filter_append journal,
    filter_about hne hofA hofB]

def passed? (follow : FollowSets) (options : Options) (name : String)
    (before : Grammar × List Event) : Option (Grammar × List Event) :=
  match StateT.run (ExceptT.run (analyzeRule name follow options)) before with
  | (.ok _, g, journal) =>
    match g.saveValues name options with
    | .ok (g', events) => some (g', journal ++ events)
    | .error _ => none
  | (.error _, _) => none

theorem passes_of_passed? {before after : Grammar × List Event}
    (h : passed? follow options name before = some after) : Passes follow options name before after := by
  unfold passed? at h
  split at h
  · rename_i g journal hanalysis
    split at h
    · rename_i g' events hsaved
      cases h
      exact ⟨g, journal, events, hanalysis, hsaved, rfl⟩
    · cases h
  · cases h

end Grammar

/-- Any number of items, each of them an `a` or a `b`. Their values go to `v`, and what `$w` is, nobody has
said in either rule. -/
def items : Grammar where
  nodes := #[.ofKind (.terminal (.ofRanges [(97, 97)]) none),
    { Node.ofKind (.terminal (.ofRanges [(98, 98)]) none) with
      postAction := some [.punct '$' .alone, .ident "w"] },
    .ofKind (.alternatives (.ofArms [0, 1] .once)),
    { Node.ofKind (.call "item") with
      label := some "v"
      postAction := some [.punct '$' .alone, .ident "v", .punct '$' .alone, .ident "w"] },
    .ofKind (.alternatives (.ofArms [3] .star))]
  rules := [("items", .ofBody "items" 4), ("item", .ofBody "item" 2)]

/-- What may follow the rules of `items`. -/
def itemsFollow : FollowSets :=
  [("items", .endOfInput), ("item", .everything)]

set_option maxRecDepth 20000 in
theorem items_passed : (((Grammar.passed? itemsFollow .default "items" (items, [])).bind
    (Grammar.passed? itemsFollow .default "item")).map fun after => after.2.map Event.about) =
      some ["items", "item"] := by
  cbv

theorem items_commute : ∃ mid mid' g' journal' journal'',
    Grammar.Passes itemsFollow .default "items" (items, []) mid ∧
    Grammar.Passes itemsFollow .default "item" mid (g', journal') ∧
    Grammar.Passes itemsFollow .default "item" (items, []) mid' ∧
    Grammar.Passes itemsFollow .default "items" mid' (g', journal'') ∧
    journal'.map Event.about = ["items", "item"] ∧
    ∀ rule, journal''.filter (·.about == rule) = journal'.filter (·.about == rule) := by
  obtain ⟨⟨g', journal'⟩, hafter, habout⟩ := Option.map_eq_some_iff.1 items_passed
  obtain ⟨mid, hmid, hafter⟩ := Option.bind_eq_some_iff.1 hafter
  have hfirst := Grammar.passes_of_passed? hmid
  have hsecond := Grammar.passes_of_passed? hafter
  obtain ⟨mid', journal'', hfirst', hsecond', hsame⟩ :=
    Grammar.passes_commute (by rfl) (by decide) hfirst hsecond
  exact ⟨mid, mid', g', journal', journal'', hfirst, hsecond, hfirst', hsecond', habout, hsame⟩

end PredictiveParser
