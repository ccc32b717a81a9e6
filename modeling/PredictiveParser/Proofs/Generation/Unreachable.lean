import PredictiveParser.Proofs.Analysis.Reachable
import PredictiveParser.Proofs.Generation.Rule
import PredictiveParser.Proofs.Method.Unreachable

/-!
# Reports of what cannot be reached

When a rule is generated, the arms of an alternative set that no leaf of its tree chooses are listed in a
warning, and there is another one where no leaf of a loop chooses its exit. What has no leaf is never
selected. What has leaves is selected by some terminals ahead and some truth values of checks, but for one
case: all of its leaves may be branches of assertion levels that are subsumed by branches before them
(`Decision.Hides`). Then it is never selected either, and nothing is said.

`Generate.reportsUnreachable_rule` says this of each alternative set of a rule that code is written for.
-/
namespace PredictiveParser

open Relation

namespace Grammar

variable {g g' : Grammar} {body id : NodeId} {alts : Alternatives} {tree : Decision} {said : List Event}

/-- Code is written for the node where a rule with this body is lowered. -/
def Written (g : Grammar) (body id : NodeId) : Prop :=
  ReflTransGen (g.Link Node.writtenChildren) body id

theorem Written.matched (h : g.Written body id) : g.MatchedBy body id := by
  refine ReflTransGen.mono ?_ _ _ h
  rintro parent child ⟨node, hnode, hchild⟩
  exact ⟨node, hnode, node.sublist_writtenChildren.subset hchild⟩

/-- What is said about an alternative set with this tree: the arms that are never selected are listed, and
it is said of a loop that it is never left, but not of choices that are hidden behind subsumed branches. -/
inductive ReportsUnreachable (g : Grammar) (rule : String) (id : NodeId) (alts : Alternatives)
    (tree : Decision) (said : List Event) : Prop where
  | intro (arms : List Nat) (endless : Bool)
      (texts : said = (unreachableText arms ++ endlessText endless).map (.atNode g .warning rule id))
      (ascending : arms.Pairwise (· < ·))
      (listed : ∀ index, index ∈ arms ↔ index < alts.arms.length ∧
        tree.NeverSelects (.arm index) ∧ ¬tree.Hides (.arm index))
      (exit : endless = true ↔ alts.hasExit = true ∧ tree.NeverSelects .exit ∧ ¬tree.Hides .exit)

end Grammar

namespace MethodPlan

variable {m : MethodPlan} {id : NodeId} {alts : Alternatives} {tree : Decision}

theorem reportsUnreachable {la : Lookahead} {k : Nat} {live : Live} {analyzed : Alternatives}
    (hreports : m.reports = true) (hk : m.grammar.kindAt? id = some (.alternatives alts))
    (htree : alts.prediction = some tree) (h : tree.Shaped la k analyzed true 0 live) :
    m.grammar.ReportsUnreachable m.rule.name id alts tree (m.unreachableAt id) := by
  rw [unreachableAt_eq hk htree, warnings, if_pos hreports]
  refine .intro (alts.unusedArms tree) (alts.isEndless tree) rfl ?_ (fun index => ?_) ?_
  · exact List.pairwise_lt_range.filter _
  · rw [Alternatives.mem_unusedArms, h.not_mem_leaves_iff]
  · rw [Alternatives.isEndless_iff, h.not_mem_leaves_iff]

theorem node?_of_mem_unreachableAt {event : Event} (h : event ∈ m.unreachableAt id) :
    event.node? = some id := by
  unfold unreachableAt at h
  split at h
  · split at h
    · exact node?_of_mem_warnings h
    · cases h
  · cases h

/-- What is said about a node is what there is to say about it. -/
theorem filter_unreachableAt (m : MethodPlan) {ids : List NodeId} (hnodup : ids.Nodup) (hid : id ∈ ids) :
    (ids.flatMap m.unreachableAt).filter (·.node? = some id) = m.unreachableAt id := by
  have other : ∀ {ids : List NodeId}, id ∉ ids →
      (ids.flatMap m.unreachableAt).filter (·.node? = some id) = [] := by
    intro ids hnone
    refine List.filter_eq_nil_iff.2 fun event hevent hat => ?_
    obtain ⟨id', hid', hevent⟩ := List.mem_flatMap.1 hevent
    have hsame := (node?_of_mem_unreachableAt hevent).symm.trans (of_decide_eq_true hat)
    exact hnone (Option.some.inj hsame ▸ hid')
  have own : (m.unreachableAt id).filter (·.node? = some id) = m.unreachableAt id :=
    List.filter_eq_self.2 fun event hevent => decide_eq_true (node?_of_mem_unreachableAt hevent)
  obtain ⟨before, after, rfl⟩ := List.append_of_mem hid
  rw [List.nodup_append, List.nodup_cons] at hnodup
  obtain ⟨-, ⟨hafter, -⟩, hapart⟩ := hnodup
  have hbefore : id ∉ before := fun hmem => hapart id hmem id List.mem_cons_self rfl
  rw [List.flatMap_append, List.flatMap_cons, List.filter_append, List.filter_append, other hbefore,
    other hafter, own, List.nil_append, List.append_nil]

end MethodPlan

namespace Generate

variable {options : Options} {follow : FollowSets} {name : String} {s s' : Generation} {r : Rule}
  {methods : List Method} {form : Form}

theorem events_makeMethod {method : Method} (h : Yields (makeMethod r form options) s method s') :
    s'.grammar = s.grammar ∧ ∃ ids,
      s.grammar.walkDown Node.writtenChildren s.grammar.depthBound r.body = .ok ids ∧
      s'.events = s.events ++ ids.flatMap
        (MethodPlan.unreachableAt ⟨s.grammar, r, form, options.switchThreshold⟩) := by
  have h := yields_get_bind.1 h
  obtain ⟨_, s₁, hset, h⟩ := yields_bind.1 h
  obtain ⟨hmethod, rfl⟩ := yields_lift.1 h
  have hlower : Yields (MethodPlan.lowerMethod ⟨s.grammar, r, form, options.switchThreshold⟩)
      ⟨s.tables, [], [], 0, 0⟩ method _ := Prod.ext hmethod rfl
  obtain ⟨ids, hids, hevents⟩ := MethodPlan.events_lowerMethod hlower
  rw [yields_set.1 hset]
  exact ⟨rfl, ids, hids, congrArg (s.events ++ ·) hevents⟩

/-- What the form of a rule that reports says. -/
theorem events_methodsOf (h : Yields (methodsOf r options form) s methods s') :
    s'.grammar = s.grammar ∧ (r.hasForm form = false ∧ methods = [] ∧ s'.events = s.events ∨
      r.hasForm form = true ∧ ∃ ids,
        s.grammar.walkDown Node.writtenChildren s.grammar.depthBound r.body = .ok ids ∧
        s'.events = s.events ++ ids.flatMap
          (MethodPlan.unreachableAt ⟨s.grammar, r, form, options.switchThreshold⟩)) := by
  unfold methodsOf at h
  split at h
  · rename_i hform
    obtain ⟨method, s₁, hmethod, h⟩ := yields_bind.1 h
    obtain ⟨-, rfl⟩ := yields_pure.1 h
    obtain ⟨hgrammar, hsaid⟩ := events_makeMethod hmethod
    exact ⟨hgrammar, Or.inr ⟨hform, hsaid⟩⟩
  · rename_i hform
    obtain ⟨rfl, rfl⟩ := yields_pure.1 h
    exact ⟨rfl, Or.inl ⟨Bool.eq_false_iff.2 hform, rfl, rfl⟩⟩

/-- A form that does not report says nothing. -/
theorem unreachableAt_of_not_reports {m : MethodPlan} (h : m.reports = false) (id : NodeId) :
    m.unreachableAt id = [] := by
  have hnone : ∀ texts, m.warnings id texts = [] := fun texts => if_neg (by simp [h])
  unfold MethodPlan.unreachableAt
  split
  · split
    · exact hnone _
    · rfl
  · rfl

/-- **One form of a rule reports.** A rule with a parser form reports in that form, and another rule in
its recognizer form. -/
theorem events_forms {parsers recognizers : List Method} {s₁ : Generation}
    (hparsers : Yields (methodsOf r options .parser) s parsers s₁)
    (hrecognizers : Yields (methodsOf r options .recognizer) s₁ recognizers s')
    (hmade : parsers ++ recognizers ≠ []) :
    s'.grammar = s.grammar ∧ ∃ (m : MethodPlan) (ids : List NodeId), m.grammar = s.grammar ∧
      m.rule = r ∧ m.reports = true ∧
      s.grammar.walkDown Node.writtenChildren s.grammar.depthBound r.body = .ok ids ∧
      s'.events = s.events ++ ids.flatMap m.unreachableAt := by
  obtain ⟨hsame, hparser⟩ := events_methodsOf hparsers
  obtain ⟨hsame', hrecognizer⟩ := events_methodsOf hrecognizers
  refine ⟨hsame'.trans hsame, ?_⟩
  rw [hsame] at hrecognizer
  rcases hparser with ⟨hform, rfl, hevents⟩ | ⟨hform, ids, hids, hevents⟩
  · rcases hrecognizer with ⟨-, rfl, -⟩ | ⟨-, ids, hids, hevents'⟩
    · exact (hmade rfl).elim
    · refine ⟨⟨s.grammar, r, .recognizer, options.switchThreshold⟩, ids, rfl, rfl, ?_, hids, ?_⟩
      · have honly : r.recognizerOnly = true := by simpa [Rule.hasForm, Rule.generatesParser] using hform
        simp [MethodPlan.reports, honly]
      · rw [hevents', hevents]
  · refine ⟨⟨s.grammar, r, .parser, options.switchThreshold⟩, ids, rfl, rfl, rfl, hids, ?_⟩
    rw [← hevents]
    rcases hrecognizer with ⟨-, -, hevents'⟩ | ⟨-, ids', -, hevents'⟩
    · exact hevents'
    · have hparser : r.recognizerOnly = false := by
        simpa [Rule.hasForm, Rule.generatesParser] using hform
      have hsilent : ids'.flatMap (MethodPlan.unreachableAt
          ⟨s.grammar, r, .recognizer, options.switchThreshold⟩) = [] :=
        List.flatMap_eq_nil_iff.2 fun id _ =>
          unreachableAt_of_not_reports (by simp [MethodPlan.reports, hparser]) id
      rw [hevents', hsilent, List.append_nil]

/-- A rule is analyzed, its values are saved, and its forms are made; what each step says is said behind
what was said before. -/
theorem events_rule (h : Yields (rule options follow name) s methods s') (hmade : methods ≠ []) :
    ∃ (g : Grammar) (journal saved : List Event) (m : MethodPlan) (ids : List NodeId),
      Yields (Grammar.analyzeRule name follow options) (s.grammar, s.events) ⟨⟩ (g, journal) ∧
      g.saveValues name options = .ok (s'.grammar, saved) ∧
      s'.grammar.rule? name = some m.rule ∧ m.grammar = s'.grammar ∧ m.reports = true ∧
      s'.grammar.walkDown Node.writtenChildren s'.grammar.depthBound m.rule.body = .ok ids ∧
      s'.events = journal ++ saved ++ ids.flatMap m.unreachableAt := by
  obtain ⟨g, journal, g', saved, r, parsers, s₁, recognizers, hanalysis, hsaved, hr, hparsers,
    hrecognizers, rfl⟩ := yields_rule_iff.1 h
  obtain ⟨hgrammar, m, ids, hm, rfl, hreports, hids, hevents⟩ :=
    events_forms hparsers hrecognizers hmade
  obtain rfl : s'.grammar = g' := hgrammar
  exact ⟨g, journal, saved, m, ids, hanalysis, hsaved, hr, hm, hreports, hids, hevents⟩

/-- What is said about the alternative sets of an analyzed rule, where the method is for a grammar that is
as the analysis has left it but for what is annotated. -/
theorem reportsUnreachable_of_analyzeRule {g g₁ : Grammar} {journal journal' : List Event}
    {m : MethodPlan} {ids : List NodeId} (hvalid : g.validate = .ok ())
    (h : Yields (Grammar.analyzeRule name follow options) (g, journal) ⟨⟩ (g₁, journal'))
    (hannotates : g₁.Annotates m.grammar) (hr : m.grammar.rule? name = some m.rule)
    (hreports : m.reports = true)
    (hids : m.grammar.walkDown Node.writtenChildren m.grammar.depthBound m.rule.body = .ok ids)
    {id : NodeId} {alts : Alternatives} (hwritten : m.grammar.Written m.rule.body id)
    (hk : m.grammar.kindAt? id = some (.alternatives alts)) :
    ∃ tree, alts.prediction = some tree ∧ m.grammar.ReportsUnreachable m.rule.name id alts tree
      ((ids.flatMap m.unreachableAt).filter (·.node? = some id)) := by
  obtain ⟨rule, hrule, hall⟩ := Grammar.shaped_of_analyzeRule hvalid h
  obtain ⟨-, -, hshape, hrules, -⟩ := Grammar.frame_analyzeRule h
  have hsame : m.rule = rule := by
    have hrule₁ := Grammar.rule?_of_rules (hannotates.rules.trans hrules) name
    rw [hr, hrule] at hrule₁
    exact Option.some.inj hrule₁
  -- The set was there before the analysis, which gave it its tree.
  have hkept := hshape.trans hannotates.kinds.sameShape
  obtain ⟨place, hoccurs, rfl⟩ := Grammar.exists_occurs (hkept.symm.matchedBy hwritten.matched)
  have hk₁ := hannotates.kinds.symm.alternatives hk
  obtain ⟨kind, hk₀, hbare⟩ := hshape.symm.kindAt? hk₁
  obtain ⟨prediction, rfl⟩ := NodeKind.of_bare_alternatives hbare
  obtain ⟨tree, hk₂, hshaped⟩ := hall place _ (hsame ▸ hoccurs) hk₀
  have htree : alts.prediction = some tree := by
    rw [NodeKind.alternatives.inj (Option.some.inj (hk₁.symm.trans hk₂))]
  have hnodup : ids.Nodup := by
    obtain ⟨ids', hids', hnodup⟩ :=
      (Grammar.forest_of_validate hvalid).nodup_walkMatched hkept.shapeIn hrule
    obtain ⟨ids'', hids'', hsub⟩ := Grammar.sublist_walkDown Node.sublist_writtenChildren hids'
    rw [hsame] at hids
    cases hids.symm.trans hids''
    exact hsub.nodup hnodup
  rw [m.filter_unreachableAt hnodup ((Grammar.mem_walkDown hids).2 hwritten)]
  exact ⟨tree, htree, m.reportsUnreachable hreports hk htree hshaped⟩

/-- **Reports of what cannot be reached are exact, but for subsumed branches.** Generating a rule of a
validated grammar says, behind what its analysis and the saving of its values say, which arms of its
alternative sets are never selected, and which loops are never left. It says so of all sets that code is
written for; sets inside of arms without a leaf have no code, and nothing is said about them. -/
theorem reportsUnreachable_rule (hvalid : s.grammar.validate = .ok ())
    (h : Yields (rule options follow name) s methods s') (hmade : methods ≠ []) :
    ∃ (r : Rule) (g : Grammar) (journal saved said : List Event),
      Yields (Grammar.analyzeRule name follow options) (s.grammar, s.events) ⟨⟩ (g, journal) ∧
      g.saveValues name options = .ok (s'.grammar, saved) ∧ s'.grammar.rule? name = some r ∧
      s'.events = journal ++ saved ++ said ∧
      (∀ event ∈ said, ∃ id, s'.grammar.Written r.body id ∧ event.node? = some id) ∧
      ∀ id alts, s'.grammar.Written r.body id → s'.grammar.kindAt? id = some (.alternatives alts) →
        ∃ tree, alts.prediction = some tree ∧ s'.grammar.ReportsUnreachable r.name id alts tree
          (said.filter (·.node? = some id)) := by
  obtain ⟨g, journal, saved, m, ids, hanalysis, hsaved, hr, hm, hreports, hids, hevents⟩ :=
    events_rule h hmade
  refine ⟨m.rule, g, journal, saved, _, hanalysis, hsaved, hr, hevents, fun event hevent => ?_,
    fun id alts hwritten hk => ?_⟩
  · obtain ⟨id, hid, hevent⟩ := List.mem_flatMap.1 hevent
    exact ⟨id, (Grammar.mem_walkDown hids).1 hid, m.node?_of_mem_unreachableAt hevent⟩
  · have hannotates := Grammar.annotates_saveValues hsaved
    rw [← hm] at hannotates hr hids hwritten hk ⊢
    exact reportsUnreachable_of_analyzeRule hvalid hanalysis hannotates hr hreports hids hwritten hk

end Generate

/-! ## An arm that is hidden -/

/-- An `a` behind a check, and then an `x` or a `y`. The check and the `a` are in a rule that both arms
call. -/
def vetted : Grammar where
  nodes := #[.ofKind (.check ⟨false, .code (Template.word "vet"), none⟩),
    .ofKind (.terminal (.ofRanges [(97, 97)]) none), .ofKind (.sequence [0, 1]), .ofKind (.call "inner"),
    .ofKind (.terminal (.ofRanges [(120, 120)]) none), .ofKind (.sequence [3, 4]),
    .ofKind (.call "inner"), .ofKind (.terminal (.ofRanges [(121, 121)]) none),
    .ofKind (.sequence [6, 7]), .ofKind (.alternatives
      { Alternatives.ofArms [5, 8] .once with errorBranch := true })]
  rules := [("inner", .ofBody "inner" 2), ("vetted", { Rule.ofBody "vetted" 9 with k := some 1 })]

/-- With one terminal of lookahead both arms ask for the same check. -/
def vettedTree : Decision :=
  .level 0 false [
    ⟨.ofRanges [(97, 97)], [], .empty, .level 0 true [
      ⟨.ofRanges [(97, 97)], [[⟨0, 0⟩]], .empty, .pick (.arm 0)⟩,
      ⟨.ofRanges [(97, 97)], [[⟨0, 0⟩]], .empty, .pick (.arm 1)⟩,
      ⟨.ofRanges [(97, 97)], [], .empty, .pick .error⟩] (.ofRanges [(97, 97)])⟩,
    ⟨.ofRanges [(eof, 96), (98, maxChar)], [], .ofRanges [(97, 97)], .pick .error⟩]
    (.ofRanges [(97, 97)])

theorem vetted_neverSelects : vettedTree.NeverSelects (.arm 1) := by
  intro ahead holds _ hselect
  cases hset : (CharSet.ofRanges [(97, 97)]).contains (ahead 0) <;> cases hcheck : holds ⟨0, 0⟩ <;>
    simp [vettedTree, Decision.select, Decision.selectFrom, accepts, hset, hcheck] at hselect

def vettedRun : Except (Failure GenerationError) (List Method) × Generation :=
  StateT.run (ExceptT.run (Generate.rule .default
    [("inner", .ofRanges [(120, 121)]), ("vetted", .endOfInput)] "vetted")) ⟨vetted, .empty, []⟩

set_option maxRecDepth 20000 in
/-- One method is made, and nothing is said. -/
theorem vettedRun_eq : vettedRun.1.toOption.map List.length = some 1 ∧ vettedRun.2.events = [] ∧
    (vettedRun.2.grammar.rule? "vetted").map Rule.body = some 9 ∧
    vettedRun.2.grammar.kindAt? 9 = some (.alternatives
      { Alternatives.ofArms [5, 8] .once with errorBranch := true, prediction := some vettedTree }) := by
  unfold vettedRun
  cbv

theorem unreachableText_eq_nil {arms : List Nat} (h : unreachableText arms = []) : arms = [] := by
  unfold unreachableText at h
  split at h
  · rename_i hnone
    exact List.map_eq_nil_iff.1 hnone
  · cases h
  · cases h

/-- The second arm is never selected. It is hidden by the first, and nothing is said. -/
theorem vetted_reportsUnreachable : ∃ methods s',
    Yields (Generate.rule .default [("inner", .ofRanges [(120, 121)]), ("vetted", .endOfInput)] "vetted")
      ⟨vetted, .empty, []⟩ methods s' ∧ s'.events = [] ∧
    vettedTree.NeverSelects (.arm 1) ∧ vettedTree.Hides (.arm 1) := by
  obtain ⟨hmade, hevents, hbody, hk⟩ := vettedRun_eq
  cases hrun : vettedRun with
  | mk result s' =>
    rw [hrun] at hmade hevents hbody hk
    cases result with
    | error failure => cases hmade
    | ok methods =>
      have hmethods : methods ≠ [] := by
        rintro rfl
        cases hmade
      obtain ⟨r, g, journal, saved, said, -, -, hr, hsaid, -, hall⟩ :=
        Generate.reportsUnreachable_rule (by decide +kernel) hrun hmethods
      rw [hr] at hbody
      have hwritten : s'.grammar.Written r.body 9 := Option.some.inj hbody ▸ .refl
      obtain ⟨tree, htree, ⟨arms, endless, htexts, -, hlisted, -⟩⟩ := hall 9 _ hwritten hk
      cases htree
      refine ⟨methods, s', hrun, hevents, vetted_neverSelects, ?_⟩
      -- Nothing is said, so no arm is listed.
      have hnone : said = [] := (List.append_eq_nil_iff.1 (hsaid.symm.trans hevents)).2
      rw [hnone, List.filter_nil, eq_comm, List.map_eq_nil_iff, List.append_eq_nil_iff] at htexts
      by_contra hshown
      have hmem := (hlisted 1).2 ⟨by decide, vetted_neverSelects, hshown⟩
      rw [unreachableText_eq_nil htexts.1] at hmem
      cases hmem

end PredictiveParser
