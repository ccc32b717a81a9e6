import PredictiveParser.Method.Basic
import PredictiveParser.Proofs.Analysis.Attach
import PredictiveParser.Proofs.Grammar.Naming

/-!
# Lowering does not fail

In a grammar that is ready, every rule that is called has the form it is called in, and every check
that prediction may meet has its recognizer. So a rule whose alternative sets have their trees is
lowered to a method in each of its forms, and what lowering says on the way are messages
(`total_lowerMethod`).
-/
namespace PredictiveParser

namespace Grammar

/-- Every alternative set that a rule with this body matches has a tree that chooses one of its arms
or its exit, by checks that prediction may meet. -/
def Decided (g : Grammar) (body : NodeId) : Prop :=
  ∀ id alts, g.MatchedBy body id → g.kindAt? id = some (.alternatives alts) →
    ∃ tree, alts.prediction = some tree ∧
      tree.invalidAlt? alts.arms.length alts.hasExit = none ∧ tree.TestsOnly g.Predicted

end Grammar

/-! ## Names, labels and messages -/

namespace Lower

/-- The step succeeds from every state, and what it says are messages. -/
def Total {α : Type} (x : Lower α) : Prop :=
  Succeeds LowerState.events Event.IsReport x

variable {wanted : Enclosure} {shared : List (Nat × List Stmt)}

theorem total_modify {f : LowerState → LowerState} (h : ∀ s, (f s).events = s.events) :
    Total (modify f) :=
  succeeds_modify fun s => by
    rw [h]
    exact .refl _ _

theorem total_refer (set : CharSet) : Total (refer set) := by
  refine succeeds_get.bind fun state => ?_
  exact Succeeds.bind (total_modify fun _ => rfl) fun _ => succeeds_pure _

theorem total_nextStop : Total nextStop :=
  Succeeds.bind (total_modify fun _ => rfl) fun _ => succeeds_get.bind fun _ => succeeds_pure _

theorem total_nextGotoSuffix : Total nextGotoSuffix :=
  succeeds_get.bind fun _ => Succeeds.bind (total_modify fun _ => rfl) fun _ => succeeds_pure _

theorem total_loopLabel : Total (loopLabel wanted shared) := by
  unfold loopLabel
  split
  · exact total_nextStop.map some
  · exact succeeds_pure none

theorem total_sharedSuffix : Total (sharedSuffix shared) := by
  unfold sharedSuffix
  split
  · exact succeeds_pure ""
  · exact total_nextGotoSuffix

theorem total_surround {label : Option String} {suffix : String} {jumpOver : Bool}
    {decision : List Stmt} : Total (surround wanted label suffix jumpOver shared decision) := by
  unfold surround
  dsimp only
  split
  · exact succeeds_pure _
  · exact total_nextStop.bind fun stop => succeeds_pure _
  · exact succeeds_pure _

end Lower

namespace MethodPlan

open Lower

variable {m : MethodPlan} {id : NodeId} {offset : Nat} {isAssertion : Bool}

theorem total_warn (m : MethodPlan) (id : NodeId) (message : String) : Total (m.warn id message) := by
  unfold warn
  split
  · refine succeeds_modify fun s => .append (List.forall_mem_singleton.2 ?_)
    exact ⟨_, rfl⟩
  · exact succeeds_pure ()

theorem total_warnUnreachable (m : MethodPlan) (id : NodeId) (alts : Alternatives) (tree : Decision) :
    Total (m.warnUnreachable id alts tree) := by
  unfold warnUnreachable
  dsimp only
  have hloop : Total (if (alts.hasExit && !tree.uses .exit) = true then
      m.warn id "Infinite loop. The exit branch is unreachable." else pure ()) := by
    split
    · exact total_warn m id _
    · exact succeeds_pure ()
  split
  · exact Succeeds.bind (succeeds_pure ()) fun _ => hloop
  · exact (total_warn m id _).bind fun _ => hloop
  · exact (total_warn m id _).bind fun _ => hloop

/-! ## Checks and calls -/

theorem exists_checkTest (hg : m.grammar.Ready) (hid : m.grammar.Predicted id) {check : Check}
    (hk : m.grammar.kindAt? id = some (.check check)) (offset : Nat) :
    ∃ test, m.checkTest id check offset = .ok test := by
  obtain ⟨negate, body, mark⟩ := check
  cases body with
  | code tokens => exact ⟨_, rfl⟩
  | syntactic payload made =>
    obtain ⟨name, rule, rfl, hrule, hsome⟩ := hg.checked id negate payload made mark hid hk
    obtain ⟨recognizer, hrecognizer⟩ := Option.isSome_iff_exists.1 hsome
    have hname := checkedName_of_isIdentifier (hg.rules.recognizers name rule recognizer hrule hrecognizer)
    have hfound : (m.grammar.rule? name).bind (·.recognizer) = some recognizer := by
      rw [hrule]
      exact hrecognizer
    refine ⟨⟨⟨id, offset⟩, negate, .recognizer recognizer⟩, ?_⟩
    unfold checkTest
    simp only [hfound]
    exact bind_eq_ok.2 ⟨recognizer, liftM_eq_ok.2 hname, rfl⟩

theorem exists_checkTests (hg : m.grammar.Ready) {set : CheckSet}
    (hset : ∀ ref ∈ set, m.grammar.Predicted ref.node) : ∃ tests, m.checkTests set = .ok tests := by
  induction set with
  | nil => exact ⟨[], rfl⟩
  | cons ref rest ih =>
    have hid := hset ref List.mem_cons_self
    obtain ⟨tests, htests⟩ := ih fun ref hm => hset ref (List.mem_cons_of_mem _ hm)
    obtain ⟨node, hnode⟩ := (hg.forest.hasDepth_size hid.inUse).exists_node
    rw [checkTests]
    cases hkind : node.kind with
    | check check =>
      have hk : m.grammar.kindAt? ref.node = some (.check check) :=
        hkind ▸ Grammar.kindAt?_of_node hnode
      obtain ⟨test, htest⟩ := exists_checkTest hg hid hk ref.offset
      refine ⟨test :: tests, bind_eq_ok.2 ⟨node, liftM_eq_ok.2 hnode, ?_⟩⟩
      rw [hkind]
      exact bind_eq_ok.2 ⟨test, htest, bind_eq_ok.2 ⟨tests, htests, rfl⟩⟩
    | _ =>
      refine ⟨tests, bind_eq_ok.2 ⟨node, liftM_eq_ok.2 hnode, ?_⟩⟩
      rw [hkind]
      exact htests

theorem exists_branchTest (offset : Nat) (isAssertion : Bool) (hg : m.grammar.Ready)
    {branch : Branch Decision} (hchecks : ∀ set ∈ branch.checks, ∀ ref ∈ set, m.grammar.Predicted ref.node) :
    ∃ test, m.branchTest offset isAssertion branch = .ok test := by
  unfold branchTest
  split
  · obtain ⟨alternatives, halternatives⟩ :=
      exists_mapM_eq_ok fun set hset => exists_checkTests hg (hchecks set hset)
    exact ⟨_, bind_eq_ok.2 ⟨alternatives, halternatives, rfl⟩⟩
  · exact ⟨_, rfl⟩

theorem exists_branchChain {cases : List Nat} {pairs : List (Branch Decision × List Stmt)}
    (htests : ∀ pair ∈ pairs, ∃ test, m.branchTest offset isAssertion pair.1 = .ok test)
    (index : Nat) : ∃ code, m.branchChain offset isAssertion cases index pairs = .ok code := by
  induction pairs generalizing index with
  | nil => exact ⟨[], rfl⟩
  | cons pair rest ih =>
    obtain ⟨branch, code⟩ := pair
    cases rest with
    | nil => exact ⟨code, rfl⟩
    | cons next rest =>
      obtain ⟨otherwise, hotherwise⟩ :=
        ih (fun pair hm => htests pair (List.mem_cons_of_mem _ hm)) (index + 1)
      obtain ⟨test, htest⟩ := htests _ List.mem_cons_self
      rw [branchChain]
      by_cases hcase : cases.contains index = true
      · exact ⟨otherwise, bind_eq_ok.2 ⟨otherwise, hotherwise, if_pos hcase⟩⟩
      · refine ⟨[.ifElse test code otherwise], bind_eq_ok.2 ⟨otherwise, hotherwise, ?_⟩⟩
        exact (if_neg hcase).trans (bind_eq_ok.2 ⟨test, htest, rfl⟩)

/-- The rule is one of a grammar that is ready, has the form, and is analyzed. -/
structure Lowerable (m : MethodPlan) (name : String) : Prop where
  ready : m.grammar.Ready
  found : m.grammar.rule? name = some m.rule
  form : m.rule.hasForm m.form = true
  decided : m.grammar.Decided m.rule.body

variable {name : String}

theorem Lowerable.exists_recognizer (h : m.Lowerable name) (hform : m.form = .recognizer) :
    ∃ recognizer, m.rule.recognizer = some recognizer := by
  have hown := h.form
  rw [hform] at hown
  exact Option.isSome_iff_exists.1 hown

theorem exists_callSnippet (h : m.Lowerable name) (hid : m.grammar.MatchedBy m.rule.body id)
    {callee : String} (hk : m.grammar.kindAt? id = some (.call callee)) (saver : Option Saver) :
    ∃ snippet, m.callSnippet callee saver = .ok snippet := by
  have hplain := h.ready.rules
  obtain ⟨called, hcalled⟩ :=
    h.ready.forest.exists_callee h.found (Grammar.reaches_of_matched hid) hk
  unfold callSnippet
  rw [hcalled]
  cases hform : m.form with
  | parser =>
    have hname := checkedName_of_isIdentifier (hplain.names callee called hcalled)
    exact ⟨_, bind_eq_ok.2 ⟨called.name, liftM_eq_ok.2 hname, rfl⟩⟩
  | recognizer =>
    obtain ⟨own, hown⟩ := h.exists_recognizer hform
    obtain ⟨recognizer, hrecognizer⟩ := Option.isSome_iff_exists.1
      (h.ready.recognized name callee m.rule called ⟨m.rule, id, h.found, hid, hk⟩ h.found hcalled
        (Option.isSome_of_eq_some hown))
    have hname := checkedName_of_isIdentifier
      (hplain.recognizers callee called recognizer hcalled hrecognizer)
    refine ⟨.callRecognizer recognizer, ?_⟩
    simp only [hrecognizer]
    exact bind_eq_ok.2 ⟨recognizer, liftM_eq_ok.2 hname, rfl⟩

/-! ## Prediction trees -/

theorem total_lowerError (m : MethodPlan) (coverage : CharSet) : Total (m.lowerError coverage) := by
  unfold lowerError
  split
  · exact succeeds_pure _
  · exact (total_refer coverage).bind fun ref => succeeds_pure _

theorem total_levelLabel {plan : LevelPlan} {enclosure : Enclosure} {branchCount : Nat}
    {label : Option String} : Total (levelLabel plan enclosure branchCount label) := by
  unfold levelLabel
  split
  · exact total_nextStop.map some
  · exact succeeds_pure label

theorem total_lowerLevel {plan : LevelPlan} {branches : List (Branch Decision)}
    {codes : List (List Stmt)}
    (htests : ∀ branch ∈ branches, ∃ test, m.branchTest offset isAssertion branch = .ok test) :
    Total (m.lowerLevel plan offset isAssertion branches codes) := by
  unfold lowerLevel
  split
  · exact succeeds_pure _
  · obtain ⟨chain, hchain⟩ := exists_branchChain (fun pair hm =>
      htests pair.1 (List.of_mem_zip hm).1) 0
    refine succeeds_lift_bind hchain ?_
    dsimp only
    split
    · exact Succeeds.bind (total_modify fun _ => rfl) fun _ => succeeds_pure _
    · exact succeeds_pure _

theorem total_lowerBranches {enclosure : Enclosure} {leaves : List (List Stmt)} {coverage : CharSet}
    {branches : List (Branch Decision)}
    (h : ∀ branch ∈ branches, ∀ label,
      Total (m.lowerDecision enclosure leaves coverage label branch.target)) (label : Option String) :
    Total (m.lowerBranches enclosure leaves coverage label branches) := by
  induction branches generalizing label with
  | nil =>
    rw [lowerBranches]
    exact succeeds_pure _
  | cons branch rest ih =>
    rw [lowerBranches]
    refine (h branch List.mem_cons_self label).bind fun first => ?_
    refine (ih (fun branch hm => h branch (List.mem_cons_of_mem _ hm)) first.2).bind fun others => ?_
    exact succeeds_pure _

theorem total_lowerDecision (hg : m.grammar.Ready) {enclosure : Enclosure}
    {leaves : List (List Stmt)} {tree : Decision} (htree : tree.TestsOnly m.grammar.Predicted)
    (coverage : CharSet) (label : Option String) :
    Total (m.lowerDecision enclosure leaves coverage label tree) := by
  induction htree generalizing coverage label with
  | pick alt =>
    cases alt <;> rw [lowerDecision]
    · exact succeeds_pure _
    · exact succeeds_pure _
    · exact (total_lowerError m coverage).bind fun snippet => succeeds_pure _
  | level checks targets ih =>
    rw [lowerDecision]
    refine total_levelLabel.bind fun label => ?_
    refine (total_lowerBranches (fun branch hm label => ih branch hm _ label) label).bind fun found => ?_
    refine (total_lowerLevel fun branch hm => ?_).bind fun code => succeeds_pure _
    exact exists_branchTest _ _ hg (checks branch hm)

/-! ## Alternative sets -/

theorem total_lowerAlternatives (hg : m.grammar.Ready) {alts : Alternatives} {tree : Decision}
    (htree : tree.TestsOnly m.grammar.Predicted) (arms : List (List Stmt)) :
    Total (m.lowerAlternatives alts tree arms) := by
  unfold lowerAlternatives
  refine total_loopLabel.bind fun label => ?_
  refine total_sharedSuffix.bind fun suffix => ?_
  exact (total_lowerDecision hg htree _ label).bind fun decision => total_surround

theorem total_lowerSet (hg : m.grammar.Ready) {lowerArm : NodeId → Lower (List Stmt)}
    {alts : Alternatives} {tree : Decision} (hprediction : alts.prediction = some tree)
    (hvalid : tree.invalidAlt? alts.arms.length alts.hasExit = none)
    (htree : tree.TestsOnly m.grammar.Predicted) (harms : ∀ arm ∈ alts.arms, Total (lowerArm arm)) :
    Total (m.lowerSet lowerArm id alts) := by
  have hfound : m.predictionTree id alts = .ok tree := by
    unfold predictionTree
    simp only [hprediction, hvalid]
    rfl
  unfold lowerSet
  refine succeeds_lift_bind hfound ?_
  refine (total_warnUnreachable m id alts tree).bind fun _ => ?_
  refine Succeeds.bind (succeeds_mapM fun arm harm => ?_) fun arms =>
    total_lowerAlternatives hg htree arms
  dsimp only
  split
  · exact harms arm.1 (List.fst_mem_of_mem_zipIdx harm)
  · exact succeeds_pure []

/-! ## Methods -/

theorem total_lowerTerminal (m : MethodPlan) (set : CharSet) (mark : Option Bool)
    (saver : Option Saver) : Total (m.lowerTerminal set mark saver) := by
  unfold lowerTerminal
  split
  · exact (total_refer set).bind fun ref => succeeds_pure _
  · split
    · exact succeeds_pure _
    · exact (total_refer set).bind fun ref => succeeds_pure _

theorem total_lowerDown (h : m.Lowerable name) {depth : Nat}
    (hdepth : m.grammar.HasDepth Node.matchedChildren depth id)
    (hid : m.grammar.MatchedBy m.rule.body id) : Total (m.lowerDown depth id) := by
  induction depth generalizing id with
  | zero => exact (Grammar.not_hasDepth_zero hdepth).elim
  | succ depth ih =>
    obtain ⟨node, hnode, hbelow⟩ := Grammar.hasDepth_succ_iff.1 hdepth
    have below : ∀ child ∈ node.matchedChildren, Total (m.lowerDown depth child) :=
      fun child hchild => ih (hbelow child hchild) (hid.tail ⟨node, hnode, hchild⟩)
    have hk := Grammar.kindAt?_of_node hnode
    rw [lowerDown]
    refine succeeds_lift_bind (liftM_eq_ok.2 hnode) (Succeeds.bind ?_ fun code => succeeds_pure _)
    unfold Node.matchedChildren at below
    cases hkind : node.kind with
    | sequence items =>
      rw [hkind] at below
      exact (succeeds_mapM below).bind fun parts => succeeds_pure _
    | alternatives alts =>
      rw [hkind] at below hk
      obtain ⟨tree, hprediction, hvalid, htree⟩ := h.decided id alts hid hk
      exact total_lowerSet h.ready hprediction hvalid htree below
    | gate predict matched =>
      rw [hkind] at below
      exact below matched (List.mem_singleton_self matched)
    | check check =>
      rw [hkind] at hk
      rw [lowerKind]
      split
      · exact succeeds_pure []
      · obtain ⟨test, htest⟩ := exists_checkTest h.ready (Grammar.predicted_of_matched h.found hid) hk 0
        exact succeeds_lift_bind htest (succeeds_pure _)
    | call callee =>
      rw [hkind] at hk
      obtain ⟨call, hcall⟩ := exists_callSnippet h hid hk node.saver
      exact succeeds_lift_bind hcall (succeeds_pure _)
    | terminal set mark =>
      exact (total_lowerTerminal m set mark node.saver).bind fun step => succeeds_pure _

/-- **Lowering a rule that is ready and analyzed does not fail.** -/
theorem total_lowerMethod (h : m.Lowerable name) : Total m.lowerMethod := by
  have hdepth : m.grammar.HasDepth Node.matchedChildren m.grammar.depthBound m.rule.body :=
    (h.ready.forest.hasDepth (Grammar.mem_ruleList_of_rule? h.found)).subset
      Grammar.matchedChildren_subset
  have hname : Text.isIdentifier (m.rule.methodName m.form) = true := by
    cases hform : m.form with
    | parser => exact h.ready.rules.names name m.rule h.found
    | recognizer =>
      obtain ⟨recognizer, hrecognizer⟩ := h.exists_recognizer hform
      rw [Rule.methodName, hrecognizer]
      exact h.ready.rules.recognizers name m.rule recognizer h.found hrecognizer
  refine Succeeds.bind ?_ fun body => ?_
  · exact (total_lowerDown h hdepth .refl).bind fun body => succeeds_get.bind fun _ => succeeds_pure _
  · refine succeeds_lift_bind (liftM_eq_ok.2 (bind_eq_ok.2 ⟨_, checkedName_of_isIdentifier hname, rfl⟩)) ?_
    exact succeeds_pure _

end MethodPlan

end PredictiveParser
