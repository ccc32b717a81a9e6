import PredictiveParser.Proofs.Method.Lowering
import PredictiveParser.Proofs.Method.Rendering

/-!
# The code of a grammar in its methods

Lowering takes authored code from two places: from the checks that the rule matches or has in its
prediction trees (`MethodPlan.Tests`), and from the actions of the nodes that it matches
(`MethodPlan.Writes`, `Writes.lowerDown`). So the references of a method are those of this code
(`Writes.lowerMethod`). The action in front of the whole body may be an exception (`Tests.lowerBelow`).
-/
namespace PredictiveParser

open References

/-! ## Authored code of lowered statements -/

/-- `T` holds of the authored code of the statements. -/
def Authors (T : Tokens → Prop) (stmts : List Stmt) : Prop :=
  ∀ code ∈ Stmt.authoredOf stmts, T code

section

variable {T : Tokens → Prop} {stmts others : List Stmt} {codes : List (List Stmt)}

theorem Authors.nil : Authors T [] := nofun

theorem authors_cons {stmt : Stmt} :
    Authors T (stmt :: stmts) ↔ (∀ code ∈ stmt.authored, T code) ∧ Authors T stmts := by
  unfold Authors
  rw [Stmt.authoredOf, List.forall_mem_append]

theorem authors_singleton {stmt : Stmt} : Authors T [stmt] ↔ ∀ code ∈ stmt.authored, T code := by
  rw [authors_cons]
  exact and_iff_left .nil

theorem Authors.append (h : Authors T stmts) (h' : Authors T others) :
    Authors T (stmts ++ others) := by
  induction stmts with
  | nil => exact h'
  | cons stmt rest ih =>
    rw [authors_cons] at h
    exact authors_cons.2 ⟨h.1, ih h.2⟩

theorem authors_flatten (h : ∀ code ∈ codes, Authors T code) : Authors T codes.flatten := by
  induction codes with
  | nil => exact .nil
  | cons code rest ih =>
    exact (h code List.mem_cons_self).append (ih fun code hm => h code (List.mem_cons_of_mem _ hm))

theorem authors_getD (h : ∀ code ∈ codes, Authors T code) (index : Nat) :
    Authors T (codes.getD index []) := by
  rw [List.getD_eq_getElem?_getD]
  cases hcode : codes[index]? with
  | none => exact .nil
  | some code => exact h code (List.mem_of_getElem? hcode)

theorem authors_templates (h : ∀ stmt ∈ stmts, stmt.authored = []) : Authors T stmts := by
  induction stmts with
  | nil => exact .nil
  | cons stmt rest ih =>
    refine authors_cons.2 ⟨?_, ih fun stmt hm => h stmt (List.mem_cons_of_mem _ hm)⟩
    rw [h stmt List.mem_cons_self]
    exact nofun

theorem authors_template {stmt : Stmt} (h : stmt.authored = []) : Authors T [stmt] :=
  authors_templates fun _ hm => List.mem_singleton.1 hm ▸ h

theorem authors_appendShared {suffix : String} {skip : Stmt} {jumpOver : Bool}
    {shared : List (Nat × List Stmt)} (hskip : skip.authored = [])
    (hshared : ∀ arm ∈ shared, Authors T arm.2) (h : Authors T stmts) :
    Authors T (appendShared suffix skip jumpOver shared stmts) := by
  induction shared generalizing stmts jumpOver with
  | nil => exact h
  | cons arm rest ih =>
    rw [appendShared]
    refine ih (fun arm hm => hshared arm (List.mem_cons_of_mem _ hm)) (authors_cons.2 ⟨?_, ?_⟩)
    · show Authors T (if jumpOver then stmts ++ [skip] else stmts)
      split
      · exact h.append (authors_template hskip)
      · exact h
    · exact hshared arm List.mem_cons_self

theorem Surrounds.authors {wanted : Enclosure} {label : Option String} {suffix : String}
    {jumpOver : Bool} {shared : List (Nat × List Stmt)} {code : List Stmt}
    (hs : Surrounds wanted label suffix jumpOver shared stmts code)
    (hshared : ∀ arm ∈ shared, Authors T arm.2) (h : Authors T stmts) : Authors T code := by
  cases hs with
  | loop _ => exact authors_singleton.2 (authors_appendShared rfl hshared h)
  | block number _ => exact authors_singleton.2 (authors_appendShared rfl hshared h)
  | none _ _ => exact authors_appendShared rfl hshared h

theorem authors_caseCodes {cases : List Nat} {sets : List CharSet}
    (h : ∀ code ∈ codes, Authors T code) :
    ∀ code ∈ Stmt.authoredOfCases (caseCodes cases sets codes), T code := by
  have hall : ∀ pairs : List (CharSet × List Stmt), (∀ pair ∈ pairs, Authors T pair.2) →
      ∀ code ∈ Stmt.authoredOfCases pairs, T code := by
    intro pairs hpairs
    induction pairs with
    | nil => exact nofun
    | cons pair rest ih =>
      rw [Stmt.authoredOfCases, List.forall_mem_append]
      exact ⟨hpairs pair List.mem_cons_self, ih fun pair hm => hpairs pair (List.mem_cons_of_mem _ hm)⟩
  refine hall _ fun pair hm => ?_
  obtain ⟨⟨pair, index⟩, hfound, rfl⟩ := List.mem_map.1 hm
  have hzip := List.fst_mem_of_mem_zipIdx (List.mem_filter.1 hfound).1
  exact h pair.2 (List.of_mem_zip hzip).2

end

namespace MethodPlan

/-- What lowering a rule with this body writes of the author's checks satisfies `T`, where `shown` are
the nodes whose checks the prediction trees of the rule may test. -/
structure Tests (m : MethodPlan) (T : Tokens → Prop) (shown : NodeId → Prop) (body : NodeId) :
    Prop where
  checks : ∀ id kind code offset, shown id → m.grammar.kindAt? id = some kind →
    kind.expression? = some code → T (replace (lookaheadCode offset) code)
  matched : ∀ id, m.grammar.MatchedBy body id → shown id
  trees : ∀ id alts tree, m.grammar.MatchedBy body id →
    m.grammar.kindAt? id = some (.alternatives alts) → alts.prediction = some tree →
    tree.TestsOnly shown

/-- What it writes of the author's actions satisfies `T`, too. -/
structure Writes (m : MethodPlan) (T : Tokens → Prop) (shown : NodeId → Prop) (body : NodeId) : Prop
    extends m.Tests T shown body where
  actions : ∀ id node action, m.grammar.MatchedBy body id → m.grammar.node id = .ok node →
    node.HasAction action → T action

variable {m : MethodPlan} {T : Tokens → Prop} {shown : NodeId → Prop} {body id : NodeId}
  {st st' : LowerState} {code : List Stmt}

theorem Tests.checkTest (h : m.Tests T shown body) {check : Check} {offset : Nat}
    {test : CheckTest} (hid : shown id) (hk : m.grammar.kindAt? id = some (.check check))
    (htest : m.checkTest id check offset = .ok test) : ∀ code ∈ test.authored, T code := by
  obtain ⟨negate, checkBody, mark⟩ := check
  cases checkBody with
  | code tokens =>
    cases pure_eq_ok.1 htest
    intro code hcode
    rw [List.mem_singleton.1 hcode]
    exact h.checks id _ tokens offset hid hk rfl
  | syntactic payload rule =>
    cases rule with
    | none => cases htest
    | some rule =>
      unfold MethodPlan.checkTest at htest
      simp only at htest
      split at htest
      · obtain ⟨name, -, htest⟩ := bind_eq_ok.1 htest
        cases pure_eq_ok.1 htest
        exact nofun
      · cases htest

theorem Tests.checkTests (h : m.Tests T shown body) {set : CheckSet} {tests : List CheckTest}
    (hset : ∀ ref ∈ set, shown ref.node) (htests : m.checkTests set = .ok tests) :
    ∀ test ∈ tests, ∀ code ∈ test.authored, T code := by
  induction set generalizing tests with
  | nil =>
    cases pure_eq_ok.1 htests
    exact nofun
  | cons ref rest ih =>
    rw [MethodPlan.checkTests] at htests
    obtain ⟨node, hnode, htests⟩ := bind_eq_ok.1 htests
    have hrest := fun tests => @ih tests fun ref hm => hset ref (List.mem_cons_of_mem _ hm)
    split at htests
    · rename_i check hkind
      obtain ⟨test, htest, htests⟩ := bind_eq_ok.1 htests
      obtain ⟨others, hothers, htests⟩ := bind_eq_ok.1 htests
      cases pure_eq_ok.1 htests
      have hk : m.grammar.kindAt? ref.node = some (.check check) :=
        hkind ▸ Grammar.kindAt?_of_node (liftM_eq_ok.1 hnode)
      rw [List.forall_mem_cons]
      exact ⟨h.checkTest (hset ref List.mem_cons_self) hk htest, hrest others hothers⟩
    · exact hrest tests htests

theorem Tests.branchTest (h : m.Tests T shown body) {offset : Nat} {isAssertion : Bool}
    {branch : Branch Decision} {test : Test}
    (hchecks : ∀ set ∈ branch.checks, ∀ ref ∈ set, shown ref.node)
    (htest : m.branchTest offset isAssertion branch = .ok test) : ∀ code ∈ test.authored, T code := by
  unfold MethodPlan.branchTest at htest
  split at htest
  · obtain ⟨alternatives, halternatives, htest⟩ := bind_eq_ok.1 htest
    cases pure_eq_ok.1 htest
    intro code hcode
    obtain ⟨test, htest, hcode⟩ := List.mem_flatMap.1 hcode
    obtain ⟨tests, htests, htest⟩ := List.mem_flatten.1 htest
    obtain ⟨set, hset, hmade⟩ := Forall₂.exists_of_mem_right (mapM_eq_ok.1 halternatives) htests
    exact h.checkTests (hchecks set hset) hmade test htest code hcode
  · cases pure_eq_ok.1 htest
    exact nofun

theorem Tests.branchChain (h : m.Tests T shown body) {offset : Nat} {isAssertion : Bool}
    {cases : List Nat} {index : Nat} {pairs : List (Branch Decision × List Stmt)}
    (hpairs : ∀ pair ∈ pairs, (∀ set ∈ pair.1.checks, ∀ ref ∈ set, shown ref.node) ∧
      Authors T pair.2)
    (hchain : m.branchChain offset isAssertion cases index pairs = .ok code) : Authors T code := by
  induction pairs generalizing index code with
  | nil =>
    cases pure_eq_ok.1 hchain
    exact .nil
  | cons pair rest ih =>
    obtain ⟨branch, own⟩ := pair
    obtain ⟨hchecks, hown⟩ := hpairs _ List.mem_cons_self
    cases rest with
    | nil =>
      cases pure_eq_ok.1 hchain
      exact hown
    | cons next rest =>
      obtain ⟨otherwise, hotherwise, hchain⟩ := branchChain_cases hchain
      have hrest := ih (fun pair hm => hpairs pair (List.mem_cons_of_mem _ hm)) hotherwise
      rcases hchain with ⟨-, rfl⟩ | ⟨-, test, htest, rfl⟩
      · exact hrest
      · rw [authors_singleton, Stmt.authored, List.forall_mem_append, List.forall_mem_append]
        exact ⟨h.branchTest hchecks htest, hown, hrest⟩

theorem Tests.lowerLevel (h : m.Tests T shown body) {plan : LevelPlan} {offset : Nat}
    {isAssertion : Bool} {branches : List (Branch Decision)} {codes : List (List Stmt)}
    (hchecks : ∀ branch ∈ branches, ∀ set ∈ branch.checks, ∀ ref ∈ set, shown ref.node)
    (hcodes : ∀ code ∈ codes, Authors T code)
    (hlevel : Yields (m.lowerLevel plan offset isAssertion branches codes) st code st') :
    Authors T code := by
  have hdecision : ∀ chain, m.branchChain offset isAssertion plan.cases 0 (branches.zip codes) =
      .ok chain → Authors T (plan.decision offset branches codes chain) := by
    intro chain hchain
    have hchain : Authors T chain := h.branchChain (fun pair hm =>
      ⟨hchecks pair.1 (List.of_mem_zip hm).1, hcodes pair.2 (List.of_mem_zip hm).2⟩) hchain
    have hsubject : (plan.subject offset).authored = [] := by
      unfold LevelPlan.subject
      split <;> rfl
    unfold LevelPlan.decision
    split
    · exact hchain
    · rw [authors_singleton, Stmt.authored, hsubject, List.nil_append, List.forall_mem_append]
      exact ⟨authors_caseCodes hcodes, hchain⟩
  cases yields_lowerLevel.1 hlevel with
  | sole => exact authors_flatten hcodes
  | tested _ _ hchain => exact hdecision _ hchain
  | read _ _ hchain => exact authors_cons.2 ⟨List.forall_mem_nil _, hdecision _ hchain⟩

theorem Tests.lowerDecision (h : m.Tests T shown body) {enclosure : Enclosure}
    {leaves : List (List Stmt)} {tree : Decision} (htree : tree.TestsOnly shown)
    (hleaves : ∀ code ∈ leaves, Authors T code) : ∀ coverage label st code label' st',
      Yields (m.lowerDecision enclosure leaves coverage label tree) st (code, label') st' →
        Authors T code := by
  induction htree with
  | pick alt =>
    intro coverage label st code label' st' hdecision
    cases alt with
    | arm index =>
      rw [MethodPlan.lowerDecision] at hdecision
      obtain ⟨heq, -⟩ := yields_pure.1 hdecision
      cases heq
      exact authors_getD hleaves index
    | exit =>
      rw [MethodPlan.lowerDecision] at hdecision
      obtain ⟨heq, -⟩ := yields_pure.1 hdecision
      cases heq
      split
      · exact authors_template rfl
      · exact .nil
    | error =>
      rw [MethodPlan.lowerDecision] at hdecision
      obtain ⟨snippet, _, hsnippet, hdecision⟩ := yields_bind.1 hdecision
      obtain ⟨heq, -⟩ := yields_pure.1 hdecision
      cases heq
      unfold MethodPlan.lowerError at hsnippet
      split at hsnippet
      · obtain ⟨rfl, -⟩ := yields_pure.1 hsnippet
        exact authors_template rfl
      · obtain ⟨ref, _, -, hsnippet⟩ := yields_bind.1 hsnippet
        obtain ⟨rfl, -⟩ := yields_pure.1 hsnippet
        exact authors_template rfl
  | level checks targets ih =>
    intro above label st code label' st' hdecision
    obtain ⟨label₁, st₁, codes, st₂, -, hbranches, hlevel⟩ :=
      yields_lowerDecision_level.1 hdecision
    refine h.lowerLevel checks (fun own hm => ?_) hlevel
    obtain ⟨branch, hbranch, l, l', s₁, s₂, hone⟩ :=
      Forall₂.exists_of_mem_right (lowered_targets hbranches) hm
    exact ih branch hbranch _ _ _ _ _ _ hone

theorem Tests.lowerSet (h : m.Tests T shown body) {lowerArm : NodeId → Lower (List Stmt)}
    {alts : Alternatives} (hid : m.grammar.MatchedBy body id)
    (hk : m.grammar.kindAt? id = some (.alternatives alts))
    (ih : ∀ arm ∈ alts.arms, ∀ st code st', Yields (lowerArm arm) st code st' → Authors T code)
    (hset : Yields (m.lowerSet lowerArm id alts) st code st') : Authors T code := by
  obtain ⟨tree, arms, st₁, st₂, htree, -, harms, hset⟩ := yields_lowerSet_parts hset
  have harms : ∀ arm ∈ arms, Authors T arm := by
    intro arm harm
    obtain ⟨⟨node, index⟩, hm, s₁, s₂, hone⟩ :=
      Forall₂.exists_of_mem_right (forall₂_of_yields_mapM harms) harm
    simp only at hone
    split at hone
    · exact ih node (List.fst_mem_of_mem_zipIdx hm) s₁ arm s₂ hone
    · obtain ⟨rfl, -⟩ := yields_pure.1 hone
      exact .nil
  have htests := h.trees id alts tree hid hk (yields_predictionTree htree).1
  obtain ⟨label, suffix, decision, label', st₃, st₄, -, hdecision, hsurrounds⟩ :=
    yields_lowerAlternatives hset
  refine hsurrounds.authors ?_ (h.lowerDecision htests ?_ _ _ _ _ _ _ hdecision)
  · rintro ⟨index, arm⟩ hm
    exact harms arm (List.mem_of_getElem? (mem_sharedArms.1 hm).1)
  · intro code hm
    obtain ⟨index, hindex, rfl⟩ := List.mem_mapIdx.1 hm
    split
    · exact authors_template rfl
    · exact harms _ (List.getElem_mem hindex)

theorem authors_lowerAction {action : Option Tokens} (h : ∀ code, action = some code → T code) :
    Authors T (m.lowerAction action) := by
  unfold MethodPlan.lowerAction
  split
  · exact .nil
  · cases action with
    | none => exact .nil
    | some code =>
      refine authors_singleton.2 fun code' hcode => ?_
      rw [List.mem_singleton.1 hcode]
      exact h code rfl

/-- What is written for a node, apart from its actions, if this is known of what is below. -/
theorem Tests.lowerKind (h : m.Tests T shown body) {depth : Nat} {node : Node} {inner : List Stmt}
    (hid : m.grammar.MatchedBy body id) (hnode : m.grammar.node id = .ok node)
    (below : ∀ child ∈ node.matchedChildren, ∀ st code st',
      Yields (m.lowerDown depth child) st code st' → Authors T code)
    (hinner : Yields (m.lowerKind (m.lowerDown depth) id node.saver node.kind) st inner st') : Authors T inner := by
  have hk := Grammar.kindAt?_of_node hnode
  unfold Node.matchedChildren at below
  generalize node.kind = kind at hinner below hk
  cases yields_lowerKind hinner with
  | sequence each =>
    refine authors_flatten fun part hpart => ?_
    obtain ⟨item, hitem, st₁, st₂, hone⟩ :=
      Forall₂.exists_of_mem_right (forall₂_of_yields_mapM each) hpart
    exact below item hitem st₁ part st₂ hone
  | alternatives set => exact h.lowerSet hid hk below set
  | gate hgate => exact below _ (List.mem_singleton_self _) _ _ _ hgate
  | proven => exact .nil
  | check tested => exact authors_singleton.2 (h.checkTest (h.matched id hid) hk tested)
  | call called =>
    obtain ⟨callee, -, ⟨-, rfl⟩ | ⟨recognizer, -, -, rfl⟩⟩ := callSnippet_eq_ok called <;>
      exact authors_template rfl
  | terminal step =>
    obtain ⟨ref, -, rfl | rfl⟩ | ⟨-, rfl, -⟩ := yields_lowerTerminal step <;>
      exact authors_template rfl

/-- **What lowering writes of the author's code** comes from what the rule matches and from what its
prediction trees test. -/
theorem Writes.lowerDown (h : m.Writes T shown body) {depth : Nat}
    (hid : m.grammar.MatchedBy body id) (hcode : Yields (m.lowerDown depth id) st code st') :
    Authors T code := by
  induction depth generalizing id st code st' with
  | zero =>
    rw [MethodPlan.lowerDown] at hcode
    exact (not_yields_throw hcode).elim
  | succ depth ih =>
    obtain ⟨node, inner, hnode, hinner, rfl⟩ := yields_lowerDown hcode
    refine ((authors_lowerAction fun code hcode => ?_).append ?_).append
      (authors_lowerAction fun code hcode => ?_)
    · exact h.actions id node code hid hnode (Or.inl hcode)
    · exact h.toTests.lowerKind hid hnode (fun child hchild st code st' =>
        ih (hid.tail ⟨node, hnode, hchild⟩)) hinner
    · exact h.actions id node code hid hnode (Or.inr hcode)

/-- Behind the action in front of the body, only the other actions matter. -/
theorem Tests.lowerBelow (h : m.Tests T shown body) {depth : Nat} {node : Node} {inner : List Stmt}
    (hnode : m.grammar.node body = .ok node)
    (hactions : ∀ id node action, m.grammar.MatchedBy body id → m.grammar.node id = .ok node →
      (id ≠ body ∧ node.preAction = some action) ∨ node.postAction = some action → T action)
    (hapart : ∀ child ∈ node.matchedChildren, ¬m.grammar.MatchedBy child body)
    (hinner : Yields (m.lowerKind (m.lowerDown depth) body node.saver node.kind) st inner st') :
    Authors T (inner ++ m.lowerAction node.postAction) := by
  refine (h.lowerKind .refl hnode (fun child hchild st code st' hcode => ?_) hinner).append
    (authors_lowerAction fun code hcode => hactions body node code .refl hnode (Or.inr hcode))
  have hlink : m.grammar.MatchedBy body child := .tail .refl ⟨node, hnode, hchild⟩
  have hchildren : m.Writes T shown child := by
    refine ⟨⟨h.checks, fun id hid => h.matched id (hlink.trans hid), fun id alts tree hid =>
      h.trees id alts tree (hlink.trans hid)⟩, fun id node' action hid hnode' haction => ?_⟩
    refine hactions id node' action (hlink.trans hid) hnode' (haction.imp_left fun hpre => ⟨?_, hpre⟩)
    rintro rfl
    exact hapart child hchild hid
  exact hchildren.lowerDown .refl hcode

/-- The references of a method are those of the code that it takes over. -/
theorem Writes.lowerMethod {P : Reference → Prop} {method : Method}
    (h : m.Writes (Only P) shown m.rule.body) (htype : Only P m.rule.valueType)
    (hvalue : Only P m.rule.valueCode) (hmethod : Yields m.lowerMethod st method st') :
    Only P method.code := by
  obtain ⟨code, st₁, hcode, hmethod⟩ := yields_bind.1 hmethod
  obtain ⟨written, hwritten, hmethod⟩ := yields_lift_bind.1 hmethod
  obtain ⟨rfl, -⟩ := yields_pure.1 hmethod
  obtain ⟨body, st₂, hbody, hcode⟩ := yields_bind.1 hcode
  have hcode := yields_get_bind.1 hcode
  obtain ⟨rfl, -⟩ := yields_pure.1 hcode
  refine only_methodCode (only_renderAll _ ?_) htype hvalue (liftM_eq_ok.1 hwritten)
  refine Authors.append ?_ (h.lowerDown .refl hbody)
  exact authors_templates fun stmt hm => by
    obtain ⟨offset, -, rfl⟩ := List.mem_map.1 hm
    rfl

end MethodPlan

end PredictiveParser
