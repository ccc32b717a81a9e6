import PredictiveParser.Proofs.Method.Arms
import PredictiveParser.Proofs.Method.Paths

/-!
# Lookahead variables are read first

A level with a test that looks at its lookahead variable reads it right before the decision, so the test may
look at it (`allLookFresh_lowerLevel`). Nothing that is lowered takes a variable to be known from outside:
it can stand behind a jump as well as in a loop. The offsets that lowering records are those of the
variables it reads (`recorded_lowerDown`), and these are declared.
-/
namespace PredictiveParser

open Lower Stmt

/-! ## Levels -/

section

variable {m : MethodPlan} {offset : Nat} {isAssertion : Bool} {cases known : List Nat} {index : Nat}
  {chain code : List Stmt} {st st' : LowerState}

/-- A branch is tested by checks, or by looking at the variable of the level. -/
theorem all_contains_branchTest {branch : Branch Decision} {test : Test}
    (hknown : isAssertion = true ∨ offset ∈ known)
    (h : m.branchTest offset isAssertion branch = .ok test) :
    test.offset?.all known.contains = true := by
  unfold MethodPlan.branchTest at h
  split at h
  · obtain ⟨alternatives, -, h⟩ := bind_eq_ok.1 h
    cases pure_eq_ok.1 h
    rfl
  · rename_i hlookahead
    cases pure_eq_ok.1 h
    exact List.contains_iff_mem.2 (hknown.resolve_left hlookahead)

/-- A chain may look at the variable of its level when there is a branch that is to be tested. -/
theorem allLookFresh_branchChain {pairs : List (Branch Decision × List Stmt)}
    (hpairs : ∀ pair ∈ pairs, allLookFresh [] pair.2 = true)
    (hknown : ∀ place, index ≤ place → place + 1 < index + pairs.length →
      cases.contains place = false → isAssertion = true ∨ offset ∈ known)
    (h : m.branchChain offset isAssertion cases index pairs = .ok chain) :
    allLookFresh known chain = true := by
  induction pairs generalizing index chain with
  | nil =>
    cases pure_eq_ok.1 h
    rfl
  | cons pair rest ih =>
    obtain ⟨branch, own⟩ := pair
    have hown := allLookFresh_mono own (List.nil_subset known) (hpairs _ List.mem_cons_self)
    cases rest with
    | nil =>
      cases pure_eq_ok.1 h
      exact hown
    | cons next rest =>
      obtain ⟨otherwise, hotherwise, h⟩ := branchChain_cases h
      have hrest := ih (fun pair hm => hpairs pair (List.mem_cons_of_mem _ hm))
        (fun place hle hlt => hknown place (by omega) (by
          simp only [List.length_cons] at hlt ⊢
          omega)) hotherwise
      rcases h with ⟨-, rfl⟩ | ⟨hcase, test, htest, rfl⟩
      · exact hrest
      · have hlooks := hknown index (Nat.le_refl _) (by simp) hcase
        rw [allLookFresh_singleton, looksFresh, Bool.and_eq_true, Bool.and_eq_true]
        exact ⟨all_contains_branchTest hlooks htest, hown, hrest⟩

/-- What the decision of a level looks at is known, once it is read where the level reads it. -/
theorem allLookFresh_decision {threshold : Nat} {branches : List (Branch Decision)}
    {codes : List (List Stmt)} {plan : LevelPlan}
    (hplan : plan = .ofLevel threshold isAssertion branches)
    (hcodes : ∀ own ∈ codes, allLookFresh [] own = true) (hlength : branches.length = codes.length)
    (hchain : m.branchChain offset isAssertion plan.cases 0 (branches.zip codes) = .ok chain)
    (hknown : plan.readsLookahead = true → offset ∈ known) :
    allLookFresh known (plan.decision offset branches codes chain) = true := by
  have hfresh : allLookFresh known chain = true := by
    refine allLookFresh_branchChain (fun pair hm => hcodes pair.2 (List.of_mem_zip hm).2) ?_ hchain
    intro place _ hlt hcase
    cases isAssertion with
    | true => exact Or.inl rfl
    | false =>
      refine Or.inr (hknown ?_)
      rw [hplan] at hcase ⊢
      refine readsLookahead_of_tested ?_ hcase
      rw [List.length_zip, hlength, Nat.min_self] at hlt
      omega
  unfold LevelPlan.decision
  split
  · exact hfresh
  · rw [allLookFresh_singleton, looksFresh, Bool.and_eq_true, Bool.and_eq_true]
    refine ⟨?_, casesLookFresh_iff.2 fun entry hm => ?_, hfresh⟩
    · unfold LevelPlan.subject
      split
      · rename_i hreads
        exact List.contains_iff_mem.2 (hknown hreads)
      · rfl
    · obtain ⟨⟨pair, place⟩, hfound, rfl⟩ := List.mem_map.1 hm
      have hzip := List.fst_mem_of_mem_zipIdx (List.mem_filter.1 hfound).1
      exact allLookFresh_mono _ (List.nil_subset known) (hcodes pair.2 (List.of_mem_zip hzip).2)

/-- **A level** looks at its variable only where it has read it. -/
theorem allLookFresh_lowerLevel {threshold : Nat} {branches : List (Branch Decision)}
    {codes : List (List Stmt)} (hcodes : ∀ own ∈ codes, allLookFresh [] own = true)
    (hlength : branches.length = codes.length)
    (h : Yields (m.lowerLevel (.ofLevel threshold isAssertion branches) offset isAssertion branches
      codes) st code st') : allLookFresh [] code = true := by
  cases yields_lowerLevel.1 h with
  | sole => exact allLookFresh_flatten hcodes
  | tested _ hreads hchain =>
    exact allLookFresh_decision rfl hcodes hlength hchain fun h => (Bool.eq_false_iff.1 hreads h).elim
  | read _ _ hchain =>
    rw [allLookFresh, looksFresh, Bool.true_and]
    exact allLookFresh_decision rfl hcodes hlength hchain fun _ => List.mem_cons_self

end

/-! ## Trees and shared arms -/

section

variable {m : MethodPlan} {enclosure wanted : Enclosure} {leaves : List (List Stmt)}
  {label label' : Option String} {suffix : String} {skip : Stmt} {jumpOver : Bool}
  {shared : List (Nat × List Stmt)} {decision code : List Stmt} {st st' : LowerState}

/-- **A lowered tree** looks only at what it has read, if its leaves do. -/
theorem allLookFresh_lowerDecision (hleaves : ∀ leaf ∈ leaves, allLookFresh [] leaf = true)
    (tree : Decision) : ∀ coverage label st code label' st',
      Yields (m.lowerDecision enclosure leaves coverage label tree) st (code, label') st' →
        allLookFresh [] code = true := by
  induction tree using Decision.induction with
  | pick alt =>
    intro coverage label st code label' st' h
    cases alt with
    | arm index =>
      rw [MethodPlan.lowerDecision] at h
      cases (yields_pure.1 h).1
      rw [List.getD_eq_getElem?_getD]
      cases hleaf : leaves[index]? with
      | none => rfl
      | some leaf => exact hleaves leaf (List.mem_of_getElem? hleaf)
    | exit =>
      rw [MethodPlan.lowerDecision] at h
      cases (yields_pure.1 h).1
      split <;> rfl
    | error =>
      rw [MethodPlan.lowerDecision] at h
      obtain ⟨snippet, _, -, h⟩ := yields_bind.1 h
      cases (yields_pure.1 h).1
      rfl
  | level offset isAssertion branches coverage ih =>
    intro above label st code label' st' h
    obtain ⟨label₁, st₁, codes, st₂, -, hbranches, hlevel⟩ := yields_lowerDecision_level.1 h
    have htargets := lowered_targets hbranches
    refine allLookFresh_lowerLevel (fun own hm => ?_) htargets.length_eq hlevel
    obtain ⟨branch, hbranch, l, l', s₁, s₂, hone⟩ := Forall₂.exists_of_mem_right htargets hm
    exact ih branch hbranch _ _ _ _ _ _ hone

theorem allLookFresh_appendShared (hskip : ∀ known, skip.looksFresh known = true)
    (harms : ∀ entry ∈ shared, allLookFresh [] entry.2 = true)
    (hcode : allLookFresh [] code = true) :
    allLookFresh [] (appendShared suffix skip jumpOver shared code) = true := by
  induction shared generalizing code jumpOver with
  | nil => exact hcode
  | cons entry rest ih =>
    obtain ⟨index, arm⟩ := entry
    obtain ⟨harm, hrest⟩ := List.forall_mem_cons.1 harms
    rw [appendShared_cons]
    refine ih hrest ?_
    rw [allLookFresh, looksFresh, Bool.and_eq_true]
    refine ⟨?_, harm⟩
    unfold blockBody
    split
    · refine allLookFresh_append hcode ?_
      rw [allLookFresh_singleton]
      exact hskip []
    · exact hcode

theorem Surrounds.allLookFresh (h : Surrounds wanted label suffix jumpOver shared decision code)
    (harms : ∀ entry ∈ shared, allLookFresh [] entry.2 = true)
    (hdecision : allLookFresh [] decision = true) : allLookFresh [] code = true := by
  cases h with
  | loop =>
    rw [allLookFresh_singleton, looksFresh]
    exact allLookFresh_appendShared (fun _ => rfl) harms hdecision
  | block =>
    rw [allLookFresh_singleton, looksFresh]
    exact allLookFresh_appendShared (fun _ => rfl) harms hdecision
  | none => exact allLookFresh_appendShared (fun _ => rfl) harms hdecision

theorem allLookFresh_lowerAlternatives {alts : Alternatives} {tree : Decision}
    {arms : List (List Stmt)} (harms : ∀ arm ∈ arms, Stmt.allLookFresh [] arm = true)
    (h : Yields (m.lowerAlternatives alts tree arms) st code st') :
    Stmt.allLookFresh [] code = true := by
  obtain ⟨label, suffix, decision, label', st₁, st₂, -, hdecision, hcode⟩ := yields_lowerAlternatives h
  refine hcode.allLookFresh (fun entry hm => ?_) ?_
  · exact harms entry.2 (List.mem_of_getElem? (mem_sharedArms.1 hm).1)
  · refine allLookFresh_lowerDecision (fun leaf hm => ?_) tree _ _ _ _ _ _ hdecision
    obtain ⟨index, hindex, rfl⟩ := List.mem_mapIdx.1 hm
    split
    · rfl
    · exact harms _ (List.getElem_mem hindex)

end

/-! ## What is read is recorded -/

/-- Between two states this code was lowered. The offsets of the variables it reads were recorded, and no
others, and it looks only at what it has read. -/
structure Recorded (st : LowerState) (code : List Stmt) (st' : LowerState) : Prop where
  offsets : ∀ n, n ∈ st'.offsets ↔ n ∈ st.offsets ∨ .read n ∈ marksOf code
  fresh : allLookFresh [] code = true

section

variable {m : MethodPlan} {alts : Alternatives} {tree : Decision} {arms : List (List Stmt)}
  {id : NodeId} {depth : Nat} {st st' st'' : LowerState} {code code' : List Stmt}

theorem Recorded.nil (hoffsets : st'.offsets = st.offsets) : Recorded st [] st' :=
  ⟨fun n => by rw [hoffsets, marksOf]; simp, rfl⟩

theorem Recorded.append (h : Recorded st code st') (h' : Recorded st' code' st'') :
    Recorded st (code ++ code') st'' where
  offsets n := by rw [h'.offsets, h.offsets, marksOf_append, List.mem_append, or_assoc]
  fresh := allLookFresh_append h.fresh h'.fresh

theorem recorded_snippet {snippet : Snippet} (hmarks : snippet.marks = [])
    (hoffsets : st'.offsets = st.offsets) : Recorded st [.snippet snippet] st' :=
  ⟨fun n => by rw [hoffsets, marksOf_singleton, Stmt.marks, hmarks]; simp, rfl⟩

/-- One after the other. -/
theorem recorded_mapM {α : Type} {f : α → Lower (List Stmt)} {items : List α} {parts : List (List Stmt)}
    (hf : ∀ item ∈ items, ∀ st code st', Yields (f item) st code st' → Recorded st code st')
    (h : Yields (items.mapM f) st parts st') : Recorded st parts.flatten st' := by
  induction items generalizing st parts with
  | nil =>
    obtain ⟨rfl, rfl⟩ := yields_mapM_nil.1 h
    exact .nil rfl
  | cons item items ih =>
    obtain ⟨part, st₁, parts, hfirst, hrest, rfl⟩ := yields_mapM_cons.1 h
    exact (hf item List.mem_cons_self _ _ _ hfirst).append
      (ih (fun item hm => hf item (List.mem_cons_of_mem _ hm)) hrest)

/-! ## Alternative sets -/

/-- What a set reads is what its decision and its arms read: each arm that reads something stands in a
gap. -/
theorem SetOutline.mem_marksOf_read {suffix : String} {outline : List Outline} {own : List Mark}
    (h : SetOutline m alts tree arms suffix st outline own st')
    (hunused : ∀ index < arms.length, tree.uses (.arm index) = false → arms.getD index [] = [])
    (n : Nat) : .read n ∈ marksOf (Outline.fillAll arms outline) ↔
      .read n ∈ own ∨ .read n ∈ marksOf arms.flatten := by
  rw [Outline.marksOf_fillAll, List.mem_flatMap, marksOf_flatten, List.mem_flatMap]
  constructor
  · rintro ⟨mark, hmark, hread⟩
    cases mark with
    | arm index =>
      rw [Mark.filled, List.getD_eq_getElem?_getD] at hread
      cases harm : arms[index]? with
      | none =>
        rw [harm] at hread
        cases hread
      | some arm =>
        rw [harm] at hread
        exact Or.inr ⟨arm, List.mem_of_getElem? harm, hread⟩
    | jump label => cases List.mem_singleton.1 hread
    | read offset =>
      cases List.mem_singleton.1 hread
      -- Neither leaves nor gaps are reads.
      refine Or.inl ((List.mem_append.1 (h.marks.mem_iff.1 hmark)).resolve_right fun hm => ?_)
      rcases List.mem_append.1 hm with hm | hm
      · obtain ⟨alt, -, hm⟩ := List.mem_flatMap.1 hm
        obtain ⟨place, -, ⟨-, heq⟩ | ⟨-, heq⟩⟩ := Decision.mem_leafMarks_leafGaps hm <;> cases heq
      · obtain ⟨place, -, heq⟩ := List.mem_map.1 hm
        cases heq
  · rintro (hown | ⟨arm, harm, hread⟩)
    · exact ⟨.read n, h.marks.mem_iff.2 (List.mem_append_left _ hown), List.mem_singleton.2 rfl⟩
    · obtain ⟨index, hindex, rfl⟩ := List.mem_iff_getElem.1 harm
      have hget : arms.getD index [] = arms[index] := List.getD_eq_getElem _ _ hindex
      refine ⟨.arm index, List.count_pos_iff.1 ?_, by rwa [Mark.filled, hget]⟩
      rw [h.count_gap hindex]
      split
      · exact Nat.one_pos
      · refine List.count_pos_iff.2 (List.contains_iff_mem.1 (Bool.not_eq_false _ ▸ fun hnot => ?_))
        rw [← hget, hunused index hindex hnot] at hread
        cases hread

theorem recorded_lowerSet {lowerArm : NodeId → Lower (List Stmt)}
    (ih : ∀ arm ∈ alts.arms, ∀ st code st', Yields (lowerArm arm) st code st' → Recorded st code st')
    (h : Yields (m.lowerSet lowerArm id alts) st code st') : Recorded st code st' := by
  obtain ⟨tree, arms, st₁, st₂, -, hwarned, harms, h⟩ := yields_lowerSet_parts h
  have hone : ∀ {arm : NodeId} {index : Nat}, arm ∈ alts.arms → ∀ st code st',
      Yields (if tree.uses (.arm index) then lowerArm arm else pure []) st code st' →
        Recorded st code st' := by
    intro arm index hm st code st' hcode
    split at hcode
    · exact ih arm hm st code st' hcode
    · obtain ⟨rfl, rfl⟩ := yields_pure.1 hcode
      exact .nil rfl
  obtain ⟨hlength, hcodes⟩ := exists_yields_arm harms
  have hreads := recorded_mapM (fun entry hm => hone (List.fst_mem_of_mem_zipIdx hm)) harms
  have hfresh : ∀ arm ∈ arms, allLookFresh [] arm = true := by
    intro arm hm
    obtain ⟨index, hindex, rfl⟩ := List.mem_iff_getElem.1 hm
    have harm := List.getElem?_eq_getElem (hlength ▸ hindex : index < alts.arms.length)
    obtain ⟨s₁, s₂, hcode⟩ := hcodes index _ harm
    rw [List.getD_eq_getElem _ _ hindex] at hcode
    exact (hone (List.getElem_mem _) _ _ _ hcode).fresh
  have hunused : ∀ index < arms.length, tree.uses (.arm index) = false → arms.getD index [] = [] := by
    intro index hindex hnot
    have harm := List.getElem?_eq_getElem (hlength ▸ hindex : index < alts.arms.length)
    obtain ⟨s₁, s₂, hcode⟩ := hcodes index _ harm
    rw [hnot] at hcode
    exact (yields_pure.1 hcode).1
  obtain ⟨suffix, outline, own, houtline⟩ := exists_outline_lowerAlternatives h
  have hcode : code = Outline.fillAll arms outline :=
    Except.ok.inj (congrArg Prod.fst (h.symm.trans (houtline.yields arms (.refl tree arms))))
  refine ⟨fun n => ?_, allLookFresh_lowerAlternatives hfresh h⟩
  rw [hcode, houtline.mem_marksOf_read hunused, houtline.brings.offsets, hreads.offsets,
    (idle_warnUnreachable hwarned).offsets]
  tauto

/-! ## Whole methods -/

theorem recorded_lowerAction (m : MethodPlan) (action : Option Tokens) (st : LowerState) :
    Recorded st (m.lowerAction action) st := by
  unfold MethodPlan.lowerAction
  split
  · exact .nil rfl
  · cases action with
    | none => exact .nil rfl
    | some code => exact recorded_snippet rfl rfl

theorem recorded_lowerTerminal {set : CharSet} {mark : Option Bool} {saver : Option Saver}
    {snippet : Snippet} (h : Yields (m.lowerTerminal set mark saver) st snippet st') :
    Recorded st [.snippet snippet] st' := by
  obtain ⟨ref, href, rfl | rfl⟩ | ⟨-, rfl, rfl⟩ := yields_lowerTerminal h
  · exact recorded_snippet rfl (idle_refer href).offsets
  · exact recorded_snippet rfl (idle_refer href).offsets
  · exact recorded_snippet rfl rfl

theorem marks_callSnippet {name : String} {saver : Option Saver} {snippet : Snippet}
    (h : m.callSnippet name saver = .ok snippet) : snippet.marks = [] := by
  obtain ⟨callee, -, ⟨-, rfl⟩ | ⟨recognizer, -, -, rfl⟩⟩ := callSnippet_eq_ok h <;> rfl

/-- **What lowered code reads is recorded**, and it looks at nothing else. -/
theorem recorded_lowerDown (h : Yields (m.lowerDown depth id) st code st') : Recorded st code st' := by
  induction depth generalizing id st code st' with
  | zero =>
    rw [MethodPlan.lowerDown] at h
    exact (not_yields_throw h).elim
  | succ depth ih =>
    obtain ⟨node, body, -, hbody, rfl⟩ := yields_lowerDown h
    refine ((recorded_lowerAction m _ st).append ?_).append (recorded_lowerAction m _ st')
    generalize node.kind = kind at hbody
    cases yields_lowerKind hbody with
    | sequence each => exact recorded_mapM (fun item _ st code st' hone => ih hone) each
    | alternatives set => exact recorded_lowerSet (fun arm _ st code st' hone => ih hone) set
    | gate below => exact ih below
    | proven => exact .nil rfl
    | check => exact recorded_snippet rfl rfl
    | call called => exact recorded_snippet (marks_callSnippet called) rfl
    | terminal step => exact recorded_lowerTerminal step

end

/-- A method declares the lookahead variables that it reads, and no others. On each path, where it looks at
one of them, this was read before, and nothing has been consumed since. -/
structure Method.ReadsFirst (method : Method) : Prop where
  declared : ∀ offset, offset ∈ method.lookaheads ↔ .read offset ∈ marksOf method.body
  fresh : ∀ trace ending, Path (.all method.body) trace ending → ∀ before offset after,
    trace = before ++ .look offset :: after →
      ∃ earlier between, before = earlier ++ .read offset :: between ∧ .consume ∉ between

theorem marksOf_declarations (offsets : List Nat) :
    marksOf (offsets.map fun offset => .snippet (.declareLookahead offset)) = [] := by
  induction offsets with
  | nil => rfl
  | cons offset rest ih =>
    rw [List.map_cons, marksOf, ih]
    rfl

theorem allLookFresh_declarations (offsets : List Nat) :
    allLookFresh [] (offsets.map fun offset => .snippet (.declareLookahead offset)) = true := by
  induction offsets with
  | nil => rfl
  | cons offset rest ih => exact ih

theorem readsFirst_lowerMethod {m : MethodPlan} {tables : Tables} {st : LowerState} {method : Method}
    (h : Yields m.lowerMethod ⟨tables, [], [], 0, 0⟩ method st) : method.ReadsFirst := by
  obtain ⟨body, st₁, hbody, h⟩ := yields_bind.1 h
  obtain ⟨written, -, h⟩ := yields_lift_bind.1 h
  obtain ⟨rfl, -⟩ := yields_pure.1 h
  obtain ⟨code, st₂, hdown, hbody⟩ := yields_bind.1 hbody
  have hbody := yields_get_bind.1 hbody
  obtain ⟨rfl, rfl⟩ := yields_pure.1 hbody
  have hreads := recorded_lowerDown hdown
  constructor
  case declared =>
    intro offset
    rw [(closed_lowerDown hdown).lookaheads rfl, hreads.offsets, marksOf_append,
      marksOf_declarations, List.nil_append]
    exact or_iff_right List.not_mem_nil
  case fresh =>
    rintro trace ending hpath before offset after rfl
    have hfresh : Fresh [] _ :=
      hpath.fresh (allLookFresh_append (allLookFresh_declarations _) hreads.fresh)
    exact hfresh.exists_read.resolve_left fun hknown => List.not_mem_nil hknown.1

/-- **Methods read lookahead variables first.** -/
theorem MethodPlan.readsFirst_of_make {m : MethodPlan} {tables tables' : Tables} {method : Method}
    {events : List Event} (h : m.make tables = (.ok method, tables', events)) : method.ReadsFirst := by
  have hmethod : Yields m.lowerMethod ⟨tables, [], [], 0, 0⟩ method _ :=
    Prod.ext (congrArg Prod.fst h :) rfl
  exact readsFirst_lowerMethod hmethod

set_option maxRecDepth 10000 in
theorem pairs_readsFirst : ∃ method tables events,
    pairsPlan.make .empty = (.ok method, tables, events) ∧ method.ReadsFirst := by
  have hok : (pairsPlan.make .empty).1.toOption.isSome = true := by cbv
  rcases hmade : pairsPlan.make .empty with ⟨failure | method, tables, events⟩
  · rw [hmade] at hok
    cases hok
  · exact ⟨method, tables, events, rfl, MethodPlan.readsFirst_of_make hmade⟩

end PredictiveParser
