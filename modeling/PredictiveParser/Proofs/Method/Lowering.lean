import Mathlib
import PredictiveParser.Method.Basic
import PredictiveParser.Proofs.Analysis.Leads
import PredictiveParser.Proofs.Analysis.Rule
import PredictiveParser.Proofs.Method.Alternatives

/-!
# Lowering an analyzed rule

Lowered code ends normally or gives up; the jumps inside it never leave it (`contained_lowerDown`).
This is what makes nested alternative sets independent of each other, whatever their labels are. The
proof is by induction on the depth of lowering, and for alternative sets it rests on their prediction
trees being well-formed.

`MethodPlan.runs_lowerSet` then says what the code of an alternative set does.
-/
namespace PredictiveParser

section

variable {m : MethodPlan} {st st' : LowerState} {code : List Stmt} {id : NodeId}
  {alts : Alternatives} {lowerArm : NodeId → Lower (List Stmt)} {depth : Nat}

/-! ## The parts of lowered code -/

theorem yields_predictionTree {tree : Decision} (h : m.predictionTree id alts = .ok tree) :
    alts.prediction = some tree ∧ tree.invalidAlt? alts.arms.length alts.hasExit = none := by
  unfold MethodPlan.predictionTree at h
  split at h
  · cases h
  · rename_i tree' htree
    split at h
    · cases h
    · rename_i hvalid
      cases pure_eq_ok.1 h
      exact ⟨htree, hvalid⟩

/-- The code of each arm that is used. -/
def LoweredArms (lowerArm : NodeId → Lower (List Stmt)) (alts : Alternatives) (tree : Decision)
    (arms : List (List Stmt)) : Prop :=
  arms.length = alts.arms.length ∧
    ∀ index arm, alts.arms[index]? = some arm → tree.uses (.arm index) = true →
      ∃ st st', Yields (lowerArm arm) st (arms.getD index []) st'

/-- Each arm has its code, which is none if the arm is not used. -/
theorem exists_yields_arm {tree : Decision} {arms : List (List Stmt)}
    (h : Yields (alts.arms.zipIdx.mapM fun (arm, index) =>
      if tree.uses (.arm index) then lowerArm arm else pure []) st arms st') :
    arms.length = alts.arms.length ∧ ∀ index arm, alts.arms[index]? = some arm →
      ∃ st st', Yields (if tree.uses (.arm index) then lowerArm arm else pure []) st
        (arms.getD index []) st' := by
  have hall := forall₂_of_yields_mapM h
  refine ⟨?_, ?_⟩
  · rw [← hall.length_eq, List.length_zipIdx]
  · intro index arm harm
    obtain ⟨hindex, rfl⟩ := List.getElem?_eq_some_iff.1 harm
    have hzip : index < alts.arms.zipIdx.length := by rwa [List.length_zipIdx]
    have hlength : index < arms.length := hall.length_eq ▸ hzip
    obtain ⟨s₁, s₂, hone⟩ := hall.get hzip hlength
    simp only [List.get_eq_getElem, List.getElem_zipIdx, Nat.zero_add] at hone
    refine ⟨s₁, s₂, ?_⟩
    simpa [hlength] using hone

theorem loweredArms_of_yields {tree : Decision} {arms : List (List Stmt)}
    (h : Yields (alts.arms.zipIdx.mapM fun (arm, index) =>
      if tree.uses (.arm index) then lowerArm arm else pure []) st arms st') :
    LoweredArms lowerArm alts tree arms := by
  obtain ⟨hlength, hone⟩ := exists_yields_arm h
  refine ⟨hlength, fun index arm harm huses => ?_⟩
  obtain ⟨s₁, s₂, hcode⟩ := hone index arm harm
  rw [if_pos huses] at hcode
  exact ⟨s₁, s₂, hcode⟩

/-- First the arms are lowered, then the set that has them. -/
theorem yields_lowerSet_parts (h : Yields (m.lowerSet lowerArm id alts) st code st') :
    ∃ tree arms st₁ st₂, m.predictionTree id alts = .ok tree ∧
      Yields (m.warnUnreachable id alts tree) st ⟨⟩ st₁ ∧
      Yields (alts.arms.zipIdx.mapM fun (arm, index) =>
        if tree.uses (.arm index) then lowerArm arm else pure []) st₁ arms st₂ ∧
      Yields (m.lowerAlternatives alts tree arms) st₂ code st' := by
  unfold MethodPlan.lowerSet at h
  obtain ⟨tree, htree, h⟩ := yields_lift_bind.1 h
  obtain ⟨_, st₁, hwarned, h⟩ := yields_bind.1 h
  obtain ⟨arms, st₂, harms, h⟩ := yields_bind.1 h
  exact ⟨tree, arms, st₁, st₂, htree, hwarned, harms, h⟩

theorem yields_lowerSet (h : Yields (m.lowerSet lowerArm id alts) st code st') :
    ∃ tree arms st₁, alts.prediction = some tree ∧
      tree.invalidAlt? alts.arms.length alts.hasExit = none ∧
      LoweredArms lowerArm alts tree arms ∧
      Yields (m.lowerAlternatives alts tree arms) st₁ code st' := by
  obtain ⟨tree, arms, _, st₂, htree, -, harms, h⟩ := yields_lowerSet_parts h
  obtain ⟨hpred, hvalid⟩ := yields_predictionTree htree
  exact ⟨tree, arms, st₂, hpred, hvalid, loweredArms_of_yields harms, h⟩

theorem yields_lowerDown (h : Yields (m.lowerDown (depth + 1) id) st code st') :
    ∃ node body, m.grammar.node id = .ok node ∧
      Yields (m.lowerKind (m.lowerDown depth) id node.saver node.kind) st body st' ∧
      code = m.lowerAction node.preAction ++ body ++ m.lowerAction node.postAction := by
  rw [MethodPlan.lowerDown] at h
  obtain ⟨node, hnode, h⟩ := yields_lift_bind.1 h
  obtain ⟨body, st₁, hbody, h⟩ := yields_bind.1 h
  obtain ⟨rfl, rfl⟩ := yields_pure.1 h
  exact ⟨node, body, liftM_eq_ok.1 hnode, hbody, rfl⟩

/-- How a terminal is matched: by a test of its set, unless it needs none. -/
theorem yields_lowerTerminal {set : CharSet} {mark : Option Bool} {saver : Option Saver}
    {snippet : Snippet} (h : Yields (m.lowerTerminal set mark saver) st snippet st') :
    (∃ ref, Yields (Lower.refer set) st ref st' ∧
      (snippet = .recognizeTerminal ref ∨ snippet = .matchTerminal ref saver)) ∨
    ((set.isEverything || mark == some true) = true ∧ snippet = .skipTerminal saver ∧ st' = st) := by
  unfold MethodPlan.lowerTerminal at h
  split at h
  · obtain ⟨ref, st₁, href, h⟩ := yields_bind.1 h
    obtain ⟨rfl, rfl⟩ := yields_pure.1 h
    exact Or.inl ⟨ref, href, Or.inl rfl⟩
  · split at h
    · rename_i hskip
      exact Or.inr ⟨hskip, yields_pure.1 h⟩
    · obtain ⟨ref, st₁, href, h⟩ := yields_bind.1 h
      obtain ⟨rfl, rfl⟩ := yields_pure.1 h
      exact Or.inl ⟨ref, href, Or.inr rfl⟩

/-- How a rule is called: by its name, or by the name of its recognizer. -/
theorem callSnippet_eq_ok {name : String} {saver : Option Saver} {snippet : Snippet}
    (h : m.callSnippet name saver = .ok snippet) : ∃ callee, m.grammar.rule? name = some callee ∧
      (m.form = .parser ∧ snippet = .callRule callee.name saver ∨
        ∃ recognizer, m.form = .recognizer ∧ callee.recognizer = some recognizer ∧
          snippet = .callRecognizer recognizer) := by
  unfold MethodPlan.callSnippet at h
  split at h
  · cases h
  · rename_i callee hcallee hform
    obtain ⟨name, hname, h⟩ := bind_eq_ok.1 h
    cases pure_eq_ok.1 h
    cases checkedName_eq_ok (liftM_eq_ok.1 hname)
    exact ⟨callee, hcallee, Or.inl ⟨hform, rfl⟩⟩
  · rename_i callee hcallee hform
    split at h
    · rename_i recognizer hrecognizer
      obtain ⟨name, hname, h⟩ := bind_eq_ok.1 h
      cases pure_eq_ok.1 h
      cases checkedName_eq_ok (liftM_eq_ok.1 hname)
      exact ⟨callee, hcallee, Or.inr ⟨recognizer, hform, hrecognizer, rfl⟩⟩
    · cases h

/-- Code that is a single snippet, or nothing. -/
def IsSnippet (code : List Stmt) : Prop :=
  code = [] ∨ ∃ snippet, code = [.snippet snippet]

theorem isSnippet_lowerAction (m : MethodPlan) (action : Option Tokens) :
    IsSnippet (m.lowerAction action) := by
  unfold MethodPlan.lowerAction
  split
  · exact Or.inl rfl
  · cases action with
    | none => exact Or.inl rfl
    | some code => exact Or.inr ⟨_, rfl⟩

/-- What the code of a node is made of, by the kind of the node. -/
inductive LoweredKind (m : MethodPlan) (lowerBelow : NodeId → Lower (List Stmt)) (id : NodeId)
    (saver : Option Saver) : NodeKind → LowerState → List Stmt → LowerState → Prop where
  | sequence {items : List NodeId} {parts : List (List Stmt)} {st st' : LowerState}
      (each : Yields (items.mapM lowerBelow) st parts st') :
      LoweredKind m lowerBelow id saver (.sequence items) st parts.flatten st'
  | alternatives {alts : Alternatives} {code : List Stmt} {st st' : LowerState}
      (set : Yields (m.lowerSet lowerBelow id alts) st code st') :
      LoweredKind m lowerBelow id saver (.alternatives alts) st code st'
  | gate {predict matched : NodeId} {code : List Stmt} {st st' : LowerState}
      (below : Yields (lowerBelow matched) st code st') :
      LoweredKind m lowerBelow id saver (.gate predict matched) st code st'
  /-- Prediction has evaluated the check. -/
  | proven {check : Check} {st : LowerState} (mark : (check.prematched == some true) = true) :
      LoweredKind m lowerBelow id saver (.check check) st [] st
  | check {check : Check} {test : CheckTest} {st : LowerState}
      (tested : m.checkTest id check 0 = .ok test) :
      LoweredKind m lowerBelow id saver (.check check) st [.snippet (.require m.form test)] st
  | call {rule : String} {snippet : Snippet} {st : LowerState}
      (called : m.callSnippet rule saver = .ok snippet) :
      LoweredKind m lowerBelow id saver (.call rule) st [.snippet snippet] st
  | terminal {set : CharSet} {mark : Option Bool} {snippet : Snippet} {st st' : LowerState}
      (step : Yields (m.lowerTerminal set mark saver) st snippet st') :
      LoweredKind m lowerBelow id saver (.terminal set mark) st [.snippet snippet] st'

theorem yields_lowerKind {saver : Option Saver} {kind : NodeKind}
    (h : Yields (m.lowerKind lowerArm id saver kind) st code st') :
    LoweredKind m lowerArm id saver kind st code st' := by
  cases kind with
  | sequence items =>
    obtain ⟨parts, st₁, hparts, h⟩ := yields_bind.1 h
    obtain ⟨rfl, rfl⟩ := yields_pure.1 h
    exact .sequence hparts
  | alternatives alts => exact .alternatives h
  | gate predict matched => exact .gate h
  | check check =>
    rw [MethodPlan.lowerKind] at h
    split at h
    · rename_i hmark
      obtain ⟨rfl, rfl⟩ := yields_pure.1 h
      exact .proven hmark
    · obtain ⟨test, htest, h⟩ := yields_lift_bind.1 h
      obtain ⟨rfl, rfl⟩ := yields_pure.1 h
      exact .check htest
  | call rule =>
    obtain ⟨snippet, hsnippet, h⟩ := yields_lift_bind.1 h
    obtain ⟨rfl, rfl⟩ := yields_pure.1 h
    exact .call hsnippet
  | terminal set mark =>
    obtain ⟨snippet, st₁, hsnippet, h⟩ := yields_bind.1 h
    obtain ⟨rfl, rfl⟩ := yields_pure.1 h
    exact .terminal hsnippet

end

/-! ## Lowered code is not left by jumps -/

theorem isContained_ofCall {σ : Type} (s : Running σ) (ok : Bool) (t : σ) :
    (Outcome.ofCall s ok t).IsContained := by
  cases ok <;> trivial

section

variable {σ : Type} [Source σ] {w : World σ} {s : Running σ} {o : Outcome σ}

/-- The code ends normally or gives up. -/
def Contained (w : World σ) (code : List Stmt) : Prop :=
  ∀ s o, Runs w (.all code) s o → o.IsContained

theorem Snippet.Does.isContained {snippet : Snippet} (h : snippet.Does w s o) : o.IsContained := by
  cases snippet with
  | code tokens =>
    obtain ⟨t, -, rfl⟩ := h
    trivial
  | matchTerminal set saver => exact Eq.symm h ▸ isContained_ofCall _ _ _
  | recognizeTerminal set => exact Eq.symm h ▸ isContained_ofCall _ _ _
  | callRule method saver =>
    obtain ⟨ok, t, -, rfl⟩ := h
    exact isContained_ofCall _ _ _
  | callRecognizer method =>
    obtain ⟨ok, t, -, rfl⟩ := h
    exact isContained_ofCall _ _ _
  | require form test =>
    rw [Snippet.Does] at h
    split at h <;> exact Eq.symm h ▸ trivial
  | _ => exact Eq.symm h ▸ trivial

theorem IsSnippet.contained {code : List Stmt} (h : IsSnippet code) (w : World σ) :
    Contained w code := by
  intro s o hrun
  rcases h with rfl | ⟨snippet, rfl⟩
  · rw [runs_nil_iff.1 hrun]
    trivial
  · exact (runs_snippet_iff.1 (runs_singleton_iff.1 hrun)).isContained

theorem Contained.append {first rest : List Stmt} (h : Contained w first) (h' : Contained w rest) :
    Contained w (first ++ rest) := by
  intro s o hrun
  rcases runs_append_iff.1 hrun with ⟨m, -, hrest⟩ | ⟨hfirst, -⟩
  · exact h' m o hrest
  · exact h s o hfirst

theorem contained_flatten {parts : List (List Stmt)} (h : ∀ part ∈ parts, Contained w part) :
    Contained w parts.flatten := by
  induction parts with
  | nil => exact IsSnippet.contained (Or.inl rfl) w
  | cons part parts ih =>
    rw [List.flatten_cons]
    exact (h part List.mem_cons_self).append (ih fun p hp => h p (List.mem_cons_of_mem _ hp))

theorem SetRuns.isContained {g : Grammar} {mode : Repetition} {tree : Decision}
    {arms : List (List Stmt)} {peek : Running σ → Running σ} (hwf : tree.WellFormed)
    (harms : ArmsContained w tree arms) (h : SetRuns w g mode tree arms peek s o) :
    o.IsContained := by
  induction h with
  | once _ chosen arm =>
    exact harms _ _ _ (List.contains_iff_mem.2 (Decision.mem_leaves_of_select hwf chosen)) arm
  | again _ _ _ _ ih => exact ih
  | stop => trivial
  | exit => trivial
  | error => trivial

/-- Arms whose code is contained may be used where the tree says so. -/
theorem LoweredArms.contained {lowerArm : NodeId → Lower (List Stmt)} {alts : Alternatives}
    {tree : Decision} {arms : List (List Stmt)} (h : LoweredArms lowerArm alts tree arms)
    (hbelow : ∀ arm ∈ alts.arms, ∀ st code st', Yields (lowerArm arm) st code st' →
      Contained w code) : ArmsContained w tree arms := by
  intro index s o huses hrun
  by_cases hindex : index < alts.arms.length
  · obtain ⟨st, st', harm⟩ := h.2 index _ (List.getElem?_eq_getElem hindex) huses
    exact hbelow _ (List.getElem_mem hindex) st _ st' harm s o hrun
  · have hlength := h.1
    have hnil : arms.getD index [] = [] := by
      rw [List.getD_eq_getElem?_getD, List.getElem?_eq_none (by omega)]
      rfl
    rw [hnil, runs_nil_iff] at hrun
    rw [hrun]
    trivial

variable [LawfulSource σ] {m : MethodPlan}

/-- **Lowered code is not left by jumps.** -/
theorem contained_lowerDown {depth : Nat} {id : NodeId} {st st' : LowerState} {code : List Stmt}
    (hpredicted : m.grammar.WellPredicted id) (h : Yields (m.lowerDown depth id) st code st')
    (w : World σ) : Contained w code := by
  induction depth generalizing id st code st' with
  | zero =>
    rw [MethodPlan.lowerDown] at h
    exact (not_yields_throw h).elim
  | succ depth ih =>
    obtain ⟨node, body, hnode, hbody, rfl⟩ := yields_lowerDown h
    refine (((isSnippet_lowerAction m _).contained w).append ?_).append
      ((isSnippet_lowerAction m _).contained w)
    have below : ∀ child ∈ node.matchedChildren, ∀ st code st',
        Yields (m.lowerDown depth child) st code st' → Contained w code :=
      fun child hchild st code st' hcode => ih (hpredicted.below (.single ⟨node, hnode, hchild⟩)) hcode
    unfold Node.matchedChildren at below
    have hk := Grammar.kindAt?_of_node hnode
    generalize node.kind = kind at hbody below hk
    cases yields_lowerKind hbody with
    | sequence each =>
      refine contained_flatten fun part hpart => ?_
      obtain ⟨item, hitem, st₁, st₂, hone⟩ :=
        Forall₂.exists_of_mem_right (forall₂_of_yields_mapM each) hpart
      exact below item hitem st₁ part st₂ hone
    | alternatives set =>
      obtain ⟨tree, arms, st₁, htree, hvalid, harms, hcode⟩ := yields_lowerSet set
      have hwf : tree.WellFormed := hpredicted id _ tree .refl hk htree
      have hcontained : ArmsContained w tree arms := harms.contained below
      obtain ⟨peek, -, hruns⟩ :=
        runs_lowerAlternatives hwf (harms.1 ▸ hvalid) hcontained hcode
      exact fun s o hrun => ((hruns s o).1 hrun).isContained hwf hcontained
    | gate hgate => exact below _ (List.mem_singleton_self _) _ _ _ hgate
    | proven => exact IsSnippet.contained (Or.inl rfl) w
    | check | call | terminal => exact IsSnippet.contained (Or.inr ⟨_, rfl⟩) w

end

/-! ## Alternative sets -/

/-- **The code of an analyzed alternative set follows its prediction tree.** On any input, whatever
checks, actions and called rules do, it runs the arm that the tree selects, once; then it goes on
behind the set or, in a repeated set, selects again. Where the tree selects the exit or the error, no
arm is run. -/
theorem MethodPlan.runs_lowerSet {m : MethodPlan} {depth : Nat} {id : NodeId} {alts : Alternatives}
    {st st' : LowerState} {code : List Stmt}
    (hkind : m.grammar.kindAt? id = some (.alternatives alts))
    (hanalyzed : ∀ below set, m.grammar.MatchedBy id below →
      m.grammar.kindAt? below = some (.alternatives set) → m.grammar.AnalyzedAt below)
    (hcode : Yields (m.lowerSet (m.lowerDown depth) id alts) st code st') :
    ∃ tree arms, alts.prediction = some tree ∧ LoweredArms (m.lowerDown depth) alts tree arms ∧
      ∀ (σ : Type) [Source σ] [LawfulSource σ] (w : World σ), ∃ peek : Running σ → Running σ,
        (∀ s : Running σ, s.Peeks (peek s)) ∧ ∀ s o,
          Runs w (.all code) s o ↔ SetRuns w m.grammar alts.mode tree arms peek s o := by
  have hpredicted : m.grammar.WellPredicted id := by
    intro below set tree hbelow hset htree
    exact (hanalyzed below set hbelow hset).wellFormed hset htree
  obtain ⟨tree, arms, st₁, htree, hvalid, harms, hcode⟩ := yields_lowerSet hcode
  refine ⟨tree, arms, htree, harms, fun σ _ _ w => ?_⟩
  refine runs_lowerAlternatives (hpredicted id alts tree .refl hkind htree) (harms.1 ▸ hvalid) ?_ hcode
  refine harms.contained fun arm harm st code st' hone => ?_
  exact contained_lowerDown (hpredicted.below (.single (Grammar.link_of_alternatives hkind harm)))
    hone w

/-- Any number of `ab`, `db` and `ac`, with these marks at the first terminals of the two arms. -/
def pairsWith (prematched : Option Bool) (prediction : Option Decision) : Grammar where
  nodes := #[.ofKind (.terminal (.ofRanges [(97, 97), (100, 100)]) prematched),
    .ofKind (.terminal (.ofRanges [(98, 98)]) none), .ofKind (.sequence [0, 1]),
    .ofKind (.terminal (.ofRanges [(97, 97)]) prematched),
    .ofKind (.terminal (.ofRanges [(99, 99)]) none), .ofKind (.sequence [3, 4]),
    .ofKind (.alternatives { Alternatives.ofArms [2, 5] .star with prediction })]
  rules := [("pairs", { Rule.ofBody "pairs" 6 with k := some 2 })]

/-- The tree chooses the first arm in two places. -/
def pairsTree : Decision :=
  .level 0 false [
    ⟨.ofRanges [(97, 97)], [], .empty, .level 1 false [
      ⟨.ofRanges [(98, 98)], [], .empty, .pick (.arm 0)⟩,
      ⟨.ofRanges [(eof, 97), (99, maxChar)], [], .ofRanges [(98, 98)], .pick (.arm 1)⟩] .everything⟩,
    ⟨.ofRanges [(100, 100)], [], .ofRanges [(97, 97)], .pick (.arm 0)⟩,
    ⟨.ofRanges [(eof, 96), (98, 99), (101, maxChar)], [], .ofRanges [(97, 97), (100, 100)],
      .pick .exit⟩] .everything

theorem pairs_analyzed : Yields (Grammar.analyzeRule "pairs" [("pairs", .endOfInput)] .default)
    (pairsWith none none, []) ⟨⟩ (pairsWith (some true) (some pairsTree), []) := by
  unfold Yields
  cbv

def pairsPlan : MethodPlan :=
  ⟨pairsWith (some true) (some pairsTree), .ofBody "pairs" 6, .parser, 4⟩

/-- The alternative set with its prediction tree. -/
def pairsSet : Alternatives :=
  { Alternatives.ofArms [2, 5] .star with prediction := some pairsTree }

/-- What lowering the alternative set gives. -/
def pairsLowered : Except (Failure GenerationError) (List Stmt) × LowerState :=
  StateT.run (ExceptT.run (pairsPlan.lowerSet (pairsPlan.lowerDown 3) 6 pairsSet))
    ⟨.empty, [], [], 0, 0⟩

def pairsCode : List Stmt :=
  pairsLowered.1.toOption.getD []

theorem pairs_lowered : Yields (pairsPlan.lowerSet (pairsPlan.lowerDown 3) 6 pairsSet)
    ⟨.empty, [], [], 0, 0⟩ pairsCode pairsLowered.2 := by
  unfold Yields pairsCode pairsLowered
  cbv

/-- The arm that stands behind the decision is run where the tree selects it, and not else. -/
theorem pairs_runs_lowerSet : ∃ tree arms, pairsSet.prediction = some tree ∧
    LoweredArms (pairsPlan.lowerDown 3) pairsSet tree arms ∧
    ∀ (σ : Type) [Source σ] [LawfulSource σ] (w : World σ), ∃ peek : Running σ → Running σ,
      (∀ s : Running σ, s.Peeks (peek s)) ∧ ∀ s o,
        Runs w (.all pairsCode) s o ↔ SetRuns w pairsPlan.grammar .star tree arms peek s o := by
  refine MethodPlan.runs_lowerSet rfl (fun below set _ hset => ?_) pairs_lowered
  have hbelow : below = 6 := by
    match below, hset with
    | 6, _ => rfl
  subst hbelow
  exact .intro pairs_analyzed rfl .refl rfl

end PredictiveParser
