import Mathlib.Data.List.Nodup
import Mathlib.Data.List.Perm.Subperm
import PredictiveParser.Proofs.Method.Jumps

/-!
# Lowered code is well scoped

Code that is lowered has all its jumps and all their targets inside (`Closed`), so it can stand anywhere:
in a case of a multi-way branch, behind a block as a shared arm, or in the loop of another set. For an
alternative set whose arms are closed this is `closed_lowerAlternatives`, and by induction on the depth of
lowering it holds of all that is lowered (`closed_lowerDown`).

So in a method every jump has its target, and no label is there twice
(`MethodPlan.wellScoped_of_make`).
-/
namespace PredictiveParser

open Lower Stmt

/-- Between two states this code was lowered. Its jumps have their targets in it, and it introduces labels
that were given out. -/
structure Closed (st : LowerState) (code : List Stmt) (st' : LowerState) : Prop where
  inside : ∀ around, allJumpInside around code = true
  introduces : Introduces st (introducedOf code) st'

section

variable {st st' st'' st₀ : LowerState} {code code' : List Stmt}

theorem Closed.nil (st : LowerState) : Closed st [] st := ⟨fun _ => rfl, .refl st⟩

theorem Closed.append (h : Closed st code st') (h' : Closed st' code' st'') :
    Closed st (code ++ code') st'' where
  inside around := allJumpInside_append.2 ⟨h.inside around, h'.inside around⟩
  introduces := introducedOf_append code code' ▸ h.introduces.append h'.introduces

theorem closed_snippet {snippet : Snippet} (hnew : (Stmt.snippet snippet).introduced = [])
    (h : Introduces st [] st') : Closed st [.snippet snippet] st' where
  inside _ := rfl
  introduces := by
    rw [introducedOf_singleton, hnew]
    exact h

/-- One after the other. -/
theorem closed_mapM {α : Type} {f : α → Lower (List Stmt)} {items : List α} {parts : List (List Stmt)}
    (hf : ∀ item ∈ items, ∀ st code st', Yields (f item) st code st' → Closed st code st')
    (h : Yields (items.mapM f) st parts st') : Closed st parts.flatten st' := by
  induction items generalizing st parts with
  | nil =>
    obtain ⟨rfl, rfl⟩ := yields_mapM_nil.1 h
    exact .nil _
  | cons item items ih =>
    obtain ⟨part, st₁, parts, hfirst, hrest, rfl⟩ := yields_mapM_cons.1 h
    exact (hf item List.mem_cons_self _ _ _ hfirst).append
      (ih (fun item hm => hf item (List.mem_cons_of_mem _ hm)) hrest)

/-! ## Shared arms -/

variable {suffix : String} {skip : Stmt} {jumpOver : Bool} {shared : List (Nat × List Stmt)}

/-- The blocks around what jumps to shared arms, from the inside out. -/
def armBlocks (suffix : String) (shared : List (Nat × List Stmt)) : List JumpTarget :=
  shared.map fun entry => .block (matchLabel suffix entry.1)

def armLabels (suffix : String) (shared : List (Nat × List Stmt)) : List Introduced :=
  shared.map fun entry => .label (matchLabel suffix entry.1)

theorem inside_appendShared {outer : List JumpTarget}
    (hcode : allJumpInside (armBlocks suffix shared ++ outer) code = true)
    (harms : ∀ entry ∈ shared, ∀ around, allJumpInside around entry.2 = true)
    (hskip : 0 < jumpsPast jumpOver shared →
      ∀ inner, skip.jumpsInside (inner ++ outer) = true) :
    allJumpInside outer (appendShared suffix skip jumpOver shared code) = true := by
  induction shared generalizing code jumpOver with
  | nil => exact hcode
  | cons entry rest ih =>
    obtain ⟨index, arm⟩ := entry
    rw [appendShared_cons]
    refine ih ?_ (fun entry hm => harms entry (List.mem_cons_of_mem _ hm))
      fun hjumps => hskip (jumpsPast_cons hjumps)
    rw [allJumpInside, jumpsInside, Bool.and_eq_true]
    refine ⟨?_, harms _ List.mem_cons_self _⟩
    unfold blockBody
    cases jumpOver with
    | true =>
      refine allJumpInside_append.2 ⟨hcode, ?_⟩
      rw [allJumpInside_singleton]
      exact hskip (Nat.succ_pos _) (_ :: armBlocks suffix rest)
    | false => exact hcode

theorem introduced_appendShared (hskip : skip.introduced = []) :
    (introducedOf (appendShared suffix skip jumpOver shared code)).Perm
      (introducedOf code ++ armLabels suffix shared ++ shared.flatMap (introducedOf ·.2)) := by
  induction shared generalizing code jumpOver with
  | nil =>
    refine .of_eq ?_
    rw [appendShared, armLabels, List.map_nil, List.append_nil, List.flatMap_nil, List.append_nil]
  | cons entry rest ih =>
    obtain ⟨index, arm⟩ := entry
    have hbody : introducedOf (blockBody skip jumpOver code) = introducedOf code := by
      unfold blockBody
      split
      · rw [introducedOf_append, introducedOf_singleton, hskip, List.append_nil]
      · rfl
    rw [appendShared_cons]
    refine ih.trans (List.perm_iff_count.2 fun x => ?_)
    simp only [introducedOf, introduced, hbody, armLabels, List.map_cons, List.flatMap_cons,
      List.count_append, List.count_cons]
    omega

/-! ## The arms of a set -/

variable {tree : Decision} {arms : List (List Stmt)}

/-- Short code has no labels. -/
theorem introducedOf_of_isSimple (h : isSimple code = true)
    (hgiven : ∀ x ∈ introducedOf code, GivenOut st st' x) : introducedOf code = [] := by
  unfold isSimple at h
  split at h
  · rfl
  · rename_i snippet
    cases snippet with
    | declareLookahead offset => cases hgiven (.lookahead offset) List.mem_cons_self
    | _ => rfl
  · rfl
  · rfl
  · cases h

/-- Each arm stands at its leaves or behind them. -/
theorem introduced_arms (tree : Decision) (suffix : String) (arms : List (List Stmt)) :
    (arms.flatMap introducedOf).Perm ((tree.leafCodes suffix arms).flatMap introducedOf ++
      (tree.sharedArms arms).flatMap (introducedOf ·.2)) := by
  have harms : (arms.mapIdx fun index code => (index, code)).map Prod.snd = arms :=
    List.ext_getElem? fun index => by simp
  have hleaves : tree.leafCodes suffix arms = (arms.mapIdx fun index code => (index, code)).map
      fun entry => if tree.sharesArm entry.1 entry.2
        then [.breakTo (some (matchLabel suffix entry.1))] else entry.2 :=
    List.ext_getElem? fun index => by simp [Decision.leafCodes, Function.comp_def]
  unfold Decision.sharedArms
  rw [hleaves]
  nth_rewrite 1 [← harms]
  generalize arms.mapIdx (fun index code => (index, code)) = entries
  induction entries with
  | nil => exact .refl _
  | cons entry rest ih =>
    rw [List.map_cons, List.map_cons, List.flatMap_cons, List.flatMap_cons, List.filter_cons]
    refine (ih.append_left _).trans (List.perm_iff_count.2 fun x => ?_)
    by_cases hshares : tree.sharesArm entry.1 entry.2 = true
    · simp only [hshares, if_true, List.flatMap_cons, List.count_append, introducedOf_singleton,
        introduced, List.count_nil]
      omega
    · simp only [hshares, Bool.false_eq_true, if_false, List.count_append]
      omega

/-- The code at the leaves of an arm that is not shared introduces nothing, or there is one such leaf. -/
theorem leafIntroduced_eq_nil {index : Nat}
    (hgiven : ∀ x ∈ arms.flatMap introducedOf, GivenOut st st' x)
    (htwice : 1 < tree.timesUsed (.arm index)) :
    leafIntroduced (tree.leafCodes suffix arms) (.arm index) = [] := by
  rw [leafIntroduced]
  by_cases hindex : index < arms.length
  · rw [getD_leafCodes hindex]
    have hm : arms.getD index [] ∈ arms := by
      rw [List.getD_eq_getElem _ _ hindex]
      exact List.getElem_mem hindex
    split
    · rfl
    · rename_i hshares
      have harm : ∀ x ∈ introducedOf (arms.getD index []), GivenOut st st' x := fun x hx =>
        hgiven x (List.mem_flatMap.2 ⟨_, hm, hx⟩)
      exact introducedOf_of_isSimple (by simpa [Decision.sharesArm, htwice] using hshares) harm
  · rw [List.getD_eq_default]
    · rfl
    · simpa [Decision.leafCodes] using hindex

/-- A leaf that introduces something stands for the arm whose code is there. -/
theorem leafIntroduced_cases (leaves : List (List Stmt)) (alt : Alt) :
    leafIntroduced leaves alt = [] ∨ ∃ index, alt = .arm index ∧
      ∃ hindex : index < leaves.length, leafIntroduced leaves alt = introducedOf leaves[index] := by
  cases alt with
  | arm index =>
    by_cases hindex : index < leaves.length
    · exact Or.inr ⟨index, rfl, hindex, by rw [leafIntroduced, List.getD_eq_getElem _ _ hindex]⟩
    · refine Or.inl ?_
      rw [leafIntroduced, List.getD_eq_default _ _ (Nat.le_of_not_lt hindex)]
      rfl
  | exit => exact Or.inl rfl
  | error => exact Or.inl rfl

/-- What the leaves introduce stands at no two of them. -/
theorem subperm_leaves (h : Introduces st (arms.flatMap introducedOf) st') :
    (tree.leaves.flatMap (leafIntroduced (tree.leafCodes suffix arms))).Subperm
      ((tree.leafCodes suffix arms).flatMap introducedOf) := by
  have hnodup := ((introduced_arms tree suffix arms).nodup_iff.1 h.nodup).of_append_left
  obtain ⟨hone, hapart⟩ := List.nodup_flatMap.1 hnodup
  refine List.Nodup.subperm (List.nodup_flatMap.2 ⟨fun alt _ => ?_, ?_⟩) fun x hx => ?_
  · rcases leafIntroduced_cases (tree.leafCodes suffix arms) alt with hnone | ⟨index, -, hindex, heq⟩
    · exact hnone ▸ List.nodup_nil
    · exact heq ▸ hone _ (List.getElem_mem hindex)
  · -- Two leaves are for different arms, or else they introduce nothing.
    refine List.pairwise_iff_forall_sublist.2 fun {alt other} htwo => ?_
    show (leafIntroduced _ alt).Disjoint (leafIntroduced _ other)
    rcases leafIntroduced_cases (tree.leafCodes suffix arms) alt with hnone | ⟨i, rfl, hi, heq⟩
    · exact hnone ▸ List.disjoint_nil_left _
    rcases leafIntroduced_cases (tree.leafCodes suffix arms) other with hnone | ⟨j, rfl, hj, heq'⟩
    · exact hnone ▸ List.disjoint_nil_right _
    rcases Nat.lt_trichotomy i j with hlt | rfl | hlt
    · rw [heq, heq']
      exact List.pairwise_iff_getElem.1 hapart i j hi hj hlt
    · have hcount : 2 ≤ tree.leaves.count (.arm i) := by
        simpa using htwo.count_le (.arm i)
      rw [leafIntroduced_eq_nil h.given hcount]
      exact List.disjoint_nil_left _
    · rw [heq, heq']
      exact (List.pairwise_iff_getElem.1 hapart j i hj hi hlt).symm
  · obtain ⟨alt, -, hx⟩ := List.mem_flatMap.1 hx
    rcases leafIntroduced_cases (tree.leafCodes suffix arms) alt with hnone | ⟨index, -, hindex, heq⟩
    · rw [hnone] at hx
      cases hx
    · exact List.mem_flatMap.2 ⟨_, List.getElem_mem hindex, heq ▸ hx⟩

/-- **What a set introduces** are the labels of its shared arms and what its arms introduce. -/
theorem subperm_appendShared {decision : List Stmt} (hskip : skip.introduced = [])
    (h : Introduces st (arms.flatMap introducedOf) st')
    (hdecision : (introducedOf decision).Perm
      (tree.leaves.flatMap (leafIntroduced (tree.leafCodes suffix arms)))) :
    (introducedOf (appendShared suffix skip jumpOver (tree.sharedArms arms) decision)).Subperm
      (arms.flatMap introducedOf ++ armLabels suffix (tree.sharedArms arms)) := by
  refine List.subperm_ext_iff.2 fun x _ => ?_
  have harms := (introduced_arms tree suffix arms).count_eq x
  have hleaves : (tree.leaves.flatMap (leafIntroduced (tree.leafCodes suffix arms))).Subperm _ :=
    subperm_leaves h
  have hleaves := hleaves.count_le x
  rw [(introduced_appendShared hskip).count_eq x]
  simp only [List.count_append, hdecision.count_eq x] at harms ⊢
  omega

/-! ## Alternative sets -/

variable {wanted : Enclosure} {label label' : Option String} {alts : Alternatives} {m : MethodPlan}

theorem introduces_loopLabel (h : Yields (loopLabel wanted shared) st label st') :
    Introduces st (Introduced.ofLabel label) st' := by
  unfold loopLabel at h
  split at h
  · obtain ⟨name, hname, rfl⟩ := yields_map.1 h
    exact introduces_nextStop hname
  · obtain ⟨rfl, rfl⟩ := yields_pure.1 h
    exact .refl _

theorem introduces_sharedSuffix (hnodup : (shared.map Prod.fst).Nodup)
    (h : Yields (sharedSuffix shared) st suffix st') :
    Introduces st (armLabels suffix shared) st' := by
  unfold sharedSuffix at h
  split at h
  · rename_i hempty
    obtain ⟨rfl, rfl⟩ := yields_pure.1 h
    rw [List.isEmpty_iff.1 hempty]
    exact .refl _
  · have h := yields_get_bind.1 h
    obtain ⟨_, st₁, hmodify, h⟩ := yields_bind.1 h
    obtain ⟨rfl, rfl⟩ := yields_pure.1 h
    rw [yields_modify.1 hmodify]
    refine ⟨Nat.le_refl _, Nat.le_succ _, id, ?_, fun x hx => ?_⟩
    · unfold armLabels
      refine List.pairwise_map.2 ((List.pairwise_map.1 hnodup).imp fun hne heq => hne ?_)
      exact matchLabel_injective (Introduced.label.inj heq)
    · obtain ⟨entry, -, rfl⟩ := List.mem_map.1 hx
      exact .arm _ _ (Nat.le_refl _) (Nat.lt_succ_self _)

/-- The jumps of a decision have their targets around the blocks of the shared arms and the loop. -/
theorem inside_decision {outer : List JumpTarget} {decision : List Stmt}
    (harms : ∀ arm ∈ arms, ∀ around, allJumpInside around arm = true)
    (hdecision : TreeLowered wanted (tree.leafCodes suffix arms) tree.leaves label st decision label' st')
    (hlabel : wanted = .loop → tree.sharedArms arms ≠ [] → label ≠ none)
    (houter : wanted = .loop → ∃ around, outer = .loop label' :: around) :
    allJumpInside (armBlocks suffix (tree.sharedArms arms) ++ outer) decision = true := by
  refine hdecision.inside _ (fun leaf hleaf => ?_) fun hloop l hl => ?_
  · obtain ⟨index, hindex, rfl⟩ := List.mem_mapIdx.1 hleaf
    split
    · rename_i hshares
      rw [allJumpInside_singleton, jumpsInside, List.any_eq_true]
      refine ⟨.block (matchLabel suffix index), List.mem_append_left _ (List.mem_map.2
        ⟨(index, arms[index]), mem_sharedArms.2 ⟨List.getElem?_eq_getElem hindex, hshares⟩, rfl⟩), ?_⟩
      exact beq_self_eq_true _
    · exact harms _ (List.getElem_mem hindex) _
  · obtain ⟨around, rfl⟩ := houter hloop
    cases l with
    | none =>
      -- A loop without a label has no shared arms.
      have hshared : tree.sharedArms arms = [] := by
        by_contra hshared
        have hsome := hlabel hloop hshared
        rcases hl with rfl | rfl
        · exact hsome rfl
        · exact hdecision.labels.elim hsome fun heq => hsome heq.symm
      rw [hshared]
      rfl
    | some name =>
      have hname : label' = some name := by
        rcases hl with rfl | rfl
        · exact hdecision.labels.resolve_left (Option.some_ne_none name)
        · rfl
      rw [jumpsInside, List.any_eq_true]
      refine ⟨.loop label', List.mem_append_right _ List.mem_cons_self, ?_⟩
      rw [hname]
      exact beq_self_eq_true _

/-- Between two states a decision was lowered, and shared arms stand behind it. In the loop with the label, if
there is to be one, the jumps have their targets, provided that those past shared arms have. Such jumps are
left with a label where there is a loop. -/
structure SharedClosed (st₀ : LowerState) (wanted : Enclosure) (label : Option String) (suffix : String)
    (jumpOver : Bool) (shared : List (Nat × List Stmt)) (decision : List Stmt) (st : LowerState) :
    Prop where
  inside : ∀ outer skip, (wanted = .loop → ∃ around, outer = .loop label :: around) →
    (0 < jumpsPast jumpOver shared → ∀ inner, skip.jumpsInside (inner ++ outer) = true) →
    allJumpInside outer (appendShared suffix skip jumpOver shared decision) = true
  introduces : ∀ skip, skip.introduced = [] → Introduces st₀
    (introducedOf (appendShared suffix skip jumpOver shared decision) ++ Introduced.ofLabel label) st
  labeled : wanted = .loop → 0 < jumpsPast jumpOver shared → label ≠ none

theorem SharedClosed.introduces_inner (h : SharedClosed st₀ wanted label suffix jumpOver shared code st)
    (skip : Stmt) (hskip : skip.introduced = []) :
    Introduces st₀ (introducedOf (appendShared suffix skip jumpOver shared code)) st :=
  (h.introduces skip hskip).subperm (List.sublist_append_left _ _).subperm

/-- In a block, jumps past shared arms leave the block. -/
theorem SharedClosed.block {name : String} (hwanted : wanted ≠ .loop)
    (h : SharedClosed st₀ wanted label suffix jumpOver shared code st)
    (hname : Introduces st [.label name] st') :
    Closed st₀ [.labeled name (appendShared suffix (.breakTo (some name)) jumpOver shared code)] st' := by
  have hinner := h.introduces_inner (.breakTo (some name)) rfl
  refine ⟨fun around => ?_, (hinner.append hname).subperm ?_⟩
  · rw [allJumpInside_singleton, jumpsInside]
    refine h.inside _ _ (fun hloop => (hwanted hloop).elim) fun _ inner => ?_
    rw [jumpsInside, List.any_eq_true]
    exact ⟨.block name, List.mem_append_right _ List.mem_cons_self, beq_self_eq_true _⟩
  · rw [introducedOf_singleton, introduced]
    exact (List.perm_append_singleton _ _).symm.subperm

/-- In a loop, jumps past shared arms start it again. -/
theorem SharedClosed.loop (h : SharedClosed st₀ .loop label suffix jumpOver shared code st) :
    Closed st₀ [.loop label (appendShared suffix (.continueTo label) jumpOver shared code)] st := by
  refine ⟨fun around => ?_, (h.introduces (.continueTo label) rfl).subperm ?_⟩
  · rw [allJumpInside_singleton, jumpsInside]
    refine h.inside _ _ (fun _ => ⟨around, rfl⟩) fun hjumps inner => ?_
    obtain ⟨name, hname⟩ := Option.ne_none_iff_exists'.1 (h.labeled rfl hjumps)
    rw [hname, jumpsInside, List.contains_iff_mem]
    exact List.mem_append_right _ List.mem_cons_self
  · rw [introducedOf_singleton, introduced]
    exact List.perm_append_comm.subperm

theorem closed_surround (h : SharedClosed st₀ wanted label suffix jumpOver shared code st)
    (hsurround : Yields (surround wanted label suffix jumpOver shared code) st code' st') :
    Closed st₀ code' st' := by
  unfold surround at hsurround
  cases wanted with
  | loop =>
    obtain ⟨rfl, rfl⟩ := yields_pure.1 hsurround
    exact h.loop
  | block =>
    obtain ⟨name, st₁, hname, hsurround⟩ := yields_bind.1 hsurround
    obtain ⟨rfl, rfl⟩ := yields_pure.1 hsurround
    exact h.block (by decide) (introduces_nextStop hname)
  | none =>
    by_cases hjumps : 0 < jumpsPast jumpOver shared
    · simp only [decide_true, decide_eq_true hjumps, Bool.and_self, if_true] at hsurround
      obtain ⟨name, st₁, hname, hsurround⟩ := yields_bind.1 hsurround
      obtain ⟨rfl, rfl⟩ := yields_pure.1 hsurround
      exact h.block (by decide) (introduces_nextStop hname)
    · simp only [decide_true, decide_eq_false hjumps, Bool.and_false, Bool.false_eq_true,
        if_false] at hsurround
      obtain ⟨rfl, rfl⟩ := yields_pure.1 hsurround
      refine ⟨fun around => ?_, h.introduces_inner _ rfl⟩
      exact h.inside _ _ (absurd · (by decide)) fun hpos => absurd hpos hjumps

/-- The decision of an alternative set whose arms are closed. -/
theorem sharedClosed_lowerDecision {st₁ st₂ st₃ : LowerState} {decision : List Stmt}
    (harms : Closed st₀ arms.flatten st)
    (hloop : Yields (loopLabel wanted (tree.sharedArms arms)) st label st₁)
    (hsuffix : Yields (sharedSuffix (tree.sharedArms arms)) st₁ suffix st₂)
    (hdecision : TreeLowered wanted (tree.leafCodes suffix arms) tree.leaves label st₂ decision
      label' st₃) :
    SharedClosed st₀ wanted label' suffix jumpOver (tree.sharedArms arms) decision st₃ := by
  have harm : ∀ arm ∈ arms, ∀ around, allJumpInside around arm = true :=
    fun arm hm around => allJumpInside_flatten.1 (harms.inside around) arm hm
  have hnew := introducedOf_flatten arms ▸ harms.introduces
  have hsome : wanted = .loop → tree.sharedArms arms ≠ [] → label ≠ none := by
    intro hwanted hshared hnone
    obtain ⟨number, hnumber⟩ := yields_loopLabel hloop hwanted hshared
    rw [hnone] at hnumber
    cases hnumber
  constructor
  case inside =>
    exact fun outer skip houter hskip => inside_appendShared (inside_decision harm hdecision hsome houter)
      (fun entry hm => harm entry.2 (List.mem_of_getElem? (mem_sharedArms.1 hm).1)) hskip
  case introduces =>
    -- The labels that were given out, of which the decision may have added that of the loop.
    have hgiven : Introduces st₀ (arms.flatMap introducedOf ++
        armLabels suffix (tree.sharedArms arms) ++ Introduced.ofLabel label') st₃ := by
      refine hdecision.introduces st₀ _ ?_
      refine ((hnew.append (introduces_loopLabel hloop)).append
        (introduces_sharedSuffix nodup_sharedArms hsuffix)).subperm ?_
      rw [List.append_assoc, List.append_assoc]
      exact (List.perm_append_comm.append_left _).subperm
    intro skip hskip
    exact hgiven.subperm
      ((List.subperm_append_right _).2 (subperm_appendShared hskip hnew hdecision.introduced))
  case labeled =>
    -- Where arms are jumped past, the loop had its label from the start.
    intro hwanted hjumps
    have hfirst := hsome hwanted (ne_nil_of_jumpsPast hjumps)
    rw [hdecision.labels.resolve_left hfirst]
    exact hfirst

/-- **An alternative set** whose arms are closed is closed. -/
theorem closed_lowerAlternatives (harms : Closed st₀ arms.flatten st)
    (h : Yields (m.lowerAlternatives alts tree arms) st code st') : Closed st₀ code st' := by
  unfold MethodPlan.lowerAlternatives at h
  obtain ⟨label, st₁, hloop, h⟩ := yields_bind.1 h
  obtain ⟨suffix, st₂, hsuffix, h⟩ := yields_bind.1 h
  obtain ⟨⟨decision, label'⟩, st₃, hdecision, h⟩ := yields_bind.1 h
  have hdecision := treeLowered_lowerDecision m _ _ tree _ _ _ _ _ _ hdecision
  exact closed_surround (sharedClosed_lowerDecision harms hloop hsuffix hdecision) h

/-! ## Whole methods -/

variable {id : NodeId} {depth : Nat}

theorem closed_lowerSet {lowerArm : NodeId → Lower (List Stmt)}
    (ih : ∀ arm ∈ alts.arms, ∀ st code st', Yields (lowerArm arm) st code st' → Closed st code st')
    (h : Yields (m.lowerSet lowerArm id alts) st code st') : Closed st code st' := by
  obtain ⟨tree, arms, st₁, st₂, -, hwarned, harms, h⟩ := yields_lowerSet_parts h
  have harms : Closed st₁ arms.flatten st₂ := by
    refine closed_mapM (fun entry hm st code st' hone => ?_) harms
    dsimp only at hone
    split at hone
    · exact ih entry.1 (List.fst_mem_of_mem_zipIdx hm) st code st' hone
    · obtain ⟨rfl, rfl⟩ := yields_pure.1 hone
      exact .nil _
  refine closed_lowerAlternatives ⟨harms.inside, ?_⟩ h
  exact (idle_warnUnreachable hwarned).introduces.append harms.introduces

theorem closed_lowerAction (m : MethodPlan) (action : Option Tokens) (st : LowerState) :
    Closed st (m.lowerAction action) st := by
  unfold MethodPlan.lowerAction
  split
  · exact .nil st
  · cases action with
    | none => exact .nil st
    | some code => exact closed_snippet rfl (.refl st)

theorem closed_lowerTerminal {set : CharSet} {mark : Option Bool} {saver : Option Saver}
    {snippet : Snippet} (h : Yields (m.lowerTerminal set mark saver) st snippet st') :
    Closed st [.snippet snippet] st' := by
  obtain ⟨ref, href, rfl | rfl⟩ | ⟨-, rfl, rfl⟩ := yields_lowerTerminal h
  · exact closed_snippet rfl (idle_refer href).introduces
  · exact closed_snippet rfl (idle_refer href).introduces
  · exact closed_snippet rfl (.refl _)

/-- A call declares no lookahead variable. -/
theorem introduced_callSnippet {name : String} {saver : Option Saver} {snippet : Snippet}
    (h : m.callSnippet name saver = .ok snippet) : (Stmt.snippet snippet).introduced = [] := by
  obtain ⟨callee, -, ⟨-, rfl⟩ | ⟨recognizer, -, -, rfl⟩⟩ := callSnippet_eq_ok h <;> rfl

/-- **Lowered code is closed.** -/
theorem closed_lowerDown (h : Yields (m.lowerDown depth id) st code st') : Closed st code st' := by
  induction depth generalizing id st code st' with
  | zero =>
    rw [MethodPlan.lowerDown] at h
    exact (not_yields_throw h).elim
  | succ depth ih =>
    obtain ⟨node, body, -, hbody, rfl⟩ := yields_lowerDown h
    refine ((closed_lowerAction m _ st).append ?_).append (closed_lowerAction m _ st')
    generalize node.kind = kind at hbody
    cases yields_lowerKind hbody with
    | sequence each => exact closed_mapM (fun item _ st code st' hone => ih hone) each
    | alternatives set => exact closed_lowerSet (fun arm _ st code st' hone => ih hone) set
    | gate below => exact ih below
    | proven => exact .nil _
    | check => exact closed_snippet rfl (.refl _)
    | call called => exact closed_snippet (introduced_callSnippet called) (.refl _)
    | terminal step => exact closed_lowerTerminal step

end

/-- Every jump has its target around it: a jump with a label has the loop or block of this name, a jump to
the start of a loop has a label, and a jump without one is in a loop and no block within it. Nothing is
introduced twice, and labels are made from numbers. -/
structure Method.WellScoped (method : Method) : Prop where
  jumps : allJumpInside [] method.body = true
  distinct : (introducedOf method.body).Nodup
  numbered : ∀ label, .label label ∈ introducedOf method.body →
    (∃ number, 0 < number ∧ label = stopLabel number) ∨
      ∃ number index, label = matchLabel (gotoSuffix number) index

theorem introducedOf_declarations (offsets : List Nat) :
    introducedOf (offsets.map fun offset => .snippet (.declareLookahead offset)) =
      offsets.map Introduced.lookahead := by
  induction offsets with
  | nil => rfl
  | cons offset rest ih =>
    rw [List.map_cons, introducedOf, ih, List.map_cons]
    rfl

/-- The body of a method declares lookahead variables and goes on with closed code. -/
theorem exists_closed {m : MethodPlan} {st st' : LowerState} {body : List Stmt}
    (h : Yields m.lowerBody st body st') : ∃ code, Closed st code st' ∧
      body = st'.offsets.map (fun offset => .snippet (.declareLookahead offset)) ++ code := by
  obtain ⟨code, st₁, hdown, h⟩ := yields_bind.1 h
  have h := yields_get_bind.1 h
  obtain ⟨rfl, rfl⟩ := yields_pure.1 h
  exact ⟨code, closed_lowerDown hdown, rfl⟩

theorem wellScoped_lowerMethod {m : MethodPlan} {tables : Tables} {st : LowerState} {method : Method}
    (h : Yields m.lowerMethod ⟨tables, [], [], 0, 0⟩ method st) : method.WellScoped := by
  obtain ⟨body, st₁, hbody, h⟩ := yields_bind.1 h
  obtain ⟨written, -, h⟩ := yields_lift_bind.1 h
  obtain ⟨rfl, -⟩ := yields_pure.1 h
  obtain ⟨code, hclosed, hcode⟩ := exists_closed hbody
  have hgiven := hclosed.introduces.given
  have hintroduced : introducedOf body =
      st₁.offsets.map Introduced.lookahead ++ introducedOf code := by
    rw [hcode, introducedOf_append, introducedOf_declarations]
  constructor
  case jumps =>
    rw [hcode, allJumpInside_append]
    refine ⟨allJumpInside_iff.2 fun stmt hm => ?_, hclosed.inside []⟩
    obtain ⟨offset, -, rfl⟩ := List.mem_map.1 hm
    rfl
  case distinct =>
    rw [hintroduced]
    refine List.nodup_append'.2 ⟨?_, hclosed.introduces.nodup, fun x hx hlabel => ?_⟩
    · exact List.pairwise_map.2 ((hclosed.introduces.offsets .nil).imp fun hlt heq =>
        Nat.ne_of_lt hlt (Introduced.lookahead.inj heq))
    · obtain ⟨offset, -, rfl⟩ := List.mem_map.1 hx
      cases hgiven _ hlabel
  case numbered =>
    intro label hlabel
    rw [hintroduced] at hlabel
    rcases List.mem_append.1 hlabel with hlabel | hlabel
    · obtain ⟨offset, -, heq⟩ := List.mem_map.1 hlabel
      cases heq
    · generalize hx : Introduced.label label = x at hlabel
      cases hgiven x hlabel with
      | stop number after before =>
        exact Or.inl ⟨number, Nat.zero_lt_of_lt after, Introduced.label.inj hx⟩
      | arm number index after before => exact Or.inr ⟨number, index, Introduced.label.inj hx⟩

/-- **Methods are well scoped.** -/
theorem MethodPlan.wellScoped_of_make {m : MethodPlan} {tables tables' : Tables} {method : Method}
    {events : List Event} (h : m.make tables = (.ok method, tables', events)) : method.WellScoped := by
  have hmethod : Yields m.lowerMethod ⟨tables, [], [], 0, 0⟩ method _ :=
    Prod.ext (congrArg Prod.fst h :) rfl
  exact wellScoped_lowerMethod hmethod

set_option maxRecDepth 10000 in
theorem pairs_wellScoped : ∃ method tables events,
    pairsPlan.make .empty = (.ok method, tables, events) ∧ method.WellScoped := by
  have hok : (pairsPlan.make .empty).1.toOption.isSome = true := by cbv
  rcases hmade : pairsPlan.make .empty with ⟨failure | method, tables, events⟩
  · rw [hmade] at hok
    cases hok
  · exact ⟨method, tables, events, rfl, MethodPlan.wellScoped_of_make hmade⟩

/-- The loop, and the block in front of the arm that two leaves choose. -/
example : introducedOf pairsCode = [.label "stop", .label "match1"] := by
  cbv

/-! ## Lookahead variables -/

def Introduced.offset? : Introduced → Option Nat
  | .label _ => none
  | .lookahead offset => some offset

/-- The lookahead variables that the method declares, by their offsets. -/
def Method.lookaheads (method : Method) : List Nat :=
  (introducedOf method.body).filterMap Introduced.offset?

/-- Labels are no lookahead variables. -/
theorem Introduces.filterMap_offset {st st' : LowerState} {new : List Introduced}
    (h : Introduces st new st') : new.filterMap Introduced.offset? = [] :=
  List.filterMap_eq_nil_iff.2 fun x hx => by cases h.given x hx <;> rfl

/-- Behind declarations of lookahead variables, closed code declares no more of them. -/
theorem Closed.lookaheads {st st' : LowerState} {code : List Stmt} {method : Method}
    {offsets : List Nat} (h : Closed st code st')
    (hbody : method.body = offsets.map (fun offset => .snippet (.declareLookahead offset)) ++ code) :
    method.lookaheads = offsets := by
  have hlabels := h.introduces.filterMap_offset
  have hoffsets : (offsets.map Introduced.lookahead).filterMap Introduced.offset? = offsets :=
    List.filterMap_map.trans List.filterMap_some
  rw [Method.lookaheads, hbody, introducedOf_append, introducedOf_declarations, List.filterMap_append,
    hlabels, hoffsets, List.append_nil]

/-- No lookahead variable is declared twice. -/
theorem Method.WellScoped.nodup_lookaheads {method : Method} (h : method.WellScoped) :
    method.lookaheads.Nodup := by
  refine h.distinct.filterMap fun x y offset hx hy => ?_
  cases x <;> cases y <;> cases hx <;> cases hy
  rfl

end PredictiveParser
