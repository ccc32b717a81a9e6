import Mathlib.Data.List.Nodup
import Mathlib.Data.List.Perm.Subperm
import PredictiveParser.Proofs.Method.Decision
import PredictiveParser.Proofs.Method.Labels
import PredictiveParser.Proofs.Method.Lowering

/-!
# Jumps have their targets around them

`Stmt.jumpsInside` says of a statement that each of its jumps leaves something that is around it. A level of
a decision adds no jumps and no labels of its own: it is made of the code of its leaves
(`madeOf_lowerLevel`). So a whole decision is, too, and only the label of the loop around it may come in on
the way (`treeLowered_lowerDecision`).
-/
namespace PredictiveParser

open Lower

/-! ## What is around a jump -/

/-- What a jump may have as its target. -/
inductive JumpTarget where
  | loop (label : Option String)
  | block (label : String)
deriving DecidableEq

namespace JumpTarget

def label? : JumpTarget → Option String
  | .loop label => label
  | .block label => some label

def isLoop : JumpTarget → Bool
  | .loop _ => true
  | .block _ => false

end JumpTarget

namespace Stmt

mutual

/-- Whether each jump in a statement has its target around it. What is around the statement is given from
the inside out: a jump out of a loop that does not name the loop has to be in no block within the loop, and
a jump back to the start of a loop has to name it. -/
def jumpsInside (around : List JumpTarget) : Stmt → Bool
  | .snippet _ => true
  | .ifElse _ thenBody elseBody => allJumpInside around thenBody && allJumpInside around elseBody
  | .loop label body => allJumpInside (.loop label :: around) body
  | .labeled label body => allJumpInside (.block label :: around) body
  | .breakTo none => around.head?.any JumpTarget.isLoop
  | .breakTo (some label) => around.any (·.label? == some label)
  | .continueTo none => false
  | .continueTo (some label) => around.contains (.loop (some label))
  | .switch _ cases fallback => casesJumpInside around cases && allJumpInside around fallback

def allJumpInside (around : List JumpTarget) : List Stmt → Bool
  | [] => true
  | stmt :: rest => stmt.jumpsInside around && allJumpInside around rest

def casesJumpInside (around : List JumpTarget) : List (CharSet × List Stmt) → Bool
  | [] => true
  | (_, body) :: rest => allJumpInside around body && casesJumpInside around rest

end

variable {around : List JumpTarget}

theorem allJumpInside_iff {stmts : List Stmt} : allJumpInside around stmts = true ↔
    ∀ stmt ∈ stmts, stmt.jumpsInside around = true := by
  induction stmts with
  | nil => simp [allJumpInside]
  | cons stmt rest ih => rw [allJumpInside, Bool.and_eq_true, ih, List.forall_mem_cons]

theorem casesJumpInside_iff {cases : List (CharSet × List Stmt)} :
    casesJumpInside around cases = true ↔ ∀ entry ∈ cases, allJumpInside around entry.2 = true := by
  induction cases with
  | nil => simp [casesJumpInside]
  | cons entry rest ih => rw [casesJumpInside, Bool.and_eq_true, ih, List.forall_mem_cons]

theorem allJumpInside_append {stmts others : List Stmt} :
    allJumpInside around (stmts ++ others) = true ↔
      allJumpInside around stmts = true ∧ allJumpInside around others = true := by
  simp only [allJumpInside_iff, List.forall_mem_append]

theorem allJumpInside_singleton {stmt : Stmt} :
    allJumpInside around [stmt] = stmt.jumpsInside around := by
  rw [allJumpInside, allJumpInside, Bool.and_true]

theorem allJumpInside_flatten {parts : List (List Stmt)} :
    allJumpInside around parts.flatten = true ↔ ∀ part ∈ parts, allJumpInside around part = true := by
  induction parts with
  | nil => simp [allJumpInside]
  | cons part rest ih => rw [List.flatten_cons, allJumpInside_append, ih, List.forall_mem_cons]

theorem allJumpInside_getD {parts : List (List Stmt)}
    (h : ∀ part ∈ parts, allJumpInside around part = true) (index : Nat) :
    allJumpInside around (parts.getD index []) = true := by
  rw [List.getD_eq_getElem?_getD]
  cases hpart : parts[index]? with
  | none => rfl
  | some part => exact h part (List.mem_of_getElem? hpart)

end Stmt

open Stmt

/-- The jumps of the code are those of its parts, and it introduces what they introduce. -/
structure MadeOf (parts : List (List Stmt)) (code : List Stmt) : Prop where
  inside : ∀ around, (∀ part ∈ parts, allJumpInside around part = true) →
    allJumpInside around code = true
  introduced : (introducedOf code).Perm (parts.flatMap introducedOf)

theorem madeOf_flatten (parts : List (List Stmt)) : MadeOf parts parts.flatten :=
  ⟨fun _ => allJumpInside_flatten.2, .of_eq (introducedOf_flatten parts)⟩

/-! ## Levels -/

section

variable {m : MethodPlan} {around : List JumpTarget} {offset : Nat} {isAssertion : Bool}
  {cases : List Nat} {index : Nat} {chain code : List Stmt} {st st' : LowerState}

theorem length_remainders (covered : CharSet) (branches : List (Branch Decision)) :
    (remainders covered branches).length = branches.length := by
  induction branches generalizing covered with
  | nil => rfl
  | cons branch rest ih => rw [remainders, List.length_cons, ih, List.length_cons]

/-- The last branch of a level is no case of its multi-way branch. -/
theorem lt_of_mem_cases {threshold : Nat} {branches : List (Branch Decision)}
    (h : index ∈ (LevelPlan.ofLevel threshold isAssertion branches).cases) :
    index + 1 < branches.length := by
  have hcases : index ∈ switchCases [] (remainders .empty branches) := by
    unfold LevelPlan.ofLevel LevelPlan.cases at h
    split at h
    · cases h
    · dsimp only at h
      split at h
      · exact h
      · cases h
  rcases mem_of_mem_foldl_insertAscending hcases with h | h
  · cases h
  · obtain ⟨⟨set, place⟩, hm, rfl⟩ := List.mem_map.1 h
    have hlt := List.snd_lt_of_mem_zipIdx (List.mem_filter.1 hm).1
    rw [List.length_dropLast, length_remainders] at hlt
    simp only at hlt ⊢
    omega

/-- A chain has its jumps where the codes of its branches have them. -/
theorem allJumpInside_branchChain {pairs : List (Branch Decision × List Stmt)}
    (hpairs : ∀ pair ∈ pairs, allJumpInside around pair.2 = true)
    (h : m.branchChain offset isAssertion cases index pairs = .ok chain) :
    allJumpInside around chain = true := by
  induction pairs generalizing index chain with
  | nil =>
    cases pure_eq_ok.1 h
    rfl
  | cons pair rest ih =>
    obtain ⟨branch, own⟩ := pair
    have hown := hpairs _ List.mem_cons_self
    cases rest with
    | nil =>
      cases pure_eq_ok.1 h
      exact hown
    | cons next rest =>
      obtain ⟨otherwise, hotherwise, h⟩ := branchChain_cases h
      have hrest := ih (fun pair hm => hpairs pair (List.mem_cons_of_mem _ hm)) hotherwise
      rcases h with ⟨-, rfl⟩ | ⟨-, test, -, rfl⟩
      · exact hrest
      · rw [allJumpInside_singleton, jumpsInside, Bool.and_eq_true]
        exact ⟨hown, hrest⟩

/-- The code of each branch is in a case or in the chain, and not in both. -/
theorem introduced_branchChain {sets : List CharSet} {branches : List (Branch Decision)}
    {codes : List (List Stmt)} (hsets : sets.length = codes.length)
    (hbranches : branches.length = codes.length)
    (hcases : ∀ place ∈ cases, place + 1 < index + codes.length)
    (h : m.branchChain offset isAssertion cases index (branches.zip codes) = .ok chain) :
    (introducedOfCases ((((sets.zip codes).zipIdx index).filter
      fun (_, place) => cases.contains place).map Prod.fst) ++ introducedOf chain).Perm
        (codes.flatMap introducedOf) := by
  induction codes generalizing sets branches index chain with
  | nil =>
    rw [List.zip_nil_right] at h
    cases pure_eq_ok.1 h
    rw [List.zip_nil_right]
    exact .refl _
  | cons own rest ih =>
    obtain ⟨set, sets, rfl⟩ := List.exists_cons_of_length_eq_add_one hsets
    obtain ⟨branch, branches, rfl⟩ := List.exists_cons_of_length_eq_add_one hbranches
    rw [List.length_cons, List.length_cons, Nat.succ_inj] at hsets hbranches
    cases rest with
    | nil =>
      obtain rfl := List.length_eq_zero_iff.1 hsets
      obtain rfl := List.length_eq_zero_iff.1 hbranches
      cases pure_eq_ok.1 h
      have hlast : ¬ cases.contains index = true := by
        intro hm
        have := hcases index (List.contains_iff_mem.1 hm)
        simp at this
      rw [List.zip_cons_cons, List.zipIdx_cons, List.filter_cons, if_neg hlast]
      exact .of_eq (List.append_nil _).symm
    | cons next rest =>
      obtain ⟨set', sets, rfl⟩ := List.exists_cons_of_length_eq_add_one hsets
      obtain ⟨branch', branches, rfl⟩ := List.exists_cons_of_length_eq_add_one hbranches
      obtain ⟨otherwise, hotherwise, h⟩ := branchChain_cases h
      have hrest := ih hsets hbranches (fun place hm => by
        have := hcases place hm
        simp only [List.length_cons] at this ⊢
        omega) hotherwise
      rw [List.zip_cons_cons, List.zipIdx_cons, List.filter_cons, List.flatMap_cons]
      rcases h with ⟨hcase, rfl⟩ | ⟨hcase, test, -, rfl⟩
      · rw [if_pos hcase, List.map_cons, introducedOfCases, List.append_assoc]
        exact hrest.append_left _
      · rw [if_neg (Bool.eq_false_iff.1 hcase), introducedOf_singleton, introduced]
        refine (List.perm_append_comm_assoc _ _ _).trans (hrest.append_left _)

theorem madeOf_decision {threshold : Nat} {branches : List (Branch Decision)}
    {codes : List (List Stmt)} {plan : LevelPlan}
    (hplan : plan = .ofLevel threshold isAssertion branches) (hlength : branches.length = codes.length)
    (hchain : m.branchChain offset isAssertion plan.cases 0 (branches.zip codes) = .ok chain) :
    MadeOf codes (plan.decision offset branches codes chain) := by
  have hinside : ∀ around, (∀ own ∈ codes, allJumpInside around own = true) →
      allJumpInside around chain = true := fun around hcodes =>
    allJumpInside_branchChain (fun pair hm => hcodes pair.2 (List.of_mem_zip hm).2) hchain
  have hperm := introduced_branchChain ((length_remainders .empty branches).trans hlength) hlength
    (fun place hm => by
      rw [Nat.zero_add, ← hlength]
      exact lt_of_mem_cases (hplan ▸ hm)) hchain
  unfold LevelPlan.cases at hperm
  unfold LevelPlan.decision
  cases hcases : plan.cases? with
  | none =>
    rw [hcases] at hperm
    refine ⟨hinside, ?_⟩
    simpa [introducedOfCases] using hperm
  | some cases =>
    rw [hcases] at hperm
    refine ⟨fun around hcodes => ?_, ?_⟩
    · rw [allJumpInside_singleton, jumpsInside, Bool.and_eq_true, casesJumpInside_iff]
      refine ⟨fun entry hm => ?_, hinside around hcodes⟩
      obtain ⟨⟨pair, place⟩, hfound, rfl⟩ := List.mem_map.1 hm
      have hzip := List.fst_mem_of_mem_zipIdx (List.mem_filter.1 hfound).1
      exact hcodes pair.2 (List.of_mem_zip hzip).2
    · rw [introducedOf_singleton, introduced]
      exact hperm

/-- **A level** is made of the codes of its branches. -/
theorem madeOf_lowerLevel {threshold : Nat} {branches : List (Branch Decision)}
    {codes : List (List Stmt)} (hlength : branches.length = codes.length)
    (h : Yields (m.lowerLevel (.ofLevel threshold isAssertion branches) offset isAssertion branches
      codes) st code st') : MadeOf codes code ∧ Introduces st [] st' := by
  cases yields_lowerLevel.1 h with
  | sole => exact ⟨madeOf_flatten codes, .refl _⟩
  | tested _ _ hchain => exact ⟨madeOf_decision rfl hlength hchain, .refl _⟩
  | read _ _ hchain =>
    have hmade := madeOf_decision rfl hlength hchain
    refine ⟨⟨fun around hcodes => ?_, hmade.introduced⟩, ?_⟩
    · rw [allJumpInside, jumpsInside, Bool.true_and]
      exact hmade.inside around hcodes
    · exact ⟨Nat.le_refl _, Nat.le_refl _, pairwise_insertAscending offset, List.nodup_nil, nofun⟩

end

/-! ## Decisions -/

/-- A property of all leaves holds of all trees when the levels keep it. -/
@[elab_as_elim]
theorem Decision.induction {P : Decision → Prop} (pick : ∀ alt, P (.pick alt))
    (level : ∀ offset isAssertion branches coverage, (∀ branch ∈ branches, P branch.target) →
      P (.level offset isAssertion branches coverage)) : ∀ tree, P tree :=
  let rec targets : ∀ (branches : List (Branch Decision)), ∀ branch ∈ branches, P branch.target
    | [], _, h => nomatch h
    | ⟨_, _, _, target⟩ :: rest, branch, h => by
      rcases List.mem_cons.1 h with rfl | h
      · exact Decision.induction pick level target
      · exact targets rest branch h
  fun
    | .pick alt => pick alt
    | .level offset isAssertion branches coverage =>
      level offset isAssertion branches coverage (targets branches)

def leafIntroduced (leaves : List (List Stmt)) : Alt → List Introduced
  | .arm index => introducedOf (leaves.getD index [])
  | _ => []

section

variable {m : MethodPlan} {enclosure : Enclosure} {leaves : List (List Stmt)}
  {label label' : Option String} {st₀ st st' : LowerState} {given : List Introduced}

theorem introduces_nextStop {name : String} (h : Yields nextStop st name st') :
    Introduces st [.label name] st' := by
  obtain ⟨rfl, rfl⟩ := yields_nextStop h
  refine ⟨Nat.le_succ _, Nat.le_refl _, id, List.nodup_singleton _, List.forall_mem_singleton.2 ?_⟩
  exact .stop _ (Nat.lt_succ_self _) (Nat.le_refl _)

/-- A loop keeps its label, or it is given one. -/
theorem introduces_levelLabel {plan : LevelPlan} {count : Nat}
    (h : Yields (MethodPlan.levelLabel plan enclosure count label) st label' st')
    (hgiven : Introduces st₀ (given ++ Introduced.ofLabel label) st) :
    Introduces st₀ (given ++ Introduced.ofLabel label') st' := by
  unfold MethodPlan.levelLabel at h
  split at h
  · rename_i hnone
    rw [Bool.and_eq_true] at hnone
    obtain rfl := Option.isNone_iff_eq_none.1 hnone.2
    obtain ⟨name, hname, rfl⟩ := yields_map.1 h
    rw [show Introduced.ofLabel none = [] from rfl, List.append_nil] at hgiven
    exact hgiven.append (introduces_nextStop hname)
  · obtain ⟨rfl, rfl⟩ := yields_pure.1 h
    exact hgiven

/-- Code lowered from trees with these leaves has the jumps at the leaves, of which those out of the loop
have its label from before or from afterwards, and it introduces what the leaves do. -/
structure TreeLowered (enclosure : Enclosure) (leaves : List (List Stmt)) (alts : List Alt)
    (label : Option String) (st : LowerState) (code : List Stmt) (label' : Option String)
    (st' : LowerState) : Prop where
  labels : LabelStep label label'
  introduces : ∀ st₀ given, Introduces st₀ (given ++ Introduced.ofLabel label) st →
    Introduces st₀ (given ++ Introduced.ofLabel label') st'
  inside : ∀ around, (∀ leaf ∈ leaves, allJumpInside around leaf = true) →
    (enclosure = .loop → ∀ l, l = label ∨ l = label' →
      (Stmt.breakTo l).jumpsInside around = true) → allJumpInside around code = true
  introduced : (introducedOf code).Perm (alts.flatMap (leafIntroduced leaves))

variable {alts alts' : List Alt} {code code' : List Stmt} {label'' : Option String}
  {st'' : LowerState} {coverage : CharSet}

theorem TreeLowered.nil (label : Option String) (st : LowerState) :
    TreeLowered enclosure leaves [] label st [] label st :=
  ⟨.refl label, fun _ _ => id, fun _ _ _ => rfl, .refl _⟩

/-- One tree after the other. -/
theorem TreeLowered.append (h : TreeLowered enclosure leaves alts label st code label' st')
    (h' : TreeLowered enclosure leaves alts' label' st' code' label'' st'') :
    TreeLowered enclosure leaves (alts ++ alts') label st (code ++ code') label'' st'' where
  labels := h.labels.trans h'.labels
  introduces st₀ given hgiven := h'.introduces st₀ given (h.introduces st₀ given hgiven)
  inside around hleaves hexit := by
    have hmid := h.labels.mid h'.labels
    refine allJumpInside_append.2 ⟨h.inside around hleaves ?_, h'.inside around hleaves ?_⟩
    · rintro hloop l (rfl | rfl)
      · exact hexit hloop l (Or.inl rfl)
      · exact hexit hloop l hmid
    · rintro hloop l (rfl | rfl)
      · exact hexit hloop l hmid
      · exact hexit hloop l (Or.inr rfl)
  introduced := by
    rw [introducedOf_append, List.flatMap_append]
    exact h.introduced.append h'.introduced

theorem treeLowered_pick {alt : Alt}
    (h : Yields (m.lowerDecision enclosure leaves coverage label (.pick alt)) st (code, label') st') :
    TreeLowered enclosure leaves [alt] label st code label' st' := by
  cases alt with
  | arm index =>
    rw [MethodPlan.lowerDecision] at h
    obtain ⟨heq, rfl⟩ := yields_pure.1 h
    cases heq
    refine ⟨.refl _, fun _ _ => id, fun around hleaves _ => allJumpInside_getD hleaves index, ?_⟩
    exact .of_eq (List.flatMap_singleton _ _).symm
  | exit =>
    rw [MethodPlan.lowerDecision] at h
    obtain ⟨heq, rfl⟩ := yields_pure.1 h
    cases heq
    refine ⟨.refl _, fun _ _ => id, fun around _ hexit => ?_, ?_⟩
    · split
      · rename_i hloop
        rw [allJumpInside_singleton]
        exact hexit hloop _ (Or.inl rfl)
      · rfl
    · split <;> exact .refl _
  | error =>
    rw [MethodPlan.lowerDecision] at h
    obtain ⟨snippet, st₁, hsnippet, h⟩ := yields_bind.1 h
    obtain ⟨heq, rfl⟩ := yields_pure.1 h
    cases heq
    unfold MethodPlan.lowerError at hsnippet
    split at hsnippet
    · obtain ⟨rfl, rfl⟩ := yields_pure.1 hsnippet
      exact ⟨.refl _, fun _ _ => id, fun _ _ _ => rfl, .refl _⟩
    · obtain ⟨ref, st₂, href, hsnippet⟩ := yields_bind.1 hsnippet
      obtain ⟨rfl, rfl⟩ := yields_pure.1 hsnippet
      refine ⟨.refl _, fun _ _ hgiven => ?_, fun _ _ _ => rfl, .refl _⟩
      exact hgiven.idle (idle_refer href).introduces

theorem treeLowered_branches {branches : List (Branch Decision)} {codes : List (List Stmt)}
    (ih : ∀ branch ∈ branches, ∀ coverage label st code label' st',
      Yields (m.lowerDecision enclosure leaves coverage label branch.target) st (code, label') st' →
        TreeLowered enclosure leaves branch.target.leaves label st code label' st')
    (h : Yields (m.lowerBranches enclosure leaves coverage label branches) st (codes, label') st') :
    branches.length = codes.length ∧
      TreeLowered enclosure leaves (Decision.leavesOf branches) label st codes.flatten label' st' := by
  induction branches generalizing label st codes with
  | nil =>
    obtain ⟨rfl, rfl, rfl⟩ := yields_lowerBranches_nil.1 h
    exact ⟨rfl, .nil _ _⟩
  | cons branch rest ihrest =>
    obtain ⟨code, label₁, st₁, others, hfirst, hrest, rfl⟩ := yields_lowerBranches_cons.1 h
    have hone := ih _ List.mem_cons_self _ _ _ _ _ _ hfirst
    obtain ⟨hlength, hothers⟩ :=
      ihrest (fun branch hm => ih branch (List.mem_cons_of_mem _ hm)) hrest
    exact ⟨congrArg Nat.succ hlength, hone.append hothers⟩

/-- **A lowered tree** has the jumps at its leaves, and introduces what they do. -/
theorem treeLowered_lowerDecision (m : MethodPlan) (enclosure : Enclosure)
    (leaves : List (List Stmt)) (tree : Decision) : ∀ coverage label st code label' st',
      Yields (m.lowerDecision enclosure leaves coverage label tree) st (code, label') st' →
        TreeLowered enclosure leaves tree.leaves label st code label' st' := by
  induction tree using Decision.induction with
  | pick alt => exact fun _ _ _ _ _ _ => treeLowered_pick
  | level offset isAssertion branches coverage ih =>
    intro above label st code label' st' h
    obtain ⟨label₁, st₁, codes, st₂, hlabel, hbranches, hlevel⟩ := yields_lowerDecision_level.1 h
    obtain ⟨hlength, hcodes⟩ := treeLowered_branches ih hbranches
    obtain ⟨hmade, hlater⟩ := madeOf_lowerLevel hlength hlevel
    have hstep := labelStep_levelLabel hlabel
    constructor
    case labels => exact hstep.trans hcodes.labels
    case introduces =>
      intro st₀ given hgiven
      exact (hcodes.introduces st₀ given (introduces_levelLabel hlabel hgiven)).idle hlater
    case inside =>
      intro around hleaves hexit
      refine hmade.inside around (allJumpInside_flatten.1 (hcodes.inside around hleaves ?_))
      rintro hloop l (rfl | rfl)
      · exact hexit hloop l (hstep.mid hcodes.labels)
      · exact hexit hloop l (Or.inr rfl)
    case introduced =>
      rw [Decision.leaves]
      refine hmade.introduced.trans ?_
      rw [← introducedOf_flatten]
      exact hcodes.introduced

end

end PredictiveParser
