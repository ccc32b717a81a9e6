import PredictiveParser.Proofs.Method.Outline
import PredictiveParser.Proofs.Method.Scoped

/-!
# Where the code of arms stands

The code of an alternative set is an outline with gaps for its arms. An arm with shared code has one gap,
right behind the block that its leaves leave by a jump; any other arm has a gap at each of its leaves
(`exists_outline_lowerAlternatives`). Jumps to shared arms stand at leaves only, since the arms themselves
are closed (`count_jump_flatMap_filled`).
-/
namespace PredictiveParser

open Lower Outline

/-! ## Gaps behind blocks -/

/-- Somewhere in an outline, the gap of the arm comes directly behind a block with this label. -/
inductive Outline.Follows (label : String) (index : Nat) : List Outline → Prop where
  | here (before body after : List Outline) :
      Follows label index (before ++ .labeled label body :: .arm index :: after)
  | inBlock (before after : List Outline) (other : String) {body : List Outline}
      (inside : Follows label index body) :
      Follows label index (before ++ .labeled other body :: after)
  | inLoop (before after : List Outline) (name : Option String) {body : List Outline}
      (inside : Follows label index body) : Follows label index (before ++ .loop name body :: after)

namespace Outline

variable {label : String} {index : Nat}

theorem Follows.append {first : List Outline} (h : Follows label index first)
    (rest : List Outline) : Follows label index (first ++ rest) := by
  cases h with
  | here before body after =>
    rw [List.append_assoc]
    exact .here before body (after ++ rest)
  | inBlock before after other inside =>
    rw [List.append_assoc]
    exact .inBlock before (after ++ rest) other inside
  | inLoop before after name inside =>
    rw [List.append_assoc]
    exact .inLoop before (after ++ rest) name inside

end Outline

/-- Puts the gaps of shared arms behind the outline that jumps to them. -/
def joinArms (suffix : String) (skip : Outline) (jumpOver : Bool) :
    List Nat → List Outline → List Outline
  | [], code => code
  | index :: rest, code =>
    joinArms suffix skip true rest [.labeled (matchLabel suffix index)
      (if jumpOver then code ++ [skip] else code), .arm index]

section

variable {suffix : String} {skip : Outline} {jumpOver : Bool} {indices : List Nat} {index : Nat}
  {code : List Outline} {arms : List (List Stmt)}

theorem fillAll_joinArms {stmt : Stmt} (hskip : skip.fill arms = [stmt]) :
    fillAll arms (joinArms suffix skip jumpOver indices code) =
      appendShared suffix stmt jumpOver (indices.map fun index => (index, arms.getD index []))
        (fillAll arms code) := by
  induction indices generalizing jumpOver code with
  | nil => rfl
  | cons index rest ih =>
    rw [joinArms, ih, List.map_cons, appendShared]
    cases jumpOver <;> simp [fillAll, fill, fillAll_append, hskip]

variable (suffix skip jumpOver indices code)

/-- Each gap comes in once, and jumps past the arms. -/
theorem marksOf_joinArms : ∃ skips, (∀ mark ∈ skips, mark ∈ skip.marks) ∧
    (marksOf (joinArms suffix skip jumpOver indices code)).Perm
      (skips ++ (marksOf code ++ indices.map .arm)) := by
  induction indices generalizing jumpOver code with
  | nil => exact ⟨[], nofun, .of_eq (List.append_nil _).symm⟩
  | cons index rest ih =>
    rw [joinArms]
    cases jumpOver with
    | true =>
      obtain ⟨skips, hskips, hperm⟩ := ih true _
      refine ⟨skip.marks ++ skips, List.forall_mem_append.2 ⟨fun _ hm => hm, hskips⟩, hperm.trans ?_⟩
      refine List.perm_iff_count.2 fun mark => ?_
      simp only [marksOf, marks, marksOf_append, List.map_cons, List.count_append, List.count_cons,
        List.count_nil, if_true]
      omega
    | false =>
      obtain ⟨skips, hskips, hperm⟩ := ih true _
      refine ⟨skips, hskips, hperm.trans (List.perm_iff_count.2 fun mark => ?_)⟩
      simp only [marksOf, marks, List.map_cons, List.count_append, List.count_cons, List.count_nil,
        Bool.false_eq_true, if_false]
      omega

variable {suffix skip jumpOver indices code}

theorem Outline.Follows.joinArms {label : String} (h : Follows label index code) :
    Follows label index (joinArms suffix skip jumpOver indices code) := by
  induction indices generalizing jumpOver code with
  | nil => exact h
  | cons first rest ih =>
    refine ih (.inBlock [] [.arm first] (matchLabel suffix first) ?_)
    split
    · exact h.append [skip]
    · exact h

/-- Each shared arm comes directly behind its block. -/
theorem follows_joinArms (h : index ∈ indices) :
    Follows (matchLabel suffix index) index (joinArms suffix skip jumpOver indices code) := by
  induction indices generalizing jumpOver code with
  | nil => cases h
  | cons first rest ih =>
    rw [joinArms]
    rcases List.mem_cons.1 h with rfl | h
    · exact Follows.joinArms (.here [] _ [])
    · exact ih h

end

/-! ## Sets with the same shared arms -/

namespace Decision

def sharedPlaces (tree : Decision) (arms : List (List Stmt)) : List Nat :=
  (List.range arms.length).filter fun index => tree.sharesArm index (arms.getD index [])

/-- What stands at the leaves for each arm: its gap, or a jump to it. -/
def leafGaps (tree : Decision) (suffix : String) (arms : List (List Stmt)) : List (List Outline) :=
  (List.range arms.length).map fun index =>
    if tree.sharesArm index (arms.getD index [])
    then [.breakTo (some (matchLabel suffix index))] else [.arm index]

/-- There are as many other arms, and the same of them are shared. -/
structure SharesAlike (tree : Decision) (arms others : List (List Stmt)) : Prop where
  length : others.length = arms.length
  shares : ∀ index < arms.length,
    tree.sharesArm index (others.getD index []) = tree.sharesArm index (arms.getD index [])

variable {tree : Decision} {arms others : List (List Stmt)}

theorem SharesAlike.refl (tree : Decision) (arms : List (List Stmt)) : tree.SharesAlike arms arms :=
  ⟨rfl, fun _ _ => rfl⟩

theorem mem_sharedPlaces {index : Nat} : index ∈ tree.sharedPlaces arms ↔
    index < arms.length ∧ tree.sharesArm index (arms.getD index []) = true := by
  unfold sharedPlaces
  rw [List.mem_filter, List.mem_range]

theorem mapIdx_eq_map_range {α : Type} (f : Nat → List Stmt → α) (arms : List (List Stmt)) :
    arms.mapIdx f = (List.range arms.length).map fun index => f index (arms.getD index []) := by
  refine List.ext_getElem (by simp) fun index hindex _ => ?_
  rw [List.length_mapIdx] at hindex
  simp [hindex]

theorem SharesAlike.sharedArms (h : tree.SharesAlike arms others) : tree.sharedArms others =
    (tree.sharedPlaces arms).map fun index => (index, others.getD index []) := by
  unfold Decision.sharedArms sharedPlaces
  rw [mapIdx_eq_map_range, List.filter_map, h.length]
  refine congrArg (List.map _) (List.filter_congr fun index hindex => ?_)
  exact h.shares index (List.mem_range.1 hindex)

theorem SharesAlike.leafCodes (h : tree.SharesAlike arms others) (suffix : String) :
    tree.leafCodes suffix others =
      (tree.leafGaps suffix arms).map (fillAll others) := by
  unfold Decision.leafCodes leafGaps
  rw [mapIdx_eq_map_range, List.map_map, h.length]
  refine List.map_congr_left fun index hindex => ?_
  rw [h.shares index (List.mem_range.1 hindex), Function.comp_apply]
  split
  · rfl
  · rw [fillAll_singleton, fill]

theorem SharesAlike.fallsThrough (h : tree.SharesAlike arms others) (wanted : Enclosure) :
    tree.fallsThrough wanted others = tree.fallsThrough wanted arms := by
  unfold Decision.fallsThrough
  rw [h.sharedArms, (SharesAlike.refl tree arms).sharedArms, List.length_map, List.length_map, h.length]

theorem SharesAlike.isEmpty_sharedArms (h : tree.SharesAlike arms others) :
    (tree.sharedArms others).isEmpty = (tree.sharedArms arms).isEmpty := by
  rw [h.sharedArms, (SharesAlike.refl tree arms).sharedArms, List.isEmpty_map, List.isEmpty_map]

/-! ## Leaves of arms -/

theorem leafMarks_leafGaps (suffix : String) (place : Nat) :
    leafMarks (tree.leafGaps suffix arms) (.arm place) =
      if place < arms.length then
        if tree.sharesArm place (arms.getD place []) then [.jump (matchLabel suffix place)]
        else [.arm place]
      else [] := by
  rw [leafMarks]
  unfold leafGaps
  split
  · rename_i hlt
    rw [List.getD_eq_getElem _ _ (by rwa [List.length_map, List.length_range]), List.getElem_map,
      List.getElem_range]
    split <;> rfl
  · rename_i hge
    rw [List.getD_eq_default _ _ (by rw [List.length_map, List.length_range]; omega)]
    rfl

/-- At a leaf there is a jump to a shared arm, or the gap of an arm that is not shared. -/
theorem mem_leafMarks_leafGaps {suffix : String} {alt : Alt} {mark : Mark}
    (hm : mark ∈ leafMarks (tree.leafGaps suffix arms) alt) : ∃ place, alt = .arm place ∧
      (tree.sharesArm place (arms.getD place []) = true ∧ mark = .jump (matchLabel suffix place) ∨
        tree.sharesArm place (arms.getD place []) = false ∧ mark = .arm place) := by
  cases alt with
  | arm place =>
    refine ⟨place, rfl, ?_⟩
    rw [leafMarks_leafGaps] at hm
    split at hm
    · split at hm
      · rename_i hshares
        exact Or.inl ⟨hshares, List.mem_singleton.1 hm⟩
      · rename_i hnot
        exact Or.inr ⟨Bool.eq_false_iff.2 hnot, List.mem_singleton.1 hm⟩
    · cases hm
  | exit => cases hm
  | error => cases hm

/-- How often a mark stands at leaves that have it only for one arm. -/
theorem count_leafMarks {leaves : List (List Outline)} {mark : Mark} {index : Nat}
    (hone : (leafMarks leaves (.arm index)).count mark = 1)
    (hother : ∀ place, place ≠ index → (leafMarks leaves (.arm place)).count mark = 0)
    (alts : List Alt) : (alts.flatMap (leafMarks leaves)).count mark = alts.count (.arm index) := by
  induction alts with
  | nil => rfl
  | cons alt rest ih =>
    rw [List.flatMap_cons, List.count_append, ih, List.count_cons, Nat.add_comm]
    refine congrArg (List.count (Alt.arm index) rest + ·) ?_
    cases alt with
    | arm place =>
      by_cases hplace : place = index
      · rw [hplace, hone, if_pos (beq_self_eq_true _)]
      · rw [hother place hplace, if_neg]
        rw [beq_iff_eq, Alt.arm.injEq]
        exact hplace
    | exit => rfl
    | error => rfl

end Decision

/-! ## Closed arms -/

namespace Stmt

mutual

/-- A jump to the end of something that is not around it names something inside. -/
theorem mem_introduced_of_jump {label : String} : ∀ (stmt : Stmt) (around : List JumpTarget),
    stmt.jumpsInside around = true → .jump label ∈ stmt.marks →
      (∃ target ∈ around, target.label? = some label) ∨ .label label ∈ stmt.introduced
  | .snippet s, _, _, hm => by cases s <;> simp [marks, Snippet.marks] at hm
  | .ifElse test thenBody elseBody, around, h, hm => by
    rw [jumpsInside, Bool.and_eq_true] at h
    rw [introduced, List.mem_append, ← or_assoc]
    rcases List.mem_append.1 hm with hm | hm
    · exact Or.inl (mem_introducedOf_of_jump thenBody around h.1 hm)
    · exact (mem_introducedOf_of_jump elseBody around h.2 hm).imp Or.inl id
  | .loop name body, around, h, hm => by
    rw [introduced, List.mem_append]
    rcases mem_introducedOf_of_jump body _ h hm with ⟨target, htarget, hlabel⟩ | hbody
    · rcases List.mem_cons.1 htarget with rfl | htarget
      · cases hlabel
        exact Or.inr (Or.inl List.mem_cons_self)
      · exact Or.inl ⟨target, htarget, hlabel⟩
    · exact Or.inr (Or.inr hbody)
  | .labeled name body, around, h, hm => by
    rw [introduced, List.mem_cons]
    rcases mem_introducedOf_of_jump body _ h hm with ⟨target, htarget, hlabel⟩ | hbody
    · rcases List.mem_cons.1 htarget with rfl | htarget
      · cases hlabel
        exact Or.inr (Or.inl rfl)
      · exact Or.inl ⟨target, htarget, hlabel⟩
    · exact Or.inr (Or.inr hbody)
  | .breakTo none, _, _, hm => by cases hm
  | .breakTo (some name), around, h, hm => by
    obtain rfl : label = name := Mark.jump.inj (List.mem_singleton.1 hm)
    obtain ⟨target, htarget, hlabel⟩ := List.any_eq_true.1 h
    exact Or.inl ⟨target, htarget, beq_iff_eq.1 hlabel⟩
  | .continueTo _, _, _, hm => by cases hm
  | .switch subject cases fallback, around, h, hm => by
    rw [jumpsInside, Bool.and_eq_true] at h
    rw [introduced, List.mem_append, ← or_assoc]
    rcases List.mem_append.1 hm with hm | hm
    · exact Or.inl (mem_introducedOfCases_of_jump cases around h.1 hm)
    · exact (mem_introducedOf_of_jump fallback around h.2 hm).imp Or.inl id

theorem mem_introducedOf_of_jump {label : String} : ∀ (stmts : List Stmt) (around : List JumpTarget),
    allJumpInside around stmts = true → .jump label ∈ marksOf stmts →
      (∃ target ∈ around, target.label? = some label) ∨ .label label ∈ introducedOf stmts
  | [], _, _, hm => by cases hm
  | stmt :: rest, around, h, hm => by
    rw [allJumpInside, Bool.and_eq_true] at h
    rw [introducedOf, List.mem_append, ← or_assoc]
    rcases List.mem_append.1 hm with hm | hm
    · exact Or.inl (mem_introduced_of_jump stmt around h.1 hm)
    · exact (mem_introducedOf_of_jump rest around h.2 hm).imp Or.inl id

theorem mem_introducedOfCases_of_jump {label : String} :
    ∀ (cases : List (CharSet × List Stmt)) (around : List JumpTarget),
    casesJumpInside around cases = true → .jump label ∈ marksOfCases cases →
      (∃ target ∈ around, target.label? = some label) ∨ .label label ∈ introducedOfCases cases
  | [], _, _, hm => by cases hm
  | (_, body) :: rest, around, h, hm => by
    rw [casesJumpInside, Bool.and_eq_true] at h
    rw [introducedOfCases, List.mem_append, ← or_assoc]
    rcases List.mem_append.1 hm with hm | hm
    · exact Or.inl (mem_introducedOf_of_jump body around h.1 hm)
    · exact (mem_introducedOfCases_of_jump rest around h.2 hm).imp Or.inl id

end

end Stmt

section

variable {st₀ st st' : LowerState} {code : List Stmt} {label : String}

/-- Code that was lowered before does not jump to what is given out later. -/
theorem Closed.count_jump (h : Closed st₀ code st) (hlater : GivenOut st st' (.label label)) :
    (Stmt.marksOf code).count (.jump label) = 0 := by
  refine List.count_eq_zero.2 fun hm => ?_
  rcases Stmt.mem_introducedOf_of_jump code [] (h.inside []) hm with ⟨target, htarget, -⟩ | hintroduced
  · cases htarget
  · exact (h.introduces.given _ hintroduced).not_later hlater

/-- Jumps with a label that no arm jumps to are those of the outline. -/
theorem count_jump_flatMap_filled {arms : List (List Stmt)}
    (harms : ∀ index, (Stmt.marksOf (arms.getD index [])).count (.jump label) = 0) (marks : List Mark) :
    (marks.flatMap (Mark.filled arms)).count (.jump label) = marks.count (.jump label) := by
  induction marks with
  | nil => rfl
  | cons mark rest ih =>
    rw [List.flatMap_cons, List.count_append, ih, List.count_cons, Nat.add_comm]
    refine congrArg (rest.count (.jump label) + ·) ?_
    cases mark with
    | arm index => exact harms index
    | jump other => exact List.count_singleton
    | read offset => exact List.count_singleton

end

/-! ## Alternative sets -/

section

variable {m : MethodPlan} {alts : Alternatives} {tree : Decision} {arms : List (List Stmt)}
  {code : List Stmt} {st st' : LowerState} {wanted : Enclosure} {label : Option String}
  {suffix : String} {jumpOver : Bool} {indices : List Nat} {decision : List Outline}
  {gaps : List (List Stmt)}

/-- An outline with the marks of the decision and the gaps of the shared arms, each of them behind its
block, and with jumps to the end of what surrounds them. -/
structure Joins (suffix : String) (indices : List Nat) (decision : List Outline) (st : LowerState)
    (outline : List Outline) (own : List Mark) (st' : LowerState) : Prop where
  brings : BringsIn st own st'
  marks : (marksOf outline).Perm (own ++ (marksOf decision ++ indices.map .arm))
  follows : ∀ index ∈ indices, Follows (matchLabel suffix index) index outline

theorem exists_joins {skip : Outline}
    (hskip : ∀ mark ∈ skip.marks, ∃ stop, mark = .jump stop ∧ IsStop stop)
    (hoffsets : st'.offsets = st.offsets) :
    ∃ own, Joins suffix indices decision st (joinArms suffix skip jumpOver indices decision) own
      st' := by
  obtain ⟨skips, hskips, hperm⟩ := marksOf_joinArms suffix skip jumpOver indices decision
  refine ⟨skips, ⟨fun mark hm => ?_, fun n => ?_⟩, hperm, fun index hm => follows_joinArms hm⟩
  · obtain ⟨stop, rfl, hstop⟩ := hskip mark (hskips mark hm)
    exact hstop
  · rw [hoffsets]
    refine ⟨Or.inl, fun h => h.resolve_right fun hm => ?_⟩
    obtain ⟨stop, heq, -⟩ := hskip _ (hskips _ hm)
    cases heq

variable {outline : List Outline} {own : List Mark}

theorem Joins.loop (h : Joins suffix indices decision st outline own st') (label : Option String) :
    Joins suffix indices decision st [.loop label outline] own st' :=
  ⟨h.brings, (marksOf_singleton _).symm ▸ h.marks, fun index hm =>
    .inLoop [] [] label (h.follows index hm)⟩

theorem Joins.block (h : Joins suffix indices decision st outline own st') (stop : String) :
    Joins suffix indices decision st [.labeled stop outline] own st' :=
  ⟨h.brings, (marksOf_singleton _).symm ▸ h.marks, fun index hm =>
    .inBlock [] [] stop (h.follows index hm)⟩

/-- The block that surrounds shared arms, with its jumps to its end. -/
def blockAround (suffix : String) (jumpOver : Bool) (shared : List (Nat × List Stmt))
    (decision : List Stmt) : Lower (List Stmt) := do
  let stop ← nextStop
  return [.labeled stop (appendShared suffix (.breakTo (some stop)) jumpOver shared decision)]

theorem exists_outline_blockAround (h : Yields (blockAround suffix jumpOver
      (indices.map fun index => (index, gaps.getD index [])) (fillAll gaps decision)) st code st') :
    ∃ outline own, (∀ gaps, Yields (blockAround suffix jumpOver
        (indices.map fun index => (index, gaps.getD index [])) (fillAll gaps decision)) st
        (fillAll gaps outline) st') ∧
      Joins suffix indices decision st outline own st' := by
  obtain ⟨stop, st₁, hstop, h⟩ := yields_bind.1 h
  obtain ⟨-, rfl⟩ := yields_pure.1 h
  obtain ⟨hname, hstate⟩ := yields_nextStop hstop
  obtain ⟨own, hjoins⟩ := @exists_joins st st' suffix jumpOver indices decision (.breakTo (some stop))
    (fun mark hm => ⟨stop, List.mem_singleton.1 hm, _, hname⟩) (hstate ▸ rfl)
  refine ⟨_, own, fun gaps => yields_bind.2 ⟨stop, _, hstop, yields_pure.2 ⟨?_, rfl⟩⟩,
    hjoins.block stop⟩
  rw [fillAll_singleton, fill, fillAll_joinArms rfl]

/-- What surrounds shared arms has the same outline, whatever the arms are. -/
theorem exists_outline_surround (h : Yields (surround wanted label suffix jumpOver
      (indices.map fun index => (index, gaps.getD index [])) (fillAll gaps decision)) st code st') :
    ∃ outline own, (∀ gaps, Yields (surround wanted label suffix jumpOver
        (indices.map fun index => (index, gaps.getD index [])) (fillAll gaps decision)) st
        (fillAll gaps outline) st') ∧
      Joins suffix indices decision st outline own st' := by
  unfold surround at h ⊢
  cases wanted with
  | loop =>
    obtain ⟨-, rfl⟩ := yields_pure.1 h
    obtain ⟨own, hjoins⟩ :=
      @exists_joins st' st' suffix jumpOver indices decision (.continueTo label) nofun rfl
    refine ⟨_, own, fun gaps => yields_pure.2 ⟨?_, rfl⟩, hjoins.loop label⟩
    rw [fillAll_singleton, fill, fillAll_joinArms rfl]
  | block => exact exists_outline_blockAround h
  | none =>
    have hjumps : ∀ gaps : List (List Stmt),
        jumpsPast jumpOver (indices.map fun index => (index, gaps.getD index [])) =
          if jumpOver then indices.length else indices.length - 1 := by
      intro gaps
      unfold jumpsPast
      rw [List.length_map]
    simp only [hjumps] at h ⊢
    by_cases hpos : 0 < if jumpOver then indices.length else indices.length - 1
    · simp only [decide_true, decide_eq_true hpos, Bool.and_self, if_true] at h ⊢
      exact exists_outline_blockAround h
    · simp only [decide_true, decide_eq_false hpos, Bool.and_false, Bool.false_eq_true,
        if_false] at h ⊢
      obtain ⟨-, rfl⟩ := yields_pure.1 h
      obtain ⟨own, hjoins⟩ :=
        @exists_joins st' st' suffix jumpOver indices decision (.breakTo none) nofun rfl
      refine ⟨_, own, fun gaps => yields_pure.2 ⟨?_, rfl⟩, hjoins⟩
      rw [fillAll_joinArms rfl]

theorem offsets_loopLabel {shared : List (Nat × List Stmt)}
    (h : Yields (loopLabel wanted shared) st label st') :
    (∀ name ∈ label, IsStop name) ∧ st'.offsets = st.offsets := by
  unfold loopLabel at h
  split at h
  · obtain ⟨rfl, rfl⟩ := yields_map_nextStop h
    refine ⟨fun other hother => ?_, rfl⟩
    cases hother
    exact ⟨_, rfl⟩
  · obtain ⟨rfl, rfl⟩ := yields_pure.1 h
    exact ⟨nofun, rfl⟩

theorem offsets_sharedSuffix {shared : List (Nat × List Stmt)}
    (h : Yields (sharedSuffix shared) st suffix st') : st'.offsets = st.offsets := by
  unfold sharedSuffix at h
  split at h
  · obtain ⟨-, rfl⟩ := yields_pure.1 h
    rfl
  · have h := yields_get_bind.1 h
    obtain ⟨_, st₁, hmodify, h⟩ := yields_bind.1 h
    obtain ⟨-, rfl⟩ := yields_pure.1 h
    rw [yields_modify.1 hmodify]

/-- The labels of shared arms are new. -/
theorem givenOut_of_sharedSuffix {st₁ st₂ : LowerState}
    (hlabel : Yields (loopLabel wanted (tree.sharedArms arms)) st label st₁)
    (hsuffix : Yields (sharedSuffix (tree.sharedArms arms)) st₁ suffix st₂) {index : Nat}
    (hindex : index ∈ tree.sharedPlaces arms) :
    GivenOut st st₂ (.label (matchLabel suffix index)) := by
  have hbefore := introduces_loopLabel hlabel
  have hgiven := (introduces_sharedSuffix nodup_sharedArms hsuffix).given
    (.label (matchLabel suffix index))
  rw [(Decision.SharesAlike.refl tree arms).sharedArms] at hgiven
  refine (hgiven ?_).mono ⟨hbefore.stops, Nat.le_refl _⟩ ⟨hbefore.gotos, Nat.le_refl _⟩
  exact List.mem_map.2 ⟨_, List.mem_map.2 ⟨index, hindex, rfl⟩, rfl⟩

/-- Between two states a set with these arms was lowered to the outline. It is the same for all arms of
which the same are shared. -/
structure SetOutline (m : MethodPlan) (alts : Alternatives) (tree : Decision) (arms : List (List Stmt))
    (suffix : String) (st : LowerState) (outline : List Outline) (own : List Mark) (st' : LowerState) :
    Prop where
  yields : ∀ others, tree.SharesAlike arms others →
    Yields (m.lowerAlternatives alts tree others) st (fillAll others outline) st'
  brings : BringsIn st own st'
  /-- Each shared arm has one gap behind the leaves. -/
  marks : (marksOf outline).Perm (own ++ (tree.leaves.flatMap
    (leafMarks (tree.leafGaps suffix arms)) ++ (tree.sharedPlaces arms).map .arm))
  follows : ∀ index ∈ tree.sharedPlaces arms, Follows (matchLabel suffix index) index outline
  given : ∀ index ∈ tree.sharedPlaces arms,
    ∃ later, GivenOut st later (.label (matchLabel suffix index))

/-- **An alternative set** is the same outline for all arms of which the same are shared. -/
theorem exists_outline_lowerAlternatives (h : Yields (m.lowerAlternatives alts tree arms) st code st') :
    ∃ suffix outline own, SetOutline m alts tree arms suffix st outline own st' := by
  unfold MethodPlan.lowerAlternatives at h
  obtain ⟨label, st₁, hlabel, h⟩ := yields_bind.1 h
  obtain ⟨suffix, st₂, hsuffix, h⟩ := yields_bind.1 h
  obtain ⟨⟨decision, label'⟩, st₃, hdecision, h⟩ := yields_bind.1 h
  have hrefl := Decision.SharesAlike.refl tree arms
  obtain ⟨hstop, hoffsets⟩ := offsets_loopLabel hlabel
  have hoffsets' := offsets_sharedSuffix hsuffix
  rw [hrefl.leafCodes suffix] at hdecision
  obtain ⟨inner, own, hfill, -, hown, hmarks⟩ :=
    hasOutline_lowerDecision m _ _ tree _ _ _ _ _ _ _ hstop hdecision
  obtain rfl : decision = fillAll arms inner := by
    have heq := congrArg Prod.fst (hdecision.symm.trans (hfill arms))
    exact congrArg Prod.fst (Except.ok.inj heq)
  rw [hrefl.sharedArms] at h
  obtain ⟨outline, skips, hsurround, hjoins⟩ := exists_outline_surround h
  refine ⟨suffix, outline, own ++ skips, fun others hothers => ?_,
    BringsIn.append (.append (.of_eq (hoffsets'.trans hoffsets)) hown) hjoins.brings, ?_,
    hjoins.follows, fun index hindex => ⟨st₂, givenOut_of_sharedSuffix hlabel hsuffix hindex⟩⟩
  · unfold MethodPlan.lowerAlternatives
    have hempty := hothers.isEmpty_sharedArms
    refine yields_bind.2 ⟨label, st₁, ?_, yields_bind.2 ⟨suffix, st₂, ?_, ?_⟩⟩
    · unfold loopLabel at hlabel ⊢
      rwa [hempty]
    · unfold sharedSuffix at hsuffix ⊢
      rwa [hempty]
    · refine yields_bind.2 ⟨_, st₃, hothers.leafCodes suffix ▸ hfill others, ?_⟩
      rw [hothers.fallsThrough, hothers.sharedArms]
      exact hsurround others
  · refine hjoins.marks.trans ((List.Perm.append_left skips (hmarks.append_right _)).trans ?_)
    refine List.perm_iff_count.2 fun mark => ?_
    simp only [List.count_append]
    omega

namespace SetOutline

variable {outline : List Outline} {own : List Mark} {index : Nat}

theorem count_gap (h : SetOutline m alts tree arms suffix st outline own st')
    (hindex : index < arms.length) : (marksOf outline).count (.arm index) =
      if tree.sharesArm index (arms.getD index []) then 1 else tree.timesUsed (.arm index) := by
  have hown : own.count (.arm index) = 0 :=
    List.count_eq_zero.2 fun hm => h.brings.kinds _ hm
  rw [h.marks.count_eq, List.count_append, List.count_append, hown, Nat.zero_add]
  split
  · rename_i hshares
    -- There is a jump at each leaf.
    have hleaves : (tree.leaves.flatMap (leafMarks (tree.leafGaps suffix arms))).count (.arm index) = 0 := by
      refine List.count_eq_zero.2 fun hm => ?_
      obtain ⟨alt, -, hm⟩ := List.mem_flatMap.1 hm
      obtain ⟨place, -, ⟨-, heq⟩ | ⟨hnot, heq⟩⟩ := Decision.mem_leafMarks_leafGaps hm
      · cases heq
      · cases heq
        rw [hshares] at hnot
        cases hnot
    have hnodup : ((tree.sharedPlaces arms).map Mark.arm).Nodup :=
      (List.nodup_range.filter _).map fun _ _ => Mark.arm.inj
    rw [hleaves, Nat.zero_add]
    refine List.count_eq_one_of_mem hnodup (List.mem_map_of_mem ?_)
    exact Decision.mem_sharedPlaces.2 ⟨hindex, hshares⟩
  · rename_i hshares
    have hplaces : ((tree.sharedPlaces arms).map Mark.arm).count (.arm index) = 0 := by
      refine List.count_eq_zero.2 fun hm => ?_
      obtain ⟨place, hplace, heq⟩ := List.mem_map.1 hm
      cases heq
      exact hshares (Decision.mem_sharedPlaces.1 hplace).2
    rw [hplaces, Nat.add_zero]
    refine Decision.count_leafMarks ?_ (fun place hplace => ?_) tree.leaves
    · rw [Decision.leafMarks_leafGaps, if_pos hindex, if_neg hshares]
      exact List.count_singleton_self
    · refine List.count_eq_zero.2 fun hm => ?_
      obtain ⟨found, hfound, ⟨-, heq⟩ | ⟨-, heq⟩⟩ := Decision.mem_leafMarks_leafGaps hm
      · cases heq
      · exact hplace ((Alt.arm.inj hfound).trans (Mark.arm.inj heq).symm)

theorem count_jump (h : SetOutline m alts tree arms suffix st outline own st')
    (hindex : index ∈ tree.sharedPlaces arms) :
    (marksOf outline).count (.jump (matchLabel suffix index)) = tree.timesUsed (.arm index) := by
  obtain ⟨hlt, hshares⟩ := Decision.mem_sharedPlaces.1 hindex
  have hown : own.count (.jump (matchLabel suffix index)) = 0 := by
    refine List.count_eq_zero.2 fun hm => ?_
    obtain ⟨number, heq⟩ := h.brings.kinds _ hm
    exact matchLabel_ne_stopLabel suffix index number heq
  have hgaps : ((tree.sharedPlaces arms).map Mark.arm).count (.jump (matchLabel suffix index)) = 0 := by
    refine List.count_eq_zero.2 fun hm => ?_
    obtain ⟨place, -, heq⟩ := List.mem_map.1 hm
    cases heq
  rw [h.marks.count_eq, List.count_append, List.count_append, hown, hgaps, Nat.zero_add, Nat.add_zero]
  refine Decision.count_leafMarks ?_ (fun place hplace => ?_) tree.leaves
  · rw [Decision.leafMarks_leafGaps, if_pos hlt, if_pos hshares]
    exact List.count_singleton_self
  · refine List.count_eq_zero.2 fun hm => ?_
    obtain ⟨found, hfound, ⟨-, heq⟩ | ⟨-, heq⟩⟩ := Decision.mem_leafMarks_leafGaps hm
    · have hsame := matchLabel_injective (Mark.jump.inj heq)
      exact hplace ((Alt.arm.inj hfound).trans hsame.symm)
    · cases heq

end SetOutline

/-- Where the code of arms stands in the code of a set: in the gaps of the outline. -/
structure PlacesArms (tree : Decision) (arms : List (List Stmt)) (suffix : String)
    (outline : List Outline) (code : List Stmt) : Prop where
  filled : code = fillAll arms outline
  /-- An arm that is shared stands once, right behind its block. Each of its leaves jumps there, and
  nothing else does. -/
  shared : ∀ index < arms.length, 1 < tree.timesUsed (.arm index) →
    isSimple (arms.getD index []) = false →
    (marksOf outline).count (.arm index) = 1 ∧ Follows (matchLabel suffix index) index outline ∧
      (Stmt.marksOf code).count (.jump (matchLabel suffix index)) = tree.timesUsed (.arm index)
  /-- Any other arm stands at each of its leaves, so an arm without leaves stands nowhere. -/
  copied : ∀ index < arms.length,
    tree.timesUsed (.arm index) ≤ 1 ∨ isSimple (arms.getD index []) = true →
    (marksOf outline).count (.arm index) = tree.timesUsed (.arm index)

theorem SetOutline.placesArms {outline : List Outline} {own : List Mark}
    (h : SetOutline m alts tree arms suffix st outline own st') {st₀ : LowerState}
    (harms : Closed st₀ arms.flatten st) :
    PlacesArms tree arms suffix outline (fillAll arms outline) := by
  constructor
  case filled => rfl
  case shared =>
    intro index hindex htwice hlong
    have hshares : tree.sharesArm index (arms.getD index []) = true := by
      rw [Decision.sharesArm, hlong, decide_eq_true htwice]
      rfl
    have hplace := Decision.mem_sharedPlaces.2 ⟨hindex, hshares⟩
    refine ⟨(h.count_gap hindex).trans (if_pos hshares), h.follows index hplace, ?_⟩
    rw [marksOf_fillAll, count_jump_flatMap_filled, h.count_jump hplace]
    -- The labels were given out when the arms had been lowered.
    intro other
    obtain ⟨later, hgiven⟩ := h.given index hplace
    have hnone := harms.count_jump hgiven
    rw [Stmt.marksOf_flatten, List.count_eq_zero] at hnone
    refine List.count_eq_zero.2 fun hm => hnone (List.mem_flatMap.2 ⟨_, ?_, hm⟩)
    rw [List.getD_eq_getElem?_getD] at hm ⊢
    cases harm : arms[other]? with
    | none =>
      rw [harm] at hm
      cases hm
    | some arm => exact List.mem_of_getElem? harm
  case copied =>
    intro index hindex hfew
    refine (h.count_gap hindex).trans (if_neg fun hshares => ?_)
    unfold Decision.sharesArm at hshares
    rw [Bool.and_eq_true, decide_eq_true_iff, Bool.not_eq_true'] at hshares
    rcases hfew with hfew | hsimple
    · omega
    · rw [hshares.2] at hsimple
      cases hsimple

/-- Steps that are the same yield the same. -/
theorem yields_mapM_congr {α : Type} {f f' : α → Lower (List Stmt)} {items : List α}
    {parts : List (List Stmt)} (hf : ∀ item ∈ items, f item = f' item)
    (h : Yields (items.mapM f) st parts st') : Yields (items.mapM f') st parts st' := by
  induction items generalizing st parts with
  | nil => exact h
  | cons item items ih =>
    obtain ⟨part, st₁, parts, hfirst, hrest, rfl⟩ := yields_mapM_cons.1 h
    refine yields_mapM_cons.2 ⟨part, st₁, parts, hf item List.mem_cons_self ▸ hfirst, ?_, rfl⟩
    exact ih (fun item hm => hf item (List.mem_cons_of_mem _ hm)) hrest

variable {id : NodeId} {depth : Nat}

/-- What would be lowered for an arm without leaves changes nothing. -/
theorem yields_lowerSet_congr {lowerArm lowerArm' : NodeId → Lower (List Stmt)}
    (htree : alts.prediction = some tree)
    (hsame : ∀ index arm, alts.arms[index]? = some arm → tree.uses (.arm index) = true →
      lowerArm arm = lowerArm' arm)
    (h : Yields (m.lowerSet lowerArm id alts) st code st') :
    Yields (m.lowerSet lowerArm' id alts) st code st' := by
  obtain ⟨found, arms, st₁, st₂, hfound, hwarned, harms, h⟩ := yields_lowerSet_parts h
  obtain rfl : found = tree :=
    Option.some.inj ((yields_predictionTree hfound).1.symm.trans htree)
  unfold MethodPlan.lowerSet
  refine yields_lift_bind.2 ⟨found, hfound, yields_bind.2 ⟨⟨⟩, st₁, hwarned, ?_⟩⟩
  refine yields_bind.2 ⟨arms, st₂, yields_mapM_congr (fun entry hm => ?_) harms, h⟩
  obtain ⟨arm, index⟩ := entry
  dsimp only
  split
  · rename_i huses
    exact hsame index arm (List.mem_zipIdx_iff_getElem?.1 hm) huses
  · rfl

/-- **Shared arms stand once.** In the code of an alternative set, an arm that several leaves choose and
that is not short stands once, right behind the block that its leaves jump out of; any other arm stands
at each of its leaves. That is so for all codes the arms may have, and it does not matter at all how an
arm without leaves would be lowered. -/
theorem MethodPlan.placesArms_of_lowerSet
    (hcode : Yields (m.lowerSet (m.lowerDown depth) id alts) st code st') :
    ∃ tree arms st₁ suffix outline, alts.prediction = some tree ∧
      LoweredArms (m.lowerDown depth) alts tree arms ∧
      PlacesArms tree arms suffix outline code ∧
      (∀ others, tree.SharesAlike arms others →
        Yields (m.lowerAlternatives alts tree others) st₁ (fillAll others outline) st') ∧
      ∀ lowerArm, (∀ index arm, alts.arms[index]? = some arm → tree.uses (.arm index) = true →
        m.lowerDown depth arm = lowerArm arm) → Yields (m.lowerSet lowerArm id alts) st code st' := by
  obtain ⟨tree, arms, st₁, st₂, htree, -, harms, hlowered⟩ := yields_lowerSet_parts hcode
  have hpredicted := (yields_predictionTree htree).1
  obtain ⟨suffix, outline, own, houtline⟩ := exists_outline_lowerAlternatives hlowered
  obtain rfl : code = fillAll arms outline :=
    Except.ok.inj (congrArg Prod.fst (hlowered.symm.trans (houtline.yields arms (.refl tree arms))))
  have hclosed : Closed st₁ arms.flatten st₂ := by
    refine closed_mapM (fun entry _ st code st' hone => ?_) harms
    dsimp only at hone
    split at hone
    · exact closed_lowerDown hone
    · obtain ⟨rfl, rfl⟩ := yields_pure.1 hone
      exact .nil _
  exact ⟨tree, arms, st₂, suffix, outline, hpredicted, loweredArms_of_yields harms,
    houtline.placesArms hclosed, houtline.yields,
    fun lowerArm hsame => yields_lowerSet_congr hpredicted hsame hcode⟩

/-- The arm of `pairs` that two leaves choose is shared. -/
theorem pairs_placesArms : ∃ tree arms st₁ suffix outline, pairsSet.prediction = some tree ∧
    LoweredArms (pairsPlan.lowerDown 3) pairsSet tree arms ∧
    PlacesArms tree arms suffix outline pairsCode ∧
    (∀ others, tree.SharesAlike arms others →
      Yields (pairsPlan.lowerAlternatives pairsSet tree others) st₁ (fillAll others outline)
        pairsLowered.2) ∧
    ∀ lowerArm, (∀ index arm, pairsSet.arms[index]? = some arm → tree.uses (.arm index) = true →
      pairsPlan.lowerDown 3 arm = lowerArm arm) →
      Yields (pairsPlan.lowerSet lowerArm 6 pairsSet) ⟨.empty, [], [], 0, 0⟩ pairsCode pairsLowered.2 :=
  MethodPlan.placesArms_of_lowerSet pairs_lowered

/-- Its two leaves jump to it. -/
example : (Stmt.marksOf pairsCode).count (.jump "match1") = 2 := by
  cbv

end

end PredictiveParser
