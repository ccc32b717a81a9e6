import Mathlib.Data.List.Nodup
import Mathlib.Data.List.Perm.Subperm
import PredictiveParser.Method.Basic
import PredictiveParser.Proofs.Method.Shared
import PredictiveParser.Proofs.Yields

/-!
# Labels are given out once

Loops, blocks and shared arms have labels made from two counters, which only go up, and different numbers
make different labels. So code that is lowered later has other labels than code that is lowered before:
`Introduces` says what steps of lowering may bring in, and steps in a row bring in different things
(`Introduces.append`). Steps that leave the counters alone are `Idle`.
-/
namespace PredictiveParser

open Lower

/-! ## Different numbers make different labels -/

theorem toList_toString_nat (n : Nat) : (toString n).toList = Nat.toDigits 10 n :=
  Nat.toList_repr

theorem stopLabel_injective {m n : Nat} (h : stopLabel m = stopLabel n) : m = n := by
  have hnumbered : ∀ {k : Nat}, "stop" ≠ "stop" ++ toString k := by
    intro k heq
    have hlist := congrArg String.toList heq
    rw [String.toList_append, List.self_eq_append_right, toList_toString_nat] at hlist
    exact Nat.toDigits_ne_nil hlist
  unfold stopLabel at h
  split at h <;> split at h
  · omega
  · exact (hnumbered h).elim
  · exact (hnumbered h.symm).elim
  · have hlist := congrArg String.toList h
    rw [String.toList_append, String.toList_append, List.append_cancel_left_eq] at hlist
    exact toString_nat_injective (String.toList_inj.1 hlist)

/-- A suffix is nothing, a letter, or a number behind an underscore. -/
theorem gotoSuffix_cases (n : Nat) : n = 0 ∧ (gotoSuffix n).toList = [] ∨
    (0 < n ∧ n ≤ 25) ∧ (gotoSuffix n).toList = [Char.ofNat ('a'.toNat + n)] ∨
    (gotoSuffix n).toList = '_' :: (toString n).toList := by
  unfold gotoSuffix
  split
  · rename_i hzero
    exact Or.inl ⟨hzero, rfl⟩
  · split
    · rename_i hzero hn
      refine Or.inr (Or.inl ⟨⟨by omega, hn⟩, ?_⟩)
      simp
    · refine Or.inr (Or.inr ?_)
      rw [String.toList_append]
      rfl

theorem gotoSuffix_injective {m n : Nat} (h : gotoSuffix m = gotoSuffix n) : m = n := by
  have hlist := congrArg String.toList h
  have hletters : ∀ k ≤ 25, (Char.ofNat ('a'.toNat + k)).toNat = 'a'.toNat + k := by decide
  have hdigits : ∀ k : Nat, (toString k).toList ≠ [] := fun k => by
    rw [toList_toString_nat]
    exact Nat.toDigits_ne_nil
  rcases gotoSuffix_cases m with ⟨hm, hm'⟩ | ⟨⟨-, hm⟩, hm'⟩ | hm' <;>
    rcases gotoSuffix_cases n with ⟨hn, hn'⟩ | ⟨⟨-, hn⟩, hn'⟩ | hn' <;> rw [hm', hn'] at hlist
  · omega
  · cases hlist
  · cases hlist
  · cases hlist
  · have heq := congrArg Char.toNat (List.head_eq_of_cons_eq hlist)
    rw [hletters m hm, hletters n hn] at heq
    omega
  · exact (hdigits n (List.tail_eq_of_cons_eq hlist).symm).elim
  · cases hlist
  · exact (hdigits m (List.tail_eq_of_cons_eq hlist)).elim
  · exact toString_nat_injective (String.toList_inj.1 (List.tail_eq_of_cons_eq hlist))

/-- No suffix starts with a digit. -/
theorem takeWhile_gotoSuffix (n : Nat) : (gotoSuffix n).toList.takeWhile Char.isDigit = [] := by
  have hletters : ∀ k ≤ 25, 0 < k → (Char.ofNat ('a'.toNat + k)).isDigit = false := by decide
  rcases gotoSuffix_cases n with ⟨-, hn⟩ | ⟨⟨hzero, hle⟩, hn⟩ | hn <;> rw [hn]
  · rfl
  · rw [List.takeWhile_cons, hletters n hle hzero]
    rfl
  · rfl

theorem matchLabel_inj {m n i j : Nat}
    (h : matchLabel (gotoSuffix m) i = matchLabel (gotoSuffix n) j) : m = n ∧ i = j := by
  have hdigits : ∀ k l : Nat, ((toString k).toList ++ (gotoSuffix l).toList).takeWhile Char.isDigit =
      (toString k).toList := by
    intro k l
    rw [List.takeWhile_append_of_pos, takeWhile_gotoSuffix, List.append_nil]
    intro c hc
    rw [toList_toString_nat] at hc
    exact Nat.isDigit_of_mem_toDigits (by decide) (by decide) hc
  have hlist := congrArg String.toList h
  unfold matchLabel at hlist
  simp only [String.toList_append, List.append_assoc, List.append_cancel_left_eq] at hlist
  have hfirst := congrArg (List.takeWhile Char.isDigit) hlist
  rw [hdigits, hdigits] at hfirst
  have hindex : i = j := by
    have := toString_nat_injective (String.toList_inj.1 hfirst)
    omega
  subst hindex
  rw [List.append_cancel_left_eq] at hlist
  exact ⟨gotoSuffix_injective (String.toList_inj.1 hlist), rfl⟩

/-! ## Ascending numbers -/

theorem mem_insertAscending {n k : Nat} {list : List Nat} :
    k ∈ insertAscending n list ↔ k = n ∨ k ∈ list := by
  induction list with
  | nil => simp [insertAscending]
  | cons first rest ih =>
    rw [insertAscending]
    split
    · simp
    · split
      · rename_i heq
        subst heq
        simp
      · rw [List.mem_cons, ih, List.mem_cons]
        tauto

theorem mem_of_mem_foldl_insertAscending {n : Nat} {new list : List Nat}
    (h : n ∈ new.foldl (fun list n => insertAscending n list) list) : n ∈ list ∨ n ∈ new := by
  induction new generalizing list with
  | nil => exact Or.inl h
  | cons first rest ih =>
    rcases ih h with h | h
    · rcases mem_insertAscending.1 h with rfl | h
      · exact Or.inr List.mem_cons_self
      · exact Or.inl h
    · exact Or.inr (List.mem_cons_of_mem _ h)

theorem pairwise_insertAscending {list : List Nat} (n : Nat) (h : list.Pairwise (· < ·)) :
    (insertAscending n list).Pairwise (· < ·) := by
  induction list with
  | nil => exact List.pairwise_singleton _ _
  | cons first rest ih =>
    obtain ⟨hfirst, hrest⟩ := List.pairwise_cons.1 h
    rw [insertAscending]
    split
    · rename_i hlt
      refine List.pairwise_cons.2 ⟨fun k hk => ?_, h⟩
      rcases List.mem_cons.1 hk with rfl | hk
      · exact hlt
      · exact Nat.lt_trans hlt (hfirst k hk)
    · split
      · exact h
      · refine List.pairwise_cons.2 ⟨fun k hk => ?_, ih hrest⟩
        rcases mem_insertAscending.1 hk with rfl | hk
        · omega
        · exact hfirst k hk

/-! ## What statements introduce -/

/-- A label or a lookahead variable. -/
inductive Introduced where
  | label (name : String)
  | lookahead (offset : Nat)
deriving DecidableEq

def Introduced.ofLabel (label : Option String) : List Introduced :=
  (label.map .label).toList

namespace Stmt

mutual

/-- The labels of loops and blocks in a statement, and the lookahead variables that it declares. -/
def introduced : Stmt → List Introduced
  | .snippet (.declareLookahead offset) => [.lookahead offset]
  | .snippet _ => []
  | .ifElse _ thenBody elseBody => introducedOf thenBody ++ introducedOf elseBody
  | .loop label body => Introduced.ofLabel label ++ introducedOf body
  | .labeled label body => .label label :: introducedOf body
  | .breakTo _ => []
  | .continueTo _ => []
  | .switch _ cases fallback => introducedOfCases cases ++ introducedOf fallback

def introducedOf : List Stmt → List Introduced
  | [] => []
  | stmt :: rest => stmt.introduced ++ introducedOf rest

def introducedOfCases : List (CharSet × List Stmt) → List Introduced
  | [] => []
  | (_, body) :: rest => introducedOf body ++ introducedOfCases rest

end

theorem introducedOf_append (stmts others : List Stmt) :
    introducedOf (stmts ++ others) = introducedOf stmts ++ introducedOf others := by
  induction stmts with
  | nil => rfl
  | cons stmt rest ih => rw [List.cons_append, introducedOf, introducedOf, ih, List.append_assoc]

theorem introducedOf_flatten (parts : List (List Stmt)) :
    introducedOf parts.flatten = parts.flatMap introducedOf := by
  induction parts with
  | nil => rfl
  | cons part rest ih => rw [List.flatten_cons, introducedOf_append, ih, List.flatMap_cons]

theorem introducedOf_singleton (stmt : Stmt) : introducedOf [stmt] = stmt.introduced :=
  List.append_nil _

end Stmt

/-! ## Steps of lowering -/

section

variable {st st' st'' : LowerState} {x : Introduced} {new later : List Introduced}

/-- The label was given out between two states. -/
inductive GivenOut (st st' : LowerState) : Introduced → Prop where
  | stop (number : Nat) (after : st.stops < number) (before : number ≤ st'.stops) :
      GivenOut st st' (.label (stopLabel number))
  | arm (number index : Nat) (after : st.gotos ≤ number) (before : number < st'.gotos) :
      GivenOut st st' (.label (matchLabel (gotoSuffix number) index))

/-- What is introduced between two states are labels that were given out there, each of them once. -/
structure Introduces (st : LowerState) (new : List Introduced) (st' : LowerState) : Prop where
  stops : st.stops ≤ st'.stops
  gotos : st.gotos ≤ st'.gotos
  offsets : st.offsets.Pairwise (· < ·) → st'.offsets.Pairwise (· < ·)
  nodup : new.Nodup
  given : ∀ x ∈ new, GivenOut st st' x

theorem GivenOut.mono {st₁ st₂ : LowerState} (h : GivenOut st st' x)
    (hstops : st₁.stops ≤ st.stops ∧ st'.stops ≤ st₂.stops)
    (hgotos : st₁.gotos ≤ st.gotos ∧ st'.gotos ≤ st₂.gotos) : GivenOut st₁ st₂ x := by
  cases h with
  | stop number after before => exact .stop number (by omega) (by omega)
  | arm number index after before => exact .arm number index (by omega) (by omega)

/-- What was given out before is not given out again. -/
theorem GivenOut.not_later (h : GivenOut st st' x) : ¬ GivenOut st' st'' x := by
  intro hlater
  cases h with
  | stop number after before =>
    generalize hx : Introduced.label (stopLabel number) = x at hlater
    cases hlater with
    | stop other after' before' =>
      have := stopLabel_injective (Introduced.label.inj hx)
      omega
    | arm other index after' before' =>
      exact matchLabel_ne_stopLabel _ _ _ (Introduced.label.inj hx).symm
  | arm number index after before =>
    generalize hx : Introduced.label (matchLabel (gotoSuffix number) index) = x at hlater
    cases hlater with
    | stop other after' before' => exact matchLabel_ne_stopLabel _ _ _ (Introduced.label.inj hx)
    | arm other index' after' before' =>
      have := (matchLabel_inj (Introduced.label.inj hx)).1
      omega

namespace Introduces

theorem refl (st : LowerState) : Introduces st [] st :=
  ⟨Nat.le_refl _, Nat.le_refl _, id, List.nodup_nil, nofun⟩

/-- **Steps in a row** introduce different things. -/
theorem append (h : Introduces st new st') (h' : Introduces st' later st'') :
    Introduces st (new ++ later) st'' where
  stops := Nat.le_trans h.stops h'.stops
  gotos := Nat.le_trans h.gotos h'.gotos
  offsets hsorted := h'.offsets (h.offsets hsorted)
  nodup := List.nodup_append'.2 ⟨h.nodup, h'.nodup, fun x hx hlater =>
    (h.given x hx).not_later (h'.given x hlater)⟩
  given x hx := by
    rcases List.mem_append.1 hx with hx | hx
    · exact (h.given x hx).mono ⟨Nat.le_refl _, h'.stops⟩ ⟨Nat.le_refl _, h'.gotos⟩
    · exact (h'.given x hx).mono ⟨h.stops, Nat.le_refl _⟩ ⟨h.gotos, Nat.le_refl _⟩

/-- A step that introduces nothing. -/
theorem idle (h : Introduces st new st') (h' : Introduces st' [] st'') : Introduces st new st'' :=
  List.append_nil new ▸ h.append h'

/-- What is given out need not be used. -/
theorem subperm (h : Introduces st new st') (hsub : later.Subperm new) : Introduces st later st' where
  stops := h.stops
  gotos := h.gotos
  offsets := h.offsets
  nodup := by
    obtain ⟨list, hperm, hlist⟩ := hsub
    exact hperm.nodup_iff.1 (h.nodup.sublist hlist)
  given x hx := h.given x (hsub.subset hx)

end Introduces

/-- Between two states no label is given out, and no offset is recorded. -/
structure Idle (st st' : LowerState) : Prop where
  stops : st'.stops = st.stops
  gotos : st'.gotos = st.gotos
  offsets : st'.offsets = st.offsets

namespace Idle

theorem refl (st : LowerState) : Idle st st := ⟨rfl, rfl, rfl⟩

theorem trans (h : Idle st st') (h' : Idle st' st'') : Idle st st'' :=
  ⟨h'.stops.trans h.stops, h'.gotos.trans h.gotos, h'.offsets.trans h.offsets⟩

theorem introduces (h : Idle st st') : Introduces st [] st' :=
  ⟨Nat.le_of_eq h.stops.symm, Nat.le_of_eq h.gotos.symm, fun hsorted => h.offsets ▸ hsorted,
    List.nodup_nil, nofun⟩

end Idle

/-! ## What the steps do -/

theorem yields_nextStop {name : String} (h : Yields nextStop st name st') :
    name = stopLabel (st.stops + 1) ∧ st' = { st with stops := st.stops + 1 } := by
  obtain ⟨_, st₁, hmodify, h⟩ := yields_bind.1 h
  have h := yields_get_bind.1 h
  obtain ⟨rfl, rfl⟩ := yields_pure.1 h
  rw [yields_modify.1 hmodify]
  exact ⟨rfl, rfl⟩

/-- The label of a loop that gets one. -/
theorem yields_map_nextStop {label : Option String} (h : Yields (some <$> nextStop) st label st') :
    label = some (stopLabel (st.stops + 1)) ∧ st' = { st with stops := st.stops + 1 } := by
  obtain ⟨name, hname, rfl⟩ := yields_map.1 h
  obtain ⟨rfl, hst⟩ := yields_nextStop hname
  exact ⟨rfl, hst⟩

theorem idle_refer {set : CharSet} {ref : SetRef} (h : Yields (refer set) st ref st') :
    Idle st st' := by
  obtain ⟨_, st₁, hmodify, h⟩ := yields_bind.1 (yields_get_bind.1 h)
  obtain ⟨-, rfl⟩ := yields_pure.1 h
  rw [yields_modify.1 hmodify]
  exact ⟨rfl, rfl, rfl⟩

variable {m : MethodPlan} {id : NodeId} {u : Unit}

theorem idle_warn {message : String} (h : Yields (m.warn id message) st u st') : Idle st st' := by
  unfold MethodPlan.warn at h
  split at h
  · rw [yields_modify.1 h]
    exact ⟨rfl, rfl, rfl⟩
  · obtain ⟨-, rfl⟩ := yields_pure.1 h
    exact .refl _

theorem idle_warnUnreachable {alts : Alternatives} {tree : Decision}
    (h : Yields (m.warnUnreachable id alts tree) st u st') : Idle st st' := by
  have hloop : ∀ {st : LowerState}, Yields (if (alts.hasExit && !tree.uses .exit) = true then
      m.warn id "Infinite loop. The exit branch is unreachable." else pure ()) st u st' →
      Idle st st' := by
    intro st h
    split at h
    · exact idle_warn h
    · obtain ⟨-, rfl⟩ := yields_pure.1 h
      exact .refl _
  unfold MethodPlan.warnUnreachable at h
  dsimp only at h
  split at h
  · exact hloop h
  · obtain ⟨_, st₁, hfirst, h⟩ := yields_bind.1 h
    exact (idle_warn hfirst).trans (hloop h)
  · obtain ⟨_, st₁, hfirst, h⟩ := yields_bind.1 h
    exact (idle_warn hfirst).trans (hloop h)

end

end PredictiveParser
