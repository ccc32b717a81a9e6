import PredictiveParser.Analysis.Follow
import PredictiveParser.Proofs.Grammar.Forest
import PredictiveParser.Proofs.Lookahead.Reading

/-!
# Follow sets are closed under calls

`Grammar.followSets` makes rounds until one changes nothing. A round only ever adds to the sets, so
in the last round no rule adds anything new: `follow_of_call` says that whatever comes after a call,
in a rule that ends where its own follow set allows, is in the follow set of the called rule.
-/
namespace PredictiveParser

namespace FollowSets

variable {follow follow' follow'' : FollowSets} {rule name : String} {value : CharSet} {c : Int}

/-- Every set of the first is there in the second, with at least its members. -/
def Le (follow follow' : FollowSets) : Prop :=
  ∀ name set, follow.lookup name = some set → ∃ set', follow'.lookup name = some set' ∧
    ∀ c, set.contains c = true → set'.contains c = true

theorem Le.refl (follow : FollowSets) : follow.Le follow :=
  fun _ set h => ⟨set, h, fun _ hc => hc⟩

theorem Le.trans (h : follow.Le follow') (h' : follow'.Le follow'') : follow.Le follow'' := by
  intro name set hset
  obtain ⟨set', hset', hsub⟩ := h name set hset
  obtain ⟨set'', hset'', hsub'⟩ := h' name set' hset'
  exact ⟨set'', hset'', fun c hc => hsub' c (hsub c hc)⟩

/-- Sets that are each at least the other are the same. -/
theorem Le.lookup_eq (h : follow.Le follow') (h' : follow'.Le follow) (name : String) :
    follow.lookup name = follow'.lookup name := by
  cases hset : follow.lookup name with
  | some set =>
    obtain ⟨set', hset', hsub⟩ := h name set hset
    obtain ⟨set'', hset'', hsub'⟩ := h' name set' hset'
    rw [hset] at hset''
    cases hset''
    rw [hset', CharSet.ext fun c => Bool.eq_iff_iff.2 ⟨hsub c, hsub' c⟩]
  | none =>
    cases hset' : follow'.lookup name with
    | none => rfl
    | some set' =>
      obtain ⟨set, hset'', -⟩ := h' name set' hset'
      rw [hset] at hset''
      cases hset''

theorem lookup_entry {key : String} {old : CharSet} {rest : FollowSets} :
    ((key, old) :: rest).lookup name = if name = key then some old else rest.lookup name := by
  rw [List.lookup_cons]
  by_cases h : name = key
  · rw [beq_iff_eq.2 h, if_pos h]
  · rw [beq_eq_false_iff_ne.2 h, if_neg h]

theorem lookup_set : (follow.set rule value).lookup name =
    if name = rule then some value else follow.lookup name := by
  induction follow with
  | nil => rw [FollowSets.set, lookup_entry]
  | cons entry rest ih =>
    obtain ⟨key, old⟩ := entry
    rw [FollowSets.set]
    by_cases hkey : key = rule
    · rw [if_pos (beq_iff_eq.2 hkey), lookup_entry, lookup_entry, hkey]
      split <;> rfl
    · rw [if_neg (by simpa using hkey), lookup_entry, lookup_entry, ih]
      by_cases hname : name = key
      · rw [if_pos hname, if_pos hname, if_neg (hname ▸ hkey)]
      · rw [if_neg hname, if_neg hname]

theorem le_add : follow.Le (follow.add rule value) := by
  intro name set hset
  rw [add, lookup_set]
  split
  · rename_i heq
    refine ⟨_, rfl, fun c hc => ?_⟩
    rw [← heq, hset, Option.getD_some, CharSet.contains_union, hc, Bool.true_or]
  · exact ⟨set, hset, fun _ hc => hc⟩

theorem contains_get_add (h : value.contains c = true) (hle : (follow.add rule value).Le follow') :
    (follow'.get rule).contains c = true := by
  obtain ⟨set, hset, hsub⟩ := hle rule _ (by rw [add, lookup_set, if_pos rfl])
  rw [get, hset, Option.getD_some]
  exact hsub c (by rw [CharSet.contains_union, h, Bool.or_true])

/-- Adds what several calls add. -/
def addAll (follow : FollowSets) (additions : List (String × CharSet)) : FollowSets :=
  additions.foldl (fun follow entry => follow.add entry.1 entry.2) follow

theorem le_addAll {additions : List (String × CharSet)} : follow.Le (follow.addAll additions) := by
  induction additions generalizing follow with
  | nil => exact .refl follow
  | cons entry rest ih => exact le_add.trans ih

theorem contains_get_addAll {additions : List (String × CharSet)} (hm : (rule, value) ∈ additions)
    (hc : value.contains c = true) (hle : (follow.addAll additions).Le follow') :
    (follow'.get rule).contains c = true := by
  induction additions generalizing follow with
  | nil => cases hm
  | cons entry rest ih =>
    rcases List.mem_cons.1 hm with rfl | hm
    · exact contains_get_add hc (le_addAll.trans hle)
    · exact ih hm hle

end FollowSets

namespace Grammar

variable {g : Grammar} {limit : Nat} {follow follow' : FollowSets} {rule : Rule}

/-! ## Rounds -/

/-- What a rule adds comes from its calls: to each called rule, what can come first after the call. -/
theorem mem_followAdditions {additions : List (String × CharSet)}
    (h : g.followAdditions limit follow rule = .ok additions) :
    (∀ callee set, (callee, set) ∈ additions → ∃ place, g.Occurs rule.body place ∧
      g.kindAt? place.node = some (.call callee) ∧
      (⟨g, rule.name, follow.get rule.name, limit⟩ : Lookahead).first (.ofStack place.after) =
        .ok set) ∧
    ∀ {place : Place} {callee : String}, g.Occurs rule.body place →
      g.kindAt? place.node = some (.call callee) → ∃ set,
        (⟨g, rule.name, follow.get rule.name, limit⟩ : Lookahead).first (.ofStack place.after) =
          .ok set ∧ (callee, set) ∈ additions := by
  obtain ⟨places, found, -, hfound, rfl, hmem⟩ := exists_places ⟨rule.body, []⟩ h
  constructor
  · intro callee set hadded
    obtain ⟨here, hhere, hadded⟩ := List.mem_flatten.1 hadded
    obtain ⟨place, hplace, node, hnode, hvisit⟩ := Forall₂.exists_of_mem_right hfound hhere
    have hkind := kindAt?_of_node hnode
    rcases hk : node.kind with items | alts | ⟨predict, matched⟩ | check | callee' | ⟨set', mark⟩ <;>
      simp only [hk] at hvisit
    case call =>
      obtain ⟨first, hfirst, hvisit⟩ := bind_eq_ok.1 hvisit
      cases hvisit
      cases List.mem_singleton.1 hadded
      exact ⟨place, (hmem place).1 hplace, hk ▸ hkind, hfirst⟩
    all_goals
      cases hvisit
      cases hadded
  · intro place callee hoccurs hk
    obtain ⟨here, hhere, node, hnode, hvisit⟩ :=
      Forall₂.exists_of_mem_left hfound ((hmem place).2 hoccurs)
    have hkind := kindAt?_of_node hnode
    rw [hk] at hkind
    rw [← Option.some.inj hkind] at hvisit
    obtain ⟨first, hfirst, hvisit⟩ := bind_eq_ok.1 hvisit
    refine ⟨first, hfirst, List.mem_flatten.2 ⟨here, hhere, ?_⟩⟩
    rw [← pure_eq_ok.1 hvisit]
    exact List.mem_singleton.2 rfl

/-- Rounds end with sets that a round does not change. -/
theorem followRound_of_settleFollow {rounds : Nat}
    (h : g.settleFollow limit rounds follow = .ok follow') :
    g.followRound limit follow' = .ok follow' := by
  induction rounds generalizing follow with
  | zero => cases h
  | succ rounds ih =>
    obtain ⟨next, hnext, h⟩ := bind_eq_ok.1 h
    split at h
    · rename_i heq
      cases pure_eq_ok.1 h
      rw [heq] at hnext
      exact hnext
    · exact ih h

theorem followRound_of_followSets (h : g.followSets limit = .ok follow) :
    g.followRound limit follow = .ok follow := by
  obtain ⟨start, -, h⟩ := bind_eq_ok.1 h
  exact followRound_of_settleFollow h

/-- In a round, each rule adds to what is there, and what it adds stays. -/
theorem exists_additions {rules : List Rule}
    (h : rules.foldlM (fun (follow : FollowSets) rule => do
      let additions ← g.followAdditions limit follow rule
      return follow.addAll additions) follow = .ok follow') :
    follow.Le follow' ∧ ∀ rule ∈ rules, ∃ now additions, follow.Le now ∧
      g.followAdditions limit now rule = .ok additions ∧ (now.addAll additions).Le follow' := by
  induction rules generalizing follow with
  | nil =>
    cases pure_eq_ok.1 h
    exact ⟨.refl _, nofun⟩
  | cons first rest ih =>
    obtain ⟨next, hnext, h⟩ := foldlM_cons_eq_ok.1 h
    obtain ⟨additions, hadd, hnext⟩ := bind_eq_ok.1 hnext
    obtain rfl : follow.addAll additions = next := pure_eq_ok.1 hnext
    have hle : follow.Le (follow.addAll additions) := FollowSets.le_addAll
    obtain ⟨hrest, hall⟩ := ih h
    refine ⟨hle.trans hrest, fun rule hrule => ?_⟩
    rcases List.mem_cons.1 hrule with rfl | hrule
    · exact ⟨follow, additions, .refl follow, hadd, hrest⟩
    · obtain ⟨now, additions, hnow, hrest⟩ := hall rule hrule
      exact ⟨now, additions, hle.trans hnow, hrest⟩

/-- What a rule adds to the final sets is in them. -/
theorem exists_followAdditions (h : g.followSets limit = .ok follow) (hrule : rule ∈ g.ruleList) :
    ∃ now additions, now.get rule.name = follow.get rule.name ∧
      g.followAdditions limit now rule = .ok additions ∧
      ∀ callee set c, (callee, set) ∈ additions → set.contains c = true →
        (follow.get callee).contains c = true := by
  obtain ⟨-, hall⟩ := exists_additions (followRound_of_followSets h)
  obtain ⟨now, additions, hle, hadd, hle'⟩ := hall rule hrule
  refine ⟨now, additions, ?_, hadd, fun callee set c hm hc =>
    FollowSets.contains_get_addAll hm hc hle'⟩
  unfold FollowSets.get
  rw [hle.lookup_eq (FollowSets.le_addAll.trans hle')]

/-! ## Calls -/

variable {σ : Type} [Source σ] [LawfulSource σ] {s : σ}

/-- **Follow sets are closed under calls.** What comes next after a call in a rule is in the follow
set of the called rule. -/
theorem follow_of_call (hg : g.Keyed) (h : g.followSets limit = .ok follow) {name callee : String}
    (hrule : g.rule? name = some rule) {place : Place} (hoccurs : g.Occurs rule.body place)
    (hk : g.kindAt? place.node = some (.call callee))
    (hadmits : (⟨g, name, follow.get name, limit⟩ : Lookahead).Admits (.ofStack place.after) s) :
    (follow.get callee).contains (Source.lookahead s 0) = true := by
  obtain ⟨now, additions, hnow, hadd, hclosed⟩ :=
    exists_followAdditions h (mem_ruleList_of_rule? hrule)
  obtain ⟨first, hfirst, hmem⟩ := (mem_followAdditions hadd).2 hoccurs hk
  rw [hg.name_of_rule? hrule] at hnow hfirst
  rw [hnow] at hfirst
  obtain ⟨steps, hsteps, hfirst⟩ := bind_eq_ok.1 hfirst
  obtain ⟨set, next, hstep, hset, -⟩ := hadmits.step hsteps
  refine hclosed callee first _ hmem ?_
  rw [← pure_eq_ok.1 hfirst, CharSet.contains_unionAll, List.any_map, List.any_eq_true]
  exact ⟨(set, next), hstep, hset⟩

end Grammar

end PredictiveParser
