import Mathlib
import PredictiveParser.Proofs.Analysis.Follow
import PredictiveParser.Proofs.Grammar.Recognizers
import PredictiveParser.Proofs.Lookahead.First

/-!
# Follow sets are the least that are closed

`Grammar.FollowClosed` says of a family of sets, one for each rule, what follow sets have to contain:
anything for a token rule, the end of input for a rule that others can start with, and for each call
what can come first after it. It does not say how to compute such a family. `followSets_least` says
that `Grammar.followSets` computes the least of them:

* each round keeps the names and adds to the sets (`FollowSets.Grows`), and no family of sets can grow
  more often than there are rounds (`exists_settleFollow`);
* each round adds only what every closed family contains (`FollowSets.Within`);
* the last round added nothing, so the sets are closed (`followClosed_of_followSets`).

A closed family stays closed when the rules are put in another order, so the least one is the same.
-/
namespace PredictiveParser

def terminals : List Int :=
  (List.range (maxChar.toNat + 2)).map fun (n : Nat) => eof + n

theorem length_terminals : terminals.length = maxChar.toNat + 2 := by
  rw [terminals, List.length_map, List.length_range]

theorem mem_terminals {c : Int} : c ∈ terminals ↔ IsTerminal c := by
  rw [terminals, List.mem_map, IsTerminal]
  simp only [List.mem_range, eof, maxChar]
  constructor
  · rintro ⟨n, hn, rfl⟩
    omega
  · rintro ⟨hleast, hmax⟩
    exact ⟨(c + 1).toNat, by omega, by omega⟩

def CharSet.size (s : CharSet) : Nat :=
  (terminals.filter s.contains).length

theorem CharSet.size_le (s : CharSet) : s.size ≤ maxChar.toNat + 2 :=
  Nat.le_trans (List.length_filter_le _ _) (Nat.le_of_eq length_terminals)

theorem CharSet.size_mono {s t : CharSet} (h : ∀ c, s.contains c = true → t.contains c = true) :
    s.size ≤ t.size :=
  (List.monotone_filter_right terminals h).length_le

theorem CharSet.eq_of_size_le {s t : CharSet} (h : ∀ c, s.contains c = true → t.contains c = true)
    (hsize : t.size ≤ s.size) : s = t := by
  have heq := (List.monotone_filter_right terminals h).eq_of_length_le hsize
  refine CharSet.ext fun c => Bool.eq_iff_iff.2 ⟨h c, fun hc => ?_⟩
  have hmem : c ∈ terminals.filter t.contains :=
    List.mem_filter.2 ⟨mem_terminals.2 (isTerminal_of_contains hc), hc⟩
  rw [← heq] at hmem
  exact (List.mem_filter.1 hmem).2

namespace FollowSets

variable {follow follow' follow'' : FollowSets} {name rule : String} {value : CharSet}

theorem set_eq_append (h : rule ∉ follow.map Prod.fst) :
    follow.set rule value = follow ++ [(rule, value)] := by
  induction follow with
  | nil => rfl
  | cons entry rest ih =>
    rw [List.map_cons, List.mem_cons, not_or] at h
    rw [FollowSets.set, if_neg fun heq => h.1 (beq_iff_eq.1 heq).symm, ih h.2, List.cons_append]

/-- Setting the sets of new names one after the other lists them in order. -/
theorem foldl_set_eq_append {α : Type} {key : α → String} {value : α → CharSet} {as : List α}
    (h : (follow.map Prod.fst ++ as.map key).Nodup) :
    as.foldl (fun follow a => follow.set (key a) (value a)) follow =
      follow ++ as.map fun a => (key a, value a) := by
  induction as generalizing follow with
  | nil => exact (List.append_nil follow).symm
  | cons a rest ih =>
    rw [List.map_cons, List.append_cons] at h
    have hnew : key a ∉ follow.map Prod.fst := by
      have hfirst := (List.nodup_append.1 (List.nodup_append.1 h).1).2.2
      exact fun hm => hfirst _ hm _ (List.mem_singleton.2 rfl) rfl
    rw [List.foldl_cons, set_eq_append hnew, ih (by simpa using h), List.map_cons, List.append_assoc,
      List.singleton_append]

/-! ## Growth -/

/-- The second has the same names in the same order, with at least the members of the first. -/
def Grows (follow follow' : FollowSets) : Prop :=
  List.Forall₂ (fun entry entry' => entry'.1 = entry.1 ∧
    ∀ c, entry.2.contains c = true → entry'.2.contains c = true) follow follow'

theorem Grows.refl (follow : FollowSets) : follow.Grows follow :=
  List.forall₂_same.2 fun _ _ => ⟨rfl, fun _ hc => hc⟩

theorem Grows.trans (h : follow.Grows follow') (h' : follow'.Grows follow'') :
    follow.Grows follow'' := by
  induction h generalizing follow'' with
  | nil => exact h'
  | cons hentry _ ih =>
    obtain ⟨entry'', rest'', hentry'', hrest'', rfl⟩ := List.forall₂_cons_left_iff.1 h'
    exact .cons ⟨hentry''.1.trans hentry.1, fun c hc => hentry''.2 c (hentry.2 c hc)⟩ (ih hrest'')

theorem Grows.names (h : follow.Grows follow') : follow'.map Prod.fst = follow.map Prod.fst := by
  induction h with
  | nil => rfl
  | cons hentry _ ih => rw [List.map_cons, List.map_cons, hentry.1, ih]

theorem exists_lookup (h : name ∈ follow.map Prod.fst) : ∃ set, follow.lookup name = some set := by
  induction follow with
  | nil => cases h
  | cons entry rest ih =>
    rw [lookup_entry]
    split
    · exact ⟨_, rfl⟩
    · rename_i hne
      exact ih ((List.mem_cons.1 h).resolve_left hne)

theorem mem_names_of_lookup {set : CharSet} (h : follow.lookup name = some set) :
    name ∈ follow.map Prod.fst := by
  obtain ⟨before, after, rfl, -⟩ := List.lookup_eq_some_iff.1 h
  simp

theorem lookup_eq_none (h : name ∉ follow.map Prod.fst) : follow.lookup name = none := by
  cases hset : follow.lookup name with
  | none => rfl
  | some set => exact absurd (mem_names_of_lookup hset) h

theorem grows_set {old : CharSet} (h : follow.lookup rule = some old)
    (hsub : ∀ c, old.contains c = true → value.contains c = true) :
    follow.Grows (follow.set rule value) := by
  induction follow with
  | nil => cases h
  | cons entry rest ih =>
    rw [lookup_entry] at h
    rw [FollowSets.set]
    split at h
    · rename_i heq
      cases h
      rw [if_pos (beq_iff_eq.2 heq.symm)]
      exact .cons ⟨heq, hsub⟩ (Grows.refl rest)
    · rename_i hne
      rw [if_neg fun heq => hne (beq_iff_eq.1 heq).symm]
      exact .cons ⟨rfl, fun _ hc => hc⟩ (ih h)

theorem grows_add (h : rule ∈ follow.map Prod.fst) : follow.Grows (follow.add rule value) := by
  obtain ⟨old, hold⟩ := exists_lookup h
  refine grows_set hold fun c hc => ?_
  rw [hold, Option.getD_some, CharSet.contains_union, hc, Bool.true_or]

/-- The number of members of all sets. -/
def weight : FollowSets → Nat
  | [] => 0
  | entry :: rest => entry.2.size + weight rest

theorem weight_le (follow : FollowSets) : follow.weight ≤ follow.length * (maxChar.toNat + 2) := by
  induction follow with
  | nil => exact Nat.zero_le _
  | cons entry rest ih =>
    have hsize := entry.2.size_le
    rw [weight, List.length_cons, Nat.succ_mul]
    omega

theorem Grows.weight_le (h : follow.Grows follow') : follow.weight ≤ follow'.weight := by
  induction h with
  | nil => exact Nat.le_refl _
  | cons hentry _ ih =>
    rw [weight, weight]
    exact Nat.add_le_add (CharSet.size_mono hentry.2) ih

/-- Sets that grow without becoming more are the same. -/
theorem Grows.eq_of_weight_le (h : follow.Grows follow') (hle : follow'.weight ≤ follow.weight) :
    follow' = follow := by
  induction h with
  | nil => rfl
  | @cons entry entry' rest rest' hentry hrest ih =>
    have hsize := CharSet.size_mono hentry.2
    have hweight := Grows.weight_le hrest
    rw [weight, weight] at hle
    have hset := CharSet.eq_of_size_le hentry.2 (by omega)
    rw [ih (by omega), Prod.ext hentry.1 hset.symm]

/-! ## Bounds -/

/-- The sets have only such members. -/
def Within (X : String → Int → Prop) (follow : FollowSets) : Prop :=
  ∀ name set c, follow.lookup name = some set → set.contains c = true → X name c

theorem Within.add {X : String → Int → Prop} (h : follow.Within X)
    (hvalue : ∀ c, value.contains c = true → X rule c) : (follow.add rule value).Within X := by
  intro name set c hset hc
  rw [FollowSets.add, lookup_set] at hset
  split at hset
  · rename_i heq
    subst heq
    cases hset
    rw [CharSet.contains_union, Bool.or_eq_true] at hc
    rcases hc with hc | hc
    · cases hold : follow.lookup name with
      | none =>
        rw [hold, Option.getD_none, CharSet.contains_empty] at hc
        cases hc
      | some old =>
        rw [hold, Option.getD_some] at hc
        exact h name old c hold hc
    · exact hvalue c hc
  · exact h name set c hset hc

end FollowSets

namespace Grammar

variable {g g' : Grammar} {limit : Nat} {follow follow' next : FollowSets} {rule : Rule}

/-- What a family of follow sets, one for each rule, has to contain. -/
structure FollowClosed (g : Grammar) (X : String → Int → Prop) : Prop where
  /-- Anything may follow a token rule. -/
  token : ∀ name rule, g.rule? name = some rule → rule.isToken = true → ∀ c, IsTerminal c → X name c
  /-- The input may end behind another rule that is public or never called. -/
  start : ∀ name rule, g.rule? name = some rule → rule.isToken = false →
    (rule.isPrivate = false ∨ ∀ caller, ¬g.Calls caller name) → X name eof
  /-- What can come first after a call may follow the called rule. The end of the calling rule is
  followed by what may follow that rule. -/
  call : ∀ name rule place callee c, g.rule? name = some rule → g.Occurs rule.body place →
    g.kindAt? place.node = some (.call callee) → g.Begins (X name) place.after c → X callee c

/-- The sets are a family for the rules of the grammar, closed and the least of its kind. -/
structure IsLeastFollow (g : Grammar) (follow : FollowSets) : Prop where
  names : follow.map Prod.fst = g.ruleNames
  closed : g.FollowClosed fun name c => (follow.get name).contains c = true
  least : ∀ X, g.FollowClosed X → ∀ name ∈ g.ruleNames, ∀ c,
    (follow.get name).contains c = true → X name c

/-! ## Rounds -/

/-- What holds of the sets and of what each call adds to them holds after a round. -/
theorem followRound_invariant {P : FollowSets → Prop}
    (hadd : ∀ rule ∈ g.ruleList, ∀ place callee now follow set, P now → P follow →
      g.Occurs rule.body place → g.kindAt? place.node = some (.call callee) →
      (⟨g, rule.name, now.get rule.name, limit⟩ : Lookahead).first (.ofStack place.after) = .ok set →
      P (follow.add callee set))
    (hstart : P follow) (h : g.followRound limit follow = .ok next) : P next := by
  refine foldlM_invariant (fun rule hrule now next hnow hnext => ?_) hstart h
  obtain ⟨additions, hadditions, hnext⟩ := bind_eq_ok.1 hnext
  obtain rfl := pure_eq_ok.1 hnext
  refine List.foldlRecOn additions _ hnow fun follow hfollow entry hentry => ?_
  obtain ⟨place, hoccurs, hk, hfirst⟩ := (mem_followAdditions hadditions).1 entry.1 entry.2 hentry
  exact hadd rule hrule place entry.1 now follow entry.2 hnow hfollow hoccurs hk hfirst

/-- What each round keeps holds in the end. -/
theorem settleFollow_invariant {P : FollowSets → Prop}
    (hround : ∀ follow next, P follow → g.followRound limit follow = .ok next → P next)
    {rounds : Nat} (hstart : P follow) (h : g.settleFollow limit rounds follow = .ok follow') :
    P follow' := by
  induction rounds generalizing follow with
  | zero => cases h
  | succ rounds ih =>
    obtain ⟨next, hnext, h⟩ := bind_eq_ok.1 h
    split at h
    · cases pure_eq_ok.1 h
      exact hstart
    · exact ih (hround follow next hstart hnext) h

/-- A round keeps the names and adds to the sets. -/
theorem grows_followRound (hkeyed : g.Keyed) (hf : g.Forest)
    (hnames : follow.map Prod.fst = g.ruleNames) (h : g.followRound limit follow = .ok next) :
    follow.Grows next := by
  refine followRound_invariant (P := follow.Grows) ?_ (.refl follow) h
  intro rule hrule place callee now follow' set _ hfollow' hoccurs hk _
  have hcalled : callee ∈ follow'.map Prod.fst := by
    obtain ⟨called, hcalled⟩ :=
      hf.exists_callee (hkeyed.rule?_of_mem_ruleList hrule) hoccurs.reaches hk
    rw [hfollow'.names, hnames]
    exact mem_ruleNames_of_rule? hcalled
  exact hfollow'.trans (FollowSets.grows_add hcalled)

/-- A round adds only what every closed family contains. -/
theorem within_followRound (hkeyed : g.Keyed) (hf : g.Forest) {X : String → Int → Prop}
    (hX : g.FollowClosed X) (hnames : follow.map Prod.fst = g.ruleNames) (hwithin : follow.Within X)
    (h : g.followRound limit follow = .ok next) : next.Within X := by
  refine (followRound_invariant
    (P := fun now => now.map Prod.fst = g.ruleNames ∧ now.Within X) ?_ ⟨hnames, hwithin⟩ h).2
  rintro rule hrule place callee now follow' set ⟨hnow, hnow'⟩ ⟨hnames', hwithin'⟩ hoccurs hk hfirst
  have hrule := hkeyed.rule?_of_mem_ruleList hrule
  obtain ⟨called, hcalled⟩ := hf.exists_callee hrule hoccurs.reaches hk
  constructor
  · rw [(FollowSets.grows_add (hnames' ▸ mem_ruleNames_of_rule? hcalled)).names, hnames']
  · refine hwithin'.add fun c hc => ?_
    have hbegins := (Lookahead.contains_first_iff hfirst c).1 hc
    refine hX.call rule.name rule place callee c hrule hoccurs hk (hbegins.mono fun c hc => ?_)
    obtain ⟨own, hown⟩ := FollowSets.exists_lookup (hnow ▸ mem_ruleNames_of_rule? hrule)
    simp only [FollowSets.get, hown, Option.getD_some] at hc
    exact hnow' rule.name own c hown hc

/-! ## Rounds that succeed -/

/-- Whether the calls of a rule can be searched depends neither on the sets nor on the order of the
rules. -/
theorem Alike.exists_followAdditions (halike : g.Alike g') {additions : List (String × CharSet)}
    (h : g.followAdditions limit follow rule = .ok additions) (follow' : FollowSets) :
    ∃ additions', g'.followAdditions limit follow' rule = .ok additions' := by
  unfold followAdditions visitContinuations depthBound at h ⊢
  rw [halike.nodes]
  refine exists_visitDown halike.nodes (fun id node after here hhere => ?_) h
  rcases hk : node.kind with items | alts | ⟨predict, matched⟩ | check | callee | ⟨set, mark⟩ <;>
    simp only [hk] at hhere ⊢
  case call =>
    have hla : Lookahead.Alike ⟨g, rule.name, follow.get rule.name, limit⟩
        ⟨g', rule.name, follow'.get rule.name, limit⟩ := ⟨halike, rfl⟩
    obtain ⟨set, hset, -⟩ := bind_eq_ok.1 hhere
    obtain ⟨set', hset'⟩ := hla.exists_first hset
    exact ⟨[(callee, set')], bind_eq_ok.2 ⟨set', hset', rfl⟩⟩
  all_goals exact ⟨[], rfl⟩

/-- If one round succeeds then so does every other, whatever the sets and the order of the rules. -/
theorem Alike.exists_followRound (halike : g.Alike g') (hsub : g'.ruleList ⊆ g.ruleList)
    (h : g.followRound limit follow = .ok next) (follow' : FollowSets) :
    ∃ next', g'.followRound limit follow' = .ok next' := by
  obtain ⟨-, hall⟩ := exists_additions h
  have hrules : ∀ rules : List Rule, rules ⊆ g.ruleList → ∀ follow' : FollowSets, ∃ next',
      rules.foldlM (fun (follow : FollowSets) rule => do
        let additions ← g'.followAdditions limit follow rule
        return follow.addAll additions) follow' = .ok next' := by
    intro rules
    induction rules with
    | nil => exact fun _ follow' => ⟨follow', rfl⟩
    | cons rule rest ih =>
      intro hsub follow'
      obtain ⟨now, additions, -, hadd, -⟩ := hall rule (hsub List.mem_cons_self)
      obtain ⟨additions', hadd'⟩ := halike.exists_followAdditions hadd follow'
      obtain ⟨next', hnext'⟩ := ih (fun _ hm => hsub (List.mem_cons_of_mem _ hm))
        (follow'.addAll additions')
      exact ⟨next', foldlM_cons_eq_ok.2 ⟨_, bind_eq_ok.2 ⟨additions', hadd', rfl⟩, hnext'⟩⟩
  exact hrules g'.ruleList hsub follow'

/-- There are more rounds than the sets can grow. -/
theorem exists_settleFollow (hkeyed : g.Keyed) (hf : g.Forest)
    (hround : ∀ follow, ∃ next, g.followRound limit follow = .ok next) {rounds : Nat}
    (hnames : follow.map Prod.fst = g.ruleNames)
    (hrounds : g.rules.length * (maxChar.toNat + 2) < follow.weight + rounds) :
    ∃ follow', g.settleFollow limit rounds follow = .ok follow' := by
  have hlength : follow.length = g.rules.length := by
    simpa [ruleNames] using congrArg List.length hnames
  induction rounds generalizing follow with
  | zero =>
    have hweight := follow.weight_le
    rw [hlength] at hweight
    omega
  | succ rounds ih =>
    obtain ⟨next, hnext⟩ := hround follow
    have hgrows := grows_followRound hkeyed hf hnames hnext
    by_cases heq : next = follow
    · exact ⟨follow, bind_eq_ok.2 ⟨next, hnext, if_pos heq⟩⟩
    · have hlt : follow.weight < next.weight :=
        Nat.lt_of_not_le fun hle => heq (hgrows.eq_of_weight_le hle)
      obtain ⟨follow', hfollow'⟩ := ih (hgrows.names.trans hnames) (by omega)
        (hgrows.length_eq.symm.trans hlength)
      exact ⟨follow', bind_eq_ok.2 ⟨next, hnext, (if_neg heq).trans hfollow'⟩⟩

/-! ## The sets at the start -/

/-- The terminal may follow the rule whatever the calls of the rule are followed by. -/
def EndsBefore (g : Grammar) (rule : Rule) (c : Int) : Prop :=
  rule.isToken = true ∧ IsTerminal c ∨
  rule.isToken = false ∧ (rule.isPrivate = false ∨ ∀ caller, ¬g.Calls caller rule.name) ∧ c = eof

/-- The names collected at the start are those of the rules that are called. -/
theorem mem_called (hkeyed : g.Keyed) {called : List (List String)} {name : String}
    (h : g.ruleList.mapM (fun rule => g.callees rule.body) = .ok called) :
    name ∈ called.flatten ↔ ∃ caller, g.Calls caller name := by
  rw [List.mem_flatten]
  constructor
  · rintro ⟨names, hnames, hname⟩
    obtain ⟨rule, hrule, hcallees⟩ := Forall₂.exists_of_mem_right (mapM_eq_ok.1 h) hnames
    obtain ⟨id, hid, hk⟩ := (mem_callees hcallees).1 hname
    exact ⟨rule.name, rule, id, hkeyed.rule?_of_mem_ruleList hrule, hid, hk⟩
  · rintro ⟨caller, rule, id, hrule, hid, hk⟩
    obtain ⟨names, hnames, hcallees⟩ :=
      Forall₂.exists_of_mem_left (mapM_eq_ok.1 h) (mem_ruleList_of_rule? hrule)
    exact ⟨names, hnames, (mem_callees hcallees).2 ⟨id, hid, hk⟩⟩

/-- The set of a rule at the start, where `called` are the called rules. -/
def startSet (called : List String) (rule : Rule) : CharSet :=
  if rule.isToken then .everything
  else if !rule.isPrivate || !called.contains rule.name then .endOfInput
  else .empty

theorem contains_startSet {called : List String}
    (hcalled : rule.name ∈ called ↔ ∃ caller, g.Calls caller rule.name) (c : Int) :
    (startSet called rule).contains c = true ↔ g.EndsBefore rule c := by
  unfold startSet EndsBefore
  by_cases htoken : rule.isToken = true
  · simp [htoken, CharSet.contains_everything]
  · by_cases hprivate : rule.isPrivate = true
    · by_cases hname : rule.name ∈ called
      · obtain ⟨caller, hcalls⟩ := hcalled.1 hname
        simpa [htoken, hprivate, hname] using fun h => absurd hcalls (h caller)
      · have hnever : ∀ caller, ¬g.Calls caller rule.name := fun caller h =>
          hname (hcalled.2 ⟨caller, h⟩)
        simp [htoken, hprivate, hname, hnever, CharSet.contains_endOfInput]
    · simp [htoken, hprivate, CharSet.contains_endOfInput]

/-- At the start there is a set for each rule. -/
theorem exists_initialFollow (hkeyed : g.Keyed) (hf : g.Forest) : ∃ follow,
    g.initialFollow = .ok follow ∧ follow.map Prod.fst = g.ruleNames ∧
      ∀ name rule, g.rule? name = some rule → ∃ set, follow.lookup name = some set ∧
        ∀ c, set.contains c = true ↔ g.EndsBefore rule c := by
  obtain ⟨called, hcalled⟩ := exists_mapM_eq_ok fun rule hrule => hf.exists_callees hrule
  have hnames : g.ruleList.map Rule.name = g.ruleNames := by
    rw [ruleList, List.map_map]
    exact List.map_congr_left fun entry hentry => hkeyed.own entry hentry
  have hnodup : (([] : FollowSets).map Prod.fst ++ g.ruleList.map Rule.name).Nodup := by
    rw [hnames]
    exact hkeyed.nodup
  have hstart : g.ruleList.foldl
      (fun (follow : FollowSets) rule => follow.set rule.name (startSet called.flatten rule)) [] =
        g.ruleList.map fun rule => (rule.name, startSet called.flatten rule) :=
    FollowSets.foldl_set_eq_append hnodup
  refine ⟨_, bind_eq_ok.2 ⟨called, hcalled, congrArg Except.ok hstart⟩, ?_, ?_⟩
  · rw [List.map_map]
    exact hnames
  · intro name rule hrule
    obtain rfl := hkeyed.name_of_rule? hrule
    refine ⟨startSet called.flatten rule, lookup_of_mem ?_ (List.mem_map.2
      ⟨rule, mem_ruleList_of_rule? hrule, rfl⟩), contains_startSet (mem_called hkeyed hcalled)⟩
    rw [List.map_map]
    exact hnames ▸ hkeyed.nodup

/-! ## The sets at the end -/

theorem followSets_eq_settleFollow {start : FollowSets} (h : g.initialFollow = .ok start) :
    g.followSets limit = g.settleFollow limit g.followRounds start := by
  have hbind : ∀ f : FollowSets → Except (Failure GenerationError) FollowSets,
      ((liftM (Except.ok start : Except Fault FollowSets)) >>= f) = f start := fun _ => rfl
  rw [followSets, h]
  exact hbind _

/-- The last round has added nothing, so the sets are closed. -/
theorem followClosed_of_followSets (hkeyed : g.Keyed) (hf : g.Forest)
    (h : g.followSets limit = .ok follow) :
    g.FollowClosed fun name c => (follow.get name).contains c = true := by
  obtain ⟨start, hstart, -, hends⟩ := exists_initialFollow hkeyed hf
  have hle : start.Le follow := settleFollow_invariant (P := start.Le)
    (fun _ _ hle hround => hle.trans (exists_additions hround).1) (.refl start)
    ((followSets_eq_settleFollow hstart).symm.trans h)
  have hkept : ∀ {name rule c}, g.rule? name = some rule → g.EndsBefore rule c →
      (follow.get name).contains c = true := by
    intro name rule c hrule hc
    obtain ⟨set, hset, hmem⟩ := hends name rule hrule
    obtain ⟨set', hset', hsub⟩ := hle name set hset
    rw [FollowSets.get, hset', Option.getD_some]
    exact hsub c ((hmem c).2 hc)
  constructor
  · intro name rule hrule htoken c hc
    exact hkept hrule (Or.inl ⟨htoken, hc⟩)
  · intro name rule hrule htoken hopen
    obtain rfl := hkeyed.name_of_rule? hrule
    exact hkept hrule (Or.inr ⟨htoken, hopen, rfl⟩)
  · intro name rule place callee c hrule hoccurs hk hbegins
    obtain ⟨now, additions, hnow, hadd, hclosed⟩ :=
      exists_followAdditions h (mem_ruleList_of_rule? hrule)
    obtain ⟨first, hfirst, hmem⟩ := (mem_followAdditions hadd).2 hoccurs hk
    obtain rfl := hkeyed.name_of_rule? hrule
    rw [hnow] at hfirst
    exact hclosed callee first c hmem ((Lookahead.contains_first_iff hfirst c).2 hbegins)

/-- The sets have an entry for each rule, and only members that every closed family has. -/
theorem within_followSets (hkeyed : g.Keyed) (hf : g.Forest) (h : g.followSets limit = .ok follow)
    {X : String → Int → Prop} (hX : g.FollowClosed X) :
    follow.map Prod.fst = g.ruleNames ∧ follow.Within X := by
  obtain ⟨start, hstart, hnames, hends⟩ := exists_initialFollow hkeyed hf
  have hwithin : start.Within X := by
    intro name set c hset hc
    have hname : name ∈ g.ruleNames := hnames ▸ FollowSets.mem_names_of_lookup hset
    obtain ⟨⟨_, rule⟩, hentry, rfl⟩ := List.mem_map.1 hname
    have hrule := hkeyed.rule?_of_mem hentry
    obtain ⟨set', hset', hmem⟩ := hends _ rule hrule
    rw [hset] at hset'
    cases hset'
    obtain rfl := hkeyed.name_of_rule? hrule
    rcases (hmem c).1 hc with ⟨htoken, hc⟩ | ⟨htoken, hopen, rfl⟩
    · exact hX.token _ rule hrule htoken c hc
    · exact hX.start _ rule hrule htoken hopen
  refine settleFollow_invariant
    (P := fun now => now.map Prod.fst = g.ruleNames ∧ now.Within X) ?_ ⟨hnames, hwithin⟩
    ((followSets_eq_settleFollow hstart).symm.trans h)
  rintro now next ⟨hnow, hwithin⟩ hnext
  exact ⟨(grows_followRound hkeyed hf hnow hnext).names.trans hnow,
    within_followRound hkeyed hf hX hnow hwithin hnext⟩

theorem isLeastFollow_of_followSets (hkeyed : g.Keyed) (hf : g.Forest)
    (h : g.followSets limit = .ok follow) : g.IsLeastFollow follow := by
  have hclosed := followClosed_of_followSets hkeyed hf h
  have hnames := (within_followSets hkeyed hf h hclosed).1
  refine ⟨hnames, hclosed, fun X hX name hname c hc => ?_⟩
  obtain ⟨set, hset⟩ := FollowSets.exists_lookup (hnames ▸ hname)
  rw [FollowSets.get, hset, Option.getD_some] at hc
  exact (within_followSets hkeyed hf h hX).2 name set c hset hc

/-- If the first round succeeds then the rounds come to an end. -/
theorem exists_followSets (hkeyed : g.Keyed) (hf : g.Forest) {start : FollowSets}
    (hstart : g.initialFollow = .ok start) (h : g.followRound limit follow = .ok next) :
    ∃ follow', g.followSets limit = .ok follow' := by
  obtain ⟨start', hstart', hnames, -⟩ := exists_initialFollow hkeyed hf
  rw [hstart] at hstart'
  cases hstart'
  have hrounds : g.rules.length * (maxChar.toNat + 2) < start.weight + g.followRounds := by
    have hle : g.rules.length * (maxChar.toNat + 2) ≤
        (g.rules.length + g.nodes.size) * (maxChar.toNat + 3) :=
      Nat.mul_le_mul (Nat.le_add_right _ _) (Nat.le_succ _)
    unfold followRounds
    omega
  obtain ⟨follow', hfollow'⟩ := exists_settleFollow hkeyed hf
    ((Alike.refl g).exists_followRound (List.Subset.refl _) h) hnames hrounds
  exact ⟨follow', (followSets_eq_settleFollow hstart).trans hfollow'⟩

/-! ## Rules in another order -/

theorem Alike.sameShape (h : g.Alike g') : g.SameShape g' := fun id => by rw [h.kindAt?]

section

variable (hnodes : g'.nodes = g.nodes) (hperm : g'.rules.Perm g.rules)

include hperm

theorem Keyed.of_perm (hkeyed : g.Keyed) : g'.Keyed where
  nodup := ((hperm.map Prod.fst).nodup_iff).2 hkeyed.nodup
  own entry hentry := hkeyed.own entry (hperm.mem_iff.1 hentry)

include hnodes

theorem alike_of_perm (hkeyed : g.Keyed) : g.Alike g' where
  nodes := hnodes
  length := hperm.length_eq
  rule? name := by
    have hkeyed' := hkeyed.of_perm hperm
    ext rule
    constructor
    · exact fun h => hkeyed.rule?_of_mem (hperm.mem_iff.1 (mem_rules_of_rule? h))
    · exact fun h => hkeyed'.rule?_of_mem (hperm.mem_iff.2 (mem_rules_of_rule? h))

theorem Forest.of_perm (hf : g.Forest) (hkeyed : g.Keyed) : g'.Forest := by
  have halike := alike_of_perm hnodes hperm hkeyed
  have hshape := halike.sameShape
  have hrules : g'.ruleList.Perm g.ruleList := hperm.map Prod.snd
  constructor
  · intro rule hrule
    obtain ⟨ids, hids, hnodup, hall⟩ := hf.tree rule (hrules.mem_iff.1 hrule)
    have hids' : g'.walk rule.body = .ok ids := hshape.shapeIn.walkDown
      (fun _ _ => Node.children_of_bare) (Nat.succ_le_succ (Nat.le_of_eq hshape.size)) hids
    refine ⟨ids, hids', hnodup, fun id hid => ?_⟩
    obtain ⟨node, hnode, hproblem⟩ := hall id hid
    refine ⟨node, ?_, ?_⟩
    · rw [Grammar.node, hnodes]
      exact hnode
    · unfold nodeProblem? at hproblem ⊢
      simpa only [halike.rule?] using hproblem
  · have hapart : g'.ruleList.Pairwise fun rule rule' =>
        ∀ id, g.Reaches rule.body id → g.Reaches rule'.body id → False :=
      (hrules.pairwise_iff fun h id hid hid' => h id hid' hid).2 hf.apart
    exact hapart.imp fun h id hid hid' =>
      h id (hshape.symm.reaches hid) (hshape.symm.reaches hid')

end

theorem Alike.calls (h : g.Alike g') {caller callee : String} (hcalls : g.Calls caller callee) :
    g'.Calls caller callee := by
  obtain ⟨rule, id, hrule, hid, hk⟩ := hcalls
  exact ⟨rule, id, (h.rule? _).trans hrule, h.sameShape.matchedBy hid, (h.kindAt? id).trans hk⟩

theorem FollowClosed.alike {X : String → Int → Prop} (hX : g.FollowClosed X) (h : g.Alike g') :
    g'.FollowClosed X where
  token name rule hrule := hX.token name rule ((h.symm.rule? name).trans hrule)
  start name rule hrule htoken hopen :=
    hX.start name rule ((h.symm.rule? name).trans hrule) htoken
      (hopen.imp_right fun hnever caller hcalls => hnever caller (h.calls hcalls))
  call name rule place callee c hrule hoccurs hk hbegins :=
    hX.call name rule place callee c ((h.symm.rule? name).trans hrule)
      (h.symm.sameShape.occurs hoccurs) ((h.symm.kindAt? _).trans hk) (h.symm.begins hbegins)

/-- There is one least family only, whatever the order of the rules. -/
theorem IsLeastFollow.get_eq (h : g.IsLeastFollow follow) (h' : g'.IsLeastFollow follow')
    (halike : g.Alike g') (hnames : ∀ name, name ∈ g'.ruleNames ↔ name ∈ g.ruleNames)
    (name : String) : follow'.get name = follow.get name := by
  by_cases hname : name ∈ g.ruleNames
  · have hname' := (hnames name).2 hname
    exact CharSet.ext fun c => Bool.eq_iff_iff.2
      ⟨h'.least _ (h.closed.alike halike) name hname' c,
        h.least _ (h'.closed.alike halike.symm) name hname c⟩
  · have hname' := mt (hnames name).1 hname
    rw [FollowSets.get, FollowSets.get, FollowSets.lookup_eq_none (h'.names ▸ hname'),
      FollowSets.lookup_eq_none (h.names ▸ hname)]

/-- In another order the rules have the same follow sets. -/
theorem exists_followSets_of_perm (hkeyed : g.Keyed) (hf : g.Forest) (hnodes : g'.nodes = g.nodes)
    (hperm : g'.rules.Perm g.rules) (h : g.followSets limit = .ok follow) :
    ∃ follow', g'.followSets limit = .ok follow' ∧ ∀ name, follow'.get name = follow.get name := by
  have halike := alike_of_perm hnodes hperm hkeyed
  have hkeyed' := hkeyed.of_perm hperm
  have hf' := hf.of_perm hnodes hperm hkeyed
  obtain ⟨start, hstart, -⟩ := exists_initialFollow hkeyed' hf'
  obtain ⟨next, hnext⟩ := halike.exists_followRound (hperm.map Prod.snd).subset
    (followRound_of_followSets h) start
  obtain ⟨follow', hfollow'⟩ := exists_followSets hkeyed' hf' hstart hnext
  have hleast := isLeastFollow_of_followSets hkeyed hf h
  have hleast' := isLeastFollow_of_followSets hkeyed' hf' hfollow'
  exact ⟨follow', hfollow', hleast.get_eq hleast' halike fun _ => (hperm.map Prod.fst).mem_iff⟩

/-- **Follow sets are the least that are closed.** In a validated grammar the rounds come to an end,
unless the first of them fails: no later round fails, and none is missing. The sets they end with are
the least closed family, and they are the same for every order of the rules. -/
theorem followSets_least (hkeyed : g.Keyed) (hvalid : g.validate = .ok ()) (limit : Nat) :
    (∀ failure, g.followSets limit = .error failure → ∃ start, g.initialFollow = .ok start ∧
      g.followRound limit start = .error failure) ∧
    ∀ follow, g.followSets limit = .ok follow → g.IsLeastFollow follow ∧
      ∀ g' : Grammar, g'.nodes = g.nodes → g'.rules.Perm g.rules → ∃ follow',
        g'.followSets limit = .ok follow' ∧ ∀ name, follow'.get name = follow.get name := by
  have hf := forest_of_validate hvalid
  constructor
  · intro failure h
    obtain ⟨start, hstart, -⟩ := exists_initialFollow hkeyed hf
    refine ⟨start, hstart, ?_⟩
    cases hround : g.followRound limit start with
    | ok next =>
      obtain ⟨follow, hfollow⟩ := exists_followSets hkeyed hf hstart hround
      rw [hfollow] at h
      cases h
    | error other =>
      obtain ⟨rounds, hrounds⟩ : ∃ rounds, g.followRounds = rounds + 1 :=
        ⟨g.followRounds - 1, by unfold followRounds; omega⟩
      rw [followSets_eq_settleFollow hstart, hrounds, settleFollow, hround] at h
      exact h
  · intro follow h
    exact ⟨isLeastFollow_of_followSets hkeyed hf h, fun g' hnodes hperm =>
      exists_followSets_of_perm hkeyed hf hnodes hperm h⟩

end Grammar

/-- The last letter of `abc` is a rule that ends another rule, and what follows that one follows it. -/
def nested : Grammar where
  nodes := #[.ofKind (.terminal (.ofRanges [(97, 97)]) none), .ofKind (.call "c"),
    .ofKind (.sequence [0, 1]), .ofKind (.call "b"), .ofKind (.terminal (.ofRanges [(99, 99)]) none),
    .ofKind (.sequence [3, 4]), .ofKind (.terminal (.ofRanges [(98, 98)]) none)]
  rules := [("a", .ofBody "a" 5), ("b", { Rule.ofBody "b" 2 with isPrivate := true }),
    ("c", { Rule.ofBody "c" 6 with isPrivate := true })]

def nestedFollow : FollowSets :=
  [("a", .endOfInput), ("b", .ofRanges [(99, 99)]), ("c", .ofRanges [(99, 99)])]

theorem nested_settleFollow (rounds : Nat) : nested.settleFollow 1 (rounds + 2)
    [("a", .endOfInput), ("b", .empty), ("c", .empty)] = .ok nestedFollow := by cbv

theorem nested_followSets : nested.followSets 1 = .ok nestedFollow :=
  (Grammar.followSets_eq_settleFollow (by cbv)).trans (nested_settleFollow _)

/-- In the other order, the called rules come before the rules that call them. -/
theorem nested_followSets_least : nested.IsLeastFollow nestedFollow ∧
    ∃ follow, Grammar.followSets ⟨nested.nodes, nested.rules.reverse⟩ 1 = .ok follow ∧
      ∀ name, follow.get name = nestedFollow.get name := by
  have hkeyed : nested.Keyed := ⟨by decide, by decide⟩
  obtain ⟨hleast, horder⟩ :=
    (Grammar.followSets_least hkeyed (by decide +kernel) 1).2 nestedFollow nested_followSets
  exact ⟨hleast, horder ⟨nested.nodes, nested.rules.reverse⟩ rfl (List.reverse_perm _)⟩

end PredictiveParser
