import PredictiveParser.Proofs.Grammar.Growth

/-!
# Rules that recognizers call

A recognizer calls recognizers only, so each rule it calls needs one. `reachCalls` collects those rules
with a worklist: at all times, the calls of what was collected are collected too, except for what is
still to be visited (`Visited`). At the end nothing is, so the collected names are closed under calls.

`recognized_assignRecognizers` says it of a grammar in which recognizers were assigned.
-/
namespace PredictiveParser

namespace Grammar

variable {g g' : Grammar} {name callee : String} {rule : Rule} {id : NodeId}
  {seen reached : List String}

def Calls (g : Grammar) (name callee : String) : Prop :=
  ∃ rule id, g.rule? name = some rule ∧ g.MatchedBy rule.body id ∧
    g.kindAt? id = some (.call callee)

/-- What a rule with a recognizer calls has a recognizer too. -/
def Recognized (g : Grammar) : Prop :=
  ∀ name callee rule called, g.Calls name callee → g.rule? name = some rule →
    g.rule? callee = some called → rule.recognizer.isSome = true → called.recognizer.isSome = true

/-- The calls of the rule are among these names. -/
def Visited (g : Grammar) (seen : List String) (name : String) : Prop :=
  ∀ callee, g.Calls name callee → callee ∈ seen

theorem Visited.mono {seen' : List String} (h : g.Visited seen name) (hsub : seen ⊆ seen') :
    g.Visited seen' name :=
  fun callee hcall => hsub (h callee hcall)

theorem mem_callees {body : NodeId} {called : List String} (h : g.callees body = .ok called) :
    callee ∈ called ↔ ∃ id, g.MatchedBy body id ∧ g.kindAt? id = some (.call callee) := by
  obtain ⟨ids, hids, h⟩ := bind_eq_ok.1 h
  obtain ⟨nodes, hnodes, h⟩ := bind_eq_ok.1 h
  rw [← pure_eq_ok.1 h, List.mem_filterMap]
  have hcall : ∀ {id node}, g.node id = .ok node →
      (node.callee? = some callee ↔ g.kindAt? id = some (.call callee)) := by
    intro id node hnode
    rw [kindAt?_of_node hnode, Node.callee?]
    cases node.kind <;> simp
  constructor
  · rintro ⟨node, hmem, hcallee⟩
    obtain ⟨id, hid, hnode⟩ := Forall₂.exists_of_mem_right (mapM_eq_ok.1 hnodes) hmem
    exact ⟨id, (mem_walkDown hids).1 hid, (hcall hnode).1 hcallee⟩
  · rintro ⟨id, hid, hk⟩
    obtain ⟨node, hmem, hnode⟩ :=
      Forall₂.exists_of_mem_left (mapM_eq_ok.1 hnodes) ((mem_walkDown hids).2 hid)
    exact ⟨node, hmem, (hcall hnode).2 hk⟩

theorem Forest.exists_callees (hf : g.Forest) (hrule : rule ∈ g.ruleList) :
    ∃ called, g.callees rule.body = .ok called := by
  obtain ⟨all, hall, -, -⟩ := hf.tree rule hrule
  obtain ⟨ids, hids, -⟩ := sublist_walkDown Node.matchedChildren_sublist hall
  obtain ⟨nodes, hnodes⟩ := exists_mapM_eq_ok fun id hid => node_of_walkDown hids hid
  exact ⟨nodes.filterMap Node.callee?, bind_eq_ok.2 ⟨ids, hids, bind_eq_ok.2 ⟨nodes, hnodes, rfl⟩⟩⟩

def newNames (seen called : List String) : List String :=
  (called.filter fun callee => !seen.contains callee).eraseDups

theorem mem_append_newNames {called : List String} (h : callee ∈ called) :
    callee ∈ seen ++ newNames seen called := by
  by_cases hseen : callee ∈ seen
  · exact List.mem_append_left _ hseen
  · refine List.mem_append_right _ (List.mem_eraseDups.2 (List.mem_filter.2 ⟨h, ?_⟩))
    simpa using hseen

/-- One visit finds what the rule calls. -/
theorem reachCalls_cons_eq_ok {visits : Nat} {first : String} {work : List String}
    (h : g.reachCalls (visits + 1) (first :: work) seen = .ok reached) :
    ∃ called, g.Visited called first ∧
      g.reachCalls visits (newNames seen called ++ work) (seen ++ newNames seen called) =
        .ok reached := by
  rw [reachCalls] at h
  split at h
  · rename_i rule hrule
    obtain ⟨called, hcalled, h⟩ := bind_eq_ok.1 h
    refine ⟨called, ?_, h⟩
    rintro callee ⟨rule', id, hrule', hid, hk⟩
    rw [hrule] at hrule'
    cases hrule'
    exact (mem_callees hcalled).2 ⟨id, hid, hk⟩
  · rename_i hnone
    refine ⟨[], ?_, h⟩
    rintro callee ⟨rule', id, hrule', -, -⟩
    rw [hnone] at hrule'
    cases hrule'

/-- **What is reached is closed under calls.** -/
theorem visited_reachCalls {visits : Nat} {work : List String}
    (h : g.reachCalls visits work seen = .ok reached)
    (hseen : ∀ name ∈ seen, name ∈ work ∨ g.Visited seen name) :
    seen ⊆ reached ∧ ∀ name ∈ reached, g.Visited reached name := by
  induction visits generalizing work seen with
  | zero => cases h
  | succ visits ih =>
    cases work with
    | nil =>
      cases pure_eq_ok.1 h
      exact ⟨List.Subset.refl _, fun name hm => (hseen name hm).resolve_left List.not_mem_nil⟩
    | cons first work =>
      obtain ⟨called, hfirst, h⟩ := reachCalls_cons_eq_ok h
      have hsub := List.subset_append_left seen (newNames seen called)
      have hnext : ∀ name ∈ seen ++ newNames seen called,
          name ∈ newNames seen called ++ work ∨ g.Visited (seen ++ newNames seen called) name := by
        intro name hm
        rcases List.mem_append.1 hm with hm | hm
        · rcases hseen name hm with hwork | hvisited
          · rcases List.mem_cons.1 hwork with rfl | hwork
            · exact Or.inr fun callee hcall => mem_append_newNames (hfirst callee hcall)
            · exact Or.inl (List.mem_append_right _ hwork)
          · exact Or.inr (hvisited.mono hsub)
        · exact Or.inl (List.mem_append_left _ hm)
      obtain ⟨hreached, hclosed⟩ := ih h hnext
      exact ⟨List.Subset.trans hsub hreached, hclosed⟩

/-! ## Assigned recognizers -/

/-- The rules after recognizers were given to those with these names. -/
theorem rule?_nameRecognizers (called : List String) (other : String) :
    (called.foldl (fun g name => g.modifyRule name fun rule =>
      { rule with recognizer := rule.recognizer.or (some (recognizerName name)) }) g).rule? other =
    (g.rule? other).map fun rule => if other ∈ called then
      { rule with recognizer := rule.recognizer.or (some (recognizerName other)) } else rule := by
  induction called generalizing g with
  | nil => simp
  | cons first rest ih =>
    rw [List.foldl_cons, ih, rule?_modifyRule, Option.map_map]
    congr 1
    funext rule
    by_cases hfirst : other = first
    · subst hfirst
      by_cases hrest : other ∈ rest
      · cases hrule : rule.recognizer <;> simp [hrest, hrule]
      · simp [hrest]
    · simp [hfirst]

theorem nodes_nameRecognizers (called : List String) :
    (called.foldl (fun g name => g.modifyRule name fun rule =>
      { rule with recognizer := rule.recognizer.or (some (recognizerName name)) }) g).nodes =
    g.nodes := by
  induction called generalizing g with
  | nil => rfl
  | cons first rest ih => rw [List.foldl_cons, ih]; rfl

/-- Assigning starts from the rules that have a recognizer. -/
theorem mem_recognized (hkeyed : g.Keyed) :
    name ∈ (g.ruleList.filter (·.recognizer.isSome)).map (·.name) ↔
      ∃ rule, g.rule? name = some rule ∧ rule.recognizer.isSome = true := by
  constructor
  · intro h
    obtain ⟨rule, hm, rfl⟩ := List.mem_map.1 h
    obtain ⟨hm, hsome⟩ := List.mem_filter.1 hm
    exact ⟨rule, hkeyed.rule?_of_mem_ruleList hm, hsome⟩
  · rintro ⟨rule, hrule, hsome⟩
    exact List.mem_map.2 ⟨rule, List.mem_filter.2 ⟨mem_ruleList_of_rule? hrule, hsome⟩,
      hkeyed.name_of_rule? hrule⟩

/-- Where recognizers were assigned, the rules that have one are those that were reached, and these are
closed under calls. -/
theorem recognizer_iff_reached (h : g.assignRecognizers = .ok g') (hkeyed : g.Keyed) :
    g'.nodes = g.nodes ∧ ∃ reached : List String,
      (∀ name rule, g'.rule? name = some rule → (rule.recognizer.isSome ↔ name ∈ reached)) ∧
      (∀ name rule, g'.rule? name = some rule → ∃ old, g.rule? name = some old ∧ rule.body = old.body) ∧
      ∀ name ∈ reached, g.Visited reached name := by
  obtain ⟨reached, hreached, h⟩ := bind_eq_ok.1 h
  obtain rfl := pure_eq_ok.1 h
  obtain ⟨hstart, hclosed⟩ := visited_reachCalls hreached fun name hm => Or.inl hm
  refine ⟨nodes_nameRecognizers _, reached, fun name rule hrule => ?_, fun name rule hrule => ?_,
    hclosed⟩
  · rw [rule?_nameRecognizers] at hrule
    obtain ⟨old, hold, rfl⟩ := Option.map_eq_some_iff.1 hrule
    have hrecognized : name ∈ (g.ruleList.filter (·.recognizer.isSome)).map (·.name) ↔
        old.recognizer.isSome = true := by
      rw [mem_recognized hkeyed]
      simp [hold]
    split
    · rename_i hm
      have hname := (List.mem_filter.1 hm).1
      cases old.recognizer <;> simp [hname]
    · rename_i hm
      constructor
      · exact fun hsome => hstart (hrecognized.2 hsome)
      · intro hname
        by_contra hnone
        refine hm (List.mem_filter.2 ⟨hname, ?_⟩)
        simpa using fun hs => hnone (hrecognized.1 hs)
  · rw [rule?_nameRecognizers] at hrule
    obtain ⟨old, hold, rfl⟩ := Option.map_eq_some_iff.1 hrule
    refine ⟨old, hold, ?_⟩
    split <;> rfl

/-- **What a recognizer calls has a recognizer.** -/
theorem recognized_assignRecognizers (h : g.assignRecognizers = .ok g') (hkeyed : g.Keyed) :
    g'.Recognized := by
  intro name callee rule called hcall hrule hcalled hrecognizer
  obtain ⟨hnodes, reached, hreached, hold, hclosed⟩ := recognizer_iff_reached h hkeyed
  have hshape : g'.SameShape g := fun id => by rw [kindAt?, kindAt?, hnodes]
  obtain ⟨rule', id, hrule', hid, hk⟩ := hcall
  obtain ⟨old, hrule', hbody⟩ := hold name rule' hrule'
  refine (hreached callee called hcalled).2 ?_
  refine hclosed name ((hreached name rule hrule).1 hrecognizer) callee ⟨old, id, hrule', ?_, ?_⟩
  · exact hbody ▸ hshape.matchedBy hid
  · rwa [kindAt?, hnodes] at hk

end Grammar

end PredictiveParser
