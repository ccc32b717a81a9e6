import PredictiveParser.Proofs.Grammar.Recognizers
import PredictiveParser.Proofs.Grammar.Synthesis

/-!
# Names of rules and recognizers

Before generation checks get rules and rules get recognizers. In a grammar with plain names both steps
come to an end, and the grammar is then `Grammar.Ready`: the rules are trees, every check that is
predicted with runs a rule with a recognizer, what a recognizer calls has one, and all names may stand
in code (`exists_ready`).

What holds of all nodes and is kept by copies holds of the nodes of that grammar.
-/
namespace PredictiveParser

open Relation

namespace Grammar

variable {g g' g'' : Grammar} {p : PendingCheck}

/-! ## Steps of synthesis -/

theorem rules_synthesizeRule (h : g.synthesizeRule p = .ok g') :
    g.rule? (g.checkRuleName p.owner) = none ∧ ∃ copied body,
      g.deepClone p.payload = .ok (copied, body) ∧
      g'.rules = g.rules ++ [(g.checkRuleName p.owner, checkRule (g.checkRuleName p.owner) body)] := by
  obtain ⟨g₁, body, g₂, hcopy, hadd, hmodify⟩ := synthesizeRule_eq_ok.1 h
  have hrules := (extends_copyDown hcopy).1.rules
  obtain ⟨hnone, rfl⟩ := addRule_eq_ok.1 hadd
  refine ⟨(rule?_of_rules hrules _).symm.trans hnone, g₁, body, hcopy, ?_⟩
  rw [(modifyNode_eq_ok hmodify).1, hrules]
  rfl

/-- The rules of the new grammar: those there were, and that for the check. -/
theorem rule?_synthesizeRule (h : g.synthesizeRule p = .ok g') {name : String} {rule : Rule}
    (hrule : g'.rule? name = some rule) : g.rule? name = some rule ∨
      name = g.checkRuleName p.owner ∧ ∃ body, rule = checkRule name body := by
  obtain ⟨hnone, copied, body, -, hrules⟩ := rules_synthesizeRule h
  rw [rule?, hrules, List.lookup_append] at hrule
  cases hold : g.rules.lookup name with
  | some old =>
    rw [hold] at hrule
    exact Or.inl (hold.trans hrule)
  | none =>
    rw [hold, Option.none_or, List.lookup_cons] at hrule
    split at hrule
    · rename_i heq
      cases hrule
      cases beq_iff_eq.1 heq
      exact Or.inr ⟨rfl, body, rfl⟩
    · cases hrule

theorem exists_rule_synthesizeRule (h : g.synthesizeRule p = .ok g') :
    ∃ copied body, g.deepClone p.payload = .ok (copied, body) ∧
      g'.rule? (g.checkRuleName p.owner) = some (checkRule (g.checkRuleName p.owner) body) := by
  obtain ⟨hnone, copied, body, hcopy, hrules⟩ := rules_synthesizeRule h
  refine ⟨copied, body, hcopy, ?_⟩
  have hlookup : g.rules.lookup (g.checkRuleName p.owner) = none := hnone
  rw [rule?, hrules, List.lookup_append, hlookup]
  simp

theorem knows_synthesizeRule (h : g.synthesizeRule p = .ok g') {name : String} {rule : Rule}
    (hrule : g.rule? name = some rule) : g'.rule? name = some rule := by
  obtain ⟨-, copied, body, -, hrules⟩ := rules_synthesizeRule h
  have hlookup : g.rules.lookup name = some rule := hrule
  rw [rule?, hrules, List.lookup_append, hlookup]
  rfl

theorem Keyed.synthesizeRule (hkeyed : g.Keyed) (h : g.synthesizeRule p = .ok g') : g'.Keyed := by
  obtain ⟨g₁, body, g₂, hcopy, hadd, hmodify⟩ := synthesizeRule_eq_ok.1 h
  exact ((hkeyed.of_rules (extends_copyDown hcopy).1.rules).addRule hadd).of_rules
    (modifyNode_eq_ok hmodify).1

/-- The nodes of the new grammar are those there were, copies of them, and the named check. -/
theorem node_synthesizeRule (h : g.synthesizeRule p = .ok g') {id : NodeId} {node' : Node}
    (hnode' : g'.node id = .ok node') : ∃ source node copied, g.node source = .ok node ∧
      copied.stem = node.stem ∧
      (node' = copied ∨ node' = copied.withCheckRule (g.checkRuleName p.owner)) := by
  obtain ⟨g₁, body, g₂, hcopy, hadd, hmodify⟩ := synthesizeRule_eq_ok.1 h
  obtain ⟨-, rfl⟩ := addRule_eq_ok.1 hadd
  rw [node_eq_ok, (modifyNode_eq_ok hmodify).2] at hnode'
  split at hnode'
  · obtain ⟨copied, hcopied, rfl⟩ := Option.map_eq_some_iff.1 hnode'
    obtain ⟨source, node, hnode, hstem⟩ := stemsIn_copyDown hcopy id copied (node_eq_ok.2 hcopied)
    exact ⟨source, node, copied, hnode, hstem, Or.inr rfl⟩
  · obtain ⟨source, node, hnode, hstem⟩ := stemsIn_copyDown hcopy id node' (node_eq_ok.2 hnode')
    exact ⟨source, node, node', hnode, hstem, Or.inl rfl⟩

/-- What a step keeps, all rounds keep. -/
theorem synthesizeRounds_invariant {P : Grammar → Prop}
    (hstep : ∀ g p g', g.Keyed → g.Knows p.owner → P g → g.synthesizeRule p = .ok g' → P g')
    {rounds : Nat} (hkeyed : g.Keyed) (hP : P g) (h : synthesizeRounds rounds g = .ok g') : P g' := by
  refine (rounds_invariant (P := fun now => now.Keyed ∧ P now)
    (fun now pending next ⟨hkeyed, hP⟩ hpending hround => ?_) ⟨hkeyed, hP⟩ h).2
  have howners : ∀ p ∈ pending, now.Knows p.owner := fun p hp => by
    obtain ⟨rule, hrule, -⟩ := (mem_pendingChecks hkeyed hpending).1 hp
    exact ⟨rule, hrule⟩
  obtain ⟨hkeyed', hP', -⟩ := foldlM_invariant
    (P := fun now => now.Keyed ∧ P now ∧ ∀ p ∈ pending, now.Knows p.owner)
    (fun p hp now next ⟨hkeyed, hP, howners⟩ hnext =>
      ⟨hkeyed.synthesizeRule hnext, hstep now p next hkeyed (howners p hp) hP hnext,
        fun q hq => by
          obtain ⟨rule, hrule⟩ := howners q hq
          exact ⟨rule, knows_synthesizeRule hnext hrule⟩⟩)
    ⟨hkeyed, hP, howners⟩ hround
  exact ⟨hkeyed', hP'⟩

/-- What holds of all nodes, and of a node when it holds of its copies and without the name of a rule,
holds after synthesis. -/
theorem nodes_synthesizeRecognizers {P : Node → Prop}
    (hstem : ∀ node copied : Node, copied.stem = node.stem → P node → P copied)
    (hname : ∀ (rule : String) (node : Node), P node → P (node.withCheckRule rule))
    (hkeyed : g.Keyed) (hP : ∀ id node, g.node id = .ok node → P node)
    (h : g.synthesizeRecognizers = .ok g') : ∀ id node, g'.node id = .ok node → P node := by
  refine synthesizeRounds_invariant (P := fun now => ∀ id node, now.node id = .ok node → P node)
    (fun now p next _ _ hnow hnext id node' hnode' => ?_) hkeyed hP h
  obtain ⟨source, node, copied, hnode, hsame, rfl | rfl⟩ := node_synthesizeRule hnext hnode'
  · exact hstem node _ hsame (hnow source node hnode)
  · exact hname _ _ (hstem node _ hsame (hnow source node hnode))

/-- A node stays, except that a check may get a rule. -/
theorem exists_node_synthesizeRule {id : NodeId} {node : Node} (h : g.synthesizeRule p = .ok g')
    (hnode : g.node id = .ok node) :
    ∃ node', g'.node id = .ok node' ∧ (node' = node ∨ ∃ rule, node' = node.withCheckRule rule) := by
  obtain ⟨g₁, body, g₂, hcopy, hadd, hmodify⟩ := synthesizeRule_eq_ok.1 h
  obtain ⟨-, rfl⟩ := addRule_eq_ok.1 hadd
  have hcopied : g₁.nodes[id]? = some node := by
    rw [(extends_copyDown hcopy).1.nodes id (lt_size_of_kindAt? (kindAt?_of_node hnode))]
    exact node_eq_ok.1 hnode
  have hnode' := (modifyNode_eq_ok hmodify).2 id
  rw [hcopied] at hnode'
  split at hnode'
  · exact ⟨_, node_eq_ok.2 hnode', Or.inr ⟨_, rfl⟩⟩
  · exact ⟨_, node_eq_ok.2 hnode', Or.inl rfl⟩

/-- What does not depend on the rules of checks, nodes keep. -/
theorem exists_node_synthesizeRecognizers {α : Type} {f : Node → α} {id : NodeId} {node : Node}
    (hf : ∀ rule (node : Node), f (node.withCheckRule rule) = f node) (hkeyed : g.Keyed)
    (h : g.synthesizeRecognizers = .ok g') (hnode : g.node id = .ok node) :
    ∃ node', g'.node id = .ok node' ∧ f node' = f node := by
  refine synthesizeRounds_invariant (P := fun now => ∃ node', now.node id = .ok node' ∧
    f node' = f node) (fun now p next _ _ hnow hnext => ?_) hkeyed ⟨node, hnode, rfl⟩ h
  obtain ⟨old, hold, heq⟩ := hnow
  obtain ⟨node', hnode', rfl | ⟨rule, rfl⟩⟩ := exists_node_synthesizeRule hnext hold
  · exact ⟨node', hnode', heq⟩
  · exact ⟨_, hnode', (hf rule old).trans heq⟩

/-! ## Names -/

/-- The names of rules and of their recognizers may stand in code. -/
structure PlainRules (g : Grammar) : Prop where
  names : ∀ name rule, g.rule? name = some rule → Text.isIdentifier rule.name = true
  recognizers : ∀ name rule recognizer, g.rule? name = some rule →
    rule.recognizer = some recognizer → Text.isIdentifier recognizer = true

/-- A check that has a rule has one with a recognizer. -/
def Named (g : Grammar) : Prop :=
  ∀ id negate payload made mark,
    g.kindAt? id = some (.check ⟨negate, .syntactic payload (some made), mark⟩) →
    ∃ rule, g.rule? made = some rule ∧ rule.recognizer.isSome = true

theorem isIdentifier_recognizerName {name : String} (h : Text.isIdentifier name = true) :
    Text.isIdentifier (recognizerName name) = true :=
  Text.isIdentifier_append_of (s := "scan_") (by decide) h

theorem isIdentifier_checkRuleName {owner : String} (h : Text.isIdentifier owner = true) :
    Text.isIdentifier (g.checkRuleName owner) = true := by
  obtain ⟨n, hname, -⟩ := exists_checkRuleName g owner
  rw [hname]
  have htest : Text.isIdentifier (owner ++ "_test") = true :=
    Text.isIdentifier_append h (by decide)
  exact Text.isIdentifier_append htest (Text.all_isIdentContinue_toString n)

theorem PlainRules.synthesizeRule (hg : g.PlainRules) (hkeyed : g.Keyed) (howner : g.Knows p.owner)
    (h : g.synthesizeRule p = .ok g') : g'.PlainRules := by
  obtain ⟨owner, howner⟩ := howner
  have hname : Text.isIdentifier (g.checkRuleName p.owner) = true :=
    isIdentifier_checkRuleName (hkeyed.name_of_rule? howner ▸ hg.names _ owner howner)
  constructor
  · intro name rule hrule
    rcases rule?_synthesizeRule h hrule with hold | ⟨rfl, body, rfl⟩
    · exact hg.names name rule hold
    · exact hname
  · intro name rule recognizer hrule hrecognizer
    rcases rule?_synthesizeRule h hrule with hold | ⟨rfl, body, rfl⟩
    · exact hg.recognizers name rule recognizer hold hrecognizer
    · cases hrecognizer
      exact isIdentifier_recognizerName hname

/-- What a check of a copy looks for and runs is told by the check that was copied. -/
theorem exists_check_of_stem {node copied : Node} {negate : Bool} {payload : NodeId}
    {made : Option String} {mark : Option Bool} (h : copied.stem = node.stem)
    (hkind : copied.kind = .check ⟨negate, .syntactic payload made, mark⟩) :
    ∃ payload', node.kind = .check ⟨negate, .syntactic payload' made, mark⟩ := by
  have hstem := congrArg Node.kind h
  obtain ⟨kind, label, isList, saver, pre, post, basis⟩ := node
  obtain ⟨kind', label', isList', saver', pre', post', basis'⟩ := copied
  cases hkind
  rcases kind with items | alts | ⟨predict, matched⟩ | ⟨negate, ⟨tokens⟩ | ⟨payload, rule⟩, mark⟩ |
    callee | ⟨set, mark⟩ <;> cases hstem
  exact ⟨_, rfl⟩

theorem Named.synthesizeRule (hg : g.Named) (h : g.synthesizeRule p = .ok g') : g'.Named := by
  intro id negate payload made mark hkind
  obtain ⟨node', hnode', hkind⟩ := kindAt?_eq_some.1 hkind
  obtain ⟨source, node, copied, hnode, hstem, rfl | rfl⟩ := node_synthesizeRule h hnode'
  · obtain ⟨payload', hsource⟩ := exists_check_of_stem hstem hkind
    obtain ⟨rule, hrule, hsome⟩ :=
      hg source negate payload' made mark (hsource ▸ kindAt?_of_node hnode)
    exact ⟨rule, knows_synthesizeRule h hrule, hsome⟩
  · obtain ⟨-, body, -, hrule⟩ := exists_rule_synthesizeRule h
    obtain rfl : made = g.checkRuleName p.owner := by
      obtain ⟨kind, label, isList, saver, pre, post, basis⟩ := copied
      rcases kind with items | alts | ⟨predict, matched⟩ |
        ⟨negate, ⟨tokens⟩ | ⟨payload, rule⟩, mark⟩ | callee | ⟨set, mark⟩ <;> cases hkind
      rfl
    exact ⟨_, hrule, rfl⟩

/-! ## Recognizers -/

theorem mem_of_mem_newNames {seen called : List String} {callee : String}
    (h : callee ∈ newNames seen called) : callee ∈ called ∧ callee ∉ seen := by
  rw [newNames, List.mem_eraseDups, List.mem_filter] at h
  simpa using h

theorem nodup_eraseDups {names : List String} : names.eraseDups.Nodup := by
  obtain ⟨n, hn⟩ : ∃ n, names.length ≤ n := ⟨_, Nat.le_refl _⟩
  induction n generalizing names with
  | zero =>
    rw [List.length_eq_zero_iff.1 (Nat.le_zero.1 hn), List.eraseDups_nil]
    exact List.nodup_nil
  | succ n ih =>
    cases names with
    | nil =>
      rw [List.eraseDups_nil]
      exact List.nodup_nil
    | cons name rest =>
      have hfewer := List.length_filter_le (fun other => !other == name) rest
      rw [List.length_cons] at hn
      rw [List.eraseDups_cons, List.nodup_cons]
      refine ⟨?_, ih (by omega)⟩
      rw [List.mem_eraseDups, List.mem_filter]
      simp

/-- Every visit takes a name from the work, and adds names that were not seen. -/
theorem exists_reachCalls (hf : g.Forest) {visits : Nat} {work seen : List String}
    (hseen : seen.Nodup) (hnames : seen ⊆ g.ruleNames)
    (hvisits : work.length + (g.rules.length - seen.length) < visits) :
    ∃ reached, g.reachCalls visits work seen = .ok reached := by
  induction visits generalizing work seen with
  | zero => omega
  | succ visits ih =>
    cases work with
    | nil => exact ⟨seen, rfl⟩
    | cons name work =>
      have visit : ∀ called : List String, called ⊆ g.ruleNames →
          ∃ reached, g.reachCalls visits (newNames seen called ++ work)
            (seen ++ newNames seen called) = .ok reached := by
        intro called hcalled
        have hnodup : (seen ++ newNames seen called).Nodup :=
          List.nodup_append.2 ⟨hseen, nodup_eraseDups, fun old hold new hnew heq =>
            (mem_of_mem_newNames hnew).2 (heq ▸ hold)⟩
        have hsub : seen ++ newNames seen called ⊆ g.ruleNames :=
          List.append_subset.2 ⟨hnames, fun new hnew => hcalled (mem_of_mem_newNames hnew).1⟩
        have hlength := (List.Nodup.subperm hnodup hsub).length_le
        rw [ruleNames, List.length_map] at hlength
        refine ih hnodup hsub ?_
        rw [List.length_append] at hlength ⊢
        rw [List.length_cons] at hvisits
        rw [List.length_append]
        omega
      rw [reachCalls]
      cases hrule : g.rule? name with
      | none => exact visit [] (List.nil_subset _)
      | some rule =>
        obtain ⟨called, hcalled⟩ := hf.exists_callees (mem_ruleList_of_rule? hrule)
        obtain ⟨reached, hreached⟩ := visit called fun callee hcallee => by
          obtain ⟨id, hid, hk⟩ := (mem_callees hcalled).1 hcallee
          obtain ⟨known, hknown⟩ := hf.exists_callee hrule (reaches_of_matched hid) hk
          exact mem_ruleNames_of_rule? hknown
        exact ⟨reached, bind_eq_ok.2 ⟨called, hcalled, hreached⟩⟩

theorem exists_assignRecognizers (hf : g.Forest) (hkeyed : g.Keyed) :
    ∃ g', g.assignRecognizers = .ok g' := by
  obtain ⟨start, hstart⟩ : ∃ start, start =
      (g.ruleList.filter (·.recognizer.isSome)).map (·.name) := ⟨_, rfl⟩
  have hsublist : start.Sublist g.ruleNames := by
    have hnames : g.ruleList.map (·.name) = g.ruleNames := by
      rw [ruleList, List.map_map]
      exact List.map_congr_left fun entry hentry => hkeyed.own entry hentry
    rw [hstart, ← hnames]
    exact List.filter_sublist.map _
  have hlength := hsublist.length_le
  rw [ruleNames, List.length_map] at hlength
  obtain ⟨reached, hreached⟩ : ∃ reached,
      g.reachCalls (g.rules.length + g.nodes.size + 1) start start = .ok reached :=
    exists_reachCalls hf (hsublist.nodup hkeyed.nodup) hsublist.subset (by omega)
  rw [hstart] at hreached
  exact ⟨_, bind_eq_ok.2 ⟨reached, hreached, rfl⟩⟩

/-- Assigning recognizers changes nothing else. -/
theorem rule?_assignRecognizers (h : g.assignRecognizers = .ok g') : g'.nodes = g.nodes ∧
    ∃ called : List String, ∀ name, g'.rule? name = (g.rule? name).map fun rule =>
      if name ∈ called then
        { rule with recognizer := rule.recognizer.or (some (recognizerName name)) } else rule := by
  obtain ⟨reached, -, h⟩ := bind_eq_ok.1 h
  obtain rfl := pure_eq_ok.1 h
  exact ⟨nodes_nameRecognizers _, _, rule?_nameRecognizers _⟩

theorem bodies_nameRecognizers (called : List String) :
    (called.foldl (fun g name => g.modifyRule name fun rule =>
      { rule with recognizer := rule.recognizer.or (some (recognizerName name)) })
      g).ruleList.map Rule.body = g.ruleList.map Rule.body := by
  induction called generalizing g with
  | nil => rfl
  | cons first rest ih =>
    rw [List.foldl_cons, ih]
    simp only [ruleList, modifyRule, List.map_map]
    refine List.map_congr_left fun entry _ => ?_
    simp only [Function.comp_apply]
    split <;> rfl

theorem Forest.assignRecognizers (hf : g.Forest) (h : g.assignRecognizers = .ok g') : g'.Forest := by
  obtain ⟨hnodes, called, hrules⟩ := rule?_assignRecognizers h
  have hbodies : g'.ruleList.map Rule.body = g.ruleList.map Rule.body := by
    obtain ⟨reached, -, h⟩ := bind_eq_ok.1 h
    rw [← pure_eq_ok.1 h]
    exact bodies_nameRecognizers _
  refine hf.of_sameShape (fun id => by rw [kindAt?, kindAt?, hnodes]) hbodies ?_
  intro name hknown
  obtain ⟨rule, hrule⟩ := hknown
  rw [Knows, hrules, hrule]
  exact ⟨_, rfl⟩

theorem PlainRules.assignRecognizers (hg : g.PlainRules) (hkeyed : g.Keyed)
    (h : g.assignRecognizers = .ok g') : g'.PlainRules := by
  obtain ⟨-, called, hrules⟩ := rule?_assignRecognizers h
  constructor
  · intro name rule hrule
    rw [hrules] at hrule
    obtain ⟨old, hold, rfl⟩ := Option.map_eq_some_iff.1 hrule
    split <;> exact hg.names name old hold
  · intro name rule recognizer hrule hrecognizer
    rw [hrules] at hrule
    obtain ⟨old, hold, rfl⟩ := Option.map_eq_some_iff.1 hrule
    split at hrecognizer
    · cases hsome : old.recognizer with
      | some own =>
        rw [hsome] at hrecognizer
        cases hrecognizer
        exact hg.recognizers name old recognizer hold hsome
      | none =>
        rw [hsome] at hrecognizer
        cases hrecognizer
        have hname := hkeyed.name_of_rule? hold ▸ hg.names name old hold
        exact isIdentifier_recognizerName hname
    · exact hg.recognizers name old recognizer hold hrecognizer

theorem Named.assignRecognizers (hg : g.Named) (h : g.assignRecognizers = .ok g') : g'.Named := by
  obtain ⟨hnodes, called, hrules⟩ := rule?_assignRecognizers h
  intro id negate payload made mark hkind
  rw [kindAt?, hnodes] at hkind
  obtain ⟨rule, hrule, hsome⟩ := hg id negate payload made mark hkind
  rw [hrules, hrule]
  refine ⟨_, rfl, ?_⟩
  split
  · simp
  · exact hsome

theorem predicted_of_assignRecognizers (h : g.assignRecognizers = .ok g') {id : NodeId}
    (hid : g'.Predicted id) : g.Predicted id := by
  obtain ⟨hnodes, called, hrules⟩ := rule?_assignRecognizers h
  obtain ⟨name, rule, hrule, hreach⟩ := hid
  rw [hrules] at hrule
  obtain ⟨old, hold, rfl⟩ := Option.map_eq_some_iff.1 hrule
  refine ⟨name, old, hold, ?_⟩
  have hlink : g'.Link Node.predictedChildren ≤ g.Link Node.predictedChildren := by
    intro parent child ⟨node, hnode, hchild⟩
    rw [Grammar.node, hnodes] at hnode
    exact ⟨node, hnode, hchild⟩
  have hbody : (if name ∈ called then
      { old with recognizer := old.recognizer.or (some (recognizerName name)) } else old).body =
        old.body := by
    split <;> rfl
  rw [hbody] at hreach
  exact ReflTransGen.mono hlink _ _ hreach

/-! ## What generation begins with -/

/-- Everything that writing methods relies on: the rules are trees, names may stand in code, what a
recognizer calls has a recognizer, and so has the rule of each check that is predicted with. -/
structure Ready (g : Grammar) : Prop where
  forest : g.Forest
  keyed : g.Keyed
  rules : g.PlainRules
  recognized : g.Recognized
  checked : ∀ id negate payload made mark, g.Predicted id →
    g.kindAt? id = some (.check ⟨negate, .syntactic payload made, mark⟩) →
    ∃ name rule, made = some name ∧ g.rule? name = some rule ∧ rule.recognizer.isSome = true

/-- **Checks and calls get their recognizers.** -/
theorem exists_ready (hf : g.Forest) (hkeyed : g.Keyed) (hrules : g.PlainRules) (hnamed : g.Named) :
    ∃ g₁ g₂, g.synthesizeRecognizers = .ok g₁ ∧ g₁.assignRecognizers = .ok g₂ ∧ g₂.Ready := by
  obtain ⟨g₁, hg₁, hf₁, hkeyed₁, -, hnone⟩ := exists_synthesizeRecognizers hf hkeyed
  have hnamed₁ : g₁.Named :=
    synthesizeRounds_invariant (fun _ _ _ _ _ h hstep => h.synthesizeRule hstep) hkeyed hnamed hg₁
  have hrules₁ : g₁.PlainRules := synthesizeRounds_invariant
    (fun _ _ _ hkeyed howner h hstep => h.synthesizeRule hkeyed howner hstep) hkeyed hrules hg₁
  obtain ⟨g₂, hg₂⟩ := exists_assignRecognizers hf₁ hkeyed₁
  refine ⟨g₁, g₂, hg₁, hg₂, ?_⟩
  constructor
  case forest => exact hf₁.assignRecognizers hg₂
  case keyed => exact ((Grown.refl g₁).assignRecognizers hg₂).keyed hkeyed₁
  case rules => exact hrules₁.assignRecognizers hkeyed₁ hg₂
  case recognized => exact recognized_assignRecognizers hg₂ hkeyed₁
  case checked =>
    intro id negate payload made mark hid hkind
    cases made with
    | some name =>
      obtain ⟨rule, hrule, hsome⟩ := hnamed₁.assignRecognizers hg₂ id negate payload name mark hkind
      exact ⟨name, rule, rfl, hrule, hsome⟩
    | none =>
      obtain ⟨owner, rule, hrule, hreach⟩ := predicted_of_assignRecognizers hg₂ hid
      rw [kindAt?, (rule?_assignRecognizers hg₂).1] at hkind
      obtain ⟨node, hnode, hkind⟩ := kindAt?_eq_some.1 hkind
      exact absurd ⟨rule, hrule, hreach, node, hnode,
        pendingPayload?_eq_some.2 ⟨negate, mark, hkind⟩⟩ (hnone ⟨owner, id, payload⟩)

end Grammar

end PredictiveParser
