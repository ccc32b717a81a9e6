import PredictiveParser.Grammar.Recognizers
import PredictiveParser.Proofs.Analysis.Leads

/-!
# How a grammar grows before generation

Before generation, what checks look for is copied into rules of its own, and rules get names for their
recognizers. `Grammar.Grown` says what this leaves as it is: the nodes there were are what they were,
new nodes have only new nodes below them, and new rules have new bodies and no parser.

* `extends_copyDown`: a copy consists of new nodes.
* `grown_synthesizeRecognizers`, `Grown.assignRecognizers`: all the rest.
-/
namespace PredictiveParser

namespace Grammar

/-- Nothing is said to be tested by prediction. -/
def Clean (g : Grammar) : Prop :=
  ∀ id kind, g.kindAt? id = some kind → kind.isMarked = false

/-- Nodes were added, with only new nodes below them. -/
structure Extends (g g' : Grammar) : Prop where
  size : g.nodes.size ≤ g'.nodes.size
  rules : g'.rules = g.rules
  nodes : ∀ id, id < g.nodes.size → g'.nodes[id]? = g.nodes[id]?
  new : ∀ id child, g.nodes.size ≤ id → g'.Link Node.matchedChildren id child →
    g.nodes.size ≤ child
  clean : g.Clean → g'.Clean

variable {g g' g'' : Grammar} {id : NodeId}

theorem lt_size_of_kindAt? {kind : NodeKind} (h : g.kindAt? id = some kind) :
    id < g.nodes.size := by
  obtain ⟨node, hnode, -⟩ := Option.map_eq_some_iff.1 h
  exact (Array.getElem?_eq_some_iff.1 hnode).1

theorem Extends.refl (g : Grammar) : g.Extends g where
  size := Nat.le_refl _
  rules := rfl
  nodes _ _ := rfl
  new id child hid hlink := by
    obtain ⟨node, hnode, -⟩ := hlink
    have := (Array.getElem?_eq_some_iff.1 (node_eq_ok.1 hnode)).1
    omega
  clean := id

/-- New nodes link to new nodes only: what is added behind them does not change their links. -/
theorem Extends.new_of (h' : g'.Extends g'') {size : Nat} {child : NodeId} (hsize : size ≤ g'.nodes.size)
    (hnew : ∀ id child, size ≤ id → g'.Link Node.matchedChildren id child → size ≤ child)
    (hid : size ≤ id) (hlink : g''.Link Node.matchedChildren id child) : size ≤ child := by
  rcases Nat.lt_or_ge id g'.nodes.size with hlt | hge
  · obtain ⟨node, hnode, hchild⟩ := hlink
    refine hnew id child hid ⟨node, ?_, hchild⟩
    rw [node_eq_ok] at hnode ⊢
    rw [← h'.nodes id hlt, hnode]
  · exact Nat.le_trans hsize (h'.new id child hge hlink)

theorem Extends.trans (h : g.Extends g') (h' : g'.Extends g'') : g.Extends g'' where
  size := Nat.le_trans h.size h'.size
  rules := h'.rules.trans h.rules
  nodes id hid := (h'.nodes id (Nat.lt_of_lt_of_le hid h.size)).trans (h.nodes id hid)
  new _ _ hid hlink := h'.new_of h.size h.new hid hlink
  clean hg := h'.clean (h.clean hg)

theorem node_addNode {node node' : Node} (h : (g.addNode node).1.node id = .ok node') :
    node' = node ∨ g.node id = .ok node' := by
  rw [node_eq_ok] at h
  change (g.nodes.push node)[id]? = some node' at h
  rw [Array.getElem?_push] at h
  split at h
  · cases h
    exact Or.inl rfl
  · exact Or.inr (node_eq_ok.2 h)

theorem Clean.addNode (h : g.Clean) {node : Node} (hnode : node.kind.isMarked = false) :
    (g.addNode node).1.Clean := by
  intro id kind hkind
  obtain ⟨node', hnode', rfl⟩ := kindAt?_eq_some.1 hkind
  rcases node_addNode hnode' with rfl | hold
  · exact hnode
  · exact h id _ (kindAt?_of_node hold)

/-- Adding a node with only new nodes below it. -/
theorem Extends.addNode (h : g.Extends g') {node : Node}
    (hbelow : ∀ child ∈ node.matchedChildren, g.nodes.size ≤ child)
    (hclean : g.Clean → node.kind.isMarked = false) : g.Extends (g'.addNode node).1 where
  size := by
    show g.nodes.size ≤ (g'.nodes.push node).size
    rw [Array.size_push]
    exact Nat.le_succ_of_le h.size
  rules := h.rules
  nodes id hid := by
    show (g'.nodes.push node)[id]? = _
    rw [Array.getElem?_push, if_neg (by have := h.size; omega)]
    exact h.nodes id hid
  new id child hid hlink := by
    obtain ⟨node', hnode, hchild⟩ := hlink
    rcases node_addNode hnode with rfl | hold
    · exact hbelow child hchild
    · exact h.new id child hid ⟨node', hold, hchild⟩
  clean hg := (h.clean hg).addNode (hclean hg)

/-! ## Copies -/

theorem extends_copyAll {copy : Grammar → NodeId → Except Fault (Grammar × NodeId)}
    (hcopy : ∀ g id g' new, copy g id = .ok (g', new) → g.Extends g' ∧ g.nodes.size ≤ new)
    {ids news : List NodeId} (h : copyAll copy g ids = .ok (g', news)) :
    g.Extends g' ∧ ∀ new ∈ news, g.nodes.size ≤ new := by
  induction ids generalizing g news with
  | nil =>
    cases pure_eq_ok.1 h
    exact ⟨.refl _, nofun⟩
  | cons id rest ih =>
    rw [copyAll] at h
    obtain ⟨⟨g₁, first⟩, hfirst, h⟩ := bind_eq_ok.1 h
    obtain ⟨⟨g₂, others⟩, hothers, h⟩ := bind_eq_ok.1 h
    cases pure_eq_ok.1 h
    obtain ⟨hextends, hnew⟩ := hcopy _ _ _ _ hfirst
    obtain ⟨hextends', hnews⟩ := ih hothers
    refine ⟨hextends.trans hextends', List.forall_mem_cons.2 ⟨hnew, fun new hm => ?_⟩⟩
    exact Nat.le_trans hextends.size (hnews new hm)

/-- A copy consists of new nodes. -/
theorem extends_copyDown {depth : Nat} {new : NodeId}
    (h : copyDown depth g id = .ok (g', new)) : g.Extends g' ∧ g.nodes.size ≤ new := by
  induction depth generalizing g id g' new with
  | zero => cases h
  | succ depth ih =>
    rw [copyDown] at h
    obtain ⟨node, hnode, h⟩ := bind_eq_ok.1 h
    have hk := kindAt?_of_node hnode
    split at h
    · rename_i items hkind
      obtain ⟨⟨g₁, news⟩, hitems, h⟩ := bind_eq_ok.1 h
      cases pure_eq_ok.1 h
      obtain ⟨hextends, hnews⟩ := extends_copyAll (fun _ _ _ _ => ih) hitems
      exact ⟨hextends.addNode hnews fun _ => rfl, hextends.size⟩
    · rename_i alts hkind
      obtain ⟨⟨g₁, news⟩, harms, h⟩ := bind_eq_ok.1 h
      cases pure_eq_ok.1 h
      obtain ⟨hextends, hnews⟩ := extends_copyAll (fun _ _ _ _ => ih) harms
      exact ⟨hextends.addNode hnews fun _ => rfl, hextends.size⟩
    · rename_i predict matched hkind
      obtain ⟨⟨g₁, predict'⟩, hpredict, h⟩ := bind_eq_ok.1 h
      obtain ⟨⟨g₂, matched'⟩, hmatched, h⟩ := bind_eq_ok.1 h
      cases pure_eq_ok.1 h
      have hextends := (ih hpredict).1.trans (ih hmatched).1
      refine ⟨hextends.addNode (fun child hchild => ?_) fun _ => rfl, hextends.size⟩
      rw [List.mem_singleton.1 hchild]
      exact Nat.le_trans (ih hpredict).1.size (ih hmatched).2
    · rename_i negate payload rule prematched hkind
      obtain ⟨⟨g₁, payload'⟩, hpayload, h⟩ := bind_eq_ok.1 h
      cases pure_eq_ok.1 h
      have hextends := (ih hpayload).1
      refine ⟨hextends.addNode nofun fun hg => ?_, hextends.size⟩
      rw [hkind] at hk
      have hclean := hg id _ hk
      exact hclean
    · rename_i hsequence halternatives hgate hcheck
      cases pure_eq_ok.1 h
      refine ⟨(Extends.refl g).addNode (fun child hchild => ?_) fun hg => hg id _ hk, Nat.le_refl _⟩
      unfold Node.matchedChildren at hchild
      split at hchild
      · exact (hsequence _ ‹_›).elim
      · exact (halternatives _ ‹_›).elim
      · exact (hgate _ _ ‹_›).elim
      · cases hchild

/-! ## Rules for checks -/

/-- What growing leaves as it is. -/
structure Grown (g g' : Grammar) : Prop where
  size : g.nodes.size ≤ g'.nodes.size
  kinds : ∀ id kind, g.kindAt? id = some kind →
    ∃ kind', g'.kindAt? id = some kind' ∧ kind'.textless = kind.textless
  new : ∀ id child, g.nodes.size ≤ id → g'.Link Node.matchedChildren id child →
    g.nodes.size ≤ child
  /-- A rule has the body it had, or is new and has a new body and no parser. -/
  rules : ∀ name rule, g'.rule? name = some rule →
    (∃ old, g.rule? name = some old ∧ rule.body = old.body) ∨
      g.nodes.size ≤ rule.body ∧ rule.generatesParser = false
  keyed : g.Keyed → g'.Keyed
  clean : g.Clean → g'.Clean

theorem Grown.refl (g : Grammar) : g.Grown g where
  size := Nat.le_refl _
  kinds _ kind hk := ⟨kind, hk, rfl⟩
  new := (Extends.refl g).new
  rules _ rule hrule := Or.inl ⟨rule, hrule, rfl⟩
  keyed := id
  clean := id

theorem Keyed.of_rules (h : g.Keyed) (hrules : g'.rules = g.rules) : g'.Keyed := by
  obtain ⟨hnodup, hown⟩ := h
  unfold ruleNames at hnodup
  rw [← hrules] at hnodup hown
  exact ⟨hnodup, hown⟩

theorem addRule_eq_ok {rule : Rule} : g.addRule rule = .ok g' ↔
    g.rule? rule.name = none ∧ g' = { g with rules := g.rules ++ [(rule.name, rule)] } := by
  unfold addRule
  cases g.rule? rule.name <;> simp [eq_comm]

theorem Keyed.addRule (h : g.Keyed) {rule : Rule} (hadd : g.addRule rule = .ok g') : g'.Keyed := by
  obtain ⟨hnone, rfl⟩ := addRule_eq_ok.1 hadd
  obtain ⟨hnodup, hown⟩ := h
  constructor
  · unfold ruleNames at hnodup ⊢
    rw [List.map_append, List.map_cons, List.map_nil, ← List.concat_eq_append]
    refine List.Nodup.concat ?_ hnodup
    intro hm
    obtain ⟨entry, hentry, heq⟩ := List.mem_map.1 hm
    have := List.lookup_eq_none_iff.1 hnone entry hentry
    rw [heq] at this
    simp at this
  · intro entry hentry
    rcases List.mem_append.1 hentry with hold | hnew
    · exact hown entry hold
    · rw [List.mem_singleton.1 hnew]

theorem Grown.extends (h : g.Grown g') (h' : g'.Extends g'') : g.Grown g'' where
  size := Nat.le_trans h.size h'.size
  kinds id kind hk := by
    obtain ⟨kind', hk', htext⟩ := h.kinds id kind hk
    refine ⟨kind', ?_, htext⟩
    unfold kindAt? at hk' ⊢
    rw [h'.nodes id (lt_size_of_kindAt? hk'), hk']
  new _ _ hid hlink := h'.new_of h.size h.new hid hlink
  rules name rule hrule := h.rules name rule (rule?_of_rules h'.rules name ▸ hrule)
  keyed hg := (h.keyed hg).of_rules h'.rules
  clean hg := h'.clean (h.clean hg)

theorem Grown.annotates (h : g.Grown g') (h' : g'.Annotates g'') : g.Grown g'' where
  size := h'.kinds.sameShape.size ▸ h.size
  kinds id kind hk := by
    obtain ⟨kind₁, hk₁, htext₁⟩ := h.kinds id kind hk
    obtain ⟨kind₂, hk₂, htext₂⟩ := h'.kinds.kindAt? hk₁
    exact ⟨kind₂, hk₂, htext₂.trans htext₁⟩
  new id child hid hlink := h.new id child hid (h'.kinds.sameShape.symm.link hlink)
  rules name rule hrule := h.rules name rule (rule?_of_rules h'.rules name ▸ hrule)
  keyed hg := (h.keyed hg).of_rules h'.rules
  clean hg id kind hk := by
    obtain ⟨kind', hk', htext⟩ := h'.kinds.symm.kindAt? hk
    rw [← NodeKind.isMarked_of_textless htext]
    exact h.clean hg id kind' hk'

theorem Grown.addRule (h : g.Grown g') {rule : Rule} (hadd : g'.addRule rule = .ok g'')
    (hbody : g.nodes.size ≤ rule.body) (hparser : rule.generatesParser = false) : g.Grown g'' := by
  obtain ⟨-, rfl⟩ := addRule_eq_ok.1 hadd
  refine ⟨h.size, h.kinds, h.new, ?_, fun hg => (h.keyed hg).addRule hadd, h.clean⟩
  intro name rule' hrule
  unfold Grammar.rule? at hrule
  rw [List.lookup_append, Option.or_eq_some_iff] at hrule
  rcases hrule with hold | ⟨-, hnew⟩
  · exact h.rules name rule' hold
  · rw [List.lookup_cons] at hnew
    split at hnew
    · cases hnew
      exact Or.inr ⟨hbody, hparser⟩
    · cases hnew

theorem textless_withCheckRule (rule : String) (node : Node) :
    (node.withCheckRule rule).kind.textless = node.kind.textless := by
  unfold Node.withCheckRule
  split
  · rename_i hkind
    rw [hkind]
    rfl
  · rfl

theorem Grown.synthesizeRule (h : g.Grown g') {pending : PendingCheck}
    (hs : g'.synthesizeRule pending = .ok g'') : g.Grown g'' := by
  unfold Grammar.synthesizeRule at hs
  obtain ⟨⟨g₁, body⟩, hcopy, hs⟩ := bind_eq_ok.1 hs
  obtain ⟨hextends, hnew⟩ := extends_copyDown (liftM_eq_ok.1 hcopy)
  simp only at hs
  split at hs
  · cases hs
  · rename_i g₂ hadd
    have hgrown := (h.extends hextends).addRule hadd (Nat.le_trans h.size hnew) rfl
    exact hgrown.annotates
      (annotates_modifyNode (liftM_eq_ok.1 hs) fun node _ => textless_withCheckRule _ node)

/-- What each round keeps, all of them keep. In a round the checks that wait for rules get them. -/
theorem rounds_invariant {P : Grammar → Prop}
    (hround : ∀ g pending g', P g → g.pendingChecks = .ok pending →
      pending.foldlM Grammar.synthesizeRule g = .ok g' → P g')
    {rounds : Nat} (hP : P g) (h : synthesizeRounds rounds g = .ok g') : P g' := by
  induction rounds generalizing g with
  | zero => cases h
  | succ rounds ih =>
    rw [Grammar.synthesizeRounds] at h
    obtain ⟨pending, hpending, h⟩ := bind_eq_ok.1 h
    split at h
    · cases pure_eq_ok.1 h
      exact hP
    · obtain ⟨g₁, hg₁, h⟩ := bind_eq_ok.1 h
      exact ih (hround g pending g₁ hP (liftM_eq_ok.1 hpending) hg₁) h

theorem Grown.synthesizeRounds {rounds : Nat} (h : g.Grown g')
    (hs : synthesizeRounds rounds g' = .ok g'') : g.Grown g'' := by
  refine rounds_invariant (P := g.Grown) (fun now pending next hnow _ hround => ?_) h hs
  exact foldlM_invariant (fun _ _ _ _ hgrown hstep => hgrown.synthesizeRule hstep) hnow hround

theorem grown_synthesizeRecognizers (h : g.synthesizeRecognizers = .ok g') : g.Grown g' :=
  (Grown.refl g).synthesizeRounds h

/-! ## Names of recognizers -/

theorem rule?_modifyRule {f : Rule → Rule} (name other : String) :
    (g.modifyRule name f).rule? other =
      (g.rule? other).map fun rule => if other = name then f rule else rule := by
  unfold rule? modifyRule
  simp only
  induction g.rules with
  | nil => rfl
  | cons entry rest ih =>
    obtain ⟨key, rule⟩ := entry
    rw [List.map_cons]
    by_cases hkey : other = key
    · subst hkey
      by_cases hname : other = name
      · simp [hname]
      · simp [hname]
    · have hbeq : (other == key) = false := beq_eq_false_iff_ne.2 hkey
      by_cases hname : key = name
      · simpa [hname, List.lookup_cons, hname ▸ hbeq] using ih
      · simpa [hname, List.lookup_cons, hbeq] using ih

theorem Grown.modifyRule (h : g.Grown g') {f : Rule → Rule} (name : String)
    (hname : ∀ rule, (f rule).name = rule.name) (hbody : ∀ rule, (f rule).body = rule.body)
    (hparser : ∀ rule, (f rule).generatesParser = rule.generatesParser) :
    g.Grown (g'.modifyRule name f) := by
  refine ⟨h.size, h.kinds, h.new, ?_, ?_, h.clean⟩
  · intro other rule hrule
    rw [rule?_modifyRule] at hrule
    obtain ⟨old, hold, rfl⟩ := Option.map_eq_some_iff.1 hrule
    have hsame := h.rules other old hold
    split
    · rw [hbody, hparser]
      exact hsame
    · exact hsame
  · intro hg
    obtain ⟨hnodup, hown⟩ := h.keyed hg
    refine ⟨?_, ?_⟩
    · unfold Grammar.ruleNames Grammar.modifyRule at *
      rw [List.map_map]
      convert hnodup using 2
      funext entry
      simp only [Function.comp_apply]
      split <;> rfl
    · intro entry hentry
      obtain ⟨old, hold, rfl⟩ := List.mem_map.1 hentry
      have hsame := hown old hold
      split
      · exact (hname _).trans hsame
      · exact hsame

theorem Grown.nameRecognizers (h : g.Grown g') (called : List String) :
    g.Grown (called.foldl (fun g name => g.modifyRule name fun rule =>
      { rule with recognizer := rule.recognizer.or (some (recognizerName name)) }) g') := by
  induction called generalizing g' with
  | nil => exact h
  | cons name rest ih =>
    apply ih
    apply h.modifyRule name
    · exact fun _ => rfl
    · exact fun _ => rfl
    · exact fun _ => rfl

theorem Grown.assignRecognizers (h : g.Grown g') (ha : g'.assignRecognizers = .ok g'') :
    g.Grown g'' := by
  unfold Grammar.assignRecognizers at ha
  obtain ⟨reached, -, ha⟩ := bind_eq_ok.1 ha
  rw [← pure_eq_ok.1 ha]
  exact h.nameRecognizers _

/-! ## Later grammars -/

/-- What holds from then on, up to what analysis attaches to nodes. -/
structure Keeps (g g' : Grammar) : Prop where
  shape : g.ShapeIn g'
  new : ∀ id child, g.nodes.size ≤ id → g'.Link Node.matchedChildren id child →
    g.nodes.size ≤ child
  rules : ∀ name rule, g'.rule? name = some rule →
    (∃ old, g.rule? name = some old ∧ rule.body = old.body) ∨
      g.nodes.size ≤ rule.body ∧ rule.generatesParser = false
  keyed : g'.Keyed

theorem Grown.keeps (h : g.Grown g') (hg : g.Keyed) : g.Keeps g' where
  shape id kind hk := by
    obtain ⟨kind', hk', htext⟩ := h.kinds id kind hk
    exact ⟨kind', hk', NodeKind.bare_of_textless htext⟩
  new := h.new
  rules := h.rules
  keyed := h.keyed hg

namespace Keeps

theorem later (h : g.Keeps g') (hshape : g'.SameShape g'') (hrules : g''.rules = g'.rules) :
    g.Keeps g'' where
  shape id kind hk := by
    obtain ⟨kind', hk', hbare⟩ := h.shape id kind hk
    obtain ⟨kind'', hk'', hbare'⟩ := hshape.kindAt? hk'
    exact ⟨kind'', hk'', hbare'.trans hbare⟩
  new id child hid hlink := h.new id child hid (hshape.symm.link hlink)
  rules name rule hrule := h.rules name rule (rule?_of_rules hrules name ▸ hrule)
  keyed := h.keyed.of_rules hrules

variable {name name' : String} {old rule : Rule}

/-- What an old rule matches later, it matched before. -/
theorem matchedBy (h : g.Keeps g') (hf : g.Forest) (hold : g.rule? name = some old)
    (hid : g'.MatchedBy old.body id) : g.MatchedBy old.body id := by
  induction hid with
  | refl => exact .refl
  | tail _ hlink ih =>
    obtain ⟨ids, hids, -, hnodes⟩ := hf.tree old (mem_ruleList_of_rule? hold)
    obtain ⟨node, hnode, -⟩ := hnodes _ ((mem_walkDown hids).2 (reaches_of_matched ih))
    obtain ⟨node', hnode', hchild⟩ := hlink
    obtain ⟨node'', hnode'', hbare⟩ := h.shape.node hnode
    rw [hnode'] at hnode''
    cases hnode''
    exact ih.tail ⟨node, hnode, Node.matchedChildren_of_bare hbare ▸ hchild⟩

/-- The node that an old rule matches was there before. -/
theorem exists_kind (h : g.Keeps g') (hf : g.Forest) (hold : g.rule? name = some old)
    (hid : g'.MatchedBy old.body id) : ∃ kind, g.kindAt? id = some kind := by
  obtain ⟨ids, hids, -, hnodes⟩ := hf.tree old (mem_ruleList_of_rule? hold)
  obtain ⟨node, hnode, -⟩ :=
    hnodes id ((mem_walkDown hids).2 (reaches_of_matched (h.matchedBy hf hold hid)))
  exact ⟨node.kind, kindAt?_of_node hnode⟩

/-- What an old rule matches is of the kind that it was. -/
theorem kind_of_matched (h : g.Keeps g') (hf : g.Forest) (hold : g.rule? name = some old)
    {kind : NodeKind} (hid : g'.MatchedBy old.body id) (hk : g'.kindAt? id = some kind) :
    ∃ kind', g.kindAt? id = some kind' ∧ kind'.bare = kind.bare := by
  obtain ⟨kind₀, hk₀⟩ := h.exists_kind hf hold hid
  obtain ⟨kind', hkind', hbare⟩ := h.shape id _ hk₀
  rw [hk] at hkind'
  cases hkind'
  exact ⟨_, hk₀, hbare.symm⟩

/-- A new rule matches new nodes only. -/
theorem size_le (h : g.Keeps g') (hbody : g.nodes.size ≤ rule.body)
    (hid : g'.MatchedBy rule.body id) : g.nodes.size ≤ id := by
  induction hid with
  | refl => exact hbody
  | tail _ hlink ih => exact h.new _ _ ih hlink

/-- An old rule shares no node with another rule. -/
theorem apart (h : g.Keeps g') (hf : g.Forest) (hold : g.rule? name = some old)
    (hrule : g'.rule? name' = some rule) (hid : g'.MatchedBy old.body id)
    (hid' : g'.MatchedBy rule.body id) : name = name' := by
  rcases h.rules name' rule hrule with ⟨old', hold', hbody⟩ | ⟨hbody, -⟩
  · rw [hbody] at hid'
    exact hf.rule_unique hold hold' (reaches_of_matched (h.matchedBy hf hold hid))
      (reaches_of_matched (h.matchedBy hf hold' hid'))
  · obtain ⟨kind, hk⟩ := h.exists_kind hf hold hid
    have hlt := lt_size_of_kindAt? hk
    have hge := h.size_le hbody hid'
    exact absurd hlt (Nat.not_lt.2 hge)

/-- The tree of an old rule. -/
theorem rooted (h : g.Keeps g') (hf : g.Forest) (hold : g.rule? name = some old) :
    g'.Rooted Node.matchedChildren old.body := by
  obtain ⟨ids, hids, hnodup⟩ := hf.nodup_walkMatched h.shape hold
  exact rooted_of_walkDown hids hnodup

end Keeps

end Grammar

end PredictiveParser
