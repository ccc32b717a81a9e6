import PredictiveParser.Proofs.Grammar.Trees
import PredictiveParser.Proofs.Lookahead.Search

/-!
# What a configuration stands for

What an expansion can do is told by two relations, which know neither a limit on calls nor an order of
visits. The top of a stack stands for something else (`Lookahead.Unfolds`), or it takes a terminal
(`Lookahead.Takes`). An expansion does nothing but that (`Expands.unfolds`, `offers_iff_takes`), and where
a configuration can be expanded, all that it stands for is among what replaces it (`Unfolds.expands`).
-/
namespace PredictiveParser

namespace Lookahead

/-! ## Expanding a node -/

/-- What a node of some kind stands for when it is on top of a stack. -/
def expandKind (la : Lookahead) (offset : Nat) (id : NodeId) (stack : List Frame) (checks : CheckSet)
    (past : Bool) : NodeKind → Except (Failure GenerationError) Expansion
  | .sequence items => .ok (.configs [⟨pushNodes items stack, checks, past⟩])
  | .alternatives alts => .ok (.configs ((if alts.hasExit then [⟨stack, checks, past⟩] else []) ++
      alts.arms.map fun arm => ⟨.node arm :: alts.behindArm id stack, checks, past⟩))
  | .gate predict _ => .ok (.configs [⟨.node predict :: stack, checks, past⟩])
  | .check _ => .ok (.configs [⟨stack, checks.insert ⟨id, offset⟩, past⟩])
  | .call callee =>
    if la.recursionLimit ≤ Config.callDepth stack then
      .error (.error (.recursionLimit la.rule la.recursionLimit))
    else match la.grammar.rule? callee with
      | none => .error (.error (.unknownRule la.rule callee))
      | some rule => .ok (.configs [⟨.node rule.body :: .ruleEnd :: stack, checks, past⟩])
  | .terminal set _ => .ok (.terminal set ⟨stack, checks, past⟩)

theorem expand_node {la : Lookahead} {offset : Nat} {id : NodeId} {stack : List Frame}
    {checks : CheckSet} {past : Bool} {kind : NodeKind} (h : la.grammar.kindAt? id = some kind) :
    la.expand offset ⟨.node id :: stack, checks, past⟩ =
      la.expandKind offset id stack checks past kind := by
  obtain ⟨node, hnode, hkind⟩ := Grammar.kindAt?_eq_some.1 h
  obtain ⟨kind', label, isList, saver, preAction, postAction, basis⟩ := node
  obtain rfl : kind' = kind := hkind
  unfold expand
  simp only [hnode]
  cases kind' with
  | call callee =>
    show (if _ then _ else _) = (if _ then _ else _)
    split
    · rfl
    · cases la.grammar.rule? callee <;> rfl
  | _ => rfl

variable {la : Lookahead} {offset : Nat} {config config' next : Config} {set : CharSet}

theorem kindAt?_of_expand {id : NodeId} {stack : List Frame} {checks : CheckSet} {past : Bool}
    {expansion : Expansion}
    (h : la.expand offset ⟨.node id :: stack, checks, past⟩ = .ok expansion) :
    ∃ kind, la.grammar.kindAt? id = some kind ∧
      la.expandKind offset id stack checks past kind = .ok expansion := by
  obtain ⟨node, hnode, -⟩ := bind_eq_ok.1 h
  have hkind := Grammar.kindAt?_of_node (liftM_eq_ok.1 hnode)
  exact ⟨node.kind, hkind, (expand_node hkind).symm.trans h⟩

/-! ## Unfolding -/

/-- A configuration stands for another one, with the thing on top of the stack replaced. -/
inductive Unfolds (la : Lookahead) (offset : Nat) : Config → Config → Prop where
  | sequence {id : NodeId} {items : List NodeId} {stack : List Frame} {checks : CheckSet} {past : Bool}
      (kind : la.grammar.kindAt? id = some (.sequence items)) :
      Unfolds la offset ⟨.node id :: stack, checks, past⟩ ⟨pushNodes items stack, checks, past⟩
  /-- A repeated set comes again after the arm. -/
  | arm {id arm : NodeId} {alts : Alternatives} {stack : List Frame} {checks : CheckSet} {past : Bool}
      (kind : la.grammar.kindAt? id = some (.alternatives alts)) (mem : arm ∈ alts.arms) :
      Unfolds la offset ⟨.node id :: stack, checks, past⟩
        ⟨.node arm :: alts.behindArm id stack, checks, past⟩
  | exit {id : NodeId} {alts : Alternatives} {stack : List Frame} {checks : CheckSet} {past : Bool}
      (kind : la.grammar.kindAt? id = some (.alternatives alts)) (hasExit : alts.hasExit = true) :
      Unfolds la offset ⟨.node id :: stack, checks, past⟩ ⟨stack, checks, past⟩
  | gate {id predict matched : NodeId} {stack : List Frame} {checks : CheckSet} {past : Bool}
      (kind : la.grammar.kindAt? id = some (.gate predict matched)) :
      Unfolds la offset ⟨.node id :: stack, checks, past⟩ ⟨.node predict :: stack, checks, past⟩
  /-- A check is recorded for the place where it is met. -/
  | check {id : NodeId} {check : Check} {stack : List Frame} {checks : CheckSet} {past : Bool}
      (kind : la.grammar.kindAt? id = some (.check check)) :
      Unfolds la offset ⟨.node id :: stack, checks, past⟩ ⟨stack, checks.insert ⟨id, offset⟩, past⟩
  | call {id : NodeId} {name : String} {rule : Rule} {stack : List Frame} {checks : CheckSet}
      {past : Bool} (kind : la.grammar.kindAt? id = some (.call name))
      (callee : la.grammar.rule? name = some rule) :
      Unfolds la offset ⟨.node id :: stack, checks, past⟩
        ⟨.node rule.body :: .ruleEnd :: stack, checks, past⟩
  | ruleEnd {stack : List Frame} {checks : CheckSet} {past : Bool} :
      Unfolds la offset ⟨.ruleEnd :: stack, checks, past⟩ ⟨stack, checks, past⟩

/-- A configuration takes a terminal of a set, which leaves another one. Behind the end of the rule the
follow set comes once, and everything afterwards. -/
inductive Takes (la : Lookahead) : Config → CharSet → Config → Prop where
  | terminal {id : NodeId} {set : CharSet} {mark : Option Bool} {stack : List Frame}
      {checks : CheckSet} {past : Bool} (kind : la.grammar.kindAt? id = some (.terminal set mark)) :
      Takes la ⟨.node id :: stack, checks, past⟩ set ⟨stack, checks, past⟩
  | follow {checks : CheckSet} : Takes la ⟨[], checks, false⟩ la.follow ⟨[], checks, true⟩
  | everything {checks : CheckSet} : Takes la ⟨[], checks, true⟩ .everything ⟨[], checks, true⟩

/-! ## Expansions -/

theorem Expands.unfolds (h : la.Expands offset config config') : la.Unfolds offset config config' := by
  obtain ⟨stack, checks, past⟩ := config
  obtain ⟨expansion, hexpand, hmem⟩ := h
  rcases stack with - | ⟨id | -, below⟩
  · unfold expand at hexpand
    simp only at hexpand
    split at hexpand <;> cases hexpand
  · obtain ⟨kind, hkind, hexpand⟩ := kindAt?_of_expand hexpand
    cases kind with
    | sequence items =>
      cases hexpand
      cases List.mem_singleton.1 hmem
      exact .sequence hkind
    | alternatives alts =>
      cases hexpand
      rcases List.mem_append.1 hmem with hmem | hmem
      · split at hmem
        · rename_i hasExit
          cases List.mem_singleton.1 hmem
          exact .exit hkind hasExit
        · cases hmem
      · obtain ⟨arm, harm, rfl⟩ := List.mem_map.1 hmem
        exact .arm hkind harm
    | gate predict matched =>
      cases hexpand
      cases List.mem_singleton.1 hmem
      exact .gate hkind
    | check check =>
      cases hexpand
      cases List.mem_singleton.1 hmem
      exact .check hkind
    | call name =>
      unfold expandKind at hexpand
      simp only at hexpand
      split at hexpand
      · cases hexpand
      · split at hexpand
        · cases hexpand
        · rename_i rule hrule
          cases hexpand
          cases List.mem_singleton.1 hmem
          exact .call hkind hrule
    | terminal set mark => cases hexpand
  · cases hexpand
    cases List.mem_singleton.1 hmem
    exact .ruleEnd

/-- Where a configuration can be expanded, everything that it stands for is among what replaces it. -/
theorem Unfolds.expands (h : la.Unfolds offset config config') {expansion : Expansion}
    (hexpand : la.expand offset config = .ok expansion) : la.Expands offset config config' := by
  cases h with
  | sequence kind => exact ⟨_, expand_node kind, List.mem_cons_self⟩
  | arm kind mem =>
    exact ⟨_, expand_node kind, List.mem_append_right _ (List.mem_map_of_mem mem)⟩
  | exit kind hasExit =>
    refine ⟨_, expand_node kind, List.mem_append_left _ ?_⟩
    rw [if_pos hasExit]
    exact List.mem_cons_self
  | gate kind => exact ⟨_, expand_node kind, List.mem_cons_self⟩
  | check kind => exact ⟨_, expand_node kind, List.mem_cons_self⟩
  | call kind callee =>
    have hexpand' := hexpand
    rw [expand_node kind] at hexpand'
    simp only [expandKind, callee] at hexpand'
    split at hexpand'
    · cases hexpand'
    · cases hexpand'
      exact ⟨_, hexpand, List.mem_cons_self⟩
  | ruleEnd => exact ⟨_, rfl, List.mem_cons_self⟩

theorem offers_iff_takes : la.Offers offset config set next ↔ la.Takes config set next := by
  constructor
  · intro h
    obtain ⟨stack, checks, past⟩ := config
    unfold Offers at h
    rcases stack with - | ⟨id | -, below⟩
    · cases past <;> cases h
      · exact .follow
      · exact .everything
    · obtain ⟨kind, hkind, h⟩ := kindAt?_of_expand h
      cases kind with
      | terminal set mark =>
        cases h
        exact .terminal hkind
      | call name =>
        unfold expandKind at h
        simp only at h
        split at h
        · cases h
        · split at h <;> cases h
      | sequence | alternatives | gate | check => cases h
    · cases h
  · intro h
    cases h with
    | terminal kind => exact expand_node kind
    | follow => rfl
    | everything => rfl

end Lookahead

end PredictiveParser
