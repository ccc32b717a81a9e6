import PredictiveParser.Proofs.Lookahead.Ending
import PredictiveParser.Proofs.Lookahead.First

/-!
# Calls that nest

A search counts the calls that have not returned on the stack of a configuration, whatever was
matched since they were entered. Here these calls are told by what the grammar allows
(`Grammar.NestedCalls`): each is entered in the rule that the one before it calls, after so many
terminals in all.

`Grammar.Inside` says how a stack lies inside such calls. One step of a search keeps it
(`Inside.opens`), so does a whole search (`Inside.reached`), and it turns the limit of a search into
calls that nest (`Inside.nestedCalls`).
-/
namespace PredictiveParser

open Relation

/-! ## Depths of stacks -/

section

variable {id : NodeId} {ids : List NodeId} {stack stack' : List Frame}

@[simp] theorem Config.callDepth_nil : Config.callDepth [] = 0 := rfl

@[simp] theorem Config.callDepth_node :
    Config.callDepth (.node id :: stack) = Config.callDepth stack := by
  simp [Config.callDepth]

@[simp] theorem Config.callDepth_ruleEnd :
    Config.callDepth (.ruleEnd :: stack) = Config.callDepth stack + 1 := by
  simp [Config.callDepth]

@[simp] theorem Config.callDepth_append :
    Config.callDepth (stack ++ stack') = Config.callDepth stack + Config.callDepth stack' := by
  simp [Config.callDepth]

@[simp] theorem Config.callDepth_map_node : Config.callDepth (ids.map Frame.node) = 0 := by
  induction ids with
  | nil => rfl
  | cons id rest ih => exact Config.callDepth_node.trans ih

end

namespace Grammar

variable {g : Grammar} {start stack stack' stack'' base below : List Frame} {id : NodeId}
  {n n' ahead calls : Nat}

/-! ## Consuming terminals -/

/-- Matching so many terminals off the top of a stack leaves another stack. -/
inductive Consumes (g : Grammar) : (terminals : Nat) → List Frame → List Frame → Prop where
  | refl (stack : List Frame) : Consumes g 0 stack stack
  | opens {n : Nat} {stack stack' stack'' : List Frame} (way : Consumes g n stack stack')
      (step : g.Opens stack' stack'') : Consumes g n stack stack''
  | terminal {n : Nat} {stack below : List Frame} {id : NodeId} {set : CharSet} {mark : Option Bool}
      (way : Consumes g n stack (.node id :: below))
      (kind : g.kindAt? id = some (.terminal set mark)) : Consumes g (n + 1) stack below

theorem Consumes.trans (h : g.Consumes n stack stack') (h' : g.Consumes n' stack' stack'') :
    g.Consumes (n + n') stack stack'' := by
  induction h' with
  | refl => exact h
  | opens _ step ih => exact (ih h).opens step
  | terminal _ kind ih => exact (ih h).terminal kind

/-- What is opened does not depend on what is below it. -/
theorem Opens.append (h : g.Opens stack stack') (base : List Frame) :
    g.Opens (stack ++ base) (stack' ++ base) := by
  cases h with
  | ruleEnd => exact .ruleEnd
  | sequence kind =>
    rw [pushNodes, List.append_assoc]
    exact .sequence kind
  | @arm id arm alts below kind mem =>
    have hbehind : alts.behindArm id below ++ base = alts.behindArm id (below ++ base) := by
      unfold Alternatives.behindArm
      split <;> rfl
    rw [List.cons_append, List.cons_append, hbehind]
    exact .arm kind mem
  | exit kind hasExit => exact .exit kind hasExit
  | gate kind => exact .gate kind
  | check kind => exact .check kind
  | call kind callee => exact .call kind callee

theorem Consumes.append (h : g.Consumes n stack stack') (base : List Frame) :
    g.Consumes n (stack ++ base) (stack' ++ base) := by
  induction h with
  | refl stack => exact .refl _
  | opens _ step ih => exact ih.opens (step.append base)
  | terminal _ kind ih => exact ih.terminal kind

/-- In place of a node stand frames of the same rule, after so many terminals. -/
def Becomes (g : Grammar) (n : Nat) (id : NodeId) (frames : List Frame) : Prop :=
  g.Consumes n [.node id] frames ∧ Config.callDepth frames = 0

/-- A node on top of a stack is replaced by frames of the same rule, or entered as a call. -/
theorem Opens.cases (h : g.Opens stack stack') :
    stack = .ruleEnd :: stack' ∨ ∃ id below, stack = .node id :: below ∧
      ((∃ frames, g.Becomes 0 id frames ∧ stack' = frames ++ below) ∨
        ∃ name rule, g.kindAt? id = some (.call name) ∧ g.rule? name = some rule ∧
          stack' = .node rule.body :: .ruleEnd :: below) := by
  cases h with
  | ruleEnd => exact Or.inl rfl
  | @sequence id items below kind =>
    refine Or.inr ⟨id, below, rfl, Or.inl ⟨items.map .node, ⟨?_, Config.callDepth_map_node⟩, rfl⟩⟩
    have step : g.Opens [.node id] (pushNodes items []) := .sequence kind
    rw [pushNodes, List.append_nil] at step
    exact .opens (.refl _) step
  | @arm id arm alts below kind mem =>
    refine Or.inr ⟨id, below, rfl, Or.inl ⟨.node arm :: alts.behindArm id [], ⟨?_, ?_⟩, ?_⟩⟩
    · exact .opens (.refl _) (.arm kind mem)
    · unfold Alternatives.behindArm
      split <;> rfl
    · unfold Alternatives.behindArm
      split <;> rfl
  | @exit id alts _ kind hasExit =>
    exact Or.inr ⟨id, stack', rfl, Or.inl ⟨[], ⟨.opens (.refl _) (.exit kind hasExit), rfl⟩, rfl⟩⟩
  | @gate id predict matched below kind =>
    exact Or.inr ⟨id, below, rfl,
      Or.inl ⟨[.node predict], ⟨.opens (.refl _) (.gate kind), rfl⟩, rfl⟩⟩
  | @check id check _ kind =>
    exact Or.inr ⟨id, stack', rfl, Or.inl ⟨[], ⟨.opens (.refl _) (.check kind), rfl⟩, rfl⟩⟩
  | @call id name rule below kind callee =>
    exact Or.inr ⟨id, below, rfl, Or.inr ⟨name, rule, kind, callee, rfl⟩⟩

/-! ## Nested calls -/

/-- From a stack on, so many calls are entered one inside the other; `ahead` terminals are matched
before the last of them, which is at the node. -/
inductive NestedCalls (g : Grammar) (start : List Frame) : (calls ahead : Nat) → NodeId → Prop where
  | first {ahead : Nat} {id : NodeId} {name : String} {below : List Frame}
      (way : g.Consumes ahead start (.node id :: below)) (kind : g.kindAt? id = some (.call name)) :
      NestedCalls g start 1 ahead id
  | inside {calls ahead n : Nat} {outer id : NodeId} {callee name : String} {rule : Rule}
      {below : List Frame} (enclosing : NestedCalls g start calls ahead outer)
      (entered : g.kindAt? outer = some (.call callee)) (found : g.rule? callee = some rule)
      (way : g.Consumes n [.node rule.body] (.node id :: below))
      (kind : g.kindAt? id = some (.call name)) : NestedCalls g start (calls + 1) (ahead + n) id

/-- How a stack that is left after `ahead` terminals lies inside calls: what is above the innermost
return was made of the body of the called rule, and the call was on top of what is below. -/
inductive Inside (g : Grammar) (start : List Frame) : (ahead calls : Nat) → List Frame → Prop where
  | outside {ahead : Nat} {stack : List Frame} (way : g.Consumes ahead start stack)
      (depth : Config.callDepth stack = 0) : Inside g start ahead 0 stack
  | called {ahead n calls : Nat} {id : NodeId} {name : String} {rule : Rule} {top below : List Frame}
      (enclosing : Inside g start ahead calls (.node id :: below))
      (entered : g.kindAt? id = some (.call name)) (found : g.rule? name = some rule)
      (way : g.Consumes n [.node rule.body] top) (depth : Config.callDepth top = 0) :
      Inside g start (ahead + n) (calls + 1) (top ++ .ruleEnd :: below)

theorem Inside.callDepth (h : g.Inside start ahead calls stack) : Config.callDepth stack = calls := by
  induction h with
  | outside way depth => exact depth
  | called enclosing entered found way depth ih =>
    rw [Config.callDepth_node] at ih
    rw [Config.callDepth_append, Config.callDepth_ruleEnd, depth, ih, Nat.zero_add]

/-- Where a call can be entered from a stack, the calls that the stack lies in are nested. -/
theorem Inside.nestedCalls {name : String} (h : g.Inside start ahead calls (.node id :: below))
    (hkind : g.kindAt? id = some (.call name)) : g.NestedCalls start (calls + 1) ahead id := by
  generalize hstack : Frame.node id :: below = stack at h
  induction h generalizing id below name with
  | outside way depth =>
    subst hstack
    exact .first way hkind
  | @called ahead n calls outer callee rule top rest enclosing entered found way depth ih =>
    cases top with
    | nil => cases hstack
    | cons frame top =>
      cases hstack
      exact (ih entered rfl).inside entered found way hkind

/-- In place of a node on top of a stack come frames of the same rule. -/
theorem Inside.becomes {frames : List Frame} (h : g.Inside start ahead calls (.node id :: below))
    (hframes : g.Becomes n id frames) : g.Inside start (ahead + n) calls (frames ++ below) := by
  obtain ⟨hway, hdepth⟩ := hframes
  generalize hstack : Frame.node id :: below = stack at h
  cases h with
  | outside way depth =>
    subst hstack
    rw [Config.callDepth_node] at depth
    refine .outside (way.trans (hway.append below)) ?_
    rw [Config.callDepth_append, hdepth, depth]
  | @called ahead n' calls outer name rule top rest enclosing entered found way depth =>
    cases top with
    | nil => cases hstack
    | cons frame top =>
      cases hstack
      rw [Config.callDepth_node] at depth
      rw [Nat.add_assoc]
      show g.Inside start _ _ (frames ++ (top ++ .ruleEnd :: rest))
      rw [← List.append_assoc]
      refine enclosing.called entered found (way.trans (hway.append top)) ?_
      rw [Config.callDepth_append, hdepth, depth]

/-- A called rule returns: its call has been matched by what was matched in its body. -/
theorem Inside.returns (h : g.Inside start ahead calls (.ruleEnd :: below)) :
    ∃ calls', g.Inside start ahead calls' below := by
  generalize hstack : Frame.ruleEnd :: below = stack at h
  cases h with
  | outside way depth =>
    subst hstack
    rw [Config.callDepth_ruleEnd] at depth
    cases depth
  | @called ahead n calls outer name rule top rest enclosing entered found way depth =>
    cases top with
    | cons frame top =>
      cases hstack
      rw [Config.callDepth_ruleEnd] at depth
      cases depth
    | nil =>
      cases hstack
      have enter : g.Consumes 0 [.node outer] [.node rule.body, .ruleEnd] :=
        .opens (.refl _) (.call entered found)
      have through : g.Consumes n [.node outer] [] := by
        have := (enter.trans (way.append [.ruleEnd])).opens .ruleEnd
        rwa [Nat.zero_add] at this
      exact ⟨calls, enclosing.becomes ⟨through, rfl⟩⟩

theorem Inside.opens (h : g.Inside start ahead calls stack) (hopens : g.Opens stack stack') :
    ∃ calls', g.Inside start ahead calls' stack' := by
  rcases hopens.cases with rfl | ⟨id, below, rfl, ⟨frames, hframes, rfl⟩ | ⟨name, rule, hkind, hrule, rfl⟩⟩
  · exact h.returns
  · exact ⟨calls, h.becomes hframes⟩
  · exact ⟨calls + 1, h.called hkind hrule (.refl _) rfl⟩

/-- A terminal is matched. -/
theorem Inside.terminal {set : CharSet} {mark : Option Bool}
    (h : g.Inside start ahead calls (.node id :: below))
    (hkind : g.kindAt? id = some (.terminal set mark)) : g.Inside start (ahead + 1) calls below := by
  have matched : g.Becomes 1 id [] := ⟨.terminal (.refl _) hkind, rfl⟩
  exact h.becomes matched

end Grammar

/-! ## Searches -/

namespace Lookahead

variable {la : Lookahead} {start : List Frame} {ahead : Nat} {config config' : Config}
  {set : CharSet}

/-- What is left to match lies inside calls that were entered from a stack on, or nothing is left. -/
def InsideFrom (la : Lookahead) (start : List Frame) (ahead : Nat) (config : Config) : Prop :=
  config.stack = [] ∨ ∃ calls, la.grammar.Inside start ahead calls config.stack

theorem insideFrom_ofStack (la : Lookahead) (hdepth : Config.callDepth start = 0) :
    la.InsideFrom start 0 (.ofStack start) :=
  Or.inr ⟨0, .outside (.refl start) hdepth⟩

theorem InsideFrom.reached {offset : Nat} (h : la.InsideFrom start ahead config)
    (hreach : ReflTransGen (la.Expands offset) config config') :
    la.InsideFrom start ahead config' := by
  induction hreach with
  | refl => exact h
  | tail _ hexpands ih =>
    obtain ⟨hopens, -⟩ := hexpands.opens
    rcases ih with hnil | ⟨calls, hinside⟩
    · rw [hnil] at hopens
      cases hopens
    · exact Or.inr (hinside.opens hopens)

theorem InsideFrom.offers {offset : Nat} (h : la.InsideFrom start ahead config)
    (hoffers : la.Offers offset config set config') : la.InsideFrom start (ahead + 1) config' := by
  cases offers_iff_takes.1 hoffers with
  | follow | everything => exact Or.inl rfl
  | terminal kind =>
    rcases h with hnil | ⟨calls, hinside⟩
    · cases hnil
    · exact Or.inr ⟨calls, hinside.terminal kind⟩

theorem InsideFrom.steps {offset : Nat} {found : List (CharSet × Config)}
    (h : la.InsideFrom start ahead config) (hfound : la.steps config offset = .ok found) :
    ∀ step ∈ found, la.InsideFrom start (ahead + 1) step.2 := by
  rintro ⟨set, next⟩ hstep
  obtain ⟨c, hreach, hoffers⟩ := (mem_steps_iff hfound set next).1 hstep
  exact (h.reached hreach).offers hoffers

/-- A search that comes to the limit has met more nested calls than it allows. -/
theorem InsideFrom.recursionLimit {offset limit : Nat} {rule : String}
    (h : la.InsideFrom start ahead config)
    (hsteps : la.steps config offset = .error (.error (.recursionLimit rule limit))) :
    rule = la.rule ∧ limit = la.recursionLimit ∧ ∃ calls id, la.recursionLimit < calls ∧
      la.grammar.NestedCalls start calls ahead id := by
  rcases steps_eq_error hsteps with ⟨c, hreach, hexpand⟩ | hrun
  · obtain ⟨id, below, hstack, ⟨fault, -, hfault⟩ | ⟨name, hkind, ⟨hdepth, hlimit⟩ | ⟨-, hother⟩⟩⟩ :=
      expand_eq_error hexpand
    · cases hfault
    rotate_left
    · cases hother
    cases hlimit
    refine ⟨rfl, rfl, ?_⟩
    rcases h.reached hreach with hnil | ⟨calls, hinside⟩
    · rw [hnil] at hstack
      cases hstack
    · rw [hstack] at hinside
      have hcalls := hinside.callDepth
      rw [Config.callDepth_node] at hcalls
      exact ⟨calls + 1, id, by omega, hinside.nestedCalls hkind⟩
  · rw [Lookahead.steps, hrun] at hsteps
    cases hsteps

end Lookahead

end PredictiveParser
