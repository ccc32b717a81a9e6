import PredictiveParser.Proofs.Lookahead.Unfolding

/-!
# Looking ahead sees what the input does

`Grammar.Reads` says how a stack of frames gets from one place of the input to another in the eyes
of lookahead: the predicted side stands for a gate, and checks are passed. A configuration admits
the input at a place (`Lookahead.Admits`) when its stack reads a piece of it and the next terminal
may follow the rule; past the end of the rule anything is admitted.

`Admits.step`: if a configuration admits the input, then one of the steps that a search finds from it
takes the next terminal and leaves a configuration that admits the input behind that terminal.
-/
namespace PredictiveParser

open Relation

section

variable {σ : Type} [Source σ]

inductive Grammar.Reads (g : Grammar) : List Frame → σ → σ → Prop where
  | nil {s : σ} : Reads g [] s s
  | ruleEnd {stack : List Frame} {s t : σ} (rest : Reads g stack s t) :
      Reads g (.ruleEnd :: stack) s t
  | sequence {id : NodeId} {items : List NodeId} {stack : List Frame} {s t : σ}
      (kind : g.kindAt? id = some (.sequence items)) (rest : Reads g (pushNodes items stack) s t) :
      Reads g (.node id :: stack) s t
  | arm {id arm : NodeId} {alts : Alternatives} {stack : List Frame} {s t : σ}
      (kind : g.kindAt? id = some (.alternatives alts)) (mem : arm ∈ alts.arms)
      (rest : Reads g (.node arm :: alts.behindArm id stack) s t) : Reads g (.node id :: stack) s t
  | exit {id : NodeId} {alts : Alternatives} {stack : List Frame} {s t : σ}
      (kind : g.kindAt? id = some (.alternatives alts)) (hasExit : alts.hasExit = true)
      (rest : Reads g stack s t) : Reads g (.node id :: stack) s t
  | gate {id predict matched : NodeId} {stack : List Frame} {s t : σ}
      (kind : g.kindAt? id = some (.gate predict matched))
      (rest : Reads g (.node predict :: stack) s t) : Reads g (.node id :: stack) s t
  | check {id : NodeId} {check : Check} {stack : List Frame} {s t : σ}
      (kind : g.kindAt? id = some (.check check)) (rest : Reads g stack s t) :
      Reads g (.node id :: stack) s t
  | call {id : NodeId} {name : String} {rule : Rule} {stack : List Frame} {s t : σ}
      (kind : g.kindAt? id = some (.call name)) (callee : g.rule? name = some rule)
      (rest : Reads g (.node rule.body :: .ruleEnd :: stack) s t) : Reads g (.node id :: stack) s t
  | terminal {id : NodeId} {set : CharSet} {mark : Option Bool} {stack : List Frame} {s t : σ}
      (kind : g.kindAt? id = some (.terminal set mark))
      (accepted : set.contains (Source.lookahead s 0) = true)
      (rest : Reads g stack (Source.advance s) t) : Reads g (.node id :: stack) s t

end

namespace Lookahead

/-! ## Admitted input -/

variable {σ : Type} [Source σ] {la : Lookahead} {offset : Nat}

/-- The input at a place is one that the configuration foresees. -/
def Admits (la : Lookahead) (config : Config) (s : σ) : Prop :=
  config.pastEnd = false ∧
    (∃ t : σ, la.grammar.Reads config.stack s t ∧ la.follow.contains (Source.lookahead t 0) = true) ∨
  config.pastEnd = true ∧ config.stack = []

theorem admits_ofStack {stack : List Frame} {s : σ} :
    la.Admits (.ofStack stack) s ↔ ∃ t : σ, la.grammar.Reads stack s t ∧
      la.follow.contains (Source.lookahead t 0) = true := by
  simp [Admits, Config.ofStack]

/-- A configuration that can be reached takes the next terminal. -/
def TakesNext (la : Lookahead) (offset : Nat) (config : Config) (s : σ) : Prop :=
  ∃ c set next, ReflTransGen (la.Expands offset) config c ∧ la.Offers offset c set next ∧
    set.contains (Source.lookahead s 0) = true ∧ la.Admits next (Source.advance s)

theorem TakesNext.head {config config' : Config} {s : σ} (h : la.Expands offset config config')
    (h' : la.TakesNext offset config' s) : la.TakesNext offset config s := by
  obtain ⟨c, set, next, hc, hrest⟩ := h'
  exact ⟨c, set, next, .head h hc, hrest⟩

/-- What a configuration stands for takes the next terminal in its place, as far as there is nothing that
cannot be expanded. -/
theorem TakesNext.unfolds {config config' : Config} {s : σ} (h : la.Unfolds offset config config')
    (hexp : ∀ c, ReflTransGen (la.Expands offset) config c →
      ∃ expansion, la.expand offset c = .ok expansion)
    (h' : (∀ c, ReflTransGen (la.Expands offset) config' c →
      ∃ expansion, la.expand offset c = .ok expansion) → la.TakesNext offset config' s) :
    la.TakesNext offset config s := by
  obtain ⟨expansion, hexpand⟩ := hexp config .refl
  have hstep := h.expands hexpand
  exact .head hstep (h' fun c hc => hexp c (.head hstep hc))

theorem takesNext_of_reads (offset : Nat) {stack : List Frame} {checks : CheckSet} {s t : σ}
    (h : la.grammar.Reads stack s t) (hf : la.follow.contains (Source.lookahead t 0) = true)
    (hexp : ∀ c, ReflTransGen (la.Expands offset) ⟨stack, checks, false⟩ c →
      ∃ expansion, la.expand offset c = .ok expansion) :
    la.TakesNext offset ⟨stack, checks, false⟩ s := by
  induction h generalizing checks with
  | nil => exact ⟨_, la.follow, ⟨[], checks, true⟩, .refl, rfl, hf, Or.inr ⟨rfl, rfl⟩⟩
  | ruleEnd rest ih => exact .unfolds .ruleEnd hexp (ih hf)
  | sequence kind rest ih => exact .unfolds (.sequence kind) hexp (ih hf)
  | arm kind mem rest ih => exact .unfolds (.arm kind mem) hexp (ih hf)
  | exit kind hasExit rest ih => exact .unfolds (.exit kind hasExit) hexp (ih hf)
  | gate kind rest ih => exact .unfolds (.gate kind) hexp (ih hf)
  | check kind rest ih => exact .unfolds (.check kind) hexp (ih hf)
  | call kind callee rest ih => exact .unfolds (.call kind callee) hexp (ih hf)
  | @terminal id set mark stack s t kind accepted rest ih =>
    exact ⟨_, set, ⟨stack, checks, false⟩, .refl, expand_node kind, accepted,
      Or.inl ⟨rfl, t, rest, hf⟩⟩

/-- A search from a configuration that admits the input finds a step along the input. -/
theorem Admits.step [LawfulSource σ] {config : Config} {s : σ} (h : la.Admits config s)
    {found : List (CharSet × Config)} (hs : la.steps config offset = .ok found) :
    ∃ set next, (set, next) ∈ found ∧ set.contains (Source.lookahead s 0) = true ∧
      la.Admits next (Source.advance s) := by
  obtain ⟨stack, checks, past⟩ := config
  rcases h with ⟨rfl, t, hr, hf⟩ | ⟨rfl, hstack⟩
  · obtain ⟨c, set, next, hc, ho, hset, hnext⟩ :=
      takesNext_of_reads offset hr hf fun c hc => exists_expand_of_steps hs hc
    exact ⟨set, next, (mem_steps_iff hs set next).2 ⟨c, hc, ho⟩, hset, hnext⟩
  · simp only at hstack
    subst hstack
    refine ⟨.everything, ⟨[], checks, true⟩, (mem_steps_iff hs _ _).2 ⟨_, .refl, rfl⟩, ?_,
      Or.inr ⟨rfl, rfl⟩⟩
    exact CharSet.contains_everything.2 (isTerminal s 0)

end Lookahead

end PredictiveParser
