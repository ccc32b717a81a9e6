/-!
# Bounded iteration

A search repeats a step until it has an answer. To keep it total the number of steps is bounded, and
because such bounds are exponential they are given by their logarithm: stage `n` makes up to `2 ^ n`
steps, and `Iterate.run stages` goes through the stages in order.
-/
namespace PredictiveParser.Iterate

/-- Makes up to `2 ^ n` steps and gives back the answer, or the state reached without one. -/
def stage {σ ρ ε : Type} (step : σ → Except ε (σ ⊕ ρ)) : (n : Nat) → σ → Except ε (σ ⊕ ρ)
  | 0, state => step state
  | n + 1, state => do
    match ← stage step n state with
    | .inl state => stage step n state
    | .inr answer => return .inr answer

/-- Goes through `stages` stages, the first of which is stage `n`. There is no answer when all of
them end without one. -/
def runFrom {σ ρ ε : Type} (step : σ → Except ε (σ ⊕ ρ)) :
    (stages n : Nat) → σ → Except ε (Option ρ)
  | 0, _, _ => return none
  | stages + 1, n, state => do
    match ← stage step n state with
    | .inl state => runFrom step stages (n + 1) state
    | .inr answer => return some answer

/-- Repeats a step until it has an answer, for at most `2 ^ stages - 1` steps. -/
def run {σ ρ ε : Type} (step : σ → Except ε (σ ⊕ ρ)) (stages : Nat) (state : σ) :
    Except ε (Option ρ) :=
  runFrom step stages 0 state

end PredictiveParser.Iterate
