import PredictiveParser.Proofs.Yields

/-!
# Steps that fail

`FailsOnly P x` says that the step `x` fails with nothing but what `P` allows. A composed step fails only as
its parts do. The parts after the first one matter only for the results that the first one can give, so what
is known of these results can be used.
-/
namespace PredictiveParser

variable {ε α β : Type} {P : ε → Prop}

/-- Every failure of a step is one that `P` allows. -/
def FailsOnly (P : ε → Prop) (x : Except ε α) : Prop :=
  ∀ e, x = .error e → P e

namespace FailsOnly

theorem ok (a : α) : FailsOnly P (.ok a) := nofun

theorem error {e : ε} (h : P e) : FailsOnly P (.error e : Except ε α) := by
  intro e' he
  cases he
  exact h

theorem of_exists {x : Except ε α} (h : ∃ a, x = .ok a) : FailsOnly P x := by
  obtain ⟨a, rfl⟩ := h
  exact ok a

/-- A step succeeds, or fails as it may. -/
theorem ok_or_error {x : Except ε α} (h : FailsOnly P x) :
    (∃ a, x = .ok a) ∨ ∃ e, x = .error e ∧ P e := by
  cases x with
  | ok a => exact Or.inl ⟨a, rfl⟩
  | error e => exact Or.inr ⟨e, rfl, h e rfl⟩

theorem imp {Q : ε → Prop} (hPQ : ∀ e, P e → Q e) {x : Except ε α} (h : FailsOnly P x) :
    FailsOnly Q x :=
  fun e he => hPQ e (h e he)

theorem bind {x : Except ε α} {f : α → Except ε β} (hx : FailsOnly P x)
    (hf : ∀ a, x = .ok a → FailsOnly P (f a)) : FailsOnly P (x >>= f) := by
  cases x with
  | ok a => exact hf a rfl
  | error e => exact error (hx e rfl)

theorem mapM {f : α → Except ε β} {as : List α} (h : ∀ a ∈ as, FailsOnly P (f a)) :
    FailsOnly P (as.mapM f) := by
  induction as with
  | nil => exact ok []
  | cons a rest ih =>
    rw [List.mapM_cons]
    apply (h a List.mem_cons_self).bind
    intro b _
    apply (ih fun a ha => h a (List.mem_cons_of_mem _ ha)).bind
    intro bs _
    exact ok (b :: bs)

/-- A fold fails only as its steps do from states with the invariant `I`. -/
theorem foldlM {f : β → α → Except ε β} {I : β → Prop} {as : List α}
    (h : ∀ a ∈ as, ∀ b, I b → FailsOnly P (f b a) ∧ ∀ b', f b a = .ok b' → I b') {b : β}
    (hb : I b) : FailsOnly P (as.foldlM f b) := by
  induction as generalizing b with
  | nil => exact ok b
  | cons a rest ih =>
    rw [List.foldlM_cons]
    obtain ⟨hfails, hkeep⟩ := h a List.mem_cons_self b hb
    apply hfails.bind
    intro b' hb'
    exact ih (fun a ha => h a (List.mem_cons_of_mem _ ha)) (hkeep b' hb')

end FailsOnly

def failure? : Except ε α → Option ε
  | .ok _ => none
  | .error e => some e

theorem failure?_eq_some {x : Except ε α} {e : ε} : failure? x = some e ↔ x = .error e := by
  cases x with
  | ok a => exact ⟨nofun, nofun⟩
  | error e' => exact ⟨fun h => by cases h; rfl, fun h => by cases h; rfl⟩

/-- A fold succeeds when each of its steps does and keeps an invariant. -/
theorem exists_foldlM_eq_ok {f : β → α → Except ε β} {I : β → Prop} {as : List α}
    (h : ∀ a ∈ as, ∀ b, I b → ∃ b', f b a = .ok b' ∧ I b') {b : β} (hb : I b) :
    ∃ b', as.foldlM f b = .ok b' ∧ I b' := by
  induction as generalizing b with
  | nil => exact ⟨b, rfl, hb⟩
  | cons a rest ih =>
    obtain ⟨m, hm, hI⟩ := h a List.mem_cons_self b hb
    obtain ⟨b', hb', hI'⟩ := ih (fun a ha => h a (List.mem_cons_of_mem _ ha)) hI
    exact ⟨b', foldlM_cons_eq_ok.2 ⟨m, hm, hb'⟩, hI'⟩

end PredictiveParser
