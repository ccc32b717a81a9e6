import PredictiveParser.Proofs.Success

/-!
# Stateful steps that succeed

Analysis, lowering and generation are steps that may fail and that change a state. `Yields` says that
such a step succeeds from a state with a result and leaves another state; a composed step does so
when its parts do, one after the other.
-/
namespace PredictiveParser

variable {ε σ α β : Type}

/-- The step succeeds from the first state with the result and leaves the second state. -/
def Yields (x : ExceptT ε (StateM σ) α) (s : σ) (a : α) (s' : σ) : Prop :=
  StateT.run (ExceptT.run x) s = (.ok a, s')

theorem run_bind (x : ExceptT ε (StateM σ) α) (f : α → ExceptT ε (StateM σ) β) (s : σ) :
    StateT.run (ExceptT.run (x >>= f)) s =
      match StateT.run (ExceptT.run x) s with
      | (.ok a, m) => StateT.run (ExceptT.run (f a)) m
      | (.error e, m) => (.error e, m) := by
  show (StateT.run (ExceptT.run x >>= ExceptT.bindCont f) s) = _
  simp only [StateT.run_bind]
  show (match StateT.run (ExceptT.run x) s with
    | (a, m) => StateT.run (ExceptT.bindCont f a) m) = _
  rcases StateT.run (ExceptT.run x) s with ⟨e | a, m⟩ <;> rfl

theorem yields_bind {x : ExceptT ε (StateM σ) α} {f : α → ExceptT ε (StateM σ) β} {s s' : σ} {b : β} :
    Yields (x >>= f) s b s' ↔ ∃ a m, Yields x s a m ∧ Yields (f a) m b s' := by
  unfold Yields
  rw [run_bind]
  rcases StateT.run (ExceptT.run x) s with ⟨e | a, m⟩
  · exact ⟨nofun, nofun⟩
  · constructor
    · exact fun h => ⟨a, m, rfl, h⟩
    · rintro ⟨a', m', h, h'⟩
      cases h
      exact h'

theorem yields_pure {a b : α} {s s' : σ} :
    Yields (pure a : ExceptT ε (StateM σ) α) s b s' ↔ b = a ∧ s' = s := by
  constructor
  · intro h
    cases h
    exact ⟨rfl, rfl⟩
  · rintro ⟨rfl, rfl⟩
    rfl

theorem not_yields_throw {e : ε} {a : α} {s s' : σ} :
    ¬ Yields (throw e : ExceptT ε (StateM σ) α) s a s' := nofun

theorem yields_set {u : PUnit} {new s s' : σ} :
    Yields (set new : ExceptT ε (StateM σ) PUnit) s u s' ↔ s' = new := by
  constructor
  · intro h
    cases h
    rfl
  · rintro rfl
    rfl

theorem yields_modify {u : PUnit} {f : σ → σ} {s s' : σ} :
    Yields (modify f : ExceptT ε (StateM σ) PUnit) s u s' ↔ s' = f s := by
  constructor
  · intro h
    cases h
    rfl
  · rintro rfl
    rfl

theorem yields_get_bind {f : σ → ExceptT ε (StateM σ) β} {b : β} {s s' : σ} :
    Yields (get >>= f) s b s' ↔ Yields (f s) s b s' := by
  rw [yields_bind]
  constructor
  · rintro ⟨a, m, ha, h⟩
    cases ha
    exact h
  · exact fun h => ⟨s, s, rfl, h⟩

/-- A result that does not depend on the state. -/
theorem yields_lift {result : Except ε α} {a : α} {s s' : σ} :
    Yields (ExceptT.mk (pure result) : ExceptT ε (StateM σ) α) s a s' ↔ result = .ok a ∧ s' = s := by
  constructor
  · intro h
    cases h
    exact ⟨rfl, rfl⟩
  · rintro ⟨rfl, rfl⟩
    rfl

theorem yields_lift_bind {result : Except ε α} {f : α → ExceptT ε (StateM σ) β} {b : β} {s s' : σ} :
    Yields ((ExceptT.mk (pure result) : ExceptT ε (StateM σ) α) >>= f) s b s' ↔
      ∃ a, result = .ok a ∧ Yields (f a) s b s' := by
  rw [yields_bind]
  constructor
  · rintro ⟨a, m, ha, h⟩
    obtain ⟨hresult, rfl⟩ := yields_lift.1 ha
    exact ⟨a, hresult, h⟩
  · rintro ⟨a, ha, h⟩
    exact ⟨a, s, yields_lift.2 ⟨ha, rfl⟩, h⟩

theorem yields_map {f : α → β} {x : ExceptT ε (StateM σ) α} {s s' : σ} {b : β} :
    Yields (f <$> x) s b s' ↔ ∃ a, Yields x s a s' ∧ b = f a := by
  rw [map_eq_pure_bind, yields_bind]
  constructor
  · rintro ⟨a, m, hx, h⟩
    obtain ⟨rfl, rfl⟩ := yields_pure.1 h
    exact ⟨a, hx, rfl⟩
  · rintro ⟨a, hx, rfl⟩
    exact ⟨a, s', hx, rfl⟩

theorem yields_mapM_cons {f : α → ExceptT ε (StateM σ) β} {a : α} {as : List α} {bs : List β}
    {s s' : σ} : Yields ((a :: as).mapM f) s bs s' ↔
      ∃ b m bs', Yields (f a) s b m ∧ Yields (as.mapM f) m bs' s' ∧ bs = b :: bs' := by
  rw [List.mapM_cons, yields_bind]
  constructor
  · rintro ⟨b, m, hb, h⟩
    obtain ⟨bs', m', hbs, h⟩ := yields_bind.1 h
    obtain ⟨rfl, rfl⟩ := yields_pure.1 h
    exact ⟨b, m, bs', hb, hbs, rfl⟩
  · rintro ⟨b, m, bs', hb, hbs, rfl⟩
    exact ⟨b, m, hb, yields_bind.2 ⟨bs', s', hbs, rfl⟩⟩

theorem yields_mapM_nil {f : α → ExceptT ε (StateM σ) β} {bs : List β} {s s' : σ} :
    Yields (([] : List α).mapM f) s bs s' ↔ bs = [] ∧ s' = s := by
  rw [List.mapM_nil, yields_pure]

/-- Each result comes from its own element, from some state on. -/
theorem forall₂_of_yields_mapM {f : α → ExceptT ε (StateM σ) β} {as : List α} {bs : List β}
    {s s' : σ} (h : Yields (as.mapM f) s bs s') :
    List.Forall₂ (fun a b => ∃ s₁ s₂, Yields (f a) s₁ b s₂) as bs := by
  induction as generalizing bs s with
  | nil =>
    obtain ⟨rfl, -⟩ := yields_mapM_nil.1 h
    exact .nil
  | cons a as ih =>
    obtain ⟨b, m, rest, hb, hrest, rfl⟩ := yields_mapM_cons.1 h
    exact .cons ⟨s, m, hb⟩ (ih hrest)

theorem yields_forM_cons {f : α → ExceptT ε (StateM σ) PUnit} {a : α} {as : List α} {u : PUnit}
    {s s' : σ} : Yields ((a :: as).forM f) s u s' ↔
      ∃ m, Yields (f a) s ⟨⟩ m ∧ Yields (as.forM f) m u s' := by
  show Yields (f a >>= fun _ => as.forM f) s u s' ↔ _
  rw [yields_bind]
  exact ⟨fun ⟨_, m, h⟩ => ⟨m, h⟩, fun ⟨m, h⟩ => ⟨⟨⟩, m, h⟩⟩

theorem yields_forM_nil {f : α → ExceptT ε (StateM σ) PUnit} {u : PUnit} {s s' : σ} :
    Yields (([] : List α).forM f) s u s' ↔ s' = s :=
  yields_pure.trans (and_iff_right rfl)

theorem run_tryCatch (x : ExceptT ε (StateM σ) α) (handler : ε → ExceptT ε (StateM σ) α) (s : σ) :
    StateT.run (ExceptT.run (tryCatch x handler)) s =
      match StateT.run (ExceptT.run x) s with
      | (.ok a, m) => (.ok a, m)
      | (.error e, m) => StateT.run (ExceptT.run (handler e)) m := by
  show StateT.run (ExceptT.run x >>= fun result => match result with
    | .ok a => pure (Except.ok a)
    | .error e => ExceptT.run (handler e)) s = _
  rw [StateT.run_bind]
  show (match StateT.run (ExceptT.run x) s with
    | (result, m) => StateT.run (match result with
      | .ok a => pure (Except.ok a)
      | .error e => ExceptT.run (handler e)) m) = _
  rcases StateT.run (ExceptT.run x) s with ⟨e | a, m⟩ <;> rfl

/-! ## Journals -/

section

variable {γ : Type} {P Q : γ → Prop} {old mid new : List γ} {journal : σ → List γ}

/-- The new journal says what the old one said, and then what `P` allows. -/
def Adds (P : γ → Prop) (old new : List γ) : Prop :=
  ∃ more, new = old ++ more ∧ ∀ entry ∈ more, P entry

namespace Adds

theorem refl (P : γ → Prop) (old : List γ) : Adds P old old :=
  ⟨[], (List.append_nil old).symm, List.forall_mem_nil P⟩

theorem append {more : List γ} (h : ∀ entry ∈ more, P entry) : Adds P old (old ++ more) :=
  ⟨more, rfl, h⟩

theorem trans (h : Adds P old mid) (h' : Adds P mid new) : Adds P old new := by
  obtain ⟨more, rfl, hmore⟩ := h
  obtain ⟨others, rfl, hothers⟩ := h'
  exact ⟨more ++ others, List.append_assoc old more others, List.forall_mem_append.2 ⟨hmore, hothers⟩⟩

theorem imp (h : Adds P old new) (himp : ∀ entry, P entry → Q entry) : Adds Q old new := by
  obtain ⟨more, rfl, hmore⟩ := h
  exact append fun entry hentry => himp entry (hmore entry hentry)

theorem subset (h : Adds P old new) : old ⊆ new := by
  obtain ⟨more, rfl, -⟩ := h
  exact List.subset_append_left old more

end Adds

/-- Whatever comes of the step, the journal says more, and only what `P` allows. -/
def Logs (journal : σ → List γ) (P : γ → Prop) (x : ExceptT ε (StateM σ) α) : Prop :=
  ∀ s, Adds P (journal s) (journal (StateT.run (ExceptT.run x) s).2)

theorem Logs.yields {x : ExceptT ε (StateM σ) α} (h : Logs journal P x) {s s' : σ} {a : α}
    (hx : Yields x s a s') : Adds P (journal s) (journal s') := by
  have := h s
  rwa [hx] at this

theorem Logs.imp {x : ExceptT ε (StateM σ) α} (h : Logs journal P x)
    (himp : ∀ entry, P entry → Q entry) : Logs journal Q x :=
  fun s => (h s).imp himp

theorem logs_pure (a : α) : Logs journal P (pure a : ExceptT ε (StateM σ) α) :=
  fun s => .refl P (journal s)

theorem logs_throw (e : ε) : Logs journal P (throw e : ExceptT ε (StateM σ) α) :=
  fun s => .refl P (journal s)

theorem logs_lift (result : Except ε α) :
    Logs journal P (ExceptT.mk (pure result) : ExceptT ε (StateM σ) α) :=
  fun s => .refl P (journal s)

theorem logs_get : Logs journal P (get : ExceptT ε (StateM σ) σ) :=
  fun s => .refl P (journal s)

theorem logs_modify {f : σ → σ} (h : ∀ s, Adds P (journal s) (journal (f s))) :
    Logs journal P (modify f : ExceptT ε (StateM σ) PUnit) := h

theorem Logs.bind {x : ExceptT ε (StateM σ) α} {f : α → ExceptT ε (StateM σ) β}
    (hx : Logs journal P x) (hf : ∀ a, Logs journal P (f a)) : Logs journal P (x >>= f) := by
  intro s
  have hs := hx s
  rw [run_bind]
  revert hs
  rcases StateT.run (ExceptT.run x) s with ⟨e | a, m⟩ <;> intro hs
  · exact hs
  · exact hs.trans (hf a m)

theorem Logs.tryCatch {x : ExceptT ε (StateM σ) α} {handler : ε → ExceptT ε (StateM σ) α}
    (hx : Logs journal P x) (hh : ∀ e, Logs journal P (handler e)) :
    Logs journal P (MonadExcept.tryCatch x handler) := by
  intro s
  have hs := hx s
  rw [run_tryCatch]
  revert hs
  rcases StateT.run (ExceptT.run x) s with ⟨e | a, m⟩ <;> intro hs
  · exact hs.trans (hh e m)
  · exact hs

theorem logs_forM {f : α → ExceptT ε (StateM σ) PUnit} (hf : ∀ a, Logs journal P (f a))
    (as : List α) : Logs journal P (as.forM f) := by
  induction as with
  | nil => exact logs_pure _
  | cons a as ih => exact (hf a).bind fun _ => ih

theorem logs_mapM {f : α → ExceptT ε (StateM σ) β} (hf : ∀ a, Logs journal P (f a))
    (as : List α) : Logs journal P (as.mapM f) := by
  induction as with
  | nil =>
    rw [List.mapM_nil]
    exact logs_pure _
  | cons a as ih =>
    rw [List.mapM_cons]
    exact (hf a).bind fun b => ih.bind fun bs => logs_pure _

/-! ## Steps that succeed from every state -/

/-- From every state the step succeeds, and the journal says more, and only what `P` allows. -/
def Succeeds (journal : σ → List γ) (P : γ → Prop) (x : ExceptT ε (StateM σ) α) : Prop :=
  ∀ s, ∃ a s', Yields x s a s' ∧ Adds P (journal s) (journal s')

theorem succeeds_pure (a : α) : Succeeds journal P (pure a : ExceptT ε (StateM σ) α) :=
  fun s => ⟨a, s, rfl, .refl P (journal s)⟩

theorem succeeds_get : Succeeds journal P (get : ExceptT ε (StateM σ) σ) :=
  fun s => ⟨s, s, rfl, .refl P (journal s)⟩

theorem succeeds_modify {f : σ → σ} (h : ∀ s, Adds P (journal s) (journal (f s))) :
    Succeeds journal P (modify f : ExceptT ε (StateM σ) PUnit) :=
  fun s => ⟨⟨⟩, f s, rfl, h s⟩

theorem Succeeds.bind {x : ExceptT ε (StateM σ) α} {f : α → ExceptT ε (StateM σ) β}
    (hx : Succeeds journal P x) (hf : ∀ a, Succeeds journal P (f a)) :
    Succeeds journal P (x >>= f) := by
  intro s
  obtain ⟨a, m, ha, hlog⟩ := hx s
  obtain ⟨b, s', hb, hlog'⟩ := hf a m
  exact ⟨b, s', yields_bind.2 ⟨a, m, ha, hb⟩, hlog.trans hlog'⟩

theorem succeeds_lift_bind {result : Except ε α} {a : α} {f : α → ExceptT ε (StateM σ) β}
    (hresult : result = .ok a) (hf : Succeeds journal P (f a)) :
    Succeeds journal P ((ExceptT.mk (pure result) : ExceptT ε (StateM σ) α) >>= f) := by
  intro s
  obtain ⟨b, s', hb, hlog⟩ := hf s
  exact ⟨b, s', yields_lift_bind.2 ⟨a, hresult, hb⟩, hlog⟩

theorem Succeeds.map {x : ExceptT ε (StateM σ) α} (hx : Succeeds journal P x) (f : α → β) :
    Succeeds journal P (f <$> x) := by
  rw [map_eq_pure_bind]
  exact hx.bind fun a => succeeds_pure (f a)

theorem succeeds_mapM {f : α → ExceptT ε (StateM σ) β} {as : List α}
    (hf : ∀ a ∈ as, Succeeds journal P (f a)) : Succeeds journal P (as.mapM f) := by
  induction as with
  | nil =>
    rw [List.mapM_nil]
    exact succeeds_pure []
  | cons a as ih =>
    rw [List.mapM_cons]
    refine (hf a List.mem_cons_self).bind fun b => ?_
    exact (ih fun a ha => hf a (List.mem_cons_of_mem _ ha)).bind fun bs => succeeds_pure _

end

end PredictiveParser
