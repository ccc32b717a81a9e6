import Mathlib.Data.List.Forall2
import Mathlib.Tactic.Common
import PredictiveParser.Error

/-!
# Steps that succeed

What it means that a composed step in `Except` succeeds: each of its parts does. A list of steps
succeeds with a list of results of the same length, related place by place by `List.Forall₂`.
-/
namespace PredictiveParser

variable {ε α β : Type}

theorem bind_eq_ok {x : Except ε α} {f : α → Except ε β} {b : β} :
    (x >>= f) = .ok b ↔ ∃ a, x = .ok a ∧ f a = .ok b := by
  cases x with
  | error e => exact ⟨nofun, nofun⟩
  | ok a => exact ⟨fun h => ⟨a, rfl, h⟩, fun ⟨_, h, h'⟩ => by cases h; exact h'⟩

/-- A composed step succeeds with what is wanted when its first part succeeds and the rest does for
every result the first part may have. -/
theorem exists_bind_eq_ok {x : Except ε α} {f : α → Except ε β} {P : α → Prop} {Q : β → Prop}
    (hx : ∃ a, x = .ok a ∧ P a) (hf : ∀ a, P a → ∃ b, f a = .ok b ∧ Q b) :
    ∃ b, (x >>= f) = .ok b ∧ Q b := by
  obtain ⟨a, rfl, ha⟩ := hx
  exact hf a ha

theorem toOption_eq_some {x : Except ε α} {a : α} : x.toOption = some a ↔ x = .ok a := by
  cases x with
  | error e => exact ⟨nofun, nofun⟩
  | ok b => exact ⟨fun h => by cases h; rfl, fun h => by cases h; rfl⟩

theorem pure_eq_ok {a b : α} : (pure a : Except ε α) = .ok b ↔ a = b :=
  ⟨fun h => by cases h; rfl, fun h => by rw [h]; rfl⟩

theorem mapError_eq_ok {δ : Type} {f : ε → δ} {x : Except ε α} {a : α} :
    x.mapError f = .ok a ↔ x = .ok a := by
  cases x with
  | error e => exact ⟨nofun, nofun⟩
  | ok b => exact ⟨fun h => by cases h; rfl, fun h => by rw [h]; rfl⟩

theorem liftM_eq_ok {x : Except Fault α} {a : α} :
    (liftM x : Except (Failure ε) α) = .ok a ↔ x = .ok a := mapError_eq_ok

theorem mapM_eq_ok {f : α → Except ε β} {as : List α} {bs : List β} :
    as.mapM f = .ok bs ↔ List.Forall₂ (fun a b => f a = .ok b) as bs := by
  induction as generalizing bs with
  | nil =>
    rw [List.mapM_nil, pure_eq_ok, List.forall₂_nil_left_iff]
    exact eq_comm
  | cons a rest ih =>
    rw [List.mapM_cons, bind_eq_ok, List.forall₂_cons_left_iff]
    constructor
    · rintro ⟨b, hb, h⟩
      obtain ⟨bs', hbs, h⟩ := bind_eq_ok.1 h
      exact ⟨b, bs', hb, ih.1 hbs, (pure_eq_ok.1 h).symm⟩
    · rintro ⟨b, bs', hb, hbs, rfl⟩
      exact ⟨b, hb, bind_eq_ok.2 ⟨bs', ih.2 hbs, rfl⟩⟩

theorem exists_mapM_eq_ok {f : α → Except ε β} {as : List α} (h : ∀ a ∈ as, ∃ b, f a = .ok b) :
    ∃ bs, as.mapM f = .ok bs := by
  induction as with
  | nil => exact ⟨[], rfl⟩
  | cons a rest ih =>
    obtain ⟨b, hb⟩ := h a List.mem_cons_self
    obtain ⟨bs, hbs⟩ := ih fun a ha => h a (List.mem_cons_of_mem _ ha)
    exact ⟨b :: bs, mapM_eq_ok.2 (.cons hb (mapM_eq_ok.1 hbs))⟩

theorem foldlM_cons_eq_ok {f : β → α → Except ε β} {a : α} {as : List α} {b b' : β} :
    (a :: as).foldlM f b = .ok b' ↔ ∃ m, f b a = .ok m ∧ as.foldlM f m = .ok b' := by
  rw [List.foldlM_cons, bind_eq_ok]

/-- What holds before a fold and is kept by each of its steps holds after it. -/
theorem foldlM_invariant {f : β → α → Except ε β} {P : β → Prop} {as : List α}
    (step : ∀ a ∈ as, ∀ b b', P b → f b a = .ok b' → P b') {b b' : β} (hb : P b)
    (h : as.foldlM f b = .ok b') : P b' := by
  induction as generalizing b with
  | nil =>
    rw [List.foldlM_nil, pure_eq_ok] at h
    rw [← h]
    exact hb
  | cons a rest ih =>
    obtain ⟨m, hm, h⟩ := foldlM_cons_eq_ok.1 h
    exact ih (fun a ha => step a (List.mem_cons_of_mem _ ha)) (step a List.mem_cons_self b m hb hm) h

/-- A fold whose steps go from one value to the next by what they read of each element. -/
theorem foldlM_eq_ok {γ : Type} {f : β → α → Except ε β} {R : α → γ → Prop} {next : β → γ → β}
    (step : ∀ b a b', f b a = .ok b' ↔ ∃ c, R a c ∧ b' = next b c) {as : List α} {b b' : β} :
    as.foldlM f b = .ok b' ↔ ∃ cs, List.Forall₂ R as cs ∧ b' = cs.foldl next b := by
  induction as generalizing b with
  | nil =>
    rw [List.foldlM_nil, pure_eq_ok]
    constructor
    · rintro rfl
      exact ⟨[], .nil, rfl⟩
    · rintro ⟨_, ⟨⟩, rfl⟩
      rfl
  | cons a rest ih =>
    rw [foldlM_cons_eq_ok]
    constructor
    · rintro ⟨m, hm, h⟩
      obtain ⟨c, hc, rfl⟩ := (step _ _ _).1 hm
      obtain ⟨cs, hcs, rfl⟩ := ih.1 h
      exact ⟨c :: cs, .cons hc hcs, rfl⟩
    · rintro ⟨_, hcs, rfl⟩
      cases hcs with
      | cons hc hcs => exact ⟨_, (step _ _ _).2 ⟨_, hc, rfl⟩, ih.2 ⟨_, hcs, rfl⟩⟩

/-- What each step of a fold adds for its element to what holds for those before it. -/
theorem foldlM_append_invariant {f : β → α → Except ε β} {P : List α → β → Prop} {as : List α}
    (step : ∀ done a b b', P done b → f b a = .ok b' → P (done ++ [a]) b') {b b' : β} (hb : P [] b)
    (h : as.foldlM f b = .ok b') : P as b' := by
  suffices hall : ∀ done, P done b → P (done ++ as) b' from hall [] hb
  clear hb
  intro done hdone
  induction as generalizing done b with
  | nil =>
    rw [List.foldlM_nil, pure_eq_ok] at h
    rwa [← h, List.append_nil]
  | cons a rest ih =>
    obtain ⟨m, hm, h⟩ := foldlM_cons_eq_ok.1 h
    rw [List.append_cons]
    exact ih h (done ++ [a]) (step done a b m hdone hm)

/-! ## Two runs -/

/-- Where the first step succeeds, so does the second, and their results are related. -/
def Mirrors (R : α → β → Prop) (x : Except ε α) (y : Except ε β) : Prop :=
  ∀ a, x = .ok a → ∃ b, y = .ok b ∧ R a b

section

variable {γ δ ι : Type} {R : α → β → Prop} {S : γ → δ → Prop} {x : Except ε α} {y : Except ε β}

theorem mirrors_pure {a : α} {b : β} (hab : R a b) :
    Mirrors R (pure a : Except ε α) (pure b) := by
  intro a' ha
  obtain rfl := pure_eq_ok.1 ha
  exact ⟨b, rfl, hab⟩

theorem Mirrors.bind (hx : Mirrors R x y) {f : α → Except ε γ} {k : β → Except ε δ}
    (hf : ∀ a b, R a b → Mirrors S (f a) (k b)) : Mirrors S (x >>= f) (y >>= k) := by
  intro c hc
  obtain ⟨a, ha, hc⟩ := bind_eq_ok.1 hc
  obtain ⟨b, hb, hab⟩ := hx a ha
  obtain ⟨d, hd, hcd⟩ := hf a b hab c hc
  exact ⟨d, bind_eq_ok.2 ⟨b, hb, hd⟩, hcd⟩

/-- Both runs begin with the same step. -/
theorem mirrors_bind (x : Except ε α) {f : α → Except ε γ} {k : α → Except ε δ}
    (hf : ∀ a, x = .ok a → Mirrors S (f a) (k a)) : Mirrors S (x >>= f) (x >>= k) := by
  intro c hc
  obtain ⟨a, ha, hc⟩ := bind_eq_ok.1 hc
  obtain ⟨d, hd, hcd⟩ := hf a ha c hc
  exact ⟨d, bind_eq_ok.2 ⟨a, ha, hd⟩, hcd⟩

/-- What is known of each result of the first run may be used. -/
theorem Mirrors.and_left {P : α → Prop} (hx : Mirrors R x y) (hP : ∀ a, x = .ok a → P a) :
    Mirrors (fun a b => P a ∧ R a b) x y := by
  intro a ha
  obtain ⟨b, hb, hab⟩ := hx a ha
  exact ⟨b, hb, hP a ha, hab⟩

theorem Mirrors.lift {x : Except Fault α} {y : Except Fault β} (hx : Mirrors R x y) :
    Mirrors R (liftM x : Except (Failure ε) α) (liftM y : Except (Failure ε) β) := by
  intro a ha
  obtain ⟨b, hb, hab⟩ := hx a (liftM_eq_ok.1 ha)
  exact ⟨b, liftM_eq_ok.2 hb, hab⟩

theorem Mirrors.foldlM {f : α → ι → Except ε α} {k : β → ι → Except ε β} {is : List ι}
    (step : ∀ i ∈ is, ∀ a b, R a b → Mirrors R (f a i) (k b i)) {a : α} {b : β} (hab : R a b) :
    Mirrors R (is.foldlM f a) (is.foldlM k b) := by
  induction is generalizing a b with
  | nil => exact mirrors_pure hab
  | cons i rest ih =>
    rw [List.foldlM_cons, List.foldlM_cons]
    exact (step i List.mem_cons_self a b hab).bind fun a b hab =>
      ih (fun i hi => step i (List.mem_cons_of_mem _ hi)) hab

end

theorem Forall₂.exists_of_mem_left {R : α → β → Prop} {as : List α} {bs : List β}
    (h : List.Forall₂ R as bs) {a : α} (ha : a ∈ as) : ∃ b ∈ bs, R a b := by
  induction h with
  | nil => cases ha
  | cons hab _ ih =>
    rcases List.mem_cons.1 ha with rfl | ha
    · exact ⟨_, List.mem_cons_self, hab⟩
    · obtain ⟨b, hb, hr⟩ := ih ha
      exact ⟨b, List.mem_cons_of_mem _ hb, hr⟩

theorem Forall₂.exists_of_mem_right {R : α → β → Prop} {as : List α} {bs : List β}
    (h : List.Forall₂ R as bs) {b : β} (hb : b ∈ bs) : ∃ a ∈ as, R a b := by
  obtain ⟨a, ha, hr⟩ := Forall₂.exists_of_mem_left h.flip hb
  exact ⟨a, ha, hr⟩

end PredictiveParser
