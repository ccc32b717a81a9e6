import PredictiveParser.Proofs.Grammar.Copies
import PredictiveParser.Proofs.Grammar.Paths

/-!
# What trees accept

When every choice is allowed, a node leads from a place of the input to others (`Grammar.Accepts`). Where it
leads to depends on where the nodes right below it lead to (`accepts_iff`): a sequence leads there in turn,
and a loop is a repetition. So trees with the same nodes accept the same (`accepts_congr`), and so does a
twin, when the checks in it have the values that they have in the other tree (`TwinOf.accepts_iff`).
-/
namespace PredictiveParser

open Relation

section

variable {α β σ : Type}

/-- One step after the other. -/
def InTurn (step : α → σ → σ → Prop) : List α → σ → σ → Prop
  | [], s, t => t = s
  | a :: rest, s, t => ∃ m, step a s m ∧ InTurn step rest m t

/-- A step, as often as it may be made. -/
def Repetition.Repeats (once : σ → σ → Prop) (s t : σ) : Repetition → Prop
  | .once => once s t
  | .star => ReflTransGen once s t
  | .opt => once s t ∨ t = s

variable {step : α → σ → σ → Prop} {step' : β → σ → σ → Prop} {as : List α} {bs : List β} {s t : σ}

theorem inTurn_congr (h : List.Forall₂ (fun a b => ∀ s t, step' b s t ↔ step a s t) as bs) :
    InTurn step' bs s t ↔ InTurn step as s t := by
  induction h generalizing s with
  | nil => rfl
  | cons hfirst _ ih => exact exists_congr fun m => and_congr (hfirst s m) ih

theorem exists_mem_congr (h : List.Forall₂ (fun a b => ∀ s t, step' b s t ↔ step a s t) as bs) :
    (∃ b ∈ bs, step' b s t) ↔ ∃ a ∈ as, step a s t := by
  constructor
  · rintro ⟨b, hb, hstep⟩
    obtain ⟨a, ha, hiff⟩ := Forall₂.exists_of_mem_right h hb
    exact ⟨a, ha, (hiff s t).1 hstep⟩
  · rintro ⟨a, ha, hstep⟩
    obtain ⟨b, hb, hiff⟩ := Forall₂.exists_of_mem_left h ha
    exact ⟨b, hb, (hiff s t).2 hstep⟩

end

variable {σ : Type} [Source σ]

/-- The tree under a node leads from one place to another. -/
def Grammar.Accepts (g : Grammar) (values : CheckValues σ) (call : Calling σ) (id : NodeId) (s t : σ) :
    Prop :=
  ∃ c, Matches g values anyChoice call (.node id) s c t

/-- Where a node of a kind leads to, by where the nodes right below it lead to. -/
def NodeKind.Accepts (values : CheckValues σ) (call : Calling σ) (below : NodeId → σ → σ → Prop)
    (id : NodeId) (s t : σ) : NodeKind → Prop
  | .sequence items => InTurn below items s t
  | .alternatives alts => alts.mode.Repeats (fun s t => ∃ arm ∈ alts.arms, below arm s t) s t
  | .gate _ matched => below matched s t
  | .check test => (values ⟨id, 0⟩ s != test.negate) = true ∧ t = s
  | .call rule => ∃ c, call rule s c t
  | .terminal set _ => set.contains (Source.lookahead s 0) = true ∧ t = Source.advance s

namespace Grammar

variable {g g' : Grammar} {values : CheckValues σ} {call : Calling σ} {id new : NodeId} {depth : Nat}
  {s t : σ}

theorem accepts_all_iff {ids : List NodeId} : (∃ c, Matches g values anyChoice call (.all ids) s c t) ↔
    InTurn (g.Accepts values call) ids s t := by
  induction ids generalizing s with
  | nil =>
    simp only [matches_all_nil, InTurn]
    exact ⟨fun ⟨_, _, h⟩ => h, fun h => ⟨[], rfl, h⟩⟩
  | cons id rest ih =>
    constructor
    · rintro ⟨c, h⟩
      obtain ⟨c₁, m, c₂, hfirst, hrest, -⟩ := matches_all_cons.1 h
      exact ⟨m, ⟨c₁, hfirst⟩, ih.1 ⟨c₂, hrest⟩⟩
    · rintro ⟨m, ⟨c₁, hfirst⟩, hrest⟩
      obtain ⟨c₂, hrest⟩ := ih.2 hrest
      exact ⟨c₁ ++ c₂, .cons hfirst hrest⟩

/-- A loop repeats its arms. -/
theorem accepts_star_iff {alts : Alternatives} (hk : g.kindAt? id = some (.alternatives alts))
    (hmode : alts.mode = .star) : g.Accepts values call id s t ↔
      ReflTransGen (fun s t => ∃ arm ∈ alts.arms, g.Accepts values call arm s t) s t := by
  constructor
  · rintro ⟨c, h⟩
    generalize hgoal : Goal.node id = goal at h
    induction h with
    | again kind mode at_ allowed below next _ ih =>
      cases hgoal
      cases hk.symm.trans kind
      exact .head ⟨_, List.mem_of_getElem? at_, _, below⟩ (ih rfl)
    | exit => exact .refl
    | arm kind mode =>
      cases hgoal
      cases hk.symm.trans kind
      exact (mode hmode).elim
    | nil | cons => cases hgoal
    | sequence kind | gate kind | check kind | call kind | terminal kind =>
      cases hgoal
      cases hk.symm.trans kind
  · intro h
    induction h using ReflTransGen.head_induction_on with
    | refl => exact ⟨_, .exit hk (by rw [Alternatives.hasExit, hmode]; rfl) trivial⟩
    | head hstep _ ih =>
      obtain ⟨arm, harm, c₁, hbelow⟩ := hstep
      obtain ⟨index, hindex⟩ := List.mem_iff_getElem?.1 harm
      obtain ⟨c₂, hnext⟩ := ih
      exact ⟨_, .again hk hmode hindex trivial hbelow hnext⟩

/-- A choice that is no loop leads where its arms do. -/
theorem accepts_choice_iff {alts : Alternatives} (hk : g.kindAt? id = some (.alternatives alts))
    (hmode : alts.mode ≠ .star) : g.Accepts values call id s t ↔
      (∃ arm ∈ alts.arms, g.Accepts values call arm s t) ∨ alts.hasExit = true ∧ t = s := by
  constructor
  · rintro ⟨c, h⟩
    obtain ⟨index, arm, hindex, -, h⟩ | ⟨hexit, -, -, heq⟩ := (matches_kind_iff hk).1 h
    · rw [if_neg hmode] at h
      obtain ⟨c₁, hbelow, -⟩ := h
      exact Or.inl ⟨arm, List.mem_of_getElem? hindex, c₁, hbelow⟩
    · exact Or.inr ⟨hexit, heq⟩
  · rintro (⟨arm, harm, c₁, hbelow⟩ | ⟨hexit, rfl⟩)
    · obtain ⟨index, hindex⟩ := List.mem_iff_getElem?.1 harm
      exact ⟨_, .arm hk hmode hindex trivial hbelow⟩
    · exact ⟨_, .exit hk hexit trivial⟩

/-- **What a node accepts** depends on what the nodes right below it accept. -/
theorem accepts_iff {kind : NodeKind} (hk : g.kindAt? id = some kind) :
    g.Accepts values call id s t ↔ kind.Accepts values call (g.Accepts values call) id s t := by
  have hkind : g.Accepts values call id s t ↔ ∃ c, MatchesKind g values anyChoice call id s c t kind :=
    exists_congr fun c => matches_kind_iff hk
  cases kind with
  | sequence items => exact hkind.trans accepts_all_iff
  | alternatives alts =>
    cases hmode : alts.mode with
    | star =>
      rw [accepts_star_iff hk hmode, NodeKind.Accepts, hmode]
      rfl
    | once | opt =>
      simp [accepts_choice_iff hk, NodeKind.Accepts, Repetition.Repeats, Alternatives.hasExit, hmode]
  | gate predict matched => exact hkind
  | check test =>
    simp only [hkind, MatchesKind, checkHolds, hk]
    constructor
    · rintro ⟨_, hvalue, -, heq⟩
      exact ⟨hvalue, heq⟩
    · rintro ⟨hvalue, heq⟩
      exact ⟨[], hvalue, rfl, heq⟩
  | call rule => exact hkind
  | terminal set mark =>
    simp only [hkind, MatchesKind]
    constructor
    · rintro ⟨_, haccept, -, heq⟩
      exact ⟨haccept, heq⟩
    · rintro ⟨haccept, heq⟩
      exact ⟨[], haccept, rfl, heq⟩

/-! ## Trees compared -/

/-- Nodes with the same stem accept the same if the nodes below them do and their checks, if they are checks,
have the same value. -/
theorem accepts_withChildren {node : Node} {below : List NodeId}
    {step step' : NodeId → σ → σ → Prop}
    (hbelow : List.Forall₂ (fun child child' => ∀ s t, step' child' s t ↔ step child s t)
      node.children below) (hvalue : ∀ s, values ⟨new, 0⟩ s = values ⟨id, 0⟩ s) :
    (node.withChildren below).kind.Accepts values call step' new s t ↔
      node.kind.Accepts values call step id s t := by
  obtain ⟨kind, label, isList, saver, pre, post, basis⟩ := node
  rcases kind with items | alts | ⟨predict, matched⟩ | ⟨negate, ⟨tokens⟩ | ⟨payload, rule⟩, mark⟩ |
    callee | ⟨set, mark⟩
  · exact inTurn_congr hbelow
  · have harms : (fun s t => ∃ arm ∈ below, step' arm s t) = fun s t => ∃ arm ∈ alts.arms, step arm s t :=
      funext fun s => funext fun t => propext (exists_mem_congr hbelow)
    show Repetition.Repeats (fun s t => ∃ arm ∈ below, step' arm s t) s t alts.mode ↔ _
    rw [harms]
    rfl
  · obtain _ | ⟨-, _ | ⟨hmatched, -⟩⟩ := hbelow
    exact hmatched s t
  · exact and_congr_left' (by rw [hvalue])
  · exact and_congr_left' (by rw [hvalue])
  · rfl
  · rfl

/-- A tree accepts what it accepts in another grammar that has the same nodes there. -/
theorem accepts_congr (hdepth : g.HasDepth Node.children depth id)
    (hkeep : ∀ i, g.Reaches id i → g'.kindAt? i = g.kindAt? i) :
    g'.Accepts values call id s t ↔ g.Accepts values call id s t := by
  induction depth generalizing id s t with
  | zero => exact absurd hdepth not_hasDepth_zero
  | succ depth ih =>
    obtain ⟨node, hnode, hchildren⟩ := hasDepth_succ_iff.1 hdepth
    have hk := kindAt?_of_node hnode
    rw [accepts_iff hk, accepts_iff ((hkeep id .refl).trans hk)]
    have hsame : List.Forall₂ (fun child child' => ∀ s t, g'.Accepts values call child' s t ↔
        g.Accepts values call child s t) node.children node.children :=
      List.forall₂_same.2 fun child hchild s t => ih (hchildren child hchild) fun i hi =>
        hkeep i (.head ⟨node, hnode, hchild⟩ hi)
    have hown : List.Forall₂ (fun child child' => ∀ s t, g'.Accepts values call child' s t ↔
        g'.Accepts values call child s t) node.children node.children :=
      List.forall₂_same.2 fun _ _ _ _ => Iff.rfl
    exact (accepts_withChildren hown fun _ => rfl).symm.trans (accepts_withChildren hsame fun _ => rfl)

/-- **A twin accepts what the tree accepts.** -/
theorem TwinOf.accepts_iff (h : TwinOf g g' depth id new)
    (hvalues : ∀ path i i', g.nodeAt? id path = some i → g'.nodeAt? new path = some i' →
      ∀ s, values ⟨i', 0⟩ s = values ⟨i, 0⟩ s) :
    g'.Accepts values call new s t ↔ g.Accepts values call id s t := by
  induction depth generalizing id new s t with
  | zero => exact h.elim
  | succ depth ih =>
    obtain ⟨node, below, hnode, hnew, hbelow⟩ := h
    rw [Grammar.accepts_iff (kindAt?_of_node hnode), Grammar.accepts_iff (kindAt?_of_node hnew)]
    refine accepts_withChildren ?_ (hvalues [] id new rfl rfl)
    refine List.forall₂_iff_get.2 ⟨hbelow.length_eq, fun step hstep hstep' s t => ?_⟩
    refine ih ((List.forall₂_iff_get.1 hbelow).2 step hstep hstep') fun path i i' hi hi' => ?_
    refine hvalues (step :: path) i i' ?_ ?_
    · exact nodeAt?_cons_eq_some.2 ⟨node, _, hnode, List.getElem?_eq_getElem hstep, hi⟩
    · refine nodeAt?_cons_eq_some.2 ⟨_, _, hnew, ?_, hi'⟩
      rw [Node.children_withChildren hbelow.length_eq.symm]
      exact List.getElem?_eq_getElem hstep'

end Grammar

end PredictiveParser
