import PredictiveParser.Grammar.Basic
import PredictiveParser.Proofs.Input.Lawful
import PredictiveParser.Proofs.Prediction.Select

/-!
# How a rule matches its input

`Matches` says how a node gets from one place of the input to another, and which choices it makes at
alternative sets on the way. What it leaves open is which choices are allowed (`Choosing`) and what
a called rule does. `Grammar.MatchesRule` closes it over the calls of a grammar.

* `Grammar.Derives`: every choice is allowed. This is what it means that a rule derives a piece of
  the input.
* `Grammar.Predicts`: at each alternative set the only choice is the one that the attached
  prediction tree selects on the terminals ahead. This is predictive parsing.

Both are the same relation, so a derivation is a predictive parse exactly when its choices are those
of the trees. Prediction leaves no choice, so a predictive parse is unique
(`Grammar.predicts_unique`).
-/
namespace PredictiveParser

/-- One choice: where it was made and what was chosen. -/
structure Choice where
  node : NodeId
  alt : Alt
deriving DecidableEq

/-- The value of what each check evaluates, so many terminals ahead of a place. -/
abbrev CheckValues (σ : Type) := CheckRef → σ → Bool

/-- Which choices are allowed at an alternative set. -/
abbrev Choosing (σ : Type) := Alternatives → σ → Alt → Prop

/-- What called rules do: the name of the rule, where it starts, its choices, and where it ends. -/
abbrev Calling (σ : Type) := String → σ → List Choice → σ → Prop

/-- What is matched: a node, or several nodes one after the other. -/
inductive Goal where
  | node (id : NodeId)
  | all (ids : List NodeId)

namespace Grammar

def kindAt? (g : Grammar) (id : NodeId) : Option NodeKind :=
  g.nodes[id]?.map Node.kind

/-- Whether a check holds. Places that are no checks ask for nothing. -/
def checkHolds {σ : Type} (g : Grammar) (values : CheckValues σ) (s : σ) (ref : CheckRef) : Bool :=
  match g.kindAt? ref.node with
  | some (.check check) => values ref s != check.negate
  | _ => true

end Grammar

section

variable {σ : Type} [Source σ]

inductive Matches (g : Grammar) (values : CheckValues σ) (choose : Choosing σ) (call : Calling σ) :
    Goal → σ → List Choice → σ → Prop where
  | nil {s : σ} : Matches g values choose call (.all []) s [] s
  | cons {id : NodeId} {rest : List NodeId} {s m t : σ} {c₁ c₂ : List Choice}
      (first : Matches g values choose call (.node id) s c₁ m)
      (others : Matches g values choose call (.all rest) m c₂ t) :
      Matches g values choose call (.all (id :: rest)) s (c₁ ++ c₂) t
  | sequence {id : NodeId} {items : List NodeId} {s t : σ} {c : List Choice}
      (kind : g.kindAt? id = some (.sequence items))
      (below : Matches g values choose call (.all items) s c t) :
      Matches g values choose call (.node id) s c t
  | arm {id arm : NodeId} {alts : Alternatives} {index : Nat} {s t : σ} {c : List Choice}
      (kind : g.kindAt? id = some (.alternatives alts)) (mode : alts.mode ≠ .star)
      (at_ : alts.arms[index]? = some arm) (allowed : choose alts s (.arm index))
      (below : Matches g values choose call (.node arm) s c t) :
      Matches g values choose call (.node id) s (⟨id, .arm index⟩ :: c) t
  | again {id arm : NodeId} {alts : Alternatives} {index : Nat} {s m t : σ} {c₁ c₂ : List Choice}
      (kind : g.kindAt? id = some (.alternatives alts)) (mode : alts.mode = .star)
      (at_ : alts.arms[index]? = some arm) (allowed : choose alts s (.arm index))
      (below : Matches g values choose call (.node arm) s c₁ m)
      (next : Matches g values choose call (.node id) m c₂ t) :
      Matches g values choose call (.node id) s (⟨id, .arm index⟩ :: (c₁ ++ c₂)) t
  | exit {id : NodeId} {alts : Alternatives} {s : σ}
      (kind : g.kindAt? id = some (.alternatives alts)) (hasExit : alts.hasExit = true)
      (allowed : choose alts s .exit) :
      Matches g values choose call (.node id) s [⟨id, .exit⟩] s
  | gate {id predict matched : NodeId} {s t : σ} {c : List Choice}
      (kind : g.kindAt? id = some (.gate predict matched))
      (below : Matches g values choose call (.node matched) s c t) :
      Matches g values choose call (.node id) s c t
  | check {id : NodeId} {check : Check} {s : σ} (kind : g.kindAt? id = some (.check check))
      (holds : g.checkHolds values s ⟨id, 0⟩ = true) :
      Matches g values choose call (.node id) s [] s
  | call {id : NodeId} {rule : String} {s t : σ} {c : List Choice}
      (kind : g.kindAt? id = some (.call rule)) (called : call rule s c t) :
      Matches g values choose call (.node id) s c t
  | terminal {id : NodeId} {set : CharSet} {mark : Option Bool} {s : σ}
      (kind : g.kindAt? id = some (.terminal set mark))
      (accepted : set.contains (Source.lookahead s 0) = true) :
      Matches g values choose call (.node id) s [] (Source.advance s)

def anyChoice : Choosing σ := fun _ _ _ => True

namespace Grammar

/-- The choice that the prediction tree of an alternative set selects. -/
def predictedChoice (g : Grammar) (values : CheckValues σ) : Choosing σ := fun alts s alt =>
  ∃ tree, alts.prediction = some tree ∧
    tree.select (Source.lookahead s) (g.checkHolds values s) = some alt

/-- How a rule matches its input with calls that nest less than `depth` deep. -/
def MatchesRule (g : Grammar) (values : CheckValues σ) (choose : Choosing σ) :
    (depth : Nat) → Calling σ
  | 0, _, _, _, _ => False
  | depth + 1, name, s, c, t => ∃ rule, g.rule? name = some rule ∧
      Matches g values choose (g.MatchesRule values choose depth) (.node rule.body) s c t

/-- The body of the rule derives the terminals between two places by these choices. -/
def Derives (g : Grammar) (values : CheckValues σ) : Calling σ := fun rule s c t =>
  ∃ depth, g.MatchesRule values anyChoice depth rule s c t

/-- The rule gets from one place to another when each alternative set follows its prediction tree,
which makes these choices. -/
def Predicts (g : Grammar) (values : CheckValues σ) : Calling σ := fun rule s c t =>
  ∃ depth, g.MatchesRule values (g.predictedChoice values) depth rule s c t

end Grammar

/-! ## Inversion -/

/-- What it means to match a node of a kind. -/
def MatchesKind (g : Grammar) (values : CheckValues σ) (choose : Choosing σ) (call : Calling σ)
    (id : NodeId) (s : σ) (c : List Choice) (t : σ) : NodeKind → Prop
  | .sequence items => Matches g values choose call (.all items) s c t
  | .alternatives alts =>
    (∃ index arm, alts.arms[index]? = some arm ∧ choose alts s (.arm index) ∧
      if alts.mode = .star then ∃ c₁ m c₂, Matches g values choose call (.node arm) s c₁ m ∧
        Matches g values choose call (.node id) m c₂ t ∧ c = ⟨id, .arm index⟩ :: (c₁ ++ c₂)
      else ∃ c₁, Matches g values choose call (.node arm) s c₁ t ∧ c = ⟨id, .arm index⟩ :: c₁) ∨
    alts.hasExit = true ∧ choose alts s .exit ∧ c = [⟨id, .exit⟩] ∧ t = s
  | .gate _ matched => Matches g values choose call (.node matched) s c t
  | .check _ => g.checkHolds values s ⟨id, 0⟩ = true ∧ c = [] ∧ t = s
  | .call rule => call rule s c t
  | .terminal set _ =>
    set.contains (Source.lookahead s 0) = true ∧ c = [] ∧ t = Source.advance s

variable {g : Grammar} {values : CheckValues σ} {choose : Choosing σ} {call call' : Calling σ}

/-- Everything that matching a node can be. -/
theorem matches_node_iff {id : NodeId} {s t : σ} {c : List Choice} :
    Matches g values choose call (.node id) s c t ↔
      ∃ kind, g.kindAt? id = some kind ∧ MatchesKind g values choose call id s c t kind := by
  constructor
  · intro h
    cases h with
    | sequence kind below => exact ⟨_, kind, below⟩
    | arm kind mode at_ allowed below =>
      refine ⟨_, kind, Or.inl ⟨_, _, at_, allowed, ?_⟩⟩
      rw [if_neg mode]
      exact ⟨_, below, rfl⟩
    | again kind mode at_ allowed below next =>
      refine ⟨_, kind, Or.inl ⟨_, _, at_, allowed, ?_⟩⟩
      rw [if_pos mode]
      exact ⟨_, _, _, below, next, rfl⟩
    | exit kind hasExit allowed => exact ⟨_, kind, Or.inr ⟨hasExit, allowed, rfl, rfl⟩⟩
    | gate kind below => exact ⟨_, kind, below⟩
    | check kind holds => exact ⟨_, kind, holds, rfl, rfl⟩
    | call kind called => exact ⟨_, kind, called⟩
    | terminal kind accepted => exact ⟨_, kind, accepted, rfl, rfl⟩
  · rintro ⟨kind, hk, h⟩
    cases kind with
    | sequence items => exact .sequence hk h
    | alternatives alts =>
      rcases h with ⟨index, arm, hat, allowed, h⟩ | ⟨hasExit, allowed, rfl, rfl⟩
      · split at h
        · rename_i mode
          obtain ⟨c₁, m, c₂, below, next, rfl⟩ := h
          exact .again hk mode hat allowed below next
        · rename_i mode
          obtain ⟨c₁, below, rfl⟩ := h
          exact .arm hk mode hat allowed below
      · exact .exit hk hasExit allowed
    | gate predict matched => exact .gate hk h
    | check check =>
      obtain ⟨holds, rfl, rfl⟩ := h
      exact .check hk holds
    | call rule => exact .call hk h
    | terminal set mark =>
      obtain ⟨accepted, rfl, rfl⟩ := h
      exact .terminal hk accepted

theorem matches_kind_iff {id : NodeId} {kind : NodeKind} (hk : g.kindAt? id = some kind) {s t : σ}
    {c : List Choice} : Matches g values choose call (.node id) s c t ↔
      MatchesKind g values choose call id s c t kind := by
  rw [matches_node_iff]
  constructor
  · rintro ⟨kind', hk', h⟩
    rw [hk] at hk'
    cases hk'
    exact h
  · intro h
    exact ⟨kind, hk, h⟩

theorem matches_all_nil {s t : σ} {c : List Choice} :
    Matches g values choose call (.all []) s c t ↔ c = [] ∧ t = s := by
  constructor
  · intro h
    cases h
    exact ⟨rfl, rfl⟩
  · rintro ⟨rfl, rfl⟩
    exact .nil

theorem matches_all_cons {id : NodeId} {rest : List NodeId} {s t : σ} {c : List Choice} :
    Matches g values choose call (.all (id :: rest)) s c t ↔
      ∃ c₁ m c₂, Matches g values choose call (.node id) s c₁ m ∧
        Matches g values choose call (.all rest) m c₂ t ∧ c = c₁ ++ c₂ := by
  constructor
  · intro h
    cases h with
    | cons first others => exact ⟨_, _, _, first, others, rfl⟩
  · rintro ⟨c₁, m, c₂, first, others, rfl⟩
    exact .cons first others

/-! ## Unique parses -/

/-- Where the choices are determined and so is what called rules do, so is a match. -/
theorem Matches.unique (hchoose : ∀ alts s a b, choose alts s a → choose alts s b → a = b)
    (hcall : ∀ rule s c t c' t', call rule s c t → call' rule s c' t' → c = c' ∧ t = t')
    {goal : Goal} {s t t' : σ} {c c' : List Choice} (h : Matches g values choose call goal s c t)
    (h' : Matches g values choose call' goal s c' t') : c = c' ∧ t = t' := by
  induction h generalizing c' t' with
  | nil =>
    obtain ⟨rfl, rfl⟩ := matches_all_nil.1 h'
    exact ⟨rfl, rfl⟩
  | cons first others ih₁ ih₂ =>
    obtain ⟨c₁', m', c₂', h₁, h₂, rfl⟩ := matches_all_cons.1 h'
    obtain ⟨rfl, rfl⟩ := ih₁ h₁
    obtain ⟨rfl, rfl⟩ := ih₂ h₂
    exact ⟨rfl, rfl⟩
  | sequence kind below ih => exact ih ((matches_kind_iff kind).1 h')
  | arm kind mode at_ allowed below ih =>
    rcases (matches_kind_iff kind).1 h' with ⟨index', arm', at', allowed', h⟩ | ⟨-, allowed', -, -⟩
    · cases hchoose _ _ _ _ allowed allowed'
      rw [at_] at at'
      cases at'
      rw [if_neg mode] at h
      obtain ⟨c₁, h, rfl⟩ := h
      obtain ⟨rfl, rfl⟩ := ih h
      exact ⟨rfl, rfl⟩
    · cases hchoose _ _ _ _ allowed allowed'
  | again kind mode at_ allowed below next ih₁ ih₂ =>
    rcases (matches_kind_iff kind).1 h' with ⟨index', arm', at', allowed', h⟩ | ⟨-, allowed', -, -⟩
    · cases hchoose _ _ _ _ allowed allowed'
      rw [at_] at at'
      cases at'
      rw [if_pos mode] at h
      obtain ⟨c₁', m', c₂', h₁, h₂, rfl⟩ := h
      obtain ⟨rfl, rfl⟩ := ih₁ h₁
      obtain ⟨rfl, rfl⟩ := ih₂ h₂
      exact ⟨rfl, rfl⟩
    · cases hchoose _ _ _ _ allowed allowed'
  | exit kind hasExit allowed =>
    rcases (matches_kind_iff kind).1 h' with ⟨index', arm', at', allowed', h⟩ | ⟨-, -, rfl, rfl⟩
    · cases hchoose _ _ _ _ allowed allowed'
    · exact ⟨rfl, rfl⟩
  | gate kind below ih => exact ih ((matches_kind_iff kind).1 h')
  | check kind holds =>
    obtain ⟨-, rfl, rfl⟩ := (matches_kind_iff kind).1 h'
    exact ⟨rfl, rfl⟩
  | call kind called => exact hcall _ _ _ _ _ _ called ((matches_kind_iff kind).1 h')
  | terminal kind accepted =>
    obtain ⟨-, rfl, rfl⟩ := (matches_kind_iff kind).1 h'
    exact ⟨rfl, rfl⟩

namespace Grammar

theorem predictedChoice_unique {alts : Alternatives} {s : σ} {a b : Alt}
    (ha : g.predictedChoice values alts s a) (hb : g.predictedChoice values alts s b) : a = b := by
  obtain ⟨tree, htree, ha⟩ := ha
  obtain ⟨tree', htree', hb⟩ := hb
  rw [htree] at htree'
  cases htree'
  rw [ha] at hb
  exact Option.some.inj hb

/-- Predictive parsing has at most one result, whatever bounds its calls. -/
theorem predicts_unique {rule : String} {s t t' : σ} {c c' : List Choice}
    (h : g.Predicts values rule s c t) (h' : g.Predicts values rule s c' t') :
    c = c' ∧ t = t' := by
  obtain ⟨depth, h⟩ := h
  obtain ⟨depth', h'⟩ := h'
  induction depth generalizing depth' rule s c t c' t' with
  | zero => exact h.elim
  | succ depth ih =>
    cases depth' with
    | zero => exact h'.elim
    | succ depth' =>
      obtain ⟨r, hr, h⟩ := h
      obtain ⟨r', hr', h'⟩ := h'
      rw [hr] at hr'
      cases hr'
      refine h.unique ?_ ?_ h'
      · intro alts s a b
        exact predictedChoice_unique
      · intro name s c t c' t' hc hc'
        exact ih hc depth' hc'

end Grammar

end

end PredictiveParser
