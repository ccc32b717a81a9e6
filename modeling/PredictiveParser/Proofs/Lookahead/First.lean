import PredictiveParser.Proofs.Lookahead.Reading

/-!
# What can come first

`Grammar.Begins` says which terminals can come first from a stack of frames, where some terminals come
behind its end. It knows neither a limit on calls nor an order of visits: `contains_first_iff` says that
a search which ends has found exactly these terminals.

Whether a search ends has nothing to do with what it finds, nor with the order of the rules:
`Lookahead.Alike.exists_first`.
-/
namespace PredictiveParser

open Relation

/-- The grammars differ only in the order of their rules. -/
structure Grammar.Alike (g g' : Grammar) : Prop where
  nodes : g'.nodes = g.nodes
  rule? : ∀ name, g'.rule? name = g.rule? name
  length : g'.rules.length = g.rules.length

theorem Grammar.Alike.refl (g : Grammar) : g.Alike g := ⟨rfl, fun _ => rfl, rfl⟩

theorem Grammar.Alike.symm {g g' : Grammar} (h : g.Alike g') : g'.Alike g :=
  ⟨h.nodes.symm, fun name => (h.rule? name).symm, h.length.symm⟩

theorem Grammar.Alike.kindAt? {g g' : Grammar} (h : g.Alike g') (id : NodeId) :
    g'.kindAt? id = g.kindAt? id := by
  rw [Grammar.kindAt?, Grammar.kindAt?, h.nodes]

/-- The top frame of a stack is replaced by something that it stands for. -/
inductive Grammar.Opens (g : Grammar) : List Frame → List Frame → Prop where
  | ruleEnd {stack : List Frame} : Opens g (.ruleEnd :: stack) stack
  | sequence {id : NodeId} {items : List NodeId} {stack : List Frame}
      (kind : g.kindAt? id = some (.sequence items)) :
      Opens g (.node id :: stack) (pushNodes items stack)
  | arm {id arm : NodeId} {alts : Alternatives} {stack : List Frame}
      (kind : g.kindAt? id = some (.alternatives alts)) (mem : arm ∈ alts.arms) :
      Opens g (.node id :: stack) (.node arm :: alts.behindArm id stack)
  | exit {id : NodeId} {alts : Alternatives} {stack : List Frame}
      (kind : g.kindAt? id = some (.alternatives alts)) (hasExit : alts.hasExit = true) :
      Opens g (.node id :: stack) stack
  | gate {id predict matched : NodeId} {stack : List Frame}
      (kind : g.kindAt? id = some (.gate predict matched)) :
      Opens g (.node id :: stack) (.node predict :: stack)
  | check {id : NodeId} {check : Check} {stack : List Frame}
      (kind : g.kindAt? id = some (.check check)) : Opens g (.node id :: stack) stack
  | call {id : NodeId} {name : String} {rule : Rule} {stack : List Frame}
      (kind : g.kindAt? id = some (.call name)) (callee : g.rule? name = some rule) :
      Opens g (.node id :: stack) (.node rule.body :: .ruleEnd :: stack)

/-- The terminal can come first from a stack, where `ends` says what can come behind its end. -/
inductive Grammar.Begins (g : Grammar) (ends : Int → Prop) : List Frame → Int → Prop where
  | nil {c : Int} (behind : ends c) : Begins g ends [] c
  | terminal {id : NodeId} {set : CharSet} {mark : Option Bool} {stack : List Frame} {c : Int}
      (kind : g.kindAt? id = some (.terminal set mark)) (mem : set.contains c = true) :
      Begins g ends (.node id :: stack) c
  | opens {stack stack' : List Frame} {c : Int} (step : g.Opens stack stack')
      (rest : Begins g ends stack' c) : Begins g ends stack c

theorem Grammar.Begins.mono {g : Grammar} {ends ends' : Int → Prop} {stack : List Frame} {c : Int}
    (h : g.Begins ends stack c) (hends : ∀ c, ends c → ends' c) : g.Begins ends' stack c := by
  induction h with
  | nil behind => exact .nil (hends _ behind)
  | terminal kind mem => exact .terminal kind mem
  | opens step _ ih => exact .opens step ih

theorem Grammar.Alike.opens {g g' : Grammar} (h : g.Alike g') {stack stack' : List Frame}
    (hopens : g.Opens stack stack') : g'.Opens stack stack' := by
  cases hopens with
  | ruleEnd => exact .ruleEnd
  | sequence kind => exact .sequence ((h.kindAt? _).trans kind)
  | arm kind mem => exact .arm ((h.kindAt? _).trans kind) mem
  | exit kind hasExit => exact .exit ((h.kindAt? _).trans kind) hasExit
  | gate kind => exact .gate ((h.kindAt? _).trans kind)
  | check kind => exact .check ((h.kindAt? _).trans kind)
  | call kind callee => exact .call ((h.kindAt? _).trans kind) ((h.rule? _).trans callee)

theorem Grammar.Alike.begins {g g' : Grammar} (h : g.Alike g') {ends : Int → Prop}
    {stack : List Frame} {c : Int} (hbegins : g.Begins ends stack c) : g'.Begins ends stack c := by
  induction hbegins with
  | nil behind => exact .nil behind
  | terminal kind mem => exact .terminal ((h.kindAt? _).trans kind) mem
  | opens step _ ih => exact .opens (h.opens step) ih

/-- What a configuration is replaced by, unless it offers a terminal. -/
def Expansion.configs? : Expansion → Option (List Config)
  | .terminal _ _ => none
  | .configs next => some next

namespace Lookahead

variable {la la' : Lookahead} {offset : Nat} {config config' : Config} {stack stack' : List Frame}
  {checks : CheckSet} {past : Bool} {set : CharSet} {c : Int}

/-! ## Expansions -/

theorem Unfolds.opens (h : la.Unfolds offset config config') :
    la.grammar.Opens config.stack config'.stack ∧ config'.pastEnd = config.pastEnd := by
  cases h with
  | sequence kind => exact ⟨.sequence kind, rfl⟩
  | arm kind mem => exact ⟨.arm kind mem, rfl⟩
  | exit kind hasExit => exact ⟨.exit kind hasExit, rfl⟩
  | gate kind => exact ⟨.gate kind, rfl⟩
  | check kind => exact ⟨.check kind, rfl⟩
  | call kind callee => exact ⟨.call kind callee, rfl⟩
  | ruleEnd => exact ⟨.ruleEnd, rfl⟩

/-- What an expansion does to the stack. -/
theorem Expands.opens (h : la.Expands offset config config') :
    la.grammar.Opens config.stack config'.stack ∧ config'.pastEnd = config.pastEnd :=
  h.unfolds.opens

theorem exists_unfolds_of_opens (h : la.grammar.Opens stack stack') (offset : Nat) (checks : CheckSet)
    (past : Bool) :
    ∃ checks', la.Unfolds offset ⟨stack, checks, past⟩ ⟨stack', checks', past⟩ := by
  cases h with
  | ruleEnd => exact ⟨_, .ruleEnd⟩
  | sequence kind => exact ⟨_, .sequence kind⟩
  | arm kind mem => exact ⟨_, .arm kind mem⟩
  | exit kind hasExit => exact ⟨_, .exit kind hasExit⟩
  | gate kind => exact ⟨_, .gate kind⟩
  | check kind => exact ⟨_, .check kind⟩
  | call kind callee => exact ⟨_, .call kind callee⟩

/-- What can be done to the stack of a configuration that can be expanded. -/
theorem expands_of_opens {expansion : Expansion} (h : la.grammar.Opens stack stack')
    (hexpand : la.expand offset ⟨stack, checks, past⟩ = .ok expansion) :
    ∃ checks', la.Expands offset ⟨stack, checks, past⟩ ⟨stack', checks', past⟩ := by
  obtain ⟨checks', hunfolds⟩ := exists_unfolds_of_opens h offset checks past
  exact ⟨checks', hunfolds.expands hexpand⟩

/-! ## What a search finds -/

/-- A terminal that a configuration offers comes first from its stack. -/
theorem begins_of_offers {next : Config} (h : la.Offers offset config set next)
    (hpast : config.pastEnd = false) (hc : set.contains c = true) :
    la.grammar.Begins (la.follow.contains · = true) config.stack c := by
  cases offers_iff_takes.1 h with
  | terminal kind => exact .terminal kind hc
  | follow => exact .nil hc
  | everything => cases hpast

/-- What is found on the way from a configuration comes first from its stack. -/
theorem begins_of_reached {next : Config} (h : ReflTransGen (la.Expands offset) config config')
    (hoffers : la.Offers offset config' set next) (hpast : config.pastEnd = false)
    (hc : set.contains c = true) :
    la.grammar.Begins (la.follow.contains · = true) config.stack c := by
  induction h using ReflTransGen.head_induction_on with
  | refl => exact begins_of_offers hoffers hpast hc
  | head hstep _ ih =>
    obtain ⟨hopens, hpast'⟩ := hstep.opens
    exact .opens hopens (ih (hpast'.trans hpast))

/-- What comes first from a stack is found, unless there is something that cannot be expanded. -/
theorem reached_of_begins (h : la.grammar.Begins (la.follow.contains · = true) stack c)
    (hexp : ∀ config, ReflTransGen (la.Expands offset) ⟨stack, checks, false⟩ config →
      ∃ expansion, la.expand offset config = .ok expansion) :
    ∃ config set next, ReflTransGen (la.Expands offset) ⟨stack, checks, false⟩ config ∧
      la.Offers offset config set next ∧ set.contains c = true := by
  induction h generalizing checks with
  | nil behind => exact ⟨_, la.follow, ⟨[], checks, true⟩, .refl, rfl, behind⟩
  | terminal kind mem => exact ⟨_, _, _, .refl, expand_node kind, mem⟩
  | opens step _ ih =>
    obtain ⟨expansion, hexpand⟩ := hexp _ .refl
    obtain ⟨checks', hstep⟩ := expands_of_opens step hexpand
    obtain ⟨config, set, next, hreached, hfound⟩ := ih fun config hc => hexp config (.head hstep hc)
    exact ⟨config, set, next, .head hstep hreached, hfound⟩

/-- **A search that ends has found what can come first.** -/
theorem contains_first_iff (h : la.first (.ofStack stack) = .ok set) (c : Int) :
    set.contains c = true ↔ la.grammar.Begins (la.follow.contains · = true) stack c := by
  obtain ⟨found, hfound, h⟩ := bind_eq_ok.1 h
  rw [← pure_eq_ok.1 h, CharSet.contains_unionAll, List.any_map, List.any_eq_true]
  constructor
  · rintro ⟨⟨set, next⟩, hm, hc⟩
    obtain ⟨config, hreached, hoffers⟩ := (mem_steps_iff hfound set next).1 hm
    exact begins_of_reached hreached hoffers rfl hc
  · intro hbegins
    obtain ⟨config, set, next, hreached, hoffers, hc⟩ :=
      reached_of_begins hbegins fun config hc => exists_expand_of_steps hfound hc
    exact ⟨(set, next), (mem_steps_iff hfound set next).2 ⟨config, hreached, hoffers⟩, hc⟩

/-! ## Searches that go the same way -/

/-- The two differ only in the rule they are for, in what may follow it and in the order of the
rules. -/
structure Alike (la la' : Lookahead) : Prop where
  grammar : la.grammar.Alike la'.grammar
  recursionLimit : la'.recursionLimit = la.recursionLimit

theorem Alike.searchStages (h : la.Alike la') (config : Config) :
    la'.searchStages config = la.searchStages config := by
  unfold Lookahead.searchStages linkCount
  rw [h.grammar.nodes, h.grammar.length, h.recursionLimit]

theorem Alike.expand {expansion : Expansion} (h : la.Alike la')
    (hexpand : la.expand offset config = .ok expansion) :
    ∃ expansion', la'.expand offset config = .ok expansion' ∧
      expansion'.configs? = expansion.configs? := by
  obtain ⟨stack, checks, past⟩ := config
  match stack with
  | [] =>
    cases past <;> cases hexpand <;> exact ⟨_, rfl, rfl⟩
  | .ruleEnd :: stack => exact ⟨expansion, hexpand, rfl⟩
  | .node id :: stack =>
    obtain ⟨kind, hkind, hexpand⟩ := kindAt?_of_expand hexpand
    have hkind' := (h.grammar.kindAt? id).trans hkind
    refine ⟨expansion, (expand_node hkind').trans ?_, rfl⟩
    cases kind with
    | call callee =>
      simp only [expandKind, h.recursionLimit, h.grammar.rule?] at hexpand ⊢
      split at hexpand
      · cases hexpand
      · rename_i hlimit
        rw [if_neg hlimit]
        split at hexpand
        · cases hexpand
        · rename_i hrule
          rw [← hexpand]
    | _ => exact hexpand

/-- The searches stand at the same place. -/
def SamePlace (search search' : Search) : Prop :=
  search'.work = search.work ∧ search'.seen = search.seen

theorem Alike.searchStep (h : la.Alike la') {search search' : Search}
    (hplace : SamePlace search search') {out : Search ⊕ List (CharSet × Config)}
    (hstep : la.searchStep offset search = .ok out) :
    ∃ out', la'.searchStep offset search' = .ok out' ∧ Iterate.Alike SamePlace out out' := by
  obtain ⟨work, seen, found⟩ := search
  obtain ⟨work', seen', found'⟩ := search'
  obtain ⟨rfl, rfl⟩ := hplace
  cases work' with
  | nil =>
    cases hstep
    exact ⟨_, rfl, .inr trivial⟩
  | cons config work =>
    unfold Lookahead.searchStep at hstep ⊢
    simp only at hstep ⊢
    split at hstep
    · rename_i hseen
      rw [if_pos hseen]
      cases hstep
      exact ⟨_, rfl, .inl ⟨rfl, rfl⟩⟩
    · rename_i hseen
      rw [if_neg hseen]
      obtain ⟨expansion, hexpand, hstep⟩ := bind_eq_ok.1 hstep
      obtain ⟨expansion', hexpand', hsame⟩ := h.expand hexpand
      rw [hexpand']
      cases expansion <;> cases expansion' <;> cases hsame <;> cases hstep <;>
        exact ⟨_, rfl, .inl ⟨rfl, rfl⟩⟩

/-- Where one search finds what comes first, so does the other. -/
theorem Alike.exists_first (h : la.Alike la') (hfirst : la.first config = .ok set) :
    ∃ set', la'.first config = .ok set' := by
  obtain ⟨found, hfound, -⟩ := bind_eq_ok.1 hfirst
  obtain ⟨answer, hrun, hanswer⟩ := bind_eq_ok.1 hfound
  cases answer with
  | none => cases hanswer
  | some found =>
    have hstep : ∀ search search', SamePlace search search' →
        ∀ out, la.searchStep 0 search = .ok out →
          ∃ out', la'.searchStep 0 search' = .ok out' ∧ Iterate.Alike SamePlace out out' :=
      fun _ _ hplace _ hout => h.searchStep hplace hout
    obtain ⟨found', hrun'⟩ := Iterate.exists_run_of_alike hstep ⟨rfl, rfl⟩ hrun
    rw [← h.searchStages] at hrun'
    refine ⟨.unionAll (found'.map Prod.fst), bind_eq_ok.2 ⟨found', ?_, rfl⟩⟩
    exact bind_eq_ok.2 ⟨some found', hrun', rfl⟩

end Lookahead

end PredictiveParser
