import Mathlib.Data.Fintype.BigOperators
import Mathlib.Data.Fintype.Option
import Mathlib.Data.Fintype.Powerset
import Mathlib.Data.Prod.Lex
import PredictiveParser.Proofs.Grammar.Growth
import PredictiveParser.Proofs.Lookahead.Ending
import PredictiveParser.Proofs.Lookahead.Stacks

/-!
# Searches end within their bound

Where the rules of a grammar are trees, the search behind `Lookahead.steps` does not come to the bound
on its steps. It meets finitely many configurations: their stacks stay below a height, and their checks
are those of the start and checks of nodes at one offset (`Meets`, `Meets.length_le`). None is expanded
twice, and one expansion adds no more configurations than a node has children, and one. So what is left
to do (`searchLeft`) lessens with every step.

* `failsOnly_steps`: looking ahead fails only at the recursion limit.
-/
namespace PredictiveParser

open Relation

/-! ## Sets of checks -/

/-- The references of a set of checks stand in ascending order, each of them once. -/
def CheckSet.Ascending (set : CheckSet) : Prop :=
  set.Pairwise fun a b => a.le b = true ∧ a ≠ b

theorem CheckRef.le_iff {a b : CheckRef} :
    a.le b = true ↔ toLex (a.node, a.offset) ≤ toLex (b.node, b.offset) := by
  simp [CheckRef.le, Prod.Lex.toLex_le_toLex]

theorem CheckRef.le_trans {a b c : CheckRef} (h : a.le b = true) (h' : b.le c = true) :
    a.le c = true :=
  le_iff.2 ((le_iff.1 h).trans (le_iff.1 h'))

theorem CheckRef.le_antisymm {a b : CheckRef} (h : a.le b = true) (h' : b.le a = true) : a = b := by
  have heq := toLex.injective ((le_iff.1 h).antisymm (le_iff.1 h'))
  cases a
  cases b
  simpa using heq

theorem CheckRef.le_of_not_le {a b : CheckRef} (h : ¬ a.le b = true) : b.le a = true :=
  le_iff.2 (le_of_not_ge fun hle => h (le_iff.2 hle))

theorem CheckSet.Ascending.insert {set : CheckSet} (h : set.Ascending) (ref : CheckRef) :
    (set.insert ref).Ascending := by
  induction set with
  | nil => exact List.pairwise_singleton _ ref
  | cons first rest ih =>
    obtain ⟨hfirst, hrest⟩ := List.pairwise_cons.1 h
    rw [CheckSet.insert]
    split
    · exact h
    · rename_i hne
      split
      · rename_i hle
        refine List.pairwise_cons.2 ⟨fun other hother => ?_, h⟩
        rcases List.mem_cons.1 hother with rfl | hother
        · exact ⟨hle, hne⟩
        · obtain ⟨hle', hne'⟩ := hfirst other hother
          refine ⟨CheckRef.le_trans hle hle', ?_⟩
          rintro rfl
          exact hne (CheckRef.le_antisymm hle hle')
      · rename_i hle
        refine List.pairwise_cons.2 ⟨fun other hother => ?_, ih hrest⟩
        rcases CheckSet.mem_insert.1 hother with rfl | hother
        · exact ⟨CheckRef.le_of_not_le hle, Ne.symm hne⟩
        · exact hfirst other hother

/-- A set of checks is known by its members. -/
theorem CheckSet.Ascending.eq_of_mem_iff {set set' : CheckSet} (h : set.Ascending)
    (h' : set'.Ascending) (hmem : ∀ ref, ref ∈ set ↔ ref ∈ set') : set = set' := by
  have hperm : set.Perm set' := (List.perm_ext_iff_of_nodup (h.imp (·.2)) (h'.imp (·.2))).2 hmem
  exact hperm.eq_of_pairwise (fun _ _ _ _ hle hle' => CheckRef.le_antisymm hle hle')
    (h.imp (·.1)) (h'.imp (·.1))

namespace Lookahead

variable {la : Lookahead} {offset height : Nat} {config config' start : Config}

/-! ## Expansions -/

theorem Expands.checks (h : la.Expands offset config config') : config'.checks = config.checks ∨
    ∃ id < la.grammar.nodes.size, config'.checks = config.checks.insert ⟨id, offset⟩ := by
  cases h.unfolds with
  | check kind => exact Or.inr ⟨_, Grammar.lt_size_of_kindAt? kind, rfl⟩
  | sequence | arm | exit | gate | call | ruleEnd => exact Or.inl rfl

theorem length_le_of_expand {next : List Config}
    (h : la.expand offset config = .ok (.configs next)) :
    next.length ≤ linkCount la.grammar + 1 := by
  obtain ⟨stack, checks, past⟩ := config
  rcases stack with - | ⟨id | -, below⟩
  · unfold expand at h
    simp only at h
    split at h <;> cases h
  · obtain ⟨kind, hkind, h⟩ := kindAt?_of_expand h
    obtain ⟨node, hnode, rfl⟩ := Grammar.kindAt?_eq_some.1 hkind
    have hlinks := Grammar.length_children_le hnode
    cases hk : node.kind with
    | alternatives alts =>
      rw [hk] at h
      cases h
      simp only [Node.children, hk] at hlinks
      rw [List.length_append, List.length_map]
      split <;> simp <;> omega
    | call name =>
      rw [hk] at h
      unfold expandKind at h
      simp only at h
      split at h
      · cases h
      · split at h <;> cases h
        simp
    | terminal =>
      rw [hk] at h
      cases h
    | sequence | gate | check =>
      rw [hk] at h
      cases h
      simp
  · cases h
    simp

/-! ## What a search meets -/

/-- A configuration from which looking ahead stays within the rules. -/
structure Searchable (la : Lookahead) (config : Config) : Prop where
  inUse : ∀ id, .node id ∈ config.stack → la.grammar.InUse id
  ascending : config.checks.Ascending

theorem Searchable.expands (h : la.Searchable config) (hexpands : la.Expands offset config config') :
    la.Searchable config' where
  inUse := by
    obtain ⟨next, hexpand, hmem⟩ := hexpands
    have hwithin : config.Within la.grammar.InUse (fun _ => True) :=
      ⟨h.inUse, fun _ _ => trivial⟩
    exact (within_of_expand (Grammar.closed_inUse _) (fun _ _ _ _ => trivial) hwithin hexpand
      config' hmem).stack
  ascending := by
    rcases hexpands.checks with heq | ⟨id, -, heq⟩
    · rw [heq]
      exact h.ascending
    · rw [heq]
      exact h.ascending.insert _

theorem Searchable.offers {set : CharSet} (h : la.Searchable config)
    (hoffers : la.Offers offset config set config') : la.Searchable config' := by
  have hwithin : config.Within la.grammar.InUse (fun _ => True) :=
    ⟨h.inUse, fun _ _ => trivial⟩
  refine ⟨Config.Within.stack (within_of_expand (Grammar.closed_inUse _) (fun _ _ _ _ => trivial)
    hwithin hoffers), ?_⟩
  have hchecks : config'.checks = config.checks := by
    cases offers_iff_takes.1 hoffers <;> rfl
  rw [hchecks]
  exact h.ascending

theorem Searchable.reached (h : la.Searchable config)
    (hreach : ReflTransGen (la.Expands offset) config config') : la.Searchable config' := by
  induction hreach with
  | refl => exact h
  | tail _ hexpands ih => exact ih.expands hexpands

/-- A configuration that a search from `start` meets. -/
structure Meets (la : Lookahead) (offset height : Nat) (start config : Config) : Prop where
  searchable : la.Searchable config
  fits : la.Fits height config.stack
  tested : ∀ ref ∈ config.checks,
    ref ∈ start.checks ∨ ref.offset = offset ∧ ref.node < la.grammar.nodes.size
  kept : ∀ ref ∈ start.checks, ref ∈ config.checks
  pastEnd : config.pastEnd = start.pastEnd

theorem Meets.expands (hf : la.grammar.Forest) (h : la.Meets offset height start config)
    (hexpands : la.Expands offset config config') : la.Meets offset height start config' where
  searchable := h.searchable.expands hexpands
  fits := h.fits.expands hf hexpands
  tested ref href := by
    rcases hexpands.checks with heq | ⟨id, hid, heq⟩
    · rw [heq] at href
      exact h.tested ref href
    · rw [heq] at href
      rcases CheckSet.mem_insert.1 href with rfl | href
      · exact Or.inr ⟨rfl, hid⟩
      · exact h.tested ref href
  kept ref href := by
    have hkept := h.kept ref href
    rcases hexpands.checks with heq | ⟨id, -, heq⟩
    · rwa [heq]
    · rw [heq]
      exact CheckSet.mem_insert.2 (Or.inr hkept)
  pastEnd := hexpands.opens.2.trans h.pastEnd

/-- A frame as one of finitely many: a place in the grammar, or the end of a rule. -/
def frameCode (nodes : Nat) : Frame → Option (Fin nodes)
  | .ruleEnd => none
  | .node id => if h : id < nodes then some ⟨id, h⟩ else none

theorem frameCode_inj {nodes : Nat} {frame frame' : Frame}
    (hframe : ∀ id, frame = .node id → id < nodes) (hframe' : ∀ id, frame' = .node id → id < nodes)
    (h : frameCode nodes frame = frameCode nodes frame') : frame = frame' := by
  cases frame with
  | ruleEnd =>
    cases frame' with
    | ruleEnd => rfl
    | node id => simp [frameCode, hframe' id rfl] at h
  | node id =>
    cases frame' with
    | ruleEnd => simp [frameCode, hframe id rfl] at h
    | node id' =>
      simp [frameCode, hframe id rfl, hframe' id' rfl] at h
      rw [h]

def configCode (nodes height offset : Nat) (config : Config) :
    (Fin height → Option (Option (Fin nodes))) × Finset (Fin nodes) :=
  (fun i => config.stack[i.val]?.map (frameCode nodes),
    Finset.univ.filter fun id => ⟨id.val, offset⟩ ∈ config.checks)

theorem Meets.checks_subset (h : la.Meets offset height start config)
    (h' : la.Meets offset height start config')
    (hcode : configCode la.grammar.nodes.size height offset config =
      configCode la.grammar.nodes.size height offset config') {ref : CheckRef}
    (href : ref ∈ config.checks) : ref ∈ config'.checks := by
  obtain ⟨id, there⟩ := ref
  rcases h.tested _ href with hstart | ⟨rfl, hid⟩
  · exact h'.kept _ hstart
  · have hmem : (⟨id, hid⟩ : Fin la.grammar.nodes.size) ∈
        (configCode la.grammar.nodes.size height there config).2 := by
      simpa [configCode] using href
    rw [hcode] at hmem
    simpa [configCode] using hmem

theorem Meets.eq_of_code (h : la.Meets offset height start config)
    (h' : la.Meets offset height start config')
    (hcode : configCode la.grammar.nodes.size height offset config =
      configCode la.grammar.nodes.size height offset config') : config = config' := by
  have inGrammar : ∀ {config : Config}, la.Meets offset height start config → ∀ {frame : Frame},
      frame ∈ config.stack → ∀ id, frame = .node id → id < la.grammar.nodes.size := by
    intro config h frame hframe id heq
    subst heq
    obtain ⟨node, hnode⟩ := h.fits.exists_node hframe
    exact Grammar.lt_size_of_kindAt? (Grammar.kindAt?_of_node hnode)
  have hstack : config.stack = config'.stack := by
    apply List.ext_getElem?
    intro i
    by_cases hi : i < height
    · have heq : config.stack[i]?.map (frameCode la.grammar.nodes.size) =
          config'.stack[i]?.map (frameCode la.grammar.nodes.size) :=
        congrFun (congrArg Prod.fst hcode) ⟨i, hi⟩
      cases hframe : config.stack[i]? with
      | none =>
        rw [hframe] at heq
        exact (Option.map_eq_none_iff.1 heq.symm).symm
      | some frame =>
        rw [hframe] at heq
        obtain ⟨frame', hframe', hsame⟩ := Option.map_eq_some_iff.1 heq.symm
        rw [hframe', frameCode_inj (inGrammar h' (List.mem_of_getElem? hframe'))
          (inGrammar h (List.mem_of_getElem? hframe)) hsame]
    · have hlength := h.fits.length_le
      have hlength' := h'.fits.length_le
      rw [List.getElem?_eq_none (by omega), List.getElem?_eq_none (by omega)]
  have hchecks : config.checks = config'.checks :=
    h.searchable.ascending.eq_of_mem_iff h'.searchable.ascending fun ref =>
      ⟨h.checks_subset h' hcode, h'.checks_subset h hcode.symm⟩
  have hpast : config.pastEnd = config'.pastEnd := h.pastEnd.trans h'.pastEnd.symm
  cases config
  cases config'
  simp_all

/-- The number of configurations that a search can meet. -/
def metBound (nodes height : Nat) : Nat :=
  (nodes + 2) ^ height * 2 ^ nodes

theorem Meets.length_le {seen : List Config} (h : ∀ c ∈ seen, la.Meets offset height start c)
    (hnodup : seen.Nodup) : seen.length ≤ metBound la.grammar.nodes.size height := by
  have hcodes : (seen.map (configCode la.grammar.nodes.size height offset)).Nodup :=
    hnodup.map_on fun c hc c' hc' hcode => (h c hc).eq_of_code (h c' hc') hcode
  have hcard := hcodes.length_le_card
  rw [List.length_map] at hcard
  simpa [metBound] using hcard

/-! ## Steps of a search -/

/-- What is left to do of a search: the configurations to look at, and for each configuration not met
yet those that it can add. -/
def searchLeft (la : Lookahead) (height : Nat) (search : Search) : Nat :=
  search.work.length +
    (metBound la.grammar.nodes.size height - search.seen.length) * (linkCount la.grammar + 2)

/-- All that a search has met and has still to look at. -/
structure SearchMeets (la : Lookahead) (offset height : Nat) (start : Config) (search : Search) :
    Prop where
  work : ∀ c ∈ search.work, la.Meets offset height start c
  seen : ∀ c ∈ search.seen, la.Meets offset height start c
  nodup : search.seen.Nodup

theorem SearchMeets.initial (hf : la.grammar.Forest) (h : la.Searchable config)
    (hheight : config.stack.length + (la.recursionLimit + 1) * callRoom la.grammar ≤ height) :
    la.SearchMeets offset height config ⟨[config], [], []⟩ := by
  refine ⟨fun c hc => ?_, fun c hc => absurd hc List.not_mem_nil, List.nodup_nil⟩
  cases List.mem_singleton.1 hc
  exact ⟨h, fits_of_inUse hf h.inUse hheight, fun ref href => Or.inl href, fun ref href => href, rfl⟩

/-- A step leaves less to do. -/
theorem SearchMeets.step (hf : la.grammar.Forest) {search search' : Search}
    (h : la.SearchMeets offset height start search)
    (hstep : la.searchStep offset search = .ok (.inl search')) :
    la.SearchMeets offset height start search' ∧
      la.searchLeft height search' < la.searchLeft height search := by
  obtain ⟨work, seen, found⟩ := search
  obtain ⟨work', seen', found'⟩ := search'
  cases work with
  | nil => cases hstep
  | cons config work =>
    have hconfig := h.work config List.mem_cons_self
    have hwork : ∀ c ∈ work, la.Meets offset height start c :=
      fun c hc => h.work c (List.mem_cons_of_mem _ hc)
    rcases searchStep_eq_inl hstep with ⟨-, hw, hs⟩ | ⟨hnew, hs, hw⟩
    · cases hw
      cases hs
      exact ⟨⟨hwork, h.seen, h.nodup⟩, by simp [searchLeft]⟩
    · cases hs
      have hseen : ∀ c ∈ config :: seen, la.Meets offset height start c := by
        intro c hc
        rcases List.mem_cons.1 hc with rfl | hc
        · exact hconfig
        · exact h.seen c hc
      have hnodup : (config :: seen).Nodup := List.nodup_cons.2 ⟨hnew, h.nodup⟩
      have hroom := Meets.length_le hseen hnodup
      rw [List.length_cons] at hroom
      have hrest : metBound la.grammar.nodes.size height - seen.length =
          metBound la.grammar.nodes.size height - (seen.length + 1) + 1 := by omega
      have hless : work'.length ≤ linkCount la.grammar + 1 + work.length →
          la.searchLeft height ⟨work', config :: seen, found'⟩ <
            la.searchLeft height ⟨config :: work, seen, found⟩ := by
        intro hle
        simp only [searchLeft, hrest, Nat.succ_mul, List.length_cons]
        omega
      rcases hw with hw | ⟨next, hexpand, hw⟩
      · obtain rfl : work' = work := hw
        exact ⟨⟨hwork, hseen, hnodup⟩, hless (by omega)⟩
      · obtain rfl : work' = next ++ work := hw
        refine ⟨⟨fun c hc => ?_, hseen, hnodup⟩, hless ?_⟩
        · rcases List.mem_append.1 hc with hc | hc
          · exact hconfig.expands hf ⟨next, hexpand, hc⟩
          · exact hwork c hc
        · have hnext := length_le_of_expand hexpand
          rw [List.length_append]
          omega

theorem metBound_le {nodes frames : Nat} (height : Nat) (h : nodes + 2 ≤ frames) :
    metBound nodes height ≤ 2 ^ (height * frames + nodes) := by
  have hframes : nodes + 2 ≤ 2 ^ frames := h.trans Nat.lt_two_pow_self.le
  calc (nodes + 2) ^ height * 2 ^ nodes
      ≤ (2 ^ frames) ^ height * 2 ^ nodes := by gcongr
    _ = 2 ^ (height * frames + nodes) := by
      rw [← Nat.pow_mul, ← Nat.pow_add, Nat.mul_comm frames height]

/-- The search does not come to the bound on its steps. -/
theorem run_searchStep_ne_none (hf : la.grammar.Forest) (h : la.Searchable config) :
    Iterate.run (la.searchStep offset) (la.searchStages config) ⟨[config], [], []⟩ ≠ .ok none := by
  obtain ⟨nodes, hnodes⟩ : ∃ nodes, nodes = la.grammar.nodes.size := ⟨_, rfl⟩
  obtain ⟨links, hlinks⟩ : ∃ links, links = linkCount la.grammar := ⟨_, rfl⟩
  obtain ⟨frames, hframes⟩ : ∃ frames, frames =
      nodes + links + la.grammar.rules.length + config.stack.length + 3 := ⟨_, rfl⟩
  obtain ⟨height, hheight⟩ : ∃ height, height =
      config.stack.length + (la.recursionLimit + 1) * callRoom la.grammar := ⟨_, rfl⟩
  have hstages : la.searchStages config = height * frames + nodes + links + 6 := by
    rw [hheight, hframes, hnodes, hlinks]
    rfl
  have hstart : la.SearchMeets offset height config ⟨[config], [], []⟩ := .initial hf h hheight.ge
  have hstep : ∀ search search', la.SearchMeets offset height config search →
      la.searchStep offset search = .ok (.inl search') →
      la.SearchMeets offset height config search' ∧
        la.searchLeft height search' < la.searchLeft height search :=
    fun _ _ hs hstep => hs.step hf hstep
  refine Iterate.run_ne_none hstep hstart ?_
  have hmet : metBound nodes height ≤ 2 ^ (height * frames + nodes) :=
    metBound_le height (by omega)
  have hwidth : links + 2 ≤ 2 ^ (links + 2) := Nat.lt_two_pow_self.le
  have hone : 1 ≤ 2 ^ (height * frames + nodes + links + 2) := Nat.one_le_two_pow
  rw [hstages]
  calc la.searchLeft height ⟨[config], [], []⟩ + 1
      = metBound nodes height * (links + 2) + 2 := by
        simp only [searchLeft, List.length_cons, List.length_nil, ← hnodes, ← hlinks, Nat.sub_zero]
        omega
    _ ≤ 2 ^ (height * frames + nodes) * 2 ^ (links + 2) + 2 := by gcongr
    _ = 2 ^ (height * frames + nodes + links + 2) + 2 := by
        rw [← Nat.pow_add]
        rfl
    _ < 2 ^ (height * frames + nodes + links + 2) * 2 ^ 4 := by omega
    _ = 2 ^ (height * frames + nodes + links + 6) := by rw [← Nat.pow_add]

/-! ## Failures -/

/-- Where looking ahead nests too deep, the rule whose choices are examined is named. -/
def AtLimit (la : Lookahead) (failure : Failure GenerationError) : Prop :=
  failure = .error (.recursionLimit la.rule la.recursionLimit)

/-- The next thing to match is a call, and it is nested so deep that no search enters it. -/
def TooDeep (la : Lookahead) (config : Config) : Prop :=
  ∃ id callee below, config.stack = .node id :: below ∧
    la.grammar.kindAt? id = some (.call callee) ∧ la.recursionLimit ≤ Config.callDepth below

/-- A search that fails has met a call that is nested too deep. -/
theorem steps_eq_limit (hf : la.grammar.Forest) (h : la.Searchable config)
    {failure : Failure GenerationError} (hfailure : la.steps config offset = .error failure) :
    la.AtLimit failure ∧ ∃ c, ReflTransGen (la.Expands offset) config c ∧ la.TooDeep c := by
  rcases steps_eq_error hfailure with ⟨c, hreach, hexpand⟩ | hrun
  · have hc := h.reached hreach
    obtain ⟨id, below, hstack, hcases⟩ := expand_eq_error hexpand
    obtain ⟨name, rule, hrule, hid⟩ :=
      hc.inUse id (by rw [hstack]; exact List.mem_cons_self)
    rcases hcases with ⟨fault, hnode, -⟩ | ⟨callee, hkind, ⟨hdepth, hlimit⟩ | ⟨hnone, -⟩⟩
    · obtain ⟨node, hok, -⟩ := hf.exists_node hrule hid
      rw [hok] at hnode
      cases hnode
    · exact ⟨hlimit, c, hreach, id, callee, below, hstack, hkind, hdepth⟩
    · obtain ⟨called, hsome⟩ := hf.exists_callee hrule hid hkind
      rw [hnone] at hsome
      cases hsome
  · exact absurd hrun (run_searchStep_ne_none hf h)

theorem failsOnly_steps (hf : la.grammar.Forest) (h : la.Searchable config) :
    FailsOnly la.AtLimit (la.steps config offset) :=
  fun _ hfailure => (steps_eq_limit hf h hfailure).1

theorem Searchable.steps {found : List (CharSet × Config)} (h : la.Searchable config)
    (hfound : la.steps config offset = .ok found) : ∀ step ∈ found, la.Searchable step.2 := by
  rintro ⟨set, next⟩ hstep
  obtain ⟨c, hreach, hoffers⟩ := (mem_steps_iff hfound set next).1 hstep
  exact (h.reached hreach).offers hoffers

end Lookahead

end PredictiveParser
