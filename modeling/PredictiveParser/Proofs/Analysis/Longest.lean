import Mathlib.Order.Lattice.Nat
import PredictiveParser.Proofs.Lookahead.Viable
import PredictiveParser.Proofs.Method.Lowering

/-!
# Trees follow the longest viable prefix

What the tree of an alternative set selects, said in terms of what looking ahead can match and not of
how the tree was built. Among the next terminals there is a longest prefix for which some choice is
viable; the tree goes along with it (`Decision.FollowsPrefix`). Analysis gives every alternative set
of a validated grammar such a tree (`Grammar.followsPrefix_of_analyzeRule`).
-/
namespace PredictiveParser

variable {la : Lookahead} {ahead : Nat → Int} {live : Live} {offset limit k : Nat} {id : NodeId}
  {alts : Alternatives} {after : List Frame} {tree : Decision} {warnings : List String}

/-! ## The choices at the start -/

theorem keys_initialLive (id : NodeId) (alts : Alternatives) (after : List Frame) :
    (initialLive id alts after).map Prod.fst =
      (List.range alts.arms.length).map Alt.arm ++ (if alts.hasExit then [Alt.exit] else []) := by
  unfold initialLive
  rw [List.map_append]
  congr 1
  · exact List.ext_getElem (by simp) (by simp)
  · split <;> rfl

theorem sound_initialLive (id : NodeId) (alts : Alternatives) (after : List Frame) :
    (initialLive id alts after).Sound where
  nodup := by
    rw [keys_initialLive, List.nodup_append]
    refine ⟨List.Nodup.map (fun _ _ h => Alt.arm.inj h) List.nodup_range, ?_, ?_⟩
    · split <;> simp
    · split <;> simp
  nonempty := by
    intro entry hm
    rcases List.mem_append.1 hm with hm | hm
    · obtain ⟨index, hlt, rfl⟩ := List.mem_mapIdx.1 hm
      exact List.cons_ne_nil _ _
    · split at hm
      · rw [List.mem_singleton.1 hm]
        exact List.cons_ne_nil _ _
      · cases hm

theorem initialLive_ne_nil (h : alts.arms ≠ []) : initialLive id alts after ≠ [] := by
  intro hnil
  have hkeys := keys_initialLive id alts after
  rw [hnil] at hkeys
  obtain ⟨harms, -⟩ := List.append_eq_nil_iff.1 hkeys.symm
  exact h (by simpa using harms)

/-- There is a longest viable prefix. -/
theorem Live.Sound.exists_longest (h : live.Sound) (hne : live ≠ []) :
    ∃ count, live.Longest la ahead offset limit count := by
  obtain ⟨entry, hm⟩ := List.exists_mem_of_ne_nil _ hne
  have hzero : live.Viable la ahead offset entry.1 0 :=
    h.viable_zero (List.mem_map.2 ⟨entry, hm, rfl⟩)
  have hbounded : BddAbove {m | m ≤ limit ∧ ∃ alt, live.Viable la ahead offset alt m} :=
    ⟨limit, fun m hm => hm.1⟩
  exact ⟨_, Nat.sSup_mem ⟨0, Nat.zero_le _, entry.1, hzero⟩ hbounded,
    fun m hm => le_csSup hbounded hm⟩

/-! ## Trees -/

/-- What validation says about an alternative set. -/
structure Alternatives.Valid (alts : Alternatives) : Prop where
  arms : alts.arms ≠ []
  defaultArm : ∀ arm, alts.defaultArm = some arm → arm < alts.arms.length

/-- The choice for input that no choice claims. -/
def Alternatives.defaultChoice (alts : Alternatives) : Alt :=
  if alts.errorBranch then .error else alts.preferred

theorem defaultTarget_zero (alts : Alternatives) (live : Live) :
    defaultTarget alts live 0 = alts.defaultChoice := by
  rw [defaultTarget_eq, Alternatives.defaultChoice]
  simp

/-- Whatever the next terminals are and whichever checks hold, the tree follows the longest prefix of
the next `k` terminals for which a choice is viable. -/
structure Decision.FollowsPrefix (tree : Decision) (la : Lookahead) (k : Nat) (alts : Alternatives)
    (live : Live) : Prop where
  /-- If no choice is viable for a terminal the default is selected, else the error or a choice that is
  viable for the prefix. -/
  selects : ∀ (ahead : Nat → Int) (holds : CheckRef → Bool), (∀ n, IsTerminal (ahead n)) →
    ∃ count alt, live.Longest la ahead 0 k count ∧ tree.select ahead holds = some alt ∧
      (count = 0 → alt = alts.defaultChoice) ∧
      (count ≠ 0 → alt = .error ∨ live.Viable la ahead 0 alt count)
  /-- A choice that alone is viable for so many terminals is selected, and no check is evaluated. -/
  decides : ∀ (ahead : Nat → Int) (count : Nat) (alt : Alt), (∀ n, IsTerminal (ahead n)) →
    1 ≤ count → count ≤ k → live.Viable la ahead 0 alt count →
    (∀ other, live.Viable la ahead 0 other count → other = alt) →
    tree.DecidedBy ahead alt ∧ ∀ holds, tree.select ahead holds = some alt

theorem followsPrefix_predictionOf (hk : 1 ≤ k) (harms : alts.arms ≠ [])
    (h : predictionOf la k id alts after = .ok (tree, warnings)) :
    tree.FollowsPrefix la k alts (initialLive id alts after) := by
  obtain ⟨left, rfl⟩ : ∃ left, k = left + 1 := ⟨k - 1, by omega⟩
  constructor
  · intro ahead holds hahead
    obtain ⟨count, hlongest⟩ := (sound_initialLive id alts after).exists_longest
      (initialLive_ne_nil harms)
    obtain ⟨alt, hselect, hzero, hpos⟩ := select_buildLevel_longest hahead h hlongest
    exact ⟨count, alt, hlongest, hselect, fun h => (hzero h).trans (defaultTarget_zero alts _), hpos⟩
  · intro ahead count alt hahead hone hle hviable hunique
    obtain ⟨less, rfl⟩ : ∃ less, count = less + 1 := ⟨count - 1, by omega⟩
    have hdecided := decidedBy_buildLevel hahead (Nat.le_of_succ_le_succ hle) h hviable hunique
    exact ⟨hdecided, fun holds => hdecided.select⟩

namespace Grammar

variable {g g' : Grammar} {journal journal' : List Event} {name : String} {follow : FollowSets}
  {options : Options}

/-- In a validated grammar, alternative sets have arms, and their default is one of them. -/
theorem Forest.valid_alternatives (hf : g.Forest) {rule : Rule} (hrule : g.rule? name = some rule)
    {place : Place} (hoccurs : g.Occurs rule.body place)
    (hk : g.kindAt? place.node = some (.alternatives alts)) : alts.Valid := by
  obtain ⟨node, hnode, hproblem⟩ := hf.exists_node hrule hoccurs.reaches
  rw [kindAt?_of_node hnode] at hk
  rw [nodeProblem?, Option.some.inj hk] at hproblem
  constructor
  · intro hnil
    simp [hnil] at hproblem
  · intro arm harm
    by_contra hlt
    simp only [harm, Nat.le_of_not_lt hlt, if_true] at hproblem
    split at hproblem <;> cases hproblem

/-- Where a rule of a validated grammar is analyzed, each of its alternative sets gets the tree that is
built for it. -/
theorem exists_predictionOf_of_analyzeRule (hvalid : g.validate = .ok ())
    (h : Yields (analyzeRule name follow options) (g, journal) ⟨⟩ (g', journal')) :
    ∃ rule, g.rule? name = some rule ∧ ∀ place alts, g.Occurs rule.body place →
      g.kindAt? place.node = some (.alternatives alts) → ∃ tree warnings,
        g'.kindAt? place.node = some (.alternatives { alts with prediction := some tree }) ∧
        predictionOf (g.lookaheadOf name follow options) (lookaheadDepth rule options) place.node alts
          place.after = .ok (tree, warnings) := by
  have hforest := forest_of_validate hvalid
  obtain ⟨rule, events, hrule, -, hanalyzed⟩ := analyzeRule_eq
    (fun rule ids hrule => hforest.nodup_of_walkMatched (SameShape.refl g).shapeIn hrule) h
  refine ⟨rule, hrule, fun place alts hoccurs hk => ?_⟩
  obtain ⟨tree, ⟨warnings, htree, -, -⟩, hk'⟩ := hanalyzed.predicted place alts hoccurs hk
  exact ⟨tree, warnings, hk', htree⟩

/-- **Prediction follows the longest viable prefix.** Where a rule of a validated grammar is analyzed,
each of its alternative sets gets a tree that follows the longest prefix of the terminals ahead for
which one of its arms, or its exit, is viable. -/
theorem followsPrefix_of_analyzeRule (hvalid : g.validate = .ok ())
    (h : Yields (analyzeRule name follow options) (g, journal) ⟨⟩ (g', journal')) :
    ∃ rule, g.rule? name = some rule ∧ ∀ place alts, g.Occurs rule.body place →
      g.kindAt? place.node = some (.alternatives alts) → ∃ tree,
        g'.kindAt? place.node = some (.alternatives { alts with prediction := some tree }) ∧
        tree.FollowsPrefix (g.lookaheadOf name follow options) (lookaheadDepth rule options) alts
          (initialLive place.node alts place.after) := by
  obtain ⟨rule, hrule, hall⟩ := exists_predictionOf_of_analyzeRule hvalid h
  refine ⟨rule, hrule, fun place alts hoccurs hk => ?_⟩
  obtain ⟨tree, warnings, hk', htree⟩ := hall place alts hoccurs hk
  exact ⟨tree, hk', followsPrefix_predictionOf (Nat.le_max_right _ _)
    ((forest_of_validate hvalid).valid_alternatives hrule hoccurs hk).arms htree⟩

end Grammar

/-- The tree of `pairs` looks at two terminals. -/
theorem pairs_followsPrefix : pairsTree.FollowsPrefix
    ((pairsWith none none).lookaheadOf "pairs" [("pairs", .endOfInput)] .default) 2
    (.ofArms [2, 5] .star) (initialLive 6 (.ofArms [2, 5] .star) []) := by
  obtain ⟨rule, hrule, hall⟩ :=
    Grammar.followsPrefix_of_analyzeRule (by decide +kernel) pairs_analyzed
  cases hrule
  obtain ⟨tree, hk, hfollows⟩ := hall ⟨6, []⟩ (.ofArms [2, 5] .star) .refl rfl
  cases hk
  exact hfollows

end PredictiveParser
