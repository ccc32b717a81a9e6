import PredictiveParser.Proofs.Analysis.Prematch
import PredictiveParser.Proofs.Grammar.Parents

/-!
# What is marked holds

A terminal or check with a mark is not tested again. That is right because the only way to it leads
from the choice of an arm over the first items of sequences, without reading input, and choosing the
arm has tested it.

* `Decision.tested_of_isProven`: what is proven for an arm is tested where the tree selects the arm
  (`Decision.Tested`), and so it holds there (`holdsAt_of_isProven`).
* `Grammar.Entered`: at this place of the input, what is marked at the start of a node holds. It
  holds at the start of an arm that is selected (`entered_arm`), and nothing is marked at the start of
  a rule (`entered_body`), of a later item of a sequence (`entered_later`) or of a gate
  (`entered_gate`).
-/
namespace PredictiveParser

open Relation

/-- Whether prediction is said to have tested the node. -/
def NodeKind.isMarked : NodeKind → Bool
  | .terminal _ mark => mark == some true
  | .check test => test.prematched == some true
  | _ => false

theorem NodeKind.isMarked_of_textless {kind kind' : NodeKind} (h : kind.textless = kind'.textless) :
    kind.isMarked = kind'.isMarked := by
  have forget : ∀ kind : NodeKind, kind.textless.isMarked = kind.isMarked := by
    rintro (_ | _ | _ | ⟨_, _ | _, _⟩ | _ | _) <;> rfl
  rw [← forget kind, h, forget]

/-! ## Proven leads hold -/

namespace Decision

variable {la : Nat → Int} {holds : CheckRef → Bool} {alt : Alt} {tree : Decision}

theorem contains_foldl_union {branches : List (Branch Decision)} {set : CharSet} {c : Int} :
    (branches.foldl (fun set b => b.set.union set) set).contains c = true ↔
      set.contains c = true ∨ ∃ branch ∈ branches, branch.set.contains c = true := by
  induction branches generalizing set with
  | nil => simp
  | cons branch rest ih =>
    rw [List.foldl_cons, ih, CharSet.contains_union, Bool.or_eq_true]
    simp only [List.exists_mem_cons_iff]
    tauto

/-- A choice is made for a terminal of the first-level sets that lead to it. -/
theorem contains_firstSets {sets : CharSet} (hwf : tree.WellFormed)
    (hselect : tree.select la holds = some alt) (hsets : tree.firstSetsTo? alt = some sets) :
    sets.contains (la 0) = true := by
  unfold firstSetsTo? at hsets
  split at hsets
  · rename_i branches coverage
    split at hsets
    · cases hsets
    · rw [select_level] at hselect
      obtain ⟨branch, hfind, hselect⟩ := Option.bind_eq_some_iff.1 hselect
      have hm := List.mem_of_find?_eq_some hfind
      have haccepts : branch.set.contains (la 0) = true := by
        simpa [acceptsAt_lookahead] using List.find?_some hfind
      have huses : branch ∈ branches.filter (·.target.uses alt) :=
        List.mem_filter.2 ⟨hm, List.contains_iff_mem.2 (mem_leaves_of_select (hwf.target hm) hselect)⟩
      split at hsets
      · rename_i hnil
        rw [hnil] at huses
        cases huses
      · rename_i first rest hcons
        cases hsets
        rw [contains_foldl_union]
        rw [hcons] at huses
        rcases List.mem_cons.1 huses with rfl | hrest
        · exact Or.inl haccepts
        · exact Or.inr ⟨branch, hrest, haccepts⟩
  · cases hsets

theorem branchesTest_iff {tested : CheckRef} {isAssertion : Bool} {branches : List (Branch Decision)} :
    branchesTest alt tested isAssertion branches = true ↔ ∀ branch ∈ branches,
      branch.target.uses alt = true →
        (isAssertion = true ∧ branch.checks ≠ [] ∧ ∀ set ∈ branch.checks, tested ∈ set) ∨
          branch.target.alwaysTests alt tested = true := by
  induction branches with
  | nil => simp [branchesTest]
  | cons branch rest ih =>
    obtain ⟨set, checks, covered, target⟩ := branch
    rw [branchesTest, Bool.and_eq_true, ih, List.forall_mem_cons]
    refine and_congr_left fun _ => ?_
    simp only [Bool.or_eq_true, Bool.not_eq_true', Bool.and_eq_true, List.all_eq_true,
      List.contains_iff_mem, List.isEmpty_eq_false_iff]
    cases target.uses alt <;> simp [and_assoc]

/-- The evaluation of the tree takes a branch of an assertion level, and these are the checks of the
branch: the sets of which one has to hold. -/
inductive Passes (la : Nat → Int) (holds : CheckRef → Bool) : Decision → List CheckSet → Prop where
  | here {offset : Nat} {branches : List (Branch Decision)} {coverage : CharSet}
      {branch : Branch Decision}
      (taken : branches.find? (·.acceptsAt la holds offset true) = some branch) :
      Passes la holds (.level offset true branches coverage) branch.checks
  | deeper {offset : Nat} {isAssertion : Bool} {branches : List (Branch Decision)} {coverage : CharSet}
      {branch : Branch Decision} {disjuncts : List CheckSet}
      (taken : branches.find? (·.acceptsAt la holds offset isAssertion) = some branch)
      (passes : Passes la holds branch.target disjuncts) :
      Passes la holds (.level offset isAssertion branches coverage) disjuncts

/-- One of the sets that were passed holds, if there are any. -/
theorem Passes.exists_holds {disjuncts : List CheckSet} (h : tree.Passes la holds disjuncts)
    (hne : disjuncts ≠ []) : ∃ set ∈ disjuncts, ∀ ref ∈ set, holds ref = true := by
  induction h with
  | here taken =>
    have haccepts := List.find?_some taken
    simpa only [Branch.acceptsAt, accepts, if_true, Bool.or_eq_true, List.isEmpty_iff, hne, false_or,
      List.any_eq_true, List.all_eq_true] using haccepts
  | deeper _ _ ih => exact ih hne

/-- The test that a choice always passes is passed where the choice is made. -/
theorem exists_passes_of_alwaysTests {tested : CheckRef} (hwf : tree.WellFormed)
    (hselect : tree.select la holds = some alt) (htests : tree.alwaysTests alt tested = true) :
    ∃ disjuncts, tree.Passes la holds disjuncts ∧ disjuncts ≠ [] ∧
      ∀ set ∈ disjuncts, tested ∈ set := by
  -- The branch that was taken has tested the check itself, or the tree behind it does.
  have step : ∀ {offset isAssertion branches coverage},
      (level offset isAssertion branches coverage).WellFormed →
      (∀ branch ∈ branches, branch.target.select la holds = some alt →
        branch.target.alwaysTests alt tested = true → ∃ disjuncts,
          branch.target.Passes la holds disjuncts ∧ disjuncts ≠ [] ∧
            ∀ set ∈ disjuncts, tested ∈ set) →
      (level offset isAssertion branches coverage).select la holds = some alt →
      (level offset isAssertion branches coverage).alwaysTests alt tested = true → ∃ disjuncts,
        (level offset isAssertion branches coverage).Passes la holds disjuncts ∧ disjuncts ≠ [] ∧
          ∀ set ∈ disjuncts, tested ∈ set := by
    intro offset isAssertion branches coverage hwf ih hselect htests
    rw [select_level] at hselect
    obtain ⟨branch, hfind, hselect⟩ := Option.bind_eq_some_iff.1 hselect
    have hm := List.mem_of_find?_eq_some hfind
    rw [alwaysTests, Bool.and_eq_true, branchesTest_iff] at htests
    have huses : branch.target.uses alt = true :=
      List.contains_iff_mem.2 (mem_leaves_of_select (hwf.target hm) hselect)
    rcases htests.2 branch hm huses with ⟨rfl, hne, hall⟩ | hbelow
    · exact ⟨branch.checks, .here hfind, hne, hall⟩
    · obtain ⟨disjuncts, hpasses, htested⟩ := ih branch hm hselect hbelow
      exact ⟨disjuncts, .deeper hfind hpasses, htested⟩
  induction hwf with
  | pick other =>
    rw [alwaysTests] at htests
    cases htests
  | lookahead accepting covering targets ih =>
    exact step (.lookahead accepting covering targets) ih hselect htests
  | assertion unconditional targets ih =>
    exact step (.assertion unconditional targets) ih hselect htests

/-- Evaluating the tree on these terminals and truth values has tested the node. -/
def Tested (tree : Decision) (la : Nat → Int) (holds : CheckRef → Bool) (id : NodeId) :
    NodeKind → Prop
  | .terminal set _ => set.contains (la 0) = true
  | .check _ => ∃ disjuncts, tree.Passes la holds disjuncts ∧ disjuncts ≠ [] ∧
      ∀ checks ∈ disjuncts, ⟨id, 0⟩ ∈ checks
  | _ => False

/-- **What is proven for an arm is tested where the arm is selected.** -/
theorem tested_of_isProven {index : Nat} {id : NodeId} {lead : Node} (hwf : tree.WellFormed)
    (hselect : tree.select la holds = some (.arm index))
    (hproven : Grammar.isProven tree index id lead = true) : tree.Tested la holds id lead.kind := by
  unfold Grammar.isProven at hproven
  split at hproven
  · rename_i set mark hkind
    rw [hkind]
    split at hproven
    · rename_i sets hsets
      exact CharSet.isSubsetOf_iff.1 hproven _ (contains_firstSets hwf hselect hsets)
    · cases hproven
  · rename_i test hkind
    rw [hkind]
    exact exists_passes_of_alwaysTests hwf hselect hproven
  · cases hproven

end Decision

/-! ## Ways to a lead -/

namespace Grammar

variable {g : Grammar} {body id lead : NodeId}

/-- The last step of the way to a lead. -/
theorem Starts.last (h : g.Starts id lead) :
    id = lead ∨ ∃ parent rest, g.Starts id parent ∧
      g.kindAt? parent = some (.sequence (lead :: rest)) := by
  induction h with
  | here id => exact Or.inl rfl
  | first kind below ih =>
    rcases ih with rfl | ⟨parent, rest, hstarts, hkind⟩
    · exact Or.inr ⟨_, _, .here _, kind⟩
    · exact Or.inr ⟨parent, rest, .first kind hstarts, hkind⟩

theorem link_of_sequence {items : List NodeId} {item : NodeId}
    (hk : g.kindAt? id = some (.sequence items)) (hitem : item ∈ items) :
    g.Link Node.matchedChildren id item := by
  obtain ⟨node, hnode, hkind⟩ := kindAt?_eq_some.1 hk
  refine ⟨node, hnode, ?_⟩
  rwa [Node.matchedChildren, hkind]

theorem link_of_alternatives {alts : Alternatives} {arm : NodeId}
    (hk : g.kindAt? id = some (.alternatives alts)) (harm : arm ∈ alts.arms) :
    g.Link Node.matchedChildren id arm := by
  obtain ⟨node, hnode, hkind⟩ := kindAt?_eq_some.1 hk
  refine ⟨node, hnode, ?_⟩
  rwa [Node.matchedChildren, hkind]

theorem link_of_gate {predict matched : NodeId}
    (hk : g.kindAt? id = some (.gate predict matched)) : g.Link Node.matchedChildren id matched := by
  obtain ⟨node, hnode, hkind⟩ := kindAt?_eq_some.1 hk
  refine ⟨node, hnode, ?_⟩
  rw [Node.matchedChildren, hkind]
  exact List.mem_singleton.2 rfl

/-- The sets that the tree under a node matches have well-formed predictions. -/
def WellPredicted (g : Grammar) (id : NodeId) : Prop :=
  ∀ below alts tree, g.MatchedBy id below → g.kindAt? below = some (.alternatives alts) →
    alts.prediction = some tree → tree.WellFormed

theorem WellPredicted.below (h : g.WellPredicted body) (hid : g.MatchedBy body id) :
    g.WellPredicted id :=
  fun below alts tree hm => h below alts tree (hid.trans hm)

section

variable (hrooted : g.Rooted Node.matchedChildren body)

include hrooted

/-- Two ways to one lead are one behind the other. -/
theorem Rooted.starts_total {a b : NodeId} (ha : g.MatchedBy body a) (hb : g.MatchedBy body b)
    (h : g.Starts a lead) (h' : g.Starts b lead) : g.Starts a b ∨ g.Starts b a := by
  induction h with
  | here id => exact Or.inr h'
  | @first id first lead rest kind below ih =>
    have hlink := link_of_sequence kind List.mem_cons_self
    rcases ih (ha.tail hlink) h' with hfirst | hfirst
    · exact Or.inl (.first kind hfirst)
    · rcases hfirst.last with rfl | ⟨parent, rest', hstarts, hkind⟩
      · exact Or.inl (.first kind (.here _))
      · have hparent : parent = id := hrooted.unique _ _ _ (hb.trans hstarts.matched) ha
          (link_of_sequence hkind List.mem_cons_self) hlink
        exact Or.inr (hparent ▸ hstarts)

/-- An arm is not an item of a sequence. -/
theorem Rooted.starts_arm {set arm : NodeId} {alts : Alternatives} (hset : g.MatchedBy body set)
    (hk : g.kindAt? set = some (.alternatives alts)) (harm : arm ∈ alts.arms)
    (hid : g.MatchedBy body id) (h : g.Starts id arm) : id = arm := by
  rcases h.last with heq | ⟨parent, rest, hstarts, hkind⟩
  · exact heq
  · have hparent : parent = set := hrooted.unique _ _ _ (hid.trans hstarts.matched) hset
      (link_of_sequence hkind List.mem_cons_self) (link_of_alternatives hk harm)
    rw [hparent, hk] at hkind
    cases hkind

/-- The way to a proven lead comes from the arm that it is proven for, unless it starts behind it. -/
theorem Rooted.starts_provenLead {set arm : NodeId} {alts : Alternatives}
    (hset : g.MatchedBy body set) (hk : g.kindAt? set = some (.alternatives alts))
    (harm : arm ∈ alts.arms) (hlead : g.Starts arm lead) (hid : g.MatchedBy body id)
    (h : g.Starts id lead) : id = arm ∨
      ∃ parent rest, g.MatchedBy body parent ∧ g.kindAt? parent = some (.sequence (id :: rest)) := by
  have hmatched : g.MatchedBy body arm := hset.tail (link_of_alternatives hk harm)
  rcases hrooted.starts_total hid hmatched h hlead with hstarts | hstarts
  · exact Or.inl (hrooted.starts_arm hset hk harm hid hstarts)
  · rcases hstarts.last with rfl | ⟨parent, rest, hparent, hkind⟩
    · exact Or.inl rfl
    · exact Or.inr ⟨parent, rest, hmatched.trans hparent.matched, hkind⟩

end

end Grammar

/-! ## Marks -/

section

variable {σ : Type} [Source σ]

namespace Grammar

/-- What a terminal or check asks for holds at this place. -/
def HoldsAt (g : Grammar) (values : CheckValues σ) (s : σ) (id : NodeId) : NodeKind → Prop
  | .terminal set _ => set.contains (Source.lookahead s 0) = true
  | .check _ => g.checkHolds values s ⟨id, 0⟩ = true
  | _ => True

variable {g : Grammar} {values : CheckValues σ} {s : σ}

/-- What is proven for an arm holds where the arm is selected. -/
theorem holdsAt_of_isProven {tree : Decision} {index : Nat} {id : NodeId} {lead : Node}
    (hwf : tree.WellFormed)
    (hselect : tree.select (Source.lookahead s) (g.checkHolds values s) = some (.arm index))
    (hproven : isProven tree index id lead = true) : g.HoldsAt values s id lead.kind := by
  have htested := Decision.tested_of_isProven hwf hselect hproven
  revert htested
  cases lead.kind with
  | terminal set mark => exact fun hcontains => hcontains
  | check test =>
    rintro ⟨disjuncts, hpasses, hne, hmem⟩
    obtain ⟨checks, hchecks, hholds⟩ := hpasses.exists_holds hne
    exact hholds _ (hmem checks hchecks)
  | _ => exact fun _ => trivial

/-- At this place, what is marked at the start of the node holds. -/
def Entered (g : Grammar) (values : CheckValues σ) (s : σ) (id : NodeId) : Prop :=
  ∀ lead kind, g.Starts id lead → g.kindAt? lead = some kind → kind.isMarked = true →
    g.HoldsAt values s lead kind

/-- A rule as analysis leaves it: a tree whose sets have well-formed predictions and where only
proven leads are marked. -/
structure Prepared (g : Grammar) (body : NodeId) : Prop where
  rooted : g.Rooted Node.matchedChildren body
  predicted : g.WellPredicted body
  marks : ∀ id kind, g.MatchedBy body id → g.kindAt? id = some kind → kind.isMarked = true →
    ∃ set, g.MatchedBy body set ∧ g.ProvenLead set id

namespace Prepared

variable {body id : NodeId} (hg : g.Prepared body)

include hg

/-- Nothing is marked at the start of a node that is neither an arm nor the first item of a
sequence. -/
theorem entered_of_inner (hid : g.MatchedBy body id)
    (hinner : ∀ parent kind, g.MatchedBy body parent → g.kindAt? parent = some kind →
      (∀ rest, kind ≠ .sequence (id :: rest)) ∧ ∀ alts, kind = .alternatives alts → id ∉ alts.arms)
    (s : σ) : g.Entered values s id := by
  intro lead kind hstarts hkind hmarked
  obtain ⟨set, hset, alts, tree, index, arm, node, hk, -, harm, hlead, -, -⟩ :=
    hg.marks lead kind (hid.trans hstarts.matched) hkind hmarked
  have harm := List.mem_of_getElem? harm
  rcases hg.rooted.starts_provenLead hset hk harm hlead hid hstarts with rfl | ⟨parent, rest, hp, hpk⟩
  · exact ((hinner set _ hset hk).2 alts rfl harm).elim
  · exact ((hinner parent _ hp hpk).1 rest rfl).elim

theorem entered_body (s : σ) : g.Entered values s body := by
  refine hg.entered_of_inner .refl (fun parent kind hparent hkind => ⟨?_, ?_⟩) s
  · rintro rest rfl
    exact hg.rooted.top parent hparent (link_of_sequence hkind List.mem_cons_self)
  · rintro alts rfl hmem
    exact hg.rooted.top parent hparent (link_of_alternatives hkind hmem)

theorem entered_later {first item : NodeId} {rest : List NodeId} (hid : g.MatchedBy body id)
    (hk : g.kindAt? id = some (.sequence (first :: rest))) (hitem : item ∈ rest) (s : σ) :
    g.Entered values s item := by
  have hlink := link_of_sequence hk (List.mem_cons_of_mem _ hitem)
  refine hg.entered_of_inner (hid.tail hlink) (fun parent kind hparent hkind => ⟨?_, ?_⟩) s
  · rintro rest' rfl
    have heq := hg.rooted.unique _ _ _ hparent hid (link_of_sequence hkind List.mem_cons_self) hlink
    rw [heq, hk] at hkind
    cases hkind
    obtain ⟨node, hnode, hnodekind⟩ := kindAt?_eq_some.1 hk
    have hnodup := hg.rooted.nodup id node hid hnode
    rw [Node.matchedChildren, hnodekind] at hnodup
    exact (List.nodup_cons.1 hnodup).1 hitem
  · rintro alts rfl hmem
    have heq := hg.rooted.unique _ _ _ hparent hid (link_of_alternatives hkind hmem) hlink
    rw [heq, hk] at hkind
    cases hkind

theorem entered_gate {predict matched : NodeId} (hid : g.MatchedBy body id)
    (hk : g.kindAt? id = some (.gate predict matched)) (s : σ) : g.Entered values s matched := by
  have hlink := link_of_gate hk
  refine hg.entered_of_inner (hid.tail hlink) (fun parent kind hparent hkind => ⟨?_, ?_⟩) s
  · rintro rest rfl
    have heq := hg.rooted.unique _ _ _ hparent hid (link_of_sequence hkind List.mem_cons_self) hlink
    rw [heq, hk] at hkind
    cases hkind
  · rintro alts rfl hmem
    have heq := hg.rooted.unique _ _ _ hparent hid (link_of_alternatives hkind hmem) hlink
    rw [heq, hk] at hkind
    cases hkind

/-- **What is marked at the start of an arm holds where the arm is selected.** -/
theorem entered_arm {alts : Alternatives} {tree : Decision} {index : Nat} {arm : NodeId}
    (hid : g.MatchedBy body id) (hk : g.kindAt? id = some (.alternatives alts))
    (htree : alts.prediction = some tree) (harm : alts.arms[index]? = some arm)
    (hselect : tree.select (Source.lookahead s) (g.checkHolds values s) = some (.arm index)) :
    g.Entered values s arm := by
  intro lead kind hstarts hkind hmarked
  have hmem := List.mem_of_getElem? harm
  have hmatched : g.MatchedBy body arm := hid.tail (link_of_alternatives hk hmem)
  obtain ⟨set, hset, alts', tree', index', arm', node, hk', htree', harm', hlead, hnode, hproven⟩ :=
    hg.marks lead kind (hmatched.trans hstarts.matched) hkind hmarked
  have hmem' := List.mem_of_getElem? harm'
  -- The arm for which the lead is proven is this one, in this set.
  have hsame : arm = arm' := by
    rcases hg.rooted.starts_provenLead hset hk' hmem' hlead hmatched hstarts with
      heq | ⟨parent, rest, hp, hpk⟩
    · exact heq
    · have heq := hg.rooted.unique _ _ _ hp hid (link_of_sequence hpk List.mem_cons_self)
        (link_of_alternatives hk hmem)
      rw [heq, hk] at hpk
      cases hpk
  subst hsame
  have hsets := hg.rooted.unique _ _ _ hset hid (link_of_alternatives hk' hmem')
    (link_of_alternatives hk hmem)
  subst hsets
  rw [hk] at hk'
  cases hk'
  rw [htree] at htree'
  cases htree'
  have hindex : index = index' := by
    obtain ⟨setNode, hsetNode, hsetKind⟩ := kindAt?_eq_some.1 hk
    have hnodup := hg.rooted.nodup _ setNode hid hsetNode
    rw [Node.matchedChildren, hsetKind] at hnodup
    obtain ⟨hlt, -⟩ := List.getElem?_eq_some_iff.1 harm
    exact (List.getElem?_inj hlt hnodup).1 (harm.trans harm'.symm)
  subst hindex
  have hlead := holdsAt_of_isProven (hg.predicted _ alts tree hid hk htree) hselect hproven
  rw [kindAt?_of_node hnode] at hkind
  cases hkind
  exact hlead

end Prepared

end Grammar

end

end PredictiveParser
