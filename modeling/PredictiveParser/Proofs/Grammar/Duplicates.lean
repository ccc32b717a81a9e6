import PredictiveParser.Proofs.Grammar.Acceptance
import PredictiveParser.Proofs.Grammar.Ordered

/-!
# Trees made twice

A clone of a tree is a tree of its own (`Grammar.Duplicated`): it has at the end of each path what the tree
has there, and none of its nodes was there before or is in it twice. "One or more" of a tree is the tree
and a loop over a clone (`Grammar.Repeated`), and so it accepts one or more times what the tree accepts.
-/
namespace PredictiveParser

open Relation

namespace Grammar

/-- The node `i'` has what the node `i` has, with other nodes below it and without a prediction. -/
def Reflects (g g' : Grammar) (i i' : NodeId) : Prop :=
  ∃ node below, g.node i = .ok node ∧ g'.node i' = .ok (node.withChildren below)

/-- The tree under `new` reflects the tree under `id` path by path, and it consists of all the nodes that were
added. -/
structure Duplicated (g : Grammar) (id : NodeId) (g' : Grammar) (new : NodeId) : Prop where
  rules : g'.rules = g.rules
  kept : ∀ i, i < g.nodes.size → g'.nodes[i]? = g.nodes[i]?
  alike : ∀ path, Option.Rel (Reflects g g') (g.nodeAt? id path) (g'.nodeAt? new path)
  cleared : ∀ i alts, g'.Reaches new i → g'.kindAt? i = some (.alternatives alts) →
    alts.prediction = none
  fresh : ∀ i, g'.Reaches new i → g.nodes.size ≤ i
  once : ∀ i, g.nodes.size ≤ i → i < g'.nodes.size → ∃! path, g'.nodeAt? new path = some i

/-- The node `rest` repeats the tree under `again`: it is a new loop around it, or the plain choice that was
there, which has become a loop. -/
structure LoopOver (g : Grammar) (again : NodeId) (g' : Grammar) (rest : NodeId) : Prop where
  rules : g'.rules = g.rules
  kept : ∀ i, i < g.nodes.size → i ≠ rest → g'.nodes[i]? = g.nodes[i]?
  loop : (rest = g.nodes.size ∧ g'.node rest = .ok (.ofKind (.alternatives (.ofArms [again] .star)))) ∨
    rest = again ∧ ∃ node alts, g.node again = .ok node ∧ node.kind = .alternatives alts ∧
      alts.mode = .once ∧ node.label = none ∧ node.preAction = none ∧ node.postAction = none ∧
      g'.node again = .ok { node with kind := .alternatives { alts with mode := .star } }

/-- The tree under `new` is the tree under `id` and behind it a loop over the clone `again` of it, which
was made on the way to the grammar `cloned`. -/
structure Repeated (g : Grammar) (id : NodeId) (cloned : Grammar) (again : NodeId) (g' : Grammar)
    (new : NodeId) : Prop where
  rules : g'.rules = g.rules
  kept : ∀ i, i < g.nodes.size → g'.nodes[i]? = g.nodes[i]?
  unshared : g'.Unshared new
  shape : ∃ rest, g'.node new = .ok (.ofKind (.sequence [id, rest])) ∧ cloned.LoopOver again g' rest
  accepts : ∀ {σ : Type} [Source σ] (values : CheckValues σ) (call : Calling σ) (s t : σ),
    (∀ path i i', g.nodeAt? id path = some i → cloned.nodeAt? again path = some i' →
      ∀ s, values ⟨i', 0⟩ s = values ⟨i, 0⟩ s) →
    (g'.Accepts values call new s t ↔ TransGen (g.Accepts values call id) s t)

variable {g g' g'' : Grammar} {id new again rest : NodeId} {depth : Nat}

/-! ## Clones -/

theorem TwinOf.nodeAt? (h : TwinOf g g' depth id new) (path : List Nat) :
    Option.Rel (Reflects g g') (g.nodeAt? id path) (g'.nodeAt? new path) := by
  induction path generalizing depth id new with
  | nil =>
    cases depth with
    | zero => exact h.elim
    | succ depth =>
      obtain ⟨node, below, hnode, hnew, -⟩ := h
      exact .some ⟨node, below, hnode, hnew⟩
  | cons step rest ih =>
    cases depth with
    | zero => exact h.elim
    | succ depth =>
      obtain ⟨node, below, hnode, hnew, hbelow⟩ := h
      rw [nodeAt?_cons hnode, nodeAt?_cons hnew, Node.children_withChildren hbelow.length_eq.symm]
      by_cases hstep : step < node.children.length
      · have hstep' := hbelow.length_eq ▸ hstep
        rw [List.getElem?_eq_getElem hstep, List.getElem?_eq_getElem hstep']
        exact ih ((List.forall₂_iff_get.1 hbelow).2 step hstep hstep')
      · rw [List.getElem?_eq_none (Nat.le_of_not_lt hstep),
          List.getElem?_eq_none (hbelow.length_eq ▸ Nat.le_of_not_lt hstep)]
        exact .none

theorem prediction_withChildren {node : Node} {below : List NodeId} {alts : Alternatives}
    (h : (node.withChildren below).kind = .alternatives alts) : alts.prediction = none := by
  obtain ⟨kind, label, isList, saver, pre, post, basis⟩ := node
  rcases kind with items | alts | ⟨predict, matched⟩ | ⟨negate, ⟨tokens⟩ | ⟨payload, rule⟩, mark⟩ |
    callee | ⟨set, mark⟩ <;> cases h
  rfl

theorem TwinOf.exists_reflected (h : TwinOf g g' depth id new) {i : NodeId} (hi : g'.Reaches new i) :
    ∃ source, Reflects g g' source i := by
  obtain ⟨path, hpath⟩ := reaches_iff.1 hi
  have halike := h.nodeAt? path
  rw [hpath] at halike
  generalize g.nodeAt? id path = found at halike
  cases halike with
  | some hreflects => exact ⟨_, hreflects⟩

theorem Copied.unshared (h : Copied g depth id g' new) : g'.Unshared new := by
  obtain ⟨ids, hids, hnodup, -⟩ := h.walk
  exact (unshared_iff_nodup hids).2 hnodup

theorem Copied.fresh (h : Copied g depth id g' new) {i : NodeId} (hi : g'.Reaches new i) :
    g.nodes.size ≤ i := by
  obtain ⟨ids, hids, -, hnew⟩ := h.walk
  exact hnew i ((mem_walkDown hids).2 hi)

theorem Copied.duplicated (h : Copied g depth id g' new) : g.Duplicated id g' new where
  rules := h.extend.rules
  kept := h.extend.nodes
  alike := h.twin.nodeAt?
  cleared i alts hreach hk := by
    obtain ⟨source, node, below, -, hnew⟩ := h.twin.exists_reflected hreach
    exact prediction_withChildren (Option.some.inj ((kindAt?_of_node hnew).symm.trans hk))
  fresh _ := h.fresh
  once i hi hlt := by
    obtain ⟨path, hpath⟩ := reaches_iff.1 (h.reached i hi hlt)
    exact ⟨path, hpath, fun path' hpath' => h.unshared path' path i hpath' hpath⟩

/-! ## Loops -/

theorem exists_loopOf {mode : Repetition} (h : ∃ node, g.node again = .ok node) :
    ∃ made, g.loopOf again mode = .ok made := by
  obtain ⟨g', hg'⟩ : ∃ g', g.modifyNode again (Node.mapAlternatives ({ · with mode })) = .ok g' :=
    exists_modifyNode h
  obtain ⟨node, hnode⟩ := h
  unfold loopOf
  rw [hnode, hg']
  dsimp only [bind, Except.bind]
  split
  · split
    · exact ⟨_, rfl⟩
    · exact ⟨_, rfl⟩
  · exact ⟨_, rfl⟩

theorem loopOver_of_star (h : g.star again = .ok (g', rest)) : g.LoopOver again g' rest := by
  obtain ⟨node, alts, hnode, hkind, hmode, hlabel, hpre, hpost, rfl, hg'⟩ | ⟨-, heq⟩ := loopOf_cases h
  · obtain ⟨hrules, hnodes⟩ := modifyNode_eq_ok hg'
    refine ⟨hrules, fun i _ hne => by rw [hnodes, if_neg hne],
      Or.inr ⟨rfl, node, alts, hnode, hkind, hmode, hlabel, hpre, hpost, ?_⟩⟩
    rw [node_eq_ok, hnodes, if_pos rfl, node_eq_ok.1 hnode, Option.map_some, Node.mapAlternatives, hkind]
  · cases heq
    refine ⟨rfl, fun i hi _ => ?_, Or.inl ⟨rfl, node_addNode_last g _⟩⟩
    exact (Array.getElem?_push_lt hi).trans (Array.getElem?_eq_getElem hi).symm

theorem LoopOver.addNode (h : g.LoopOver again g' rest) (hsize : g.nodes.size ≤ g'.nodes.size) (node : Node) :
    g.LoopOver again (g'.addNode node).1 rest where
  rules := h.rules
  kept i hi hne := by
    rw [← h.kept i hi hne]
    show (g'.nodes.push node)[i]? = _
    rw [Array.getElem?_push, if_neg (Nat.ne_of_lt (Nat.lt_of_lt_of_le hi hsize))]
  loop := by
    obtain ⟨hrest, hnode⟩ | ⟨hrest, old, alts, hold, hkind, hmode, hlabel, hpre, hpost, hnode⟩ := h.loop
    · exact Or.inl ⟨hrest, node_addNode_of_node hnode node⟩
    · exact Or.inr ⟨hrest, old, alts, hold, hkind, hmode, hlabel, hpre, hpost,
        node_addNode_of_node hnode node⟩

/-- The arms of a loop are the repeated node, or the arms that it had. -/
theorem LoopOver.exists_arms (h : g.LoopOver again g' rest) (hordered : g.Ordered)
    (hagain : again < g.nodes.size) : ∃ loop alts, g'.node rest = .ok loop ∧
      loop.kind = .alternatives alts ∧ alts.mode = .star ∧
      (∀ arm ∈ alts.arms, arm < rest ∧ g.Reaches again arm) ∧
      (g.Unshared again → (∀ arm ∈ alts.arms, g.Unshared arm) ∧ alts.arms.Pairwise g.ApartBelow) ∧
      ∀ {σ : Type} [Source σ] (values : CheckValues σ) (call : Calling σ) (s t : σ),
        (∃ arm ∈ alts.arms, g.Accepts values call arm s t) ↔ g.Accepts values call again s t := by
  obtain ⟨rfl, hnode⟩ | ⟨rfl, node, alts, hnode, hkind, hmode, -, -, -, hloop⟩ := h.loop
  · refine ⟨_, .ofArms [again] .star, hnode, rfl, rfl, ?_, fun hunshared => ⟨?_, ?_⟩,
      fun values call s t => ?_⟩
    · exact List.forall_mem_singleton.2 ⟨hagain, .refl⟩
    · exact List.forall_mem_singleton.2 hunshared
    · exact List.pairwise_singleton _ _
    · simp [Alternatives.ofArms]
  · have hchildren : node.children = alts.arms := by simp only [Node.children, hkind]
    have hk : g.kindAt? rest = some (.alternatives alts) := hkind ▸ kindAt?_of_node hnode
    refine ⟨_, { alts with mode := .star }, hloop, rfl, rfl, fun arm harm => ?_, fun hunshared => ?_,
      fun values call s t => ?_⟩
    · have hlink : g.Link Node.children rest arm := ⟨node, hnode, hchildren ▸ harm⟩
      exact ⟨hordered.below rest arm hlink, .single hlink⟩
    · obtain ⟨-, hown, hapart⟩ := hunshared.children hnode
      exact ⟨hchildren ▸ hown, hchildren ▸ hapart⟩
    · rw [accepts_iff hk, NodeKind.Accepts, hmode]
      rfl

/-- What stands before a loop is what it was. -/
theorem LoopOver.node_of_reaches (h : g.LoopOver again g' rest) (hordered : g.Ordered) {arm : NodeId}
    (harm : arm < rest) {i : NodeId} (hi : g.Reaches arm i) {node : Node} (hnode : g.node i = .ok node) :
    g'.node i = .ok node := by
  have hlt : i < rest := Nat.lt_of_le_of_lt (hordered.le_of_reaches hi) harm
  rw [node_eq_ok, h.kept i (lt_of_node hnode) (Nat.ne_of_lt hlt)]
  exact node_eq_ok.1 hnode

/-- A loop over a tree that shares no node shares none, and what is below it was below the repeated node. -/
theorem LoopOver.unshared (h : g.LoopOver again g' rest) (hordered : g.Ordered)
    (hagain : again < g.nodes.size) (hunshared : g.Unshared again) :
    g'.Unshared rest ∧ ∀ i, g'.Reaches rest i → i = rest ∨ g.Reaches again i := by
  obtain ⟨loop, alts, hloop, hkind, -, harms, hshares, -⟩ := h.exists_arms hordered hagain
  obtain ⟨hown, hapart⟩ := hshares hunshared
  have hchildren : loop.children = alts.arms := by simp only [Node.children, hkind]
  have same : ∀ arm ∈ alts.arms, ∀ path, g'.nodeAt? arm path = g.nodeAt? arm path := by
    intro arm harm
    obtain ⟨hlt, hreach⟩ := harms arm harm
    have hthere : arm < g.nodes.size := Nat.lt_of_le_of_lt (hordered.le_of_reaches hreach) hagain
    exact (hordered.hasDepth hthere).nodeAt? fun i node hi => h.node_of_reaches hordered hlt hi
  constructor
  · refine unshared_of_children hloop ?_ ?_ ?_
    · intro arm harm hreach
      rw [hchildren] at harm
      have hle := hordered.le_of_reaches ((reaches_congr (same arm harm)).1 hreach)
      exact Nat.not_le_of_lt (harms arm harm).1 hle
    · intro arm harm
      rw [hchildren] at harm
      exact (unshared_congr (same arm harm)).2 (hown arm harm)
    · rw [hchildren]
      refine hapart.imp_of_mem fun {arm arm'} harm harm' hpair i hi hi' => ?_
      exact hpair i ((reaches_congr (same arm harm)).1 hi) ((reaches_congr (same arm' harm')).1 hi')
  · intro i hi
    rcases hi.cases_head with rfl | ⟨arm, ⟨loop', hloop', harm⟩, hbelow⟩
    · exact Or.inl rfl
    · cases hloop.symm.trans hloop'
      rw [hchildren] at harm
      exact Or.inr ((harms arm harm).2.trans ((reaches_congr (same arm harm)).1 hbelow))

/-- A loop accepts what the repeated tree accepts, any number of times. -/
theorem LoopOver.accepts_iff (h : g.LoopOver again g' rest) (hordered : g.Ordered)
    (hagain : again < g.nodes.size) {σ : Type} [Source σ] (values : CheckValues σ) (call : Calling σ)
    (s t : σ) : g'.Accepts values call rest s t ↔ ReflTransGen (g.Accepts values call again) s t := by
  obtain ⟨loop, alts, hloop, hkind, hmode, harms, -, haccepts⟩ := h.exists_arms hordered hagain
  have hk : g'.kindAt? rest = some (.alternatives alts) := hkind ▸ kindAt?_of_node hloop
  have same : ∀ arm ∈ alts.arms, ∀ s t, g'.Accepts values call arm s t ↔ g.Accepts values call arm s t := by
    intro arm harm s t
    obtain ⟨hlt, hreach⟩ := harms arm harm
    have hthere : arm < g.nodes.size := Nat.lt_of_le_of_lt (hordered.le_of_reaches hreach) hagain
    refine accepts_congr (hordered.hasDepth hthere) fun i hi => ?_
    obtain ⟨node, hnode⟩ := ((hordered.hasDepth hthere).reached hi).exists_node
    rw [kindAt?_of_node hnode, kindAt?_of_node (h.node_of_reaches hordered hlt hi hnode)]
  have hstep : (fun s t => ∃ arm ∈ alts.arms, g'.Accepts values call arm s t) =
      g.Accepts values call again := by
    funext s t
    rw [← haccepts values call s t]
    exact propext (exists_congr fun arm => and_congr_right fun harm => same arm harm s t)
  rw [accepts_star_iff hk hmode, hstep]

/-! ## One or more -/

theorem accepts_pair_iff {first second : NodeId}
    (hnode : g.node new = .ok (.ofKind (.sequence [first, second]))) {σ : Type} [Source σ]
    {values : CheckValues σ} {call : Calling σ} {s t : σ} : g.Accepts values call new s t ↔
      ∃ m, g.Accepts values call first s m ∧ g.Accepts values call second m t := by
  rw [Grammar.accepts_iff (kindAt?_of_node hnode)]
  exact exists_congr fun m => and_congr_right fun _ =>
    ⟨fun ⟨_, h, heq⟩ => heq ▸ h, fun h => ⟨t, h, rfl⟩⟩

theorem Copied.repeated {cloned : Grammar} (h : Copied g g.depthBound id cloned again)
    (hordered : g.Ordered) (hid : id < g.nodes.size) (hmade : Continues g cloned again)
    (hover : cloned.LoopOver again g' rest) (hfinal : g'.Ordered)
    (hroot : g'.node new = .ok (.ofKind (.sequence [id, rest]))) (hunshared : g.Unshared id) :
    g.Repeated id cloned again g' new := by
  have hrest : g.nodes.size ≤ rest := by
    rcases hover.loop with ⟨rfl, -⟩ | ⟨rfl, -⟩
    · exact hmade.size
    · exact h.fresh .refl
  have hkept : ∀ i, i < g.nodes.size → g'.nodes[i]? = g.nodes[i]? := fun i hi =>
    (hover.kept i (Nat.lt_of_lt_of_le hi hmade.size) (Nat.ne_of_lt (Nat.lt_of_lt_of_le hi hrest))).trans
      (h.extend.nodes i hi)
  have hkeep : ∀ i node, g.node i = .ok node → g'.node i = .ok node := fun i node hnode =>
    node_eq_ok.2 ((hkept i (lt_of_node hnode)).trans (node_eq_ok.1 hnode))
  have hdepth := hordered.hasDepth hid
  have hsame : ∀ path, g'.nodeAt? id path = g.nodeAt? id path :=
    hdepth.nodeAt? fun i node _ => hkeep i node
  obtain ⟨hloop, hbelow⟩ := hover.unshared hmade.ordered hmade.there h.unshared
  refine ⟨hover.rules.trans h.extend.rules, hkept, unshared_of_children hroot ?_ ?_ ?_,
    ⟨rest, hroot, hover⟩, fun values call s t hvalues => ?_⟩
  · intro child hchild hreach
    exact Nat.not_le_of_lt (hfinal.below new child ⟨_, hroot, hchild⟩) (hfinal.le_of_reaches hreach)
  · exact List.forall_mem_cons.2 ⟨(unshared_congr hsame).2 hunshared, List.forall_mem_singleton.2 hloop⟩
  · -- The tree consists of nodes that were there, and the loop of new ones.
    refine List.pairwise_pair.2 fun i hi hi' => ?_
    have hold : i < g.nodes.size := Nat.lt_of_le_of_lt (hfinal.le_of_reaches hi) hid
    have hnew : g.nodes.size ≤ i := (hbelow i hi').elim (fun heq => heq ▸ hrest) h.fresh
    exact Nat.not_le_of_lt hold hnew
  · have hfirst : ∀ m, g'.Accepts values call id s m ↔ g.Accepts values call id s m := fun m =>
      accepts_congr hdepth fun i hi => by
        obtain ⟨node, hnode⟩ := (hdepth.reached hi).exists_node
        rw [kindAt?_of_node hnode, kindAt?_of_node (hkeep i node hnode)]
    have hagain : cloned.Accepts values call again = g.Accepts values call id :=
      funext fun s => funext fun t => propext (h.twin.accepts_iff hvalues)
    rw [accepts_pair_iff hroot, TransGen.head'_iff]
    refine exists_congr fun m => and_congr (hfirst m) ?_
    rw [hover.accepts_iff hmade.ordered hmade.there, hagain]

theorem Ordered.exists_plus (h : g.Ordered) {cloned : Grammar}
    (hclone : g.deepClone id = .ok (cloned, again)) (hcopied : Copied g g.depthBound id cloned again)
    (hunshared : g.Unshared id) :
    ∃ g' new, g.plus id = .ok (g', new) ∧ g.Repeated id cloned again g' new := by
  have hmade := h.copyDown hclone
  obtain ⟨⟨looped, rest⟩, hloop⟩ : ∃ made, cloned.star again = .ok made :=
    exists_loopOf (exists_node_of_lt hmade.there)
  have hplus : g.plus id = .ok (looped.sequence [id, rest]) :=
    bind_eq_ok.2 ⟨_, hclone, bind_eq_ok.2 ⟨_, hloop, rfl⟩⟩
  have hover : cloned.LoopOver again (looped.sequence [id, rest]).1 rest :=
    (loopOver_of_star hloop).addNode (hmade.ordered.loopOf hloop).size _
  exact ⟨_, _, hplus, hcopied.repeated h (lt_of_copyDown hclone) hmade hover (h.plus hplus).ordered
    (node_addNode_last looped _) hunshared⟩

/-- **Clones are trees of their own, and "one or more" is made of one.** -/
theorem exists_duplicates (h : g.Assembled) (hid : id < g.nodes.size) :
    ∃ cloned again, g.deepClone id = .ok (cloned, again) ∧ g.Duplicated id cloned again ∧
      (g.Unshared id → ∃ g' new, g.plus id = .ok (g', new) ∧ g.Repeated id cloned again g' new) := by
  have hordered := h.ordered
  obtain ⟨cloned, again, hclone, hcopied⟩ := exists_copyDown g (hordered.hasDepth_bound hid)
  exact ⟨cloned, again, hclone, hcopied.duplicated, hordered.exists_plus hclone hcopied⟩

end Grammar

/-- A choice between a letter and the same letter again, and a choice that has it once. -/
def letterChoices : Grammar where
  nodes := #[.ofKind (.terminal (.ofRanges [(97, 97)]) none),
    .ofKind (.alternatives (.ofArms [0, 0] .once)), .ofKind (.alternatives (.ofArms [0] .once))]
  rules := []

/-- The first choice can be cloned although it shares a node, and the second one can be repeated. -/
theorem letterChoices_duplicates : letterChoices.Assembled ∧
    (∃ cloned again, letterChoices.deepClone 1 = .ok (cloned, again) ∧
      letterChoices.Duplicated 1 cloned again) ∧
    letterChoices.Unshared 2 ∧ ∃ cloned again g' new, letterChoices.plus 2 = .ok (g', new) ∧
      letterChoices.Repeated 2 cloned again g' new := by
  have hassembled : letterChoices.Assembled :=
    ((Grammar.Assembled.empty.terminal (.ofRanges [(97, 97)])).alternatives [0, 0]
      (by decide)).alternatives [0] (by decide)
  have hunshared : letterChoices.Unshared 2 :=
    (Grammar.unshared_iff_nodup (show letterChoices.walk 2 = .ok [2, 0] from rfl)).2 (by decide)
  obtain ⟨cloned₁, again₁, hclone, hduplicated, -⟩ :=
    Grammar.exists_duplicates hassembled (show 1 < letterChoices.nodes.size by decide)
  obtain ⟨cloned, again, -, -, hplus⟩ :=
    Grammar.exists_duplicates hassembled (show 2 < letterChoices.nodes.size by decide)
  exact ⟨hassembled, ⟨cloned₁, again₁, hclone, hduplicated⟩, hunshared, cloned, again, hplus hunshared⟩

end PredictiveParser
