import PredictiveParser.Proofs.Analysis.Rule
import PredictiveParser.Proofs.Grammar.Paired
import PredictiveParser.Proofs.Lookahead.Annotations

/-!
# The analysis of a rule in two grammars

What the analysis of a rule reads and writes, told by running it in two grammars. It reads the shape of
everything; of the nodes that the rule matches it reads their grammar text besides, and the predictions that
it has attached itself. It writes predictions and marks. So where two grammars have one shape and agree on
the matched nodes up to predictions and marks, it says the same in both and leaves grammars that agree on the
predictions, and on each mark on which they agreed before or which it has set (`Agreeing.analyzeRule`).
-/
namespace PredictiveParser

open Relation

/-! ## What analysis writes -/

namespace NodeKind

/-- The kind of a node without what analysis writes. -/
def unanalyzed : NodeKind → NodeKind
  | .alternatives alts => .alternatives { alts with prediction := none }
  | .check test => .check { test with prematched := none }
  | .terminal set _ => .terminal set none
  | kind => kind

def prediction? : NodeKind → Option Decision
  | .alternatives alts => alts.prediction
  | _ => none

def mark? : NodeKind → Option Bool
  | .terminal _ mark => mark
  | .check test => test.prematched
  | _ => none

/-- Terminals and checks have marks. -/
def hasMark : NodeKind → Bool
  | .terminal .. | .check _ => true
  | _ => false

variable {kind kind' : NodeKind}

theorem hasMark_of_bare (h : kind'.bare = kind.bare) : kind'.hasMark = kind.hasMark := by
  have forget : ∀ kind : NodeKind, kind.bare.hasMark = kind.hasMark := by
    rintro (_ | _ | _ | _ | _ | _) <;> rfl
  rw [← forget kind', h, forget kind]

/-- Analysis touches neither the code of checks nor the rules that they run. -/
theorem expression?_unanalyzed (kind : NodeKind) : kind.unanalyzed.expression? = kind.expression? := by
  rcases kind with _ | _ | _ | ⟨_, _ | _, _⟩ | _ | _ <;> rfl

theorem checkRule?_unanalyzed (kind : NodeKind) : kind.unanalyzed.checkRule? = kind.checkRule? := by
  rcases kind with _ | _ | _ | ⟨_, _ | _, _⟩ | _ | _ <;> rfl

theorem bare_of_unanalyzed (h : kind'.unanalyzed = kind.unanalyzed) : kind'.bare = kind.bare := by
  have forget : ∀ kind : NodeKind, kind.unanalyzed.bare = kind.bare := by
    rintro (_ | _ | _ | _ | _ | _) <;> rfl
  rw [← forget kind', h, forget kind]

theorem eq_of_unanalyzed (h : kind'.unanalyzed = kind.unanalyzed)
    (hprediction : kind'.prediction? = kind.prediction?) (hmark : kind'.mark? = kind.mark?) :
    kind' = kind := by
  rcases kind with _ | ⟨_, _, _, _, _, _⟩ | _ | ⟨_, _, _⟩ | _ | _ <;>
    rcases kind' with _ | ⟨_, _, _, _, _, _⟩ | _ | ⟨_, _, _⟩ | _ | _ <;>
    simp_all [unanalyzed, prediction?, mark?]

end NodeKind

namespace Node

/-- The node without what analysis writes. -/
def unanalyzed (node : Node) : Node :=
  { node with kind := node.kind.unanalyzed }

variable {n m : Node}

/-- The node with another prediction, if it is an alternative set. -/
abbrev withPrediction (node : Node) (prediction : Option Decision) : Node :=
  node.mapAlternatives ({ · with prediction })

theorem unanalyzed_withPrediction (node : Node) (prediction : Option Decision) :
    (node.withPrediction prediction).unanalyzed = node.unanalyzed := by
  obtain ⟨kind, _⟩ := node
  cases kind <;> rfl

theorem unanalyzed_withPrematched (node : Node) (mark : Option Bool) :
    (node.withPrematched mark).unanalyzed = node.unanalyzed := by
  obtain ⟨kind, _⟩ := node
  cases kind <;> rfl

theorem mark?_withPrediction (node : Node) (prediction : Option Decision) :
    (node.withPrediction prediction).kind.mark? = node.kind.mark? := by
  obtain ⟨kind, _⟩ := node
  cases kind <;> rfl

theorem mark?_withPrematched {node : Node} (h : node.kind.hasMark = true) (mark : Option Bool) :
    (node.withPrematched mark).kind.mark? = mark := by
  obtain ⟨kind, _⟩ := node
  cases kind <;> first | rfl | cases h

theorem prediction?_withPrematched (node : Node) (mark : Option Bool) :
    (node.withPrematched mark).kind.prediction? = node.kind.prediction? := by
  obtain ⟨kind, _⟩ := node
  cases kind <;> rfl

theorem alternatives?_of_bare (h : m.kind.bare = n.kind.bare) (hn : n.alternatives? = none) :
    m.alternatives? = none := by
  cases halts : m.alternatives? with
  | none => rfl
  | some alts =>
    rw [alternatives?_eq_some.1 halts] at h
    obtain ⟨prediction, hkind⟩ := NodeKind.of_bare_alternatives h.symm
    rw [alternatives?_eq_some.2 hkind] at hn
    cases hn

theorem prediction?_of_none (hn : n.alternatives? = none) : n.kind.prediction? = none := by
  obtain ⟨kind, _⟩ := n
  cases kind <;> first | rfl | cases hn

theorem eq_of_unanalyzed (h : m.unanalyzed = n.unanalyzed)
    (hprediction : m.kind.prediction? = n.kind.prediction?)
    (hmark : m.kind.mark? = n.kind.mark?) : m = n := by
  obtain ⟨kind, _, _, _, _, _, _⟩ := n
  obtain ⟨kind', _, _, _, _, _, _⟩ := m
  have hkind : kind' = kind :=
    NodeKind.eq_of_unanalyzed (congrArg Node.kind h) hprediction hmark
  subst hkind
  cases h
  rfl

end Node

namespace Grammar

variable {g g' h : Grammar} {id : NodeId} {n m : Node}
  {own predicted marked : NodeId → Prop} {rule name : String} {journal journal' : List Event}

/-! ## What analysis reads -/

theorem SameShape.leadingDown (hs : g.SameShape h) (depth : Nat) (id : NodeId) :
    h.leadingDown depth id = g.leadingDown depth id := by
  induction depth generalizing id with
  | zero => rfl
  | succ depth ih =>
    rw [Grammar.leadingDown, Grammar.leadingDown]
    cases hk : g.kindAt? id with
    | none => rw [Grammar.node_eq_error hk, hs.node_eq_error hk]; rfl
    | some kind =>
      obtain ⟨n, hn, rfl⟩ := kindAt?_eq_some.1 hk
      obtain ⟨m, hm, hbare⟩ := hs.node hn
      rw [hn, hm]
      simp only [bind, Except.bind, ih]
      generalize m.kind = kind' at hbare
      cases hkind : n.kind with
      | sequence items =>
        rw [hkind] at hbare
        rw [NodeKind.of_bare_sequence hbare]
      | _ =>
        rw [hkind] at hbare
        cases kind' <;> first | rfl | cases hbare

theorem SameShape.provenLeads (hs : g.SameShape h) (alts : Alternatives) (prediction : Option Decision)
    (tree : Decision) :
    h.provenLeads { alts with prediction } tree = g.provenLeads alts tree := by
  have hleading : ∀ arm, h.leadingNode? arm = g.leadingNode? arm := fun arm => by
    rw [leadingNode?, leadingNode?, depthBound, depthBound, hs.size]
    exact hs.leadingDown _ arm
  have hproven : ∀ index id,
      (do return if isProven tree index id (← h.node id) then [id] else [] :
        Except Fault (List NodeId)) =
      (do return if isProven tree index id (← g.node id) then [id] else []) := by
    intro index id
    cases hk : g.kindAt? id with
    | none => rw [Grammar.node_eq_error hk, hs.node_eq_error hk]
    | some kind =>
      obtain ⟨n, hn, rfl⟩ := kindAt?_eq_some.1 hk
      obtain ⟨m, hm, hbare⟩ := hs.node hn
      rw [hn, hm]
      show (Except.ok _) = Except.ok _
      rw [isProven_of_bare hbare]
  unfold Grammar.provenLeads
  simp only [hleading, hproven]

/-! ## Agreement -/

/-- Two nodes have the same shape. At nodes of the first kind they agree in all that analysis does not
write, at those of the second kind in their predictions, and at those of the third kind in their marks. -/
structure AgreeAt (own predicted marked : NodeId → Prop) (id : NodeId) (n m : Node) : Prop where
  bare : m.kind.bare = n.kind.bare
  own : own id → m.unanalyzed = n.unanalyzed
  predicted : predicted id → m.kind.prediction? = n.kind.prediction?
  marked : marked id → m.kind.mark? = n.kind.mark?

theorem AgreeAt.eq (hn : AgreeAt own own own id n m) (hid : own id) : m = n :=
  Node.eq_of_unanalyzed (hn.own hid) (hn.predicted hid) (hn.marked hid)

/-- Where there is no alternative set, there is no prediction in either grammar. -/
theorem AgreeAt.prediction?_of_none (hn : AgreeAt own predicted marked id n m)
    (hnone : n.alternatives? = none) : m.kind.prediction? = n.kind.prediction? := by
  rw [Node.prediction?_of_none hnone,
    Node.prediction?_of_none (Node.alternatives?_of_bare hn.bare hnone)]

/-- Alternative sets that agree in their predictions are the same. -/
theorem AgreeAt.alternatives? (hn : AgreeAt own predicted marked id n m) (hid : predicted id) :
    m.alternatives? = n.alternatives? := by
  cases halts : n.alternatives? with
  | none => exact Node.alternatives?_of_bare hn.bare halts
  | some alts =>
    have hkind := Node.alternatives?_eq_some.1 halts
    have hbare := hn.bare
    have hprediction := hn.predicted hid
    rw [hkind] at hbare hprediction
    obtain ⟨prediction, hkind'⟩ := NodeKind.of_bare_alternatives hbare
    rw [hkind'] at hprediction
    obtain rfl : prediction = alts.prediction := hprediction
    exact Node.alternatives?_eq_some.2 hkind'

theorem AgreeAt.setPrediction (hn : AgreeAt own predicted marked id n m) (tree : Option Decision) :
    AgreeAt own (fun other => other = id ∨ predicted other) marked id (n.withPrediction tree)
      (m.withPrediction tree) where
  bare := by
    rw [← NodeKind.bare_of_unanalyzed (congrArg Node.kind (n.unanalyzed_withPrediction tree)).symm,
      NodeKind.bare_of_unanalyzed (congrArg Node.kind (m.unanalyzed_withPrediction tree))]
    exact hn.bare
  own hid := by
    rw [Node.unanalyzed_withPrediction, Node.unanalyzed_withPrediction]
    exact hn.own hid
  predicted _ := by
    have hbare := hn.bare
    obtain ⟨kind, _⟩ := n
    obtain ⟨kind', _⟩ := m
    cases kind <;> cases kind' <;> first | rfl | cases hbare
  marked hid := by
    rw [Node.mark?_withPrediction, Node.mark?_withPrediction]
    exact hn.marked hid

theorem AgreeAt.setPrematched (hn : AgreeAt own predicted marked id n m) (mark : Option Bool) :
    AgreeAt own predicted (fun other => other = id ∨ marked other) id (n.withPrematched mark)
      (m.withPrematched mark) where
  bare := by
    rw [← NodeKind.bare_of_unanalyzed (congrArg Node.kind (n.unanalyzed_withPrematched mark)).symm,
      NodeKind.bare_of_unanalyzed (congrArg Node.kind (m.unanalyzed_withPrematched mark))]
    exact hn.bare
  own hid := by
    rw [Node.unanalyzed_withPrematched, Node.unanalyzed_withPrematched]
    exact hn.own hid
  predicted hid := by
    rw [Node.prediction?_withPrematched, Node.prediction?_withPrematched]
    exact hn.predicted hid
  marked _ := by
    have hbare := hn.bare
    obtain ⟨kind, _⟩ := n
    obtain ⟨kind', _⟩ := m
    cases kind <;> cases kind' <;> first | rfl | cases hbare

/-- The grammars agree at the nodes as `AgreeAt` says. -/
abbrev Agreeing (own predicted marked : NodeId → Prop) (g h : Grammar) : Prop :=
  g.Paired (AgreeAt own predicted marked) h

theorem Agreeing.sameShape (hp : g.Agreeing own predicted marked h) : g.SameShape h :=
  Paired.sameShape hp fun _ _ _ hn => hn.bare

theorem Agreeing.atNode (hp : g.Agreeing own predicted marked h) (hid : own id) (severity : Severity)
    (rule body : String) : Event.atNode h severity rule id body = .atNode g severity rule id body := by
  have hbasis := hp.map_eq id Node.basis
    fun n m hn => show m.unanalyzed.basis = n.unanalyzed.basis by rw [hn.own hid]
  have htext : ∀ g : Grammar, (g.nodes[id]?.bind fun node => node.basis.map Tokens.text) =
      (g.nodes[id]?.map Node.basis).bind (Option.map Tokens.text) := fun g => by rw [Option.bind_map]; rfl
  rw [Event.atNode, Event.atNode, Location.ofNode, Location.ofNode, htext, htext, hbasis]

/-! ## Attaching trees -/

/-- **A tree is attached in both grammars.** -/
theorem Agreeing.attach (hp : g.Agreeing own predicted marked h) {analyzed : Analyzed}
    (hid : own analyzed.node)
    (hrun : Yields (attach rule analyzed) (g, journal) ⟨⟩ (g', journal')) :
    ∃ h' events, journal' = journal ++ events ∧
      g'.Agreeing own (fun id => id = analyzed.node ∨ predicted id) marked h' ∧
      ∀ journal₂, Yields (Grammar.attach rule analyzed) (h, journal₂) ⟨⟩ (h', journal₂ ++ events) := by
  obtain ⟨rfl, n, hn, hattached⟩ := yields_attach.1 hrun
  obtain ⟨m, hm, hrel⟩ := hp.exists_node hn
  have hevents : analyzed.warnings.map (fun warning => Event.atNode g .warning rule analyzed.node warning) =
      analyzed.warnings.map (fun warning => Event.atNode h .warning rule analyzed.node warning) := by
    simp only [hp.atNode hid]
  have hwider : ∀ other n m, other ≠ analyzed.node → AgreeAt own predicted marked other n m →
      AgreeAt own (fun id => id = analyzed.node ∨ predicted id) marked other n m :=
    fun other n m hne hn => ⟨hn.bare, hn.own, fun hid => hn.predicted (hid.resolve_left hne), hn.marked⟩
  obtain ⟨hnone, rfl⟩ | ⟨alts, halts, hvalid, hset⟩ := hattached
  · have hnone' : m.alternatives? = none := Node.alternatives?_of_bare hrel.bare hnone
    refine ⟨h, _, rfl, ⟨hp.size, fun {other n' m'} hn' hm' => ?_, hp.rules⟩,
      fun journal₂ => yields_attach.2 ⟨by rw [hevents], m, hm, Or.inl ⟨hnone', rfl⟩⟩⟩
    by_cases heq : other = analyzed.node
    · subst heq
      cases hn.symm.trans hn'
      cases hm.symm.trans hm'
      exact ⟨hrel.bare, hrel.own, fun _ => hrel.prediction?_of_none hnone, hrel.marked⟩
    · exact hwider other n' m' heq (hp.related hn' hm')
  · obtain ⟨h', hh', hp'⟩ := hp.modifyNode hset hwider fun n m hn => hn.setPrediction _
    have hkind := Node.alternatives?_eq_some.1 halts
    have hbare := hrel.bare
    rw [hkind] at hbare
    obtain ⟨prediction, hkind'⟩ := NodeKind.of_bare_alternatives hbare
    refine ⟨h', _, rfl, hp', fun journal₂ => yields_attach.2 ⟨by rw [hevents], m, hm, Or.inr
      ⟨_, Node.alternatives?_eq_some.2 hkind', hvalid, hh'⟩⟩⟩

/-- **All trees are attached in both grammars**: by induction on them, each node that gets one agrees. -/
theorem Agreeing.forM_attach (hp : g.Agreeing own predicted marked h) {trees : List Analyzed}
    (hown : ∀ analyzed ∈ trees, own analyzed.node)
    (hrun : Yields (trees.forM (Grammar.attach rule)) (g, journal) ⟨⟩ (g', journal')) :
    ∃ h' events, journal' = journal ++ events ∧
      g'.Agreeing own (fun id => (∃ analyzed ∈ trees, id = analyzed.node) ∨ predicted id) marked h' ∧
      ∀ journal₂, Yields (trees.forM (Grammar.attach rule)) (h, journal₂) ⟨⟩ (h', journal₂ ++ events) := by
  induction trees generalizing g h predicted journal with
  | nil =>
    cases yields_forM_nil.1 hrun
    refine ⟨h, [], (List.append_nil _).symm, hp.imp fun id n m hn => ?_, fun journal₂ =>
      yields_forM_nil.2 (by rw [List.append_nil])⟩
    exact ⟨hn.bare, hn.own, fun hid => hn.predicted (hid.resolve_left nofun), hn.marked⟩
  | cons first rest ih =>
    obtain ⟨⟨g₁, journal₁⟩, hfirst, hrest⟩ := yields_forM_cons.1 hrun
    obtain ⟨h₁, events₁, rfl, hp₁, hfirst'⟩ := hp.attach (hown first List.mem_cons_self) hfirst
    obtain ⟨h', events, rfl, hp', hrest'⟩ :=
      ih hp₁ (fun analyzed ha => hown analyzed (List.mem_cons_of_mem _ ha)) hrest
    refine ⟨h', events₁ ++ events, List.append_assoc _ _ _, hp'.imp fun id n m hn => ?_,
      fun journal₂ => yields_forM_cons.2 ⟨_, hfirst' journal₂, ?_⟩⟩
    · refine ⟨hn.bare, hn.own, fun hid => hn.predicted ?_, hn.marked⟩
      obtain ⟨analyzed, ha, rfl⟩ | hid := hid
      · obtain rfl | ha := List.mem_cons.1 ha
        · exact Or.inr (Or.inl rfl)
        · exact Or.inl ⟨analyzed, ha, rfl⟩
      · exact Or.inr (Or.inr hid)
    · rw [← List.append_assoc]
      exact hrest' _

/-! ## Setting marks -/

theorem Agreeing.foldlM_setPrematched (hp : g.Agreeing own predicted marked h) {proven : List NodeId}
    {mark : Option Bool} (hrun : proven.foldlM (fun g id => g.setPrematched id mark) g = .ok g') :
    ∃ h', proven.foldlM (fun g id => g.setPrematched id mark) h = .ok h' ∧
      g'.Agreeing own predicted (fun id => id ∈ proven ∨ marked id) h' := by
  induction proven generalizing g h marked with
  | nil =>
    cases pure_eq_ok.1 hrun
    refine ⟨h, rfl, hp.imp fun id n m hn => ?_⟩
    exact ⟨hn.bare, hn.own, hn.predicted, fun hid => hn.marked (hid.resolve_left List.not_mem_nil)⟩
  | cons first rest ih =>
    obtain ⟨g₁, hfirst, hrest⟩ := foldlM_cons_eq_ok.1 hrun
    obtain ⟨h₁, hfirst', hp₁⟩ := hp.modifyNode hfirst
      (fun other n m hne hn => ⟨hn.bare, hn.own, hn.predicted, fun hid => hn.marked (hid.resolve_left hne)⟩)
      fun n m hn => hn.setPrematched mark
    obtain ⟨h', hrest', hp'⟩ := ih hp₁ hrest
    refine ⟨h', foldlM_cons_eq_ok.2 ⟨h₁, hfirst', hrest'⟩, hp'.imp fun id n m hn => ?_⟩
    refine ⟨hn.bare, hn.own, hn.predicted, fun hid => hn.marked ?_⟩
    rw [List.mem_cons] at hid
    tauto

def markAt? (g : Grammar) (id : NodeId) : Option Bool :=
  (g.kindAt? id).bind NodeKind.mark?

theorem markAt?_of_nodes (hid : g'.nodes[id]? = g.nodes[id]?) : g'.markAt? id = g.markAt? id := by
  rw [markAt?, markAt?, kindAt?, kindAt?, hid]

/-- The marks of the nodes in the list are set, and no other mark changes. -/
structure MarkedIn (g : Grammar) (proven : List NodeId) (g' : Grammar) : Prop where
  set : ∀ id ∈ proven, g'.markAt? id = some true
  kept : ∀ id, id ∉ proven → g'.markAt? id = g.markAt? id

theorem markedIn_foldlM {proven : List NodeId}
    (hmarks : ∀ id ∈ proven, ∃ n, g.node id = .ok n ∧ n.kind.hasMark = true)
    (hrun : proven.foldlM (fun g id => g.setPrematched id (some true)) g = .ok g') :
    g.MarkedIn proven g' := by
  refine ⟨?_, fun id hid => markAt?_of_nodes ((marksOnly_foldlM hrun).frame id hid)⟩
  induction proven generalizing g with
  | nil => exact fun _ => nofun
  | cons first rest ih =>
    obtain ⟨g₁, hfirst, hrest⟩ := foldlM_cons_eq_ok.1 hrun
    have hshape := sameShape_setPrematched hfirst
    have hmarks₁ : ∀ id ∈ rest, ∃ n, g₁.node id = .ok n ∧ n.kind.hasMark = true := by
      intro id hid
      obtain ⟨n, hn, hmark⟩ := hmarks id (List.mem_cons_of_mem _ hid)
      obtain ⟨n₁, hn₁, hbare⟩ := hshape.node hn
      exact ⟨n₁, hn₁, (NodeKind.hasMark_of_bare hbare).trans hmark⟩
    intro id hid
    by_cases hmore : id ∈ rest
    · exact ih hmarks₁ hrest id hmore
    · obtain rfl : id = first := (List.mem_cons.1 hid).resolve_right hmore
      obtain ⟨n, hn, hmark⟩ := hmarks id List.mem_cons_self
      obtain ⟨n₁, hn₁, -⟩ := hshape.node hn
      obtain ⟨n', hn', rfl⟩ := node_modifyNode hfirst hn₁
      cases hn.symm.trans hn'
      rw [if_pos rfl] at hn₁
      rw [markAt?_of_nodes ((marksOnly_foldlM hrest).frame id hmore), markAt?, kindAt?_of_node hn₁]
      exact Node.mark?_withPrematched hmark (some true)

/-- Attaching trees leaves the marks. -/
theorem markAt?_forM_attach {trees : List Analyzed}
    (hrun : Yields (trees.forM (Grammar.attach rule)) (g, journal) ⟨⟩ (g', journal')) (id : NodeId) :
    g'.markAt? id = g.markAt? id := by
  induction trees generalizing g journal with
  | nil =>
    cases yields_forM_nil.1 hrun
    rfl
  | cons first rest ih =>
    obtain ⟨⟨g₁, journal₁⟩, hfirst, hrest⟩ := yields_forM_cons.1 hrun
    rw [ih hrest]
    obtain ⟨-, ⟨-, rfl⟩ | ⟨alts, -, -, hset⟩⟩ := attach_eq hfirst
    · rfl
    · rw [markAt?, kindAt?_modifyNode hset]
      split
      · rw [markAt?, kindAt?]
        cases g.nodes[id]? with
        | none => rfl
        | some n => exact Node.mark?_withPrediction n _
      · rfl

theorem ProvenLead.hasMark {set : NodeId} (hlead : g.ProvenLead set id) :
    ∃ n, g.node id = .ok n ∧ n.kind.hasMark = true := by
  obtain ⟨alts, tree, index, arm, lead, -, -, -, -, hn, hproven⟩ := hlead
  refine ⟨lead, hn, ?_⟩
  unfold isProven at hproven
  cases hkind : lead.kind with
  | terminal | check => rfl
  | _ =>
    rw [hkind] at hproven
    cases hproven

/-- The predictions at places where they agree have tested the same nodes. -/
theorem Agreeing.marksAt (hp : g.Agreeing own predicted marked h) (hid : predicted id)
    {marks : List NodeId} (hmarks : g.marksAt id = .ok marks) : h.marksAt id = .ok marks := by
  obtain ⟨n, hn, hfound⟩ := marksAt_eq_ok.1 hmarks
  obtain ⟨m, hm, hrel⟩ := hp.exists_node hn
  refine marksAt_eq_ok.2 ⟨m, hm, ?_⟩
  rw [hrel.alternatives? hid]
  obtain ⟨alts, tree, halts, htree, hleads⟩ | hnone := hfound
  · exact Or.inl ⟨alts, tree, halts, htree,
      (hp.sameShape.provenLeads alts alts.prediction tree).trans hleads⟩
  · exact Or.inr hnone

/-- **Marking a rule marks the same leads in both grammars.** -/
theorem Agreeing.markPrematched (hp : g.Agreeing own predicted marked h) {body : NodeId}
    (hpredicted : ∀ id, g.MatchedBy body id → predicted id)
    (hrun : g.markPrematched body = .ok g') :
    ∃ proven h', h.markPrematched body = .ok h' ∧
      g'.Agreeing own predicted (fun id => id ∈ proven ∨ marked id) h' ∧
      g.MarkedIn proven g' ∧ h.MarkedIn proven h' := by
  have hs := hp.sameShape
  obtain ⟨ids, parts, hids, hparts, hrun⟩ := markPrematched_eq_ok.1 hrun
  obtain ⟨h', hh', hp'⟩ := hp.foldlM_setPrematched hrun
  have hids' : h.walkMatched body = .ok ids :=
    hs.shapeIn.walkDown (fun _ _ => Node.matchedChildren_of_bare)
      (Nat.succ_le_succ (Nat.le_of_eq hs.size)) hids
  have hvisits := (List.forall₂_and_left ids parts).2 ⟨fun _ hid => hid, mapM_eq_ok.1 hparts⟩
  have hparts' : ids.mapM h.marksAt = .ok parts := mapM_eq_ok.2 <| hvisits.imp fun id _ hvisit =>
    hp.marksAt (hpredicted id ((mem_walkDown hids).1 hvisit.1)) hvisit.2
  refine ⟨parts.flatten, h', markPrematched_eq_ok.2 ⟨ids, parts, hids', hparts', hh'⟩, hp',
    markedIn_foldlM (fun id hid => ?_) hrun, markedIn_foldlM (fun id hid => ?_) hh'⟩
  · obtain ⟨_, _, hlead⟩ := exists_provenLead hparts hid
    exact hlead.hasMark
  · obtain ⟨_, _, hlead⟩ := exists_provenLead hparts' hid
    exact hlead.hasMark

/-! ## Analyzing a rule -/

/-- **A rule is analyzed in both grammars.** They say the same, agree on the predictions of the rule
afterwards, and set the same marks. -/
theorem Agreeing.analyzeRule {follow : FollowSets} {options : Options}
    (hp : g.Agreeing own predicted marked h)
    (hown : ∀ rule id, g.rule? name = some rule → g.MatchedBy rule.body id → own id)
    (hrun : Yields (Grammar.analyzeRule name follow options) (g, journal) ⟨⟩ (g', journal')) :
    ∃ rule proven h' events, g.rule? name = some rule ∧ journal' = journal ++ events ∧
      g'.Agreeing own (fun id => g.MatchedBy rule.body id ∨ predicted id)
        (fun id => id ∈ proven ∨ marked id) h' ∧
      g.MarkedIn proven g' ∧ h.MarkedIn proven h' ∧
      ∀ journal₂, Yields (Grammar.analyzeRule name follow options) (h, journal₂) ⟨⟩
        (h', journal₂ ++ events) := by
  obtain ⟨rule, trees, g₁, hrule, htrees, hattach, hmark⟩ := yields_analyzeRule.1 hrun
  have hshape : (g.lookaheadOf name follow options).grammar.SameShape h := hp.sameShape
  have htrees' := (hshape.predictions hp.rules (lookaheadDepth rule options) rule.body).trans htrees
  obtain ⟨ids, hids, hsub, hall⟩ := predictions_eq_ok htrees
  have hnodes : ∀ analyzed ∈ trees, own analyzed.node := fun analyzed ha =>
    hown rule _ hrule ((mem_walkDown hids).1 (hsub.subset (List.mem_map.2 ⟨analyzed, ha, rfl⟩)))
  obtain ⟨h₁, events, rfl, hp₁, hattach'⟩ := hp.forM_attach hnodes hattach
  have hs₁ := (sameShape_forM hattach).1
  -- A matched node that got no tree is no alternative set, and so has no prediction in either grammar.
  have hp₂ : g₁.Agreeing own (fun id => g.MatchedBy rule.body id ∨ predicted id) marked h₁ := by
    refine ⟨hp₁.size, fun {id n m} hn hm => ?_, hp₁.rules⟩
    have hrel := hp₁.related hn hm
    refine ⟨hrel.bare, hrel.own, fun hid => ?_, hrel.marked⟩
    obtain hid | hid := hid
    · cases halts : n.alternatives? with
      | none => exact hrel.prediction?_of_none halts
      | some alts =>
        obtain ⟨old, hold, hbare⟩ := hs₁.symm.kindAt? (kindAt?_of_node hn)
        rw [Node.alternatives?_eq_some.1 halts] at hbare
        obtain ⟨prediction, rfl⟩ := NodeKind.of_bare_alternatives hbare
        obtain ⟨place, hoccurs, rfl⟩ := exists_occurs hid
        obtain ⟨tree, warnings, -, hmem⟩ := hall place _ hoccurs hold
        exact hrel.predicted (Or.inl ⟨_, hmem, rfl⟩)
    · exact hrel.predicted (Or.inr hid)
  obtain ⟨proven, h', hmark', hp', hset, hset'⟩ :=
    hp₂.markPrematched (fun id hid => Or.inl (hs₁.symm.matchedBy hid)) hmark
  refine ⟨rule, proven, h', events, hrule, rfl, hp', ⟨hset.set, fun id hid => ?_⟩,
    ⟨hset'.set, fun id hid => ?_⟩, fun journal₂ => yields_analyzeRule.2
      ⟨rule, trees, h₁, ?_, htrees', hattach' journal₂, hmark'⟩⟩
  · rw [hset.kept id hid, markAt?_forM_attach hattach]
  · rw [hset'.kept id hid, markAt?_forM_attach (hattach' [])]
  · rw [rule?, hp.rules]
    exact hrule

end Grammar

end PredictiveParser
