import PredictiveParser.Proofs.Analysis.Paired
import PredictiveParser.Proofs.Values.Saving

/-!
# Saving values in two grammars

What saving the values of a rule reads and writes, told by running it in two grammars. Of the nodes it reads
those that the rule matches, and of the rules their names and the types of their values. So in grammars that
have one shape and the same rules, and the same nodes in what the rule matches (`Grammar.Shares`), it says the
same and leaves these nodes the same again (`Shares.saveValues`).
-/
namespace PredictiveParser

namespace Grammar

/-- The grammars have one shape and the same rules, and these nodes are the same in both. -/
abbrev Shares (own : NodeId → Prop) (g h : Grammar) : Prop :=
  g.Agreeing own own own h

/-- Two results have grammars that share these nodes, and are the same besides. -/
def Twins {α : Type} (own : NodeId → Prop) (first second : Grammar × α) : Prop :=
  first.1.Shares own second.1 ∧ second.2 = first.2

variable {g h : Grammar} {own : NodeId → Prop} {id : NodeId} {rule : String}

theorem AgreeAt.refl {id : NodeId} {n : Node} : AgreeAt own own own id n n :=
  ⟨rfl, fun _ => rfl, fun _ => rfl, fun _ => rfl⟩

theorem Shares.nodes (ha : g.Shares own h) (hid : own id) : h.nodes[id]? = g.nodes[id]? := by
  have hsame := ha.map_eq id (fun node => node) fun n m hn => hn.eq hid
  rwa [Option.map_id', Option.map_id'] at hsame

theorem Shares.node (ha : g.Shares own h) (hid : own id) : h.node id = g.node id := by
  rw [Grammar.node, Grammar.node, ha.nodes hid]

theorem Shares.rule? (ha : g.Shares own h) (name : String) : h.rule? name = g.rule? name :=
  rule?_of_rules ha.rules name

theorem shares_of_nodes (hs : g.SameShape h) (hrules : h.rules = g.rules)
    (hnodes : ∀ id, own id → h.nodes[id]? = g.nodes[id]?) : g.Shares own h where
  size := hs.size.symm
  related {id n m} hn hm := by
    have hsame : own id → m = n := fun hid => by
      have hnode := hnodes id hid
      rw [node_eq_ok.1 hn, node_eq_ok.1 hm] at hnode
      exact Option.some.inj hnode
    obtain ⟨m', hm', hbare⟩ := hs.node hn
    cases hm.symm.trans hm'
    exact ⟨hbare, fun hid => by rw [hsame hid], fun hid => by rw [hsame hid],
      fun hid => by rw [hsame hid]⟩
  rules := hrules

/-- After any change of one of these nodes they are the same again. -/
theorem Shares.modifyNode (ha : g.Shares own h) (hid : own id) (f : Node → Node) :
    Mirrors (Shares own) (g.modifyNode id f) (h.modifyNode id f) := fun _ hg' =>
  Paired.modifyNode ha hg' (fun _ _ _ _ hn => hn) fun _ _ hn => hn.eq hid ▸ .refl

theorem Shares.walkMatched (ha : g.Shares own h) (body : NodeId) :
    Mirrors (fun ids ids' => ids' = ids) (g.walkMatched body) (h.walkMatched body) := fun ids hids =>
  ⟨ids, ha.sameShape.shapeIn.walkDown (fun _ _ => Node.matchedChildren_of_bare)
    (Nat.succ_le_succ (Nat.le_of_eq ha.size.symm)) hids, rfl⟩

/-! ## Labels -/

theorem Shares.passLabel (ha : g.Shares own h) (hid : own id) (rule label : String) {node : Node}
    (harms : ∀ child ∈ node.matchedChildren, own child) :
    Mirrors (Twins own) (g.passLabel rule id node label) (h.passLabel rule id node label) := by
  unfold Grammar.passLabel
  cases halts : node.alternatives? with
  | none => exact mirrors_pure ⟨ha, by rw [ha.atNode hid]⟩
  | some alts =>
    rw [Node.matchedChildren, Node.alternatives?_eq_some.1 halts] at harms
    refine (Mirrors.foldlM (R := Shares own) (fun arm harm _ _ hnow => ?_) ha).bind fun _ _ hnow =>
      mirrors_pure ⟨hnow, rfl⟩
    exact hnow.modifyNode (harms arm harm) _

theorem Shares.moveLabel (ha : g.Shares own h) (hid : own id) (rule : String)
    (hbelow : ∀ child, g.Link Node.matchedChildren id child → own child) :
    Mirrors (Twins own) (g.moveLabel rule id) (h.moveLabel rule id) := by
  unfold Grammar.moveLabel
  rw [ha.node hid]
  refine mirrors_bind _ fun node hnode => ?_
  cases node.label with
  | none => exact mirrors_pure ⟨ha, rfl⟩
  | some label =>
    dsimp only
    split
    · exact mirrors_pure ⟨ha, rfl⟩
    · have hpass := ha.passLabel hid rule label
        fun child hchild => hbelow child ⟨node, hnode, hchild⟩
      refine hpass.bind ?_
      rintro ⟨g₁, _⟩ ⟨h₁, events⟩ ⟨ha₁, rfl⟩
      exact (ha₁.modifyNode hid _).bind fun _ _ hnow => mirrors_pure ⟨hnow, rfl⟩

theorem Shares.moveLabels (ha : g.Shares own h) {ids : List NodeId} (hids : ∀ id ∈ ids, own id)
    (hbelow : ∀ id child, own id → g.Link Node.matchedChildren id child → own child) :
    Mirrors (Twins own) (Grammar.moveLabels rule ids g) (Grammar.moveLabels rule ids h) := by
  induction ids generalizing g h with
  | nil => exact mirrors_pure ⟨ha, rfl⟩
  | cons id rest ih =>
    obtain ⟨hid, hothers⟩ := List.forall_mem_cons.1 hids
    rw [Grammar.moveLabels, Grammar.moveLabels]
    have hfirst := (ha.moveLabel hid rule (hbelow id · hid)).and_left
      fun moved hmoved => (relabels_moveLabel hmoved).annotates.kinds.sameShape
    refine hfirst.bind ?_
    rintro ⟨g₁, _⟩ ⟨h₁, events⟩ ⟨hshape, ha₁, rfl⟩
    refine (ih ha₁ hothers fun id child hid hlink =>
      hbelow id child hid (hshape.symm.link hlink)).bind ?_
    rintro ⟨g₂, _⟩ ⟨h₂, more⟩ ⟨ha₂, rfl⟩
    exact mirrors_pure ⟨ha₂, rfl⟩

end Grammar

/-! ## Variables -/

namespace Saving

/-- The grammars share these nodes, and all else is the same. -/
structure Shares (own : NodeId → Prop) (s t : Saving) : Prop where
  grammar : s.grammar.Shares own t.grammar
  events : t.events = s.events
  declared : t.declared = s.declared
  found : t.found = s.found

variable {own : NodeId → Prop} {s t : Saving} {refs : Referenced} {rule : String} {options : Options}
  {id : NodeId}

theorem Shares.say (ha : Shares own s t) (hid : own id) (message : String) :
    Shares own (s.say rule id message) (t.say rule id message) where
  grammar := ha.grammar
  events := by rw [Saving.say, Saving.say, ha.events, ha.grammar.atNode hid]
  declared := ha.declared
  found := ha.found

theorem Shares.declareAs (ha : Shares own s t) (hid : own id) (rule name : String)
    (type init : Tokens) :
    Shares own (s.declareAs rule id name type init) (t.declareAs rule id name type init) := by
  unfold Saving.declareAs
  rw [ha.declared]
  cases s.declared.find? (·.name == name) with
  | none => exact ⟨ha.grammar, ha.events, rfl, ha.found⟩
  | some existing =>
    dsimp only
    split
    · exact ha
    · exact ha.say hid _

theorem Shares.orUnknown (ha : Shares own s t) (hid : own id) (rule : String)
    (type : Option Tokens) :
    Shares own (s.orUnknown rule id type).1 (t.orUnknown rule id type).1 ∧
      (t.orUnknown rule id type).2 = (s.orUnknown rule id type).2 := by
  cases type with
  | some type => exact ⟨ha, rfl⟩
  | none => exact ⟨ha.say hid _, rfl⟩

theorem Shares.store (ha : Shares own s t) (hid : own id) (node : Node) (name : String)
    (type : Option Tokens) : Mirrors (Shares own) (s.store rule options id node name type)
      (t.store rule options id node name type) := by
  unfold Saving.store
  split
  · exact mirrors_pure ha
  · obtain ⟨hknown, htype⟩ := ha.orUnknown hid rule type
    dsimp only
    rw [htype]
    refine mirrors_bind _ fun name _ => ?_
    have hdeclared := hknown.declareAs hid rule name
      (variableType options.listType (s.orUnknown rule id type).2 node.isList).1
      (variableType options.listType (s.orUnknown rule id type).2 node.isList).2
    exact (hdeclared.grammar.modifyNode hid _).bind fun _ _ hnow =>
      mirrors_pure ⟨hnow, hdeclared.events, hdeclared.declared, hdeclared.found⟩

theorem Shares.saveNode (ha : Shares own s t) (hid : own id) :
    Mirrors (Shares own) (saveNode refs rule options s id) (saveNode refs rule options t id) := by
  rw [saveNode_eq, saveNode_eq, ha.grammar.node hid]
  refine mirrors_bind _ fun node _ => ?_
  rw [Grammar.valueType?_of_rules ha.grammar.rules]
  cases refs.storedIn? node with
  | none => exact mirrors_pure ha
  | some name =>
    have hfound : Shares own { s with found := (refs.foundBy? node).toList ++ s.found }
        { t with found := (refs.foundBy? node).toList ++ t.found } :=
      ⟨ha.grammar, ha.events, ha.declared, congrArg (_ ++ ·) ha.found⟩
    exact hfound.store hid node name _

/-! ## References -/

variable {g h : Grammar} {found : List String}

theorem mirrors_substituteNode (ha : g.Shares own h) (hid : own id) :
    Mirrors (Grammar.Twins own) (substituteNode refs found g id) (substituteNode refs found h id) := by
  unfold substituteNode
  rw [ha.node hid]
  refine mirrors_bind _ fun node _ => mirrors_bind _ fun pre _ => mirrors_bind _ fun post _ =>
    mirrors_bind _ fun kind _ => ?_
  exact (ha.modifyNode hid _).bind fun _ _ hnow => mirrors_pure ⟨hnow, rfl⟩

theorem mirrors_substituteAll (ha : g.Shares own h) {ids : List NodeId} (hids : ∀ id ∈ ids, own id) :
    Mirrors (Grammar.Twins own) (substituteAll refs found ids g) (substituteAll refs found ids h) := by
  induction ids generalizing g h with
  | nil => exact mirrors_pure ⟨ha, rfl⟩
  | cons id rest ih =>
    obtain ⟨hid, hothers⟩ := List.forall_mem_cons.1 hids
    rw [substituteAll, substituteAll]
    refine (mirrors_substituteNode ha hid).bind ?_
    rintro ⟨g₁, _⟩ ⟨h₁, keys⟩ ⟨ha₁, rfl⟩
    refine (ih ha₁ hothers).bind ?_
    rintro ⟨g₂, _⟩ ⟨h₂, more⟩ ⟨ha₂, rfl⟩
    exact mirrors_pure ⟨ha₂, rfl⟩

/-- The references that stay are those of the nodes gone over. -/
theorem mem_of_substituteAll {g' : Grammar} {ids : List NodeId} {dangling : List (NodeId × String)}
    (hreplaced : substituteAll refs found ids g = .ok (g', dangling)) {entry : NodeId × String}
    (hentry : entry ∈ dangling) : entry.1 ∈ ids := by
  induction ids generalizing g dangling with
  | nil =>
    cases pure_eq_ok.1 hreplaced
    cases hentry
  | cons id rest ih =>
    rw [substituteAll] at hreplaced
    obtain ⟨⟨g₁, keys⟩, -, hreplaced⟩ := bind_eq_ok.1 hreplaced
    obtain ⟨⟨g₂, more⟩, hrest, hreplaced⟩ := bind_eq_ok.1 hreplaced
    cases pure_eq_ok.1 hreplaced
    rcases List.mem_append.1 hentry with hkey | hmore
    · obtain ⟨key, -, rfl⟩ := List.mem_map.1 hkey
      exact List.mem_cons_self
    · exact List.mem_cons_of_mem _ (ih hrest hmore)

end Saving

/-! ## Saving the values of a rule -/

namespace Grammar

variable {g h : Grammar} {own : NodeId → Prop} {name : String} {options : Options}

theorem Shares.declareVariables (ha : g.Shares own h) {id : NodeId} (hid : own id)
    (declared : List Declared) :
    Mirrors (Shares own) (g.declareVariables id declared) (h.declareVariables id declared) := by
  unfold Grammar.declareVariables
  split
  · exact mirrors_pure ha
  · exact ha.modifyNode hid _

theorem Shares.mapM_node (ha : g.Shares own h) {ids : List NodeId} (hids : ∀ id ∈ ids, own id) :
    (ids.mapM fun id => (h.node id : Except (Failure GenerationError) Node)) =
      ids.mapM fun id => (g.node id : Except (Failure GenerationError) Node) := by
  induction ids with
  | nil => rfl
  | cons id rest ih =>
    obtain ⟨hid, hothers⟩ := List.forall_mem_cons.1 hids
    rw [List.mapM_cons, List.mapM_cons, ha.node hid, ih hothers]

/-- **The values of a rule are saved in both grammars.** -/
theorem Shares.saveValues (ha : g.Shares own h)
    (hown : ∀ rule id, g.rule? name = some rule → g.MatchedBy rule.body id → own id)
    (hbelow : ∀ id child, own id → g.Link Node.matchedChildren id child → own child) :
    Mirrors (Twins own) (g.saveValues name options) (h.saveValues name options) := by
  unfold Grammar.saveValues
  rw [ha.rule?]
  cases hrule : g.rule? name with
  | none => exact fun _ => nofun
  | some rule =>
    refine ((ha.walkMatched rule.body).and_left fun ids hids id hid =>
      hown rule id hrule ((mem_walkDown hids).1 hid)).lift.bind ?_
    rintro ids _ ⟨hids, rfl⟩
    refine ((ha.moveLabels hids hbelow).and_left fun moved hmoved =>
      (relabels_moveLabels hmoved).annotates.kinds.sameShape).lift.bind ?_
    rintro ⟨g₁, _⟩ ⟨h₁, messages⟩ ⟨hshape, ha₁, rfl⟩
    refine ((ha₁.walkMatched rule.body).and_left fun ids hids id hid =>
      hown rule id hrule (hshape.symm.matchedBy ((mem_walkDown hids).1 hid))).lift.bind ?_
    rintro ids _ ⟨hids, rfl⟩
    rw [ha₁.mapM_node hids, ruleNames, ruleNames, ha₁.rules]
    refine mirrors_bind _ fun nodes _ => mirrors_bind _ fun refs _ => ?_
    have hstart : Saving.Shares own ⟨g₁, messages, [], []⟩ ⟨h₁, messages, [], []⟩ := ⟨ha₁, rfl, rfl, rfl⟩
    refine (Mirrors.foldlM (fun id hid _ _ hnow => (hnow.saveNode (hids id hid)).lift) hstart).bind ?_
    intro saved saved' hsaved
    rw [hsaved.found]
    refine ((Saving.mirrors_substituteAll hsaved.grammar hids).and_left
      (P := fun replaced => ∀ entry ∈ replaced.2, own entry.1) fun replaced hreplaced entry hentry =>
        hids _ (Saving.mem_of_substituteAll hreplaced hentry)).lift.bind ?_
    rintro ⟨g₂, _⟩ ⟨h₂, dangling⟩ ⟨hdangling, ha₂, rfl⟩
    have hreports : ∀ message : String → String,
        dangling.map (fun entry => Event.atNode h₂ .error name entry.1 (message entry.2)) =
          dangling.map fun entry => Event.atNode g₂ .error name entry.1 (message entry.2) :=
      fun _ => List.map_congr_left fun entry hentry => ha₂.atNode (hdangling entry hentry) ..
    dsimp only
    rw [hsaved.declared, hsaved.events, hreports fun key =>
      "'$" ++ key ++ "' does not refer to a label, a rule or anything this rule matches."]
    exact (ha₂.declareVariables (hown rule _ hrule .refl) _).lift.bind fun _ _ hnow =>
      mirrors_pure ⟨hnow, rfl⟩

end Grammar

end PredictiveParser
