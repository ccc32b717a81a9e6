import PredictiveParser.Proofs.Grammar.Height
import PredictiveParser.Proofs.Text.Names
import PredictiveParser.Proofs.Values.Saving

/-!
# Saving values does not fail

Saving the values of a rule makes labels, names of rules and what references stand for the names of
variables. Where these are plain names, nothing is refused (`exists_saveValues`): every variable gets
a name that may stand in code, and every node that is looked up is there.
-/
namespace PredictiveParser

/-! ## Plain names -/

/-- The variable for the reference, if it can have one, has a plain name. -/
def Reference.Plain (reference : Reference) : Prop :=
  ∃ varName?, reference.varName? = .ok varName? ∧
    ∀ name, varName? = some name → Text.isIdentifier name = true

theorem Reference.plain_name {name : String} (h : Text.isIdentifier name = true) :
    (Reference.name name).Plain := by
  refine ⟨_, rfl, fun other hother => ?_⟩
  split at hother
  · cases hother
  · cases hother
    exact Text.isIdentifier_append_of (by decide) h

/-- The label of the node is a plain name, and so is the variable for each reference in its code. -/
structure Node.Plain (node : Node) : Prop where
  label : ∀ label, node.label = some label → Text.isIdentifier label = true
  references : ∀ code ∈ node.codeBlocks, ∀ reference ∈ References.find code, reference.Plain

theorem Node.Plain.relabel {node : Node} (h : node.Plain) {label : Option String} {isList : Bool}
    (hlabel : ∀ name, label = some name → Text.isIdentifier name = true) :
    { node with label, isList }.Plain where
  label := hlabel
  references := h.references

theorem Node.Plain.saveTo {node : Node} (h : node.Plain) (saver : Option Saver) :
    { node with saver }.Plain where
  label := h.label
  references := h.references

namespace Grammar

variable {g g' : Grammar} {ids : NodeId → Prop} {id : NodeId} {node : Node} {label : String}

/-- These nodes are there and plain, with all that is matched below them. -/
structure PlainTree (g : Grammar) (ids : NodeId → Prop) : Prop where
  plain : ∀ id, ids id → ∃ node, g.node id = .ok node ∧ node.Plain
  below : ∀ id node child, ids id → g.node id = .ok node → child ∈ node.matchedChildren → ids child

theorem PlainTree.modifyNode (h : g.PlainTree ids) (hid : ids id) {f : Node → Node}
    (hkind : ∀ node, (f node).kind = node.kind) (hf : ∀ node : Node, node.Plain → (f node).Plain) :
    ∃ g', g.modifyNode id f = .ok g' ∧ g'.PlainTree ids := by
  obtain ⟨node, hnode, -⟩ := h.plain id hid
  obtain ⟨g', hg'⟩ := exists_modifyNode (f := f) ⟨node, hnode⟩
  refine ⟨g', hg', fun other hother => ?_, fun other node' child hother hnode' hchild => ?_⟩
  · obtain ⟨old, hold, hplain⟩ := h.plain other hother
    have hnodes := (modifyNode_eq_ok hg').2 other
    rw [node_eq_ok.1 hold] at hnodes
    split at hnodes
    · exact ⟨f old, node_eq_ok.2 hnodes, hf old hplain⟩
    · exact ⟨old, node_eq_ok.2 hnodes, hplain⟩
  · obtain ⟨old, hold, rfl⟩ := node_modifyNode hg' hnode'
    have hkinds : (if other = id then f old else old).kind = old.kind := by
      split
      · exact hkind old
      · rfl
    rw [Node.matchedChildren_of_bare (congrArg NodeKind.bare hkinds)] at hchild
    exact h.below other old child hother hold hchild

theorem PlainTree.exists_node (h : g.PlainTree ids) (hid : ids id) : ∃ node, g.node id = .ok node := by
  obtain ⟨node, hnode, -⟩ := h.plain id hid
  exact ⟨node, hnode⟩

theorem PlainTree.exists_nodes (h : g.PlainTree ids) {list : List NodeId}
    (hids : ∀ id ∈ list, ids id) : ∃ nodes, list.mapM (fun id =>
      (g.node id : Except (Failure GenerationError) Node)) = .ok nodes ∧ ∀ node ∈ nodes, node.Plain := by
  obtain ⟨nodes, hnodes⟩ : ∃ nodes, list.mapM (fun id =>
      (g.node id : Except (Failure GenerationError) Node)) = .ok nodes := by
    refine exists_mapM_eq_ok fun id hid => ?_
    obtain ⟨node, hnode⟩ := h.exists_node (hids id hid)
    exact ⟨node, liftM_eq_ok.2 hnode⟩
  refine ⟨nodes, hnodes, fun node hnode => ?_⟩
  obtain ⟨id, hid, hfound⟩ := Forall₂.exists_of_mem_right (mapM_eq_ok.1 hnodes) hnode
  obtain ⟨other, hother, hplain⟩ := h.plain id (hids id hid)
  cases (liftM_eq_ok.1 hfound).symm.trans hother
  exact hplain

/-! ## Moving labels -/

theorem exists_passLabel (rule : String) (h : g.PlainTree ids) (hid : ids id)
    (hnode : g.node id = .ok node) (hlabel : Text.isIdentifier label = true) :
    ∃ g' events, g.passLabel rule id node label = .ok (g', events) ∧ g'.PlainTree ids := by
  unfold passLabel
  split
  · rename_i alts halts
    have harms : ∀ arm ∈ alts.arms, ids arm := fun arm harm =>
      h.below id node arm hid hnode (by rwa [Node.matchedChildren, Node.alternatives?_eq_some.1 halts])
    obtain ⟨g', hg', hplain⟩ := exists_foldlM_eq_ok (I := fun now : Grammar => now.PlainTree ids)
      (fun arm harm now hnow => hnow.modifyNode (harms arm harm)
        (f := ({ · with label := some label, isList := node.isList })) (fun _ => rfl)
        fun _ hplain => hplain.relabel fun _ hname => Option.some.inj hname ▸ hlabel) h
    exact ⟨g', [], bind_eq_ok.2 ⟨g', hg', rfl⟩, hplain⟩
  · exact ⟨g, _, rfl, h⟩

theorem exists_moveLabel (rule : String) (h : g.PlainTree ids) (hid : ids id) :
    ∃ g' events, g.moveLabel rule id = .ok (g', events) ∧ g'.PlainTree ids := by
  obtain ⟨node, hnode, hplain⟩ := h.plain id hid
  cases hlabel : node.label with
  | none =>
    refine ⟨g, [], bind_eq_ok.2 ⟨node, hnode, ?_⟩, h⟩
    rw [hlabel]
    rfl
  | some label =>
    by_cases hvalue : node.hasValue = true
    · refine ⟨g, [], bind_eq_ok.2 ⟨node, hnode, ?_⟩, h⟩
      rw [hlabel]
      exact if_pos hvalue
    · obtain ⟨g₁, events, hg₁, hplain₁⟩ :=
        exists_passLabel rule h hid hnode (hplain.label label hlabel)
      obtain ⟨g₂, hg₂, hplain₂⟩ := hplain₁.modifyNode hid (f := ({ · with label := none }))
        (fun _ => rfl) fun _ hold => hold.relabel nofun
      refine ⟨g₂, events, bind_eq_ok.2 ⟨node, hnode, ?_⟩, hplain₂⟩
      rw [hlabel]
      exact (if_neg hvalue).trans
        (bind_eq_ok.2 ⟨(g₁, events), hg₁, bind_eq_ok.2 ⟨g₂, hg₂, rfl⟩⟩)

theorem exists_moveLabels (rule : String) {list : List NodeId} (h : g.PlainTree ids)
    (hids : ∀ id ∈ list, ids id) :
    ∃ g' events, moveLabels rule list g = .ok (g', events) ∧ g'.PlainTree ids := by
  induction list generalizing g with
  | nil => exact ⟨g, [], rfl, h⟩
  | cons id rest ih =>
    obtain ⟨g₁, events₁, hg₁, h₁⟩ := exists_moveLabel rule h (hids id List.mem_cons_self)
    obtain ⟨g₂, events₂, hg₂, h₂⟩ := ih h₁ fun id hid => hids id (List.mem_cons_of_mem _ hid)
    exact ⟨g₂, events₁ ++ events₂,
      bind_eq_ok.2 ⟨(g₁, events₁), hg₁, bind_eq_ok.2 ⟨(g₂, events₂), hg₂, rfl⟩⟩, h₂⟩

end Grammar

/-! ## What is referred to -/

/-- Every name that saving takes from here is plain. -/
structure Referenced.Plain (refs : Referenced) : Prop where
  labels : ∀ label ∈ refs.labels, Text.isIdentifier label = true
  rules : ∀ name ∈ refs.rules, Text.isIdentifier name = true
  others : ∀ other ∈ refs.others, ∀ name, other.varName? = some name → Text.isIdentifier name = true

namespace Referenced

variable {refs : Referenced} {ruleNames : List String}

theorem exists_add (hnames : ∀ name ∈ ruleNames, Text.isIdentifier name = true) (h : refs.Plain)
    {reference : Reference} (hreference : reference.Plain) :
    ∃ refs', add ruleNames refs reference = .ok refs' ∧ refs'.Plain := by
  unfold add
  dsimp only
  split
  · exact ⟨refs, rfl, h⟩
  · split
    · rename_i hrule
      have hname : reference.key ∈ ruleNames := by
        rw [Bool.and_eq_true] at hrule
        exact List.contains_iff_mem.1 hrule.2
      refine ⟨_, rfl, ?_⟩
      split
      · exact h
      · refine ⟨h.labels, fun name hmem => ?_, h.others⟩
        rcases List.mem_append.1 hmem with hmem | hmem
        · exact h.rules name hmem
        · exact List.mem_singleton.1 hmem ▸ hnames _ hname
    · split
      · exact ⟨refs, rfl, h⟩
      · obtain ⟨varName?, hvar, hplain⟩ := hreference
        refine ⟨_, bind_eq_ok.2 ⟨varName?, hvar, rfl⟩, h.labels, h.rules, fun other hmem => ?_⟩
        rcases List.mem_append.1 hmem with hmem | hmem
        · exact h.others other hmem
        · rw [List.mem_singleton.1 hmem]
          exact hplain

theorem exists_ofNodes (hnames : ∀ name ∈ ruleNames, Text.isIdentifier name = true)
    {nodes : List Node} (hnodes : ∀ node ∈ nodes, node.Plain) :
    ∃ refs, ofNodes ruleNames nodes = .ok refs ∧ refs.Plain := by
  refine exists_foldlM_eq_ok (I := Plain) (fun reference hmem refs h => ?_) ⟨?_, nofun, nofun⟩
  · obtain ⟨node, hnode, hmem⟩ := List.mem_flatMap.1 hmem
    obtain ⟨code, hcode, hmem⟩ := List.mem_flatMap.1 hmem
    exact exists_add hnames h ((hnodes node hnode).references code hcode reference hmem)
  · intro label hlabel
    obtain ⟨node, hnode, hlabel⟩ := List.mem_filterMap.1 hlabel
    exact (hnodes node hnode).label label hlabel

end Referenced

/-! ## Storing values -/

namespace Saving

variable {saving : Saving} {refs : Referenced} {rule : String} {options : Options}
  {ids : NodeId → Prop} {id : NodeId} {node : Node}

theorem exists_store (h : saving.grammar.PlainTree ids) (hid : ids id) {name : String}
    (hname : Text.isIdentifier name = true) (type : Option Tokens) :
    ∃ saving', saving.store rule options id node name type = .ok saving' ∧
      saving'.grammar.PlainTree ids := by
  by_cases hsaver : node.saver.isSome = true
  · exact ⟨saving, if_pos hsaver, h⟩
  · let known := saving.orUnknown rule id type
    let typed := variableType options.listType known.2 node.isList
    have hsame : (known.1.declareAs rule id name typed.1 typed.2).grammar = saving.grammar :=
      (grammar_declareAs ..).trans (grammar_orUnknown ..)
    obtain ⟨g', hg', htree⟩ := h.modifyNode hid
      (f := ({ · with saver := some ⟨name, node.isList⟩ })) (fun _ => rfl) fun _ hold =>
        hold.saveTo _
    refine ⟨{ known.1.declareAs rule id name typed.1 typed.2 with grammar := g' },
      (if_neg hsaver).trans ?_, htree⟩
    rw [← hsame] at hg'
    exact bind_eq_ok.2 ⟨name, checkedName_of_isIdentifier hname, bind_eq_ok.2 ⟨g', hg', rfl⟩⟩

theorem isIdentifier_got {name : String} (h : Text.isIdentifier name = true) :
    Text.isIdentifier ("got_" ++ name) = true :=
  Text.isIdentifier_append_of (by decide) h

theorem isIdentifier_of_storedIn? (hrefs : refs.Plain) (hnode : node.Plain) {name : String}
    (h : refs.storedIn? node = some name) : Text.isIdentifier name = true := by
  unfold Referenced.storedIn? at h
  split at h
  · rcases Option.or_eq_some_iff.1 h with hlabel | ⟨-, hcall⟩
    · exact hnode.label name hlabel
    · rw [Option.ite_none_right_eq_some, List.contains_iff_mem, Option.some.injEq] at hcall
      exact hcall.2 ▸ isIdentifier_got (hrefs.rules _ hcall.1)
  · rcases Option.or_eq_some_iff.1 h with hlabel | ⟨-, hother⟩
    · exact hnode.label name hlabel
    · obtain ⟨other, hfor, hname⟩ := Option.bind_eq_some_iff.1 hother
      obtain ⟨basis, -, hfind⟩ := Option.bind_eq_some_iff.1 hfor
      have hm := List.mem_of_find?_eq_some (Option.filter_eq_some_iff.1 hfind).1
      exact hrefs.others other hm name hname
  · cases h

theorem exists_saveNode (rule : String) (options : Options) (hrefs : refs.Plain)
    (h : saving.grammar.PlainTree ids) (hid : ids id) :
    ∃ saving', saveNode refs rule options saving id = .ok saving' ∧
      saving'.grammar.PlainTree ids := by
  obtain ⟨node, hnode, hplain⟩ := h.plain id hid
  rw [saveNode_eq]
  refine exists_bind_eq_ok (P := (· = node)) ⟨node, hnode, rfl⟩ ?_
  rintro node rfl
  cases hname : refs.storedIn? node with
  | none => exact ⟨saving, rfl, h⟩
  | some name =>
    have hfound : { saving with found := (refs.foundBy? node).toList ++ saving.found
      }.grammar.PlainTree ids := h
    exact exists_store hfound hid (isIdentifier_of_storedIn? hrefs hplain hname) _

theorem exists_saveNodes (rule : String) (options : Options) (hrefs : refs.Plain)
    (h : saving.grammar.PlainTree ids) {list : List NodeId} (hids : ∀ id ∈ list, ids id) :
    ∃ saving', list.foldlM (fun saving id =>
        (saveNode refs rule options saving id : Except (Failure GenerationError) Saving)) saving =
      .ok saving' ∧ saving'.grammar.PlainTree ids := by
  refine exists_foldlM_eq_ok (I := fun saving : Saving => saving.grammar.PlainTree ids) ?_ h
  intro id hid saving h
  obtain ⟨saving', hsaving', h'⟩ := exists_saveNode rule options hrefs h (hids id hid)
  exact ⟨saving', liftM_eq_ok.2 hsaving', h'⟩

/-! ## Replacing references -/

variable {found : List String}

theorem isIdentifier_of_resolve (hrefs : refs.Plain) {reference : Reference} {name : String}
    (h : resolve? refs found reference = some name) : Text.isIdentifier name = true := by
  rcases resolve?_cases h with ⟨rfl, hlabel⟩ | ⟨rfl, hrule⟩ | ⟨other, hother, -, hname⟩
  · exact hrefs.labels _ hlabel
  · exact isIdentifier_got (hrefs.rules _ hrule)
  · exact hrefs.others other (List.mem_of_find?_eq_some hother) name hname

theorem exists_substituteCode (found : List String) (hrefs : refs.Plain) (code : Tokens) :
    ∃ result, substituteCode refs found code = .ok result := by
  obtain ⟨names, hnames⟩ : ∃ names,
      ((References.find code).filterMap (resolve? refs found)).mapM checkedName = .ok names := by
    refine exists_mapM_eq_ok fun name hname => ⟨name, checkedName_of_isIdentifier ?_⟩
    obtain ⟨reference, -, hresolve⟩ := List.mem_filterMap.1 hname
    exact isIdentifier_of_resolve hrefs hresolve
  exact ⟨_, (substituteCode_eq refs found code).trans (bind_eq_ok.2 ⟨names, hnames, rfl⟩)⟩

theorem exists_substituteOption (found : List String) (hrefs : refs.Plain) (code : Option Tokens) :
    ∃ result, substituteOption refs found code = .ok result := by
  cases code with
  | none => exact ⟨_, rfl⟩
  | some code =>
    obtain ⟨result, hresult⟩ := exists_substituteCode found hrefs code
    exact ⟨_, bind_eq_ok.2 ⟨result, hresult, rfl⟩⟩

theorem exists_substituteKind (found : List String) (hrefs : refs.Plain) (kind : NodeKind) :
    ∃ result, substituteKind refs found kind = .ok result := by
  unfold substituteKind
  split
  · rename_i negate code mark
    obtain ⟨result, hresult⟩ := exists_substituteCode found hrefs code
    exact ⟨_, bind_eq_ok.2 ⟨result, hresult, rfl⟩⟩
  · exact ⟨_, rfl⟩

variable {g : Grammar}

theorem exists_substituteNode (found : List String) (hrefs : refs.Plain)
    (hnode : ∃ node, g.node id = .ok node) :
    ∃ result, substituteNode refs found g id = .ok result := by
  obtain ⟨node, hnode⟩ := hnode
  obtain ⟨pre, hpre⟩ := exists_substituteOption found hrefs node.preAction
  obtain ⟨post, hpost⟩ := exists_substituteOption found hrefs node.postAction
  obtain ⟨kind, hkind⟩ := exists_substituteKind found hrefs node.kind
  obtain ⟨g', hg'⟩ := Grammar.exists_modifyNode
    (f := ({ · with kind := kind.1, preAction := pre.1, postAction := post.1 })) ⟨node, hnode⟩
  exact ⟨_, bind_eq_ok.2 ⟨node, hnode, bind_eq_ok.2 ⟨pre, hpre, bind_eq_ok.2 ⟨post, hpost,
    bind_eq_ok.2 ⟨kind, hkind, bind_eq_ok.2 ⟨g', hg', rfl⟩⟩⟩⟩⟩⟩

theorem exists_substituteAll (found : List String) (hrefs : refs.Plain) {list : List NodeId}
    (hnodes : ∀ id ∈ list, ∃ node, g.node id = .ok node) :
    ∃ result, substituteAll refs found list g = .ok result := by
  induction list generalizing g with
  | nil => exact ⟨_, rfl⟩
  | cons id rest ih =>
    obtain ⟨⟨g₁, keys⟩, hfirst⟩ :=
      exists_substituteNode found hrefs (hnodes id List.mem_cons_self)
    have hshape := (annotates_substituteNode hfirst).kinds.sameShape
    have hnodes₁ : ∀ other ∈ rest, ∃ node, g₁.node other = .ok node := by
      intro other hother
      obtain ⟨node, hnode⟩ := hnodes other (List.mem_cons_of_mem _ hother)
      obtain ⟨node', hnode', -⟩ := hshape.node hnode
      exact ⟨node', hnode'⟩
    obtain ⟨result, hrest⟩ := ih hnodes₁
    exact ⟨_, bind_eq_ok.2 ⟨(g₁, keys), hfirst, bind_eq_ok.2 ⟨result, hrest, rfl⟩⟩⟩

end Saving

namespace Grammar

variable {g : Grammar} {name : String} {rule : Rule} {options : Options}

theorem exists_declareVariables {id : NodeId} (declared : List Declared)
    (hnode : ∃ node, g.node id = .ok node) : ∃ g', g.declareVariables id declared = .ok g' := by
  unfold declareVariables
  split
  · exact ⟨g, rfl⟩
  · exact exists_modifyNode hnode

/-- **Saving the values of a rule with plain names does not fail.** -/
theorem exists_saveValues (hf : g.Forest) (hrule : g.rule? name = some rule)
    (hnames : ∀ name ∈ g.ruleNames, Text.isIdentifier name = true)
    (hplain : ∀ id node, g.MatchedBy rule.body id → g.node id = .ok node → node.Plain)
    (options : Options) : ∃ g' events, g.saveValues name options = .ok (g', events) := by
  have htree : g.PlainTree (g.MatchedBy rule.body) := by
    constructor
    · intro id hid
      obtain ⟨node, hnode, -⟩ := hf.exists_node hrule (reaches_of_matched hid)
      exact ⟨node, hnode, hplain id node hid hnode⟩
    · exact fun id node child hid hnode hchild => hid.tail ⟨node, hnode, hchild⟩
  obtain ⟨ids, hids, -⟩ := hf.nodup_walkMatched (SameShape.refl g).shapeIn hrule
  obtain ⟨g₁, moved, hmoved, htree₁⟩ :=
    exists_moveLabels name htree fun id hid => (mem_walkDown hids).1 hid
  have hrelabels := relabels_moveLabels hmoved
  have hshape := hrelabels.annotates.kinds.sameShape
  obtain ⟨ids', hids', -⟩ := hf.nodup_walkMatched hshape.shapeIn hrule
  have hmatched : ∀ id ∈ ids', g.MatchedBy rule.body id := fun id hid =>
    hshape.symm.matchedBy ((mem_walkDown hids').1 hid)
  obtain ⟨nodes, hnodes, hplain₁⟩ := htree₁.exists_nodes hmatched
  have hnames₁ : ∀ name ∈ g₁.ruleNames, Text.isIdentifier name = true := by
    rwa [ruleNames, hrelabels.rules]
  obtain ⟨refs, hrefs, hplainRefs⟩ := Referenced.exists_ofNodes hnames₁ hplain₁
  have hstart : (⟨g₁, moved, [], []⟩ : Saving).grammar.PlainTree (g.MatchedBy rule.body) := htree₁
  obtain ⟨saved, hsaved, htree₂⟩ := Saving.exists_saveNodes name options hplainRefs hstart hmatched
  obtain ⟨⟨g₂, dangling⟩, hsubstituted⟩ := Saving.exists_substituteAll saved.found hplainRefs
    fun id hid => htree₂.exists_node (hmatched id hid)
  have hbody : ∃ node, g₂.node rule.body = .ok node := by
    obtain ⟨node, hnode⟩ := htree₂.exists_node .refl
    obtain ⟨node', hnode', -⟩ :=
      (Saving.annotates_substituteAll hsubstituted).kinds.sameShape.node hnode
    exact ⟨node', hnode'⟩
  obtain ⟨g₃, hdeclared⟩ := exists_declareVariables saved.declared hbody
  unfold saveValues
  rw [hrule]
  exact ⟨_, _, bind_eq_ok.2 ⟨ids, liftM_eq_ok.2 hids, bind_eq_ok.2 ⟨(g₁, moved),
    liftM_eq_ok.2 hmoved, bind_eq_ok.2 ⟨ids', liftM_eq_ok.2 hids', bind_eq_ok.2 ⟨nodes, hnodes,
      bind_eq_ok.2 ⟨refs, liftM_eq_ok.2 hrefs, bind_eq_ok.2 ⟨saved, hsaved,
        bind_eq_ok.2 ⟨(g₂, dangling), liftM_eq_ok.2 hsubstituted,
          bind_eq_ok.2 ⟨g₃, liftM_eq_ok.2 hdeclared, rfl⟩⟩⟩⟩⟩⟩⟩⟩⟩

end Grammar

end PredictiveParser
