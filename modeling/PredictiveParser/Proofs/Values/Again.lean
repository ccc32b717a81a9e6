import PredictiveParser.Proofs.Values.Messages
import PredictiveParser.Proofs.Values.Saved

/-!
# Saving values again

Once the values of a rule are saved, nothing is left to save (`saved_saveValues`). Labels are where values
are, the nodes that they are for store their values, and so do those that a reference was replaced for. The
references that are left are to no value (`Scope.Leaves`). So saving the values again changes nothing and
says of these references what was said before (`saveValues_again`).

This takes code in which no two dollar signs are neighbours, since replacing a reference behind another
dollar sign makes a new one. And it takes types without references, since the declarations of variables are
code in front of the body.
-/
namespace PredictiveParser

open References Template

/-! ## What is left of a scope -/

/-- The references that stay in the first scope are those of the second one, lookahead references apart. -/
structure Scope.Leaves (scope : Scope) (stays : Reference → Bool) (scope' : Scope) : Prop where
  labels : scope'.labels = scope.labels
  ruleNames : scope'.ruleNames = scope.ruleNames
  references : scope'.references.filter (!·.isLookahead) = scope.references.filter stays

namespace Scope.Leaves

variable {scope scope' : Scope} {stays : Reference → Bool} (h : scope.Leaves stays scope')
include h

theorem isUnlabeled (r : Reference) : scope'.isUnlabeled r = scope.isUnlabeled r := by
  rw [Scope.isUnlabeled, h.labels, Scope.isUnlabeled]

theorem namesRule (r : Reference) : scope'.namesRule r = scope.namesRule r := by
  rw [Scope.namesRule, h.ruleNames, Scope.namesRule]

theorem mem_iff {r : Reference} (hr : r.isLookahead = false) :
    r ∈ scope'.references ↔ r ∈ scope.references ∧ stays r = true := by
  have hmem : r ∈ scope'.references.filter (!·.isLookahead) ↔ r ∈ scope.references.filter stays := by
    rw [h.references]
  simpa [List.mem_filter, hr] using hmem

end Scope.Leaves

theorem Scope.not_isLookahead_of_isUnlabeled {scope : Scope} {r : Reference}
    (h : scope.isUnlabeled r = true) : r.isLookahead = false := by
  rw [isUnlabeled, Bool.and_eq_true, Bool.not_eq_true'] at h
  exact h.1

namespace Saving

variable {refs refs' : Referenced} {found : List String} {scope scope' : Scope} {r : Reference}

/-- The references that stay are to no label and no rule, and if there is a terminal for them, then no
variable. -/
theorem stays_iff (h : refs.Reads scope) : stays refs found r = true ↔
    scope.isUnlabeled r = true ∧ scope.refersTo r.key = false ∧
      (r.key ∈ found → (scope.other? r.key).bind Reference.variableName? = none) := by
  unfold stays resolve? Scope.isUnlabeled
  simp only [h.labels, h.rules, h.others]
  cases r.isLookahead
  case true => simp
  cases scope.labels.contains r.key
  case true => simp
  cases scope.refersTo r.key
  case true => simp
  cases scope.other? r.key <;> simp

end Saving

namespace Scope.Leaves

variable {refs refs' : Referenced} {found : List String} {scope scope' : Scope} {r : Reference}
  (h : scope.Leaves (Saving.stays refs found) scope') (hreads : refs.Reads scope)
include h hreads

/-- No reference to the value of a rule is left. -/
theorem refersTo (callee : String) : scope'.refersTo callee = false := by
  rw [Scope.refersTo, List.any_eq_false]
  intro r hr hrefers
  rw [h.isUnlabeled, h.namesRule, Bool.and_eq_true, Bool.and_eq_true, beq_iff_eq] at hrefers
  obtain ⟨⟨hunlabeled, hrule⟩, rfl⟩ := hrefers
  obtain ⟨hold, hstays⟩ := (h.mem_iff (Scope.not_isLookahead_of_isUnlabeled hunlabeled)).1 hr
  have hrefers : scope.refersTo r.key = true :=
    List.any_eq_true.2 ⟨r, hold, by rw [hunlabeled, hrule, beq_self_eq_true]; rfl⟩
  rw [((Saving.stays_iff hreads).1 hstays).2.1] at hrefers
  cases hrefers

/-- The first reference with a key that is left is the first one that there was. -/
theorem other?_eq_some {key : String} (hother : scope'.other? key = some r) :
    scope.other? key = some r ∧ Saving.stays refs found r = true := by
  -- Where a reference with the key stays, all of them do.
  have hr := Scope.isOther_of_other? hother
  have hall : Saving.stays refs found r = true → ∀ r', scope.IsOther key r' →
      Saving.stays refs found r' = true := by
    intro hstays r' hr'
    rw [Saving.stays_iff hreads] at hstays ⊢
    rw [hr'.2.2, ← hr.2.2]
    exact ⟨hr'.1, hstays.2⟩
  have hahead : scope'.other? key = (scope'.references.filter (!·.isLookahead)).find? fun r' =>
      scope.isUnlabeled r' && !scope.namesRule r' && r'.key == key := by
    rw [List.find?_filter, Scope.other?]
    refine congrArg (List.find? · _) (funext fun r' => Bool.eq_iff_iff.2 ?_)
    rw [h.isUnlabeled, h.namesRule, decide_eq_true_iff]
    refine ⟨fun hr' => ⟨?_, hr'⟩, And.right⟩
    rw [Scope.not_isLookahead_of_isUnlabeled (Scope.isOther_iff.2 hr').1, Bool.not_false]
  rw [hahead, h.references, List.find?_filter] at hother
  have hstays := (of_decide_eq_true (List.find?_some hother :)).1
  refine ⟨?_, hstays⟩
  rw [← hother, Scope.other?]
  refine congrArg (List.find? · scope.references) (funext fun r' => Bool.eq_iff_iff.2 ?_)
  rw [decide_eq_true_iff]
  exact ⟨fun hr' => ⟨hall hstays r' (Scope.isOther_iff.2 hr'), hr'⟩, And.right⟩

end Scope.Leaves

namespace Referenced

variable {refs : Referenced} {scope : Scope} {node : Node} {basis : Tokens} {value : String}

theorem foundBy?_codeless (refs : Referenced) (node : Node) :
    refs.foundBy? node.codeless = refs.foundBy? node := by
  unfold foundBy? Node.codeless
  rcases node.kind with _ | _ | _ | ⟨_, _ | _, _⟩ | _ | _ <;> rfl

/-- A terminal is found for a reference by its text. -/
theorem Reads.foundBy?_eq_some (h : refs.Reads scope) {set : CharSet} {mark : Option Bool}
    (hkind : node.kind = .terminal set mark) (hlabel : node.label = none)
    (hbasis : node.basis = some basis)
    (hname : (scope.other? basis.normalText).bind Reference.variableName? = some value) :
    refs.foundBy? node = some basis.normalText := by
  obtain ⟨reference, hother, hname⟩ := Option.bind_eq_some_iff.1 hname
  have hfor : refs.variableFor? basis = some ⟨basis.normalText, some value⟩ := by
    rw [Referenced.variableFor?, h.others, hother, Option.map_some, hname]
    rfl
  unfold foundBy?
  rw [hkind, hlabel, hbasis, Option.bind_some, hfor]

end Referenced

namespace Grammar

variable {g g' : Grammar} {name : String} {rule : Rule} {options : Options} {ids : List NodeId}
  {id : NodeId}

/-! ## Once values are saved -/

theorem flatMap_nodesOf (g : Grammar) (ids : List NodeId) :
    (g.nodesOf ids).flatMap Node.references = ids.flatMap g.referencesAt := by
  induction ids with
  | nil => rfl
  | cons id rest ih =>
    rw [nodesOf, List.filterMap_cons, List.flatMap_cons, referencesAt]
    cases g.nodes[id]? with
    | none => exact ih
    | some node => rw [List.flatMap_cons, ← nodesOf, ih]; rfl

namespace SavingSteps

/-- The variables that references become, put in their place. -/
theorem putsNames (resolve : Reference → Option String) :
    Reference.PutsNames fun r => (resolve r).map word := by
  intro r new hnew
  obtain ⟨value, -, rfl⟩ := Option.map_eq_some_iff.1 hnew
  exact ⟨value, rfl⟩

variable {events : List Event} (steps : SavingSteps g name options g' events)

theorem agrees_codeBlocks : Agrees Node.codeBlocks g steps.saved.grammar :=
  (agrees_moveLabels (fun _ _ _ => rfl) steps.moves).trans
    (Saving.agrees_saveNodes (fun _ _ => rfl) steps.saves)

theorem referencesAt_saved (id : NodeId) : steps.saved.grammar.referencesAt id = g.referencesAt id := by
  have hsame := (steps.agrees_codeBlocks.comp (·.flatMap find)).nodes id
  exact congrArg (·.getD []) hsame

theorem replacedOnceAt_saved (hcode : ∀ id node, g.MatchedBy steps.rule.body id →
    g.node id = .ok node → node.dollarsApart = true) (hid : id ∈ steps.ids) :
    steps.saved.grammar.ReplacedOnceAt
      (fun r => (Saving.resolve? steps.refs steps.saved.found r).map word) id := by
  intro saved hsaved code hmem
  obtain ⟨node, hnode, hsame⟩ := steps.agrees_codeBlocks.node hsaved
  rw [← hsame] at hmem
  have hapart := hcode id node (steps.mem_ids.1 hid) hnode
  exact replacedOnce_of_dollarsApart (putsNames _) (List.all_eq_true.1 hapart code hmem)

section

variable (htypes : ∀ id node, g.MatchedBy steps.rule.body id → g'.node id = .ok node →
  node.saver ≠ none → (g'.variableTypeOf options node).LooksAhead)
include htypes

theorem looksAhead_declared {new : Declared} (hnew : new ∈ steps.saved.declared) :
    ∃ type init, new.code = declare new.name type init ∧ type.LooksAhead ∧ init.LooksAhead := by
  obtain ⟨id, hid, node, value, hnode, hvalue, rfl⟩ := steps.exists_newlyStored hnew
  obtain ⟨node', hnode', hcodeless⟩ := steps.exists_stored hid hnode
  have hsaver : node'.saver ≠ none := by
    rw [Referenced.storing_of_newlyStored? hvalue] at hcodeless
    have hsome : node'.saver = some _ := congrArg Node.saver hcodeless
    rw [hsome]
    exact Option.some_ne_none _
  have hlist : node'.isList = node.isList := (congrArg Node.isList hcodeless :)
  have htype : g'.valueType? options node' = steps.moved.valueType? options node := by
    rw [valueType?_of_rules (steps.agrees_codeless.rules.trans steps.savedThrough.rules),
      ← valueType?_codeless, hcodeless, valueType?_codeless]
    rfl
  have hahead := htypes id node' (steps.mem_ids.1 hid) hnode' hsaver
  rw [variableTypeOf, hlist, htype] at hahead
  exact ⟨_, _, rfl, hahead, fun r hr => hahead r (find_variableType _ _ _ hr)⟩

variable (hcode : ∀ id node, g.MatchedBy steps.rule.body id → g.node id = .ok node →
  node.dollarsApart = true)
include hcode

/-- The references that are left are those that nothing was put in the place of. -/
theorem referencesAt_eq (hid : id ∈ steps.ids) : ∃ ahead, g'.referencesAt id =
    ahead ++ (g.referencesAt id).filter (fun r =>
      (Saving.resolve? steps.refs steps.saved.found r).isNone) ∧
      ∀ r ∈ ahead, r.isLookahead = true := by
  obtain ⟨node, hnode⟩ := node_of_walkDown steps.walks_ids hid
  obtain ⟨saved, hsaved, hsame⟩ := steps.agrees_codeBlocks.symm.node hnode
  have honce := steps.replacedOnceAt_saved hcode hid saved hsaved
  have hreferences : saved.references = node.references := by
    rw [Node.references, hsame, Node.references]
  -- A node that is listed has its code rewritten at least once, and more often makes no difference.
  obtain ⟨times, htimes⟩ := Nat.exists_eq_add_of_lt (List.count_pos_iff.2 hid)
  have hnode' := steps.nodes_eq id
  rw [node_eq_ok.1 hsaved, Option.map_some, htimes, Nat.zero_add, honce.iterate_succ] at hnode'
  rw [referencesAt_of_node (node_eq_ok.2 hnode'), referencesAt_of_node hnode, ← hreferences]
  have hrewritten : (saved.rewrite fun r =>
      (Saving.resolve? steps.refs steps.saved.found r).map word).references =
        saved.references.filter fun r => (Saving.resolve? steps.refs steps.saved.found r).isNone := by
    simp only [honce.references_rewrite, Option.isNone_map]
  rw [← hrewritten]
  dsimp only
  split
  · exact Node.references_declareFirst _ fun _ => steps.looksAhead_declared htypes
  · exact ⟨[], rfl, List.forall_mem_nil _⟩

theorem filter_referencesAt (hid : id ∈ steps.ids) :
    (g'.referencesAt id).filter (!·.isLookahead) =
      (g.referencesAt id).filter (Saving.stays steps.refs steps.saved.found) := by
  obtain ⟨ahead, hreferences, hahead⟩ := steps.referencesAt_eq htypes hcode hid
  have hnone : ahead.filter (!·.isLookahead) = [] :=
    List.filter_eq_nil_iff.2 fun r hr => by simp [hahead r hr]
  rw [hreferences, List.filter_append, hnone, List.nil_append, List.filter_filter]
  rfl

/-- What is left of the scope are the references that stay. -/
theorem leaves_scopeOf : (g.scopeOf g' steps.ids).Leaves
    (Saving.stays steps.refs steps.saved.found) (g'.scopeOf g' steps.ids) where
  labels := rfl
  ruleNames := by
    have hrules := (steps.relabels.annotates.trans steps.annotates_saved).rules
    rw [scopeOf, scopeOf, ruleNames, hrules, ruleNames]
  references := by
    rw [scopeOf, scopeOf, flatMap_nodesOf, flatMap_nodesOf, List.filter_flatMap, List.filter_flatMap]
    exact List.flatMap_congr fun id hid => steps.filter_referencesAt htypes hcode hid

theorem exists_ofNodes : ∃ refs', Referenced.ofNodes g'.ruleNames (g'.nodesOf steps.ids) = .ok refs' := by
  refine Referenced.exists_ofNodes_iff.2 fun key r hr => ?_
  have hother := ((steps.leaves_scopeOf htypes hcode).other?_eq_some steps.reads_scopeOf hr).1
  rw [steps.scopeOf_eq] at hother
  exact Referenced.exists_ofNodes_iff.1 ⟨steps.refs, steps.refers⟩ key r hother

/-- A node without a label is to store no value any more: no reference to it is left. -/
theorem variableOf?_unlabeled {node' : Node} (hid : id ∈ steps.ids) (hnode' : g'.node id = .ok node')
    (hlabel : node'.label = none) : (g'.scopeOf g' steps.ids).variableOf? node' = none := by
  have hleaves := steps.leaves_scopeOf htypes hcode
  obtain ⟨node, hnode, hcodeless⟩ := steps.exists_moved hid hnode'
  unfold Scope.variableOf?
  rw [hlabel]
  cases hkind : node'.kind with
  | call callee => simp [hleaves.refersTo steps.reads_scopeOf]
  | terminal set mark =>
    rw [Option.none_or]
    refine Option.eq_none_iff_forall_ne_some.2 fun value hvalue => ?_
    obtain ⟨basis, hbasis, hvalue⟩ := Option.bind_eq_some_iff.1 hvalue
    obtain ⟨r, hr, hname⟩ := Option.bind_eq_some_iff.1 hvalue
    obtain ⟨hother, hstays⟩ := hleaves.other?_eq_some steps.reads_scopeOf hr
    have hvariable : ((g.scopeOf g' steps.ids).other? basis.normalText).bind Reference.variableName? =
        some value := by rw [hother, Option.bind_some, hname]
    -- The terminal was found for the reference, which then became the variable.
    have hfoundBy := steps.reads_scopeOf.foundBy?_eq_some hkind hlabel hbasis hvariable
    rw [← Referenced.foundBy?_codeless, hcodeless, Referenced.foundBy?_codeless] at hfoundBy
    have hfound : basis.normalText ∈ steps.saved.found := by
      refine (steps.savedThrough.found _).2 ⟨id, hid, ?_⟩
      rw [foundAt?, node_eq_ok.1 hnode, Option.bind_some]
      exact hfoundBy
    have hkey : r.key = basis.normalText := (Scope.isOther_of_other? hother).2.2
    have hnone := ((Saving.stays_iff steps.reads_scopeOf).1 hstays).2.2 (hkey ▸ hfound)
    rw [hkey, hvariable] at hnone
    cases hnone
  | _ => rfl

/-- No node is to store its value any more: under a label it stores it already. -/
theorem newlyStored?_saved {refs' : Referenced} (hreads : refs'.Reads (g'.scopeOf g' steps.ids))
    {node' : Node} (hid : id ∈ steps.ids) (hnode' : g'.node id = .ok node') :
    refs'.newlyStored? node' = none ∧ refs'.foundBy? node' = none := by
  cases hlabel : node'.label with
  | none =>
    have hstored : refs'.storedIn? node' = none := by
      rw [hreads.storedIn?, steps.variableOf?_unlabeled htypes hcode hid hnode' hlabel]
    refine ⟨?_, Referenced.foundBy?_eq_none hstored⟩
    rw [Referenced.newlyStored?, hstored, ite_self]
  | some label =>
    obtain ⟨node, hnode, hcodeless⟩ := steps.exists_moved hid hnode'
    have hvariable := steps.variableOf?_scopeOf hcodeless
    rw [Scope.variableOf?_of_label hlabel (steps.labelsValue_saved hid hnode')] at hvariable
    have hsaver : node'.saver = (steps.refs.storing node).saver := (congrArg Node.saver hcodeless :)
    constructor
    · rw [Referenced.newlyStored?, hsaver, Referenced.storing, ← hvariable]
      cases node.saver <;> rfl
    · unfold Referenced.foundBy?
      rw [hlabel]
      cases node'.kind <;> rfl

/-- **Once values are saved, nothing is left to save.** -/
theorem saved_saveValues {refs' : Referenced}
    (hrefs : Referenced.ofNodes g'.ruleNames (g'.nodesOf steps.ids) = .ok refs') :
    g'.Saved steps.ids refs' := by
  have hreads : refs'.Reads (g'.scopeOf g' steps.ids) := Referenced.reads_ofNodes hrefs
  have hleaves := steps.leaves_scopeOf htypes hcode
  constructor
  case labels => exact fun id hid node hnode => steps.labelsValue_saved hid hnode
  case there =>
    intro id hid
    obtain ⟨node, hnode⟩ := node_of_walkDown steps.walks hid
    obtain ⟨node', hnode', -⟩ := steps.exists_stored hid hnode
    exact ⟨node', hnode'⟩
  case stored =>
    intro id hid node' hnode'
    exact steps.newlyStored?_saved htypes hcode hreads hid hnode'
  case left =>
    intro id hid r hr
    cases hlookahead : r.isLookahead with
    | true =>
      unfold Saving.resolve?
      simp only [hlookahead, if_true]
    | false =>
      -- The reference stayed, and nothing more is known of it the second time.
      have hstays : r ∈ (g'.referencesAt id).filter (!·.isLookahead) :=
        List.mem_filter.2 ⟨hr, by rw [hlookahead]; rfl⟩
      rw [steps.filter_referencesAt htypes hcode hid] at hstays
      obtain ⟨hunlabeled, -⟩ :=
        (Saving.stays_iff steps.reads_scopeOf).1 (List.mem_filter.1 hstays).2
      have hagain : Saving.stays refs' [] r = true := (Saving.stays_iff hreads).2
        ⟨(hleaves.isUnlabeled r).trans hunlabeled, hleaves.refersTo steps.reads_scopeOf r.key,
          fun hnone => absurd hnone List.not_mem_nil⟩
      exact Option.isNone_iff_eq_none.1 (Bool.and_eq_true_iff.1 hagain).2

end

/-! ### Messages -/

/-- What is said before references are looked at is not about references. -/
theorem filter_isDangling : events.filter Event.isDangling = steps.dangling.map fun (id, key) =>
    Event.dangling steps.replaced name id key := by
  have hlabel : DivergesFrom "Label '" "'$" := by constructor <;> decide
  have hunknown : DivergesFrom
      "The type of this expression is unknown (did you set the terminal_type option?)" "'$" := by
    constructor <;> decide
  have hmismatch : DivergesFrom "Type mismatch: Variable '" "'$" := by constructor <;> decide
  have hbefore : steps.saved.events.filter Event.isDangling = [] := by
    refine List.filter_eq_nil_iff.2 fun event hevent => Bool.eq_false_iff.1 ?_
    rcases steps.says_saved event hevent with ⟨g, id, label, node, rfl⟩ | htype
    · exact Event.not_isDangling (((hlabel.append _).append _).append _ |>.append _)
    · rcases htype with ⟨g, id⟩ | ⟨g, id, variableName, declared, expected⟩
      · exact Event.not_isDangling hunknown
      · exact Event.not_isDangling
          (((((hmismatch.append _).append _).append _).append _).append _ |>.append _)
  have hevents := congrArg (List.filter Event.isDangling) steps.tells
  rw [List.filter_append, hbefore, List.nil_append] at hevents
  rw [hevents]
  refine List.filter_eq_self.2 fun event hevent => ?_
  obtain ⟨⟨id, key⟩, -, rfl⟩ := List.mem_map.1 hevent
  exact Event.isDangling_dangling ..

end SavingSteps

/-- **Saving values again changes nothing**, and says of the references that stay what was said before. -/
theorem saveValues_again (hrule : g.rule? name = some rule)
    (hcode : ∀ id node, g.MatchedBy rule.body id → g.node id = .ok node → node.dollarsApart = true)
    {events : List Event} (h : g.saveValues name options = .ok (g', events))
    (htypes : ∀ id node, g.MatchedBy rule.body id → g'.node id = .ok node → node.saver ≠ none →
      (g'.variableTypeOf options node).LooksAhead) :
    g'.saveValues name options = .ok (g', events.filter Event.isDangling) := by
  obtain ⟨steps⟩ := exists_savingSteps h
  cases hrule.symm.trans steps.found
  have hannotates := steps.relabels.annotates.trans steps.annotates_saved
  have hrule' : g'.rule? name = some steps.rule := (rule?_of_rules hannotates.rules name).trans hrule
  have hwalk : g'.walkMatched steps.rule.body = .ok steps.ids :=
    hannotates.kinds.sameShape.shapeIn.walkDown (fun _ _ => Node.matchedChildren_of_bare)
      (Nat.succ_le_succ hannotates.kinds.sameShape.shapeIn.size) steps.walks_ids
  obtain ⟨refs', hrefs⟩ := steps.exists_ofNodes htypes hcode
  rw [(steps.saved_saveValues htypes hcode hrefs).saveValues hrule' hwalk hrefs options,
    steps.filter_isDangling]
  have hdangling := Saving.dangling_substituteAll
    (fun id hid => steps.replacedOnceAt_saved hcode hid) steps.replaces
  have hbasis : Agrees Node.basis steps.replaced g' := by
    refine ⟨fun id => ?_, (annotates_declareVariables steps.declares).rules⟩
    rw [nodes_declareVariables steps.declares, Option.map_map]
    rfl
  rw [hdangling, List.map_flatMap]
  refine congrArg (fun events => Except.ok (g', events)) (List.flatMap_congr fun id hid => ?_)
  rw [steps.filter_referencesAt htypes hcode hid, List.map_map, steps.referencesAt_saved]
  exact List.map_congr_left fun r _ => Event.atNode_of_agrees hbasis ..

end Grammar

/-- The rule `item` matches a letter. Its code refers to the letter and to something that there is not. -/
def wondering : Grammar where
  nodes := #[{ Node.ofKind (.terminal (.ofRanges [(97, 98)]) none) with
      label := some "x"
      postAction := some [.punct '$' .alone, .ident "x"] },
    { Node.ofKind (.sequence [0]) with postAction := some [.punct '$' .alone, .ident "y"] }]
  rules := [("item", .ofBody "item" 1)]

theorem wondering_saveValues_again : ∃ g' events,
    wondering.saveValues "item" .default = .ok (g', events) ∧
      g'.saveValues "item" .default = .ok (g', events.filter Event.isDangling) := by
  have hok : (wondering.saveValues "item" .default).toOption.any (fun saved =>
      saved.1.nodes.all fun node => (find (saved.1.variableTypeOf .default node)).all
        Reference.isLookahead) = true := by decide +kernel
  have hcode : ∀ node ∈ wondering.nodes, node.dollarsApart = true := by decide
  cases hrun : wondering.saveValues "item" .default with
  | error failure =>
    rw [hrun] at hok
    cases hok
  | ok saved =>
    rw [hrun] at hok
    refine ⟨saved.1, saved.2, rfl, Grammar.saveValues_again rfl
      (fun id node _ hnode => hcode node (Array.mem_of_getElem? (Grammar.node_eq_ok.1 hnode))) hrun
      fun id node _ hnode _ r hr => ?_⟩
    have hnode := Array.mem_of_getElem? (Grammar.node_eq_ok.1 hnode)
    exact List.all_eq_true.1 (Array.all_eq_true_iff_forall_mem.1 hok node hnode) r hr

/-- `$y` is reported each time. -/
example : (wondering.saveValues "item" .default).toOption.map (fun saved =>
      (saved.1.nodes.toList.map fun node => node.postAction.map Tokens.text,
        saved.2.map Event.isDangling)) =
    some ([some "x", some "$ y"], [true]) := by
  decide +kernel

/-- The value of the rule `made` has a type with a reference to the label `x` in it, which the rule `item`
has. -/
def typedByMacro : Grammar where
  nodes := #[{ Node.ofKind (.terminal (.ofRanges [(97, 98)]) none) with label := some "x" },
    { Node.ofKind (.call "made") with label := some "y" }, .ofKind (.sequence [0, 1]),
    .ofKind (.terminal (.ofRanges [(98, 99)]) none)]
  rules := [("item", .ofBody "item" 2), ("made", { Rule.ofBody "made" 3 with
    returns := some [.ident "m", .punct '!' .alone,
      .group .parenthesis [.punct '$' .alone, .ident "x"]] })]

/-- There is no code, so there are no dollar signs in it, but the declaration in front of the body changes
when values are saved again. -/
theorem typedByMacro_changes_again : (∀ node ∈ typedByMacro.nodes, node.codeBlocks = []) ∧
    ∃ once again, typedByMacro.saveValues "item" .default = .ok once ∧
      once.1.saveValues "item" .default = .ok again ∧
      (once.1.nodes[2]?.bind Node.preAction).map Tokens.text = some ("let mut x : i32 = 0 ; " ++
        "let mut y : m ! ($ x) = :: std :: default :: Default :: default () ;") ∧
      (again.1.nodes[2]?.bind Node.preAction).map Tokens.text = some ("let mut x : i32 = 0 ; " ++
        "let mut y : m ! (x) = :: std :: default :: Default :: default () ;") := by
  refine ⟨by decide, ?_⟩
  have hruns : ((typedByMacro.saveValues "item" .default).toOption.bind fun once =>
      (once.1.saveValues "item" .default).toOption.map fun again =>
        ((once.1.nodes[2]?.bind Node.preAction).map Tokens.text,
          (again.1.nodes[2]?.bind Node.preAction).map Tokens.text)) =
      some (some ("let mut x : i32 = 0 ; " ++
        "let mut y : m ! ($ x) = :: std :: default :: Default :: default () ;"),
        some ("let mut x : i32 = 0 ; " ++
        "let mut y : m ! (x) = :: std :: default :: Default :: default () ;")) := by
    decide +kernel
  obtain ⟨once, honce, hruns⟩ := Option.bind_eq_some_iff.1 hruns
  obtain ⟨again, hagain, htexts⟩ := Option.map_eq_some_iff.1 hruns
  obtain ⟨hfirst, hsecond⟩ := Prod.mk.inj htexts
  exact ⟨once, again, toOption_eq_some.1 honce, toOption_eq_some.1 hagain, hfirst, hsecond⟩

end PredictiveParser
