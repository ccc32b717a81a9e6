import PredictiveParser.Proofs.Code.Lexer
import PredictiveParser.Proofs.Failure
import PredictiveParser.Proofs.Grammar.Blank
import PredictiveParser.Proofs.Values.Labels

/-!
# Names of variables

The variable for a value has the label for a name, or one that is made from the name of a rule or from what
stands in a reference. Labels are names that may stand in code, and so is what is made from another such
name or from a literal. But a raw name keeps its mark when it is taken, and the mark may not stand inside a
name.

`RefusesOnly` tells which names a step may refuse. So saving the values of a rule refuses a name only if
code of the rule has a reference which makes it from a raw name (`namesVariables`).
-/
namespace PredictiveParser

/-! ## Names that are refused -/

/-- The fault is not about a name, or it is about one of these. -/
def Fault.Refuses (P : String → Prop) : Fault → Prop
  | .invalidName name => P name
  | _ => True

/-- The failure is an error or such a fault. -/
def Failure.Refuses {ε : Type} (P : String → Prop) : Failure ε → Prop
  | .fault cause => cause.Refuses P
  | .error _ => True

theorem Fault.Refuses.imp {P Q : String → Prop} (h : ∀ name, P name → Q name) :
    ∀ fault : Fault, fault.Refuses P → fault.Refuses Q
  | .invalidName name, hname => h name hname
  | .noSuchNode _, _ | .noSuchBranch _, _ | .endless _, _ | .unknownLiteral _, _
  | .crowdedParameters, _ => trivial

theorem Failure.Refuses.imp {ε : Type} {P Q : String → Prop} (h : ∀ name, P name → Q name) :
    ∀ failure : Failure ε, failure.Refuses P → failure.Refuses Q
  | .error _, _ => trivial
  | .fault cause, hcause => Fault.Refuses.imp h cause hcause

/-- A step that refuses a name refuses one of these. -/
abbrev RefusesOnly {α : Type} (P : String → Prop) (x : Except Fault α) : Prop :=
  FailsOnly (Fault.Refuses P) x

/-- The name may stand in code, or it is one that may be refused. -/
def Usable (P : String → Prop) (name : String) : Prop :=
  Text.isIdentifier name = true ∨ P name

section

variable {P : String → Prop} {name : String}

theorem refusesOnly_checkedName (h : Usable P name) : RefusesOnly P (checkedName name) := by
  unfold checkedName
  split
  · exact .ok name
  · rename_i hname
    exact .error (h.resolve_left hname)

/-- A lifted step refuses the same names. -/
theorem RefusesOnly.lift {ε α : Type} {x : Except Fault α} (h : RefusesOnly P x) :
    FailsOnly (Failure.Refuses P) (liftM x : Except (Failure ε) α) := by
  cases x with
  | ok a => exact .ok a
  | error cause => exact .error (h cause rfl)

theorem refusesOnly_literalVarName (spelling : String) : RefusesOnly P (literalVarName spelling) := by
  rw [literalVarName_eq]
  split
  · exact .ok _
  · exact .error trivial

theorem refusesOnly_codeVarName? (tokens : Tokens) : RefusesOnly P (codeVarName? tokens) := by
  induction tokens using codeVarName?.induct with
  | case1 n =>
    rw [codeVarName?]
    exact .ok _
  | case2 spelling =>
    rw [codeVarName?]
    exact (refusesOnly_literalVarName spelling).bind fun _ _ => .ok _
  | case3 body ih =>
    rw [codeVarName?]
    exact ih
  | case4 tokens hname hliteral hgroup =>
    rw [codeVarName?.eq_4 tokens hname hliteral hgroup]
    exact .ok _

/-- Naming the variable for a reference refuses no name. -/
theorem Reference.refusesOnly_varName? (r : Reference) : RefusesOnly P r.varName? := by
  cases r with
  | name n => exact .ok _
  | literal spelling => exact (refusesOnly_literalVarName spelling).bind fun _ _ => .ok _
  | code tokens => exact refusesOnly_codeVarName? tokens

end

/-! ## Variables of a scope -/

/-- The reference is to a rule or makes a variable from what stands in it. Either way the variable has this
name, and a raw name is a part of it. -/
def Reference.MakesFromRaw (r : Reference) (ruleNames : List String) (name : String) : Prop :=
  (∃ raw ∈ ruleNames, r.name? = some raw ∧ Text.IsRawName raw ∧ name = "got_" ++ raw) ∨
    r.TakesRaw ∧ r.varName? = .ok (some name)

namespace Scope

variable {scope : Scope} {name : String}

/-- Labels are names that may stand in code, and what stands for a name in a reference is one. -/
structure Named (scope : Scope) : Prop where
  labels : ∀ label ∈ scope.labels, Text.isIdentifier label = true
  references : ∀ r ∈ scope.references, ∀ name ∈ r.idents, Text.IsName name

/-- Some reference makes this name from a raw one. -/
def MakesFromRaw (scope : Scope) (name : String) : Prop :=
  ∃ r ∈ scope.references, r.MakesFromRaw scope.ruleNames name

theorem Named.usable_rule (h : scope.Named) {callee : String} (hrefers : scope.refersTo callee = true) :
    Usable scope.MakesFromRaw ("got_" ++ callee) := by
  obtain ⟨r, hr, hholds⟩ := List.any_eq_true.1 hrefers
  simp only [namesRule, Bool.and_eq_true, List.contains_iff_mem, beq_iff_eq] at hholds
  obtain ⟨⟨-, hname, hrule⟩, rfl⟩ := hholds
  obtain ⟨callee, hname⟩ := Option.isSome_iff_exists.1 hname
  cases r with
  | name n =>
    have hcallee : Text.IsName n := h.references _ hr n (List.mem_singleton_self n)
    rcases Classical.em (Text.IsRawName n) with hraw | hraw
    · exact Or.inr ⟨_, hr, Or.inl ⟨n, hrule, rfl, hraw, rfl⟩⟩
    · exact Or.inl ((hcallee.isIdentifier_append (by decide)).2 hraw)
  | literal spelling => cases hname
  | code tokens => cases hname

theorem Named.usable_other (h : scope.Named) {key : String} {r : Reference}
    (hother : scope.other? key = some r) (hname : r.variableName? = some name) :
    Usable scope.MakesFromRaw name := by
  have hr := List.mem_of_find?_eq_some hother
  have hvar := Reference.varName?_of_variableName? hname
  rcases Classical.em r.TakesRaw with hraw | hraw
  · exact Or.inr ⟨r, hr, Or.inr ⟨hraw, hvar⟩⟩
  · exact Or.inl ((Reference.isIdentifier_varName_iff (h.references r hr) hvar).2 hraw)

/-- The variable of a node has a usable name. -/
theorem Named.usable_variableOf? (h : scope.Named) {node : Node}
    (hlabel : ∀ label, node.label = some label → Text.isIdentifier label = true)
    (hname : scope.variableOf? node = some name) : Usable scope.MakesFromRaw name := by
  unfold variableOf? at hname
  split at hname
  · rcases Option.or_eq_some_iff.1 hname with hname | ⟨-, hname⟩
    · exact Or.inl (hlabel name hname)
    · obtain ⟨hrefers, hname⟩ := Option.ite_none_right_eq_some.1 hname
      cases hname
      exact h.usable_rule hrefers
  · rcases Option.or_eq_some_iff.1 hname with hname | ⟨-, hname⟩
    · exact Or.inl (hlabel name hname)
    · obtain ⟨basis, -, hname⟩ := Option.bind_eq_some_iff.1 hname
      obtain ⟨r, hother, hname⟩ := Option.bind_eq_some_iff.1 hname
      exact h.usable_other hother hname
  · cases hname

/-- The variable that a reference becomes has a usable name. -/
theorem Named.usable_resolve? (h : scope.Named) {refs : Referenced} (hreads : refs.Reads scope)
    {found : List String} {r : Reference} (hresolve : Saving.resolve? refs found r = some name) :
    Usable scope.MakesFromRaw name := by
  rcases Saving.resolve?_cases hresolve with ⟨rfl, hlabel⟩ | ⟨rfl, hrule⟩ | ⟨other, hfind, -, hname⟩
  · exact Or.inl (h.labels _ (hreads.labels ▸ hlabel))
  · rw [← List.contains_iff_mem, hreads.rules] at hrule
    exact h.usable_rule hrule
  · rw [hreads.others] at hfind
    obtain ⟨first, hother, rfl⟩ := Option.map_eq_some_iff.1 hfind
    exact h.usable_other hother hname

end Scope

/-! ## Walks and labels -/

namespace Grammar

variable {P : String → Prop} {g g' : Grammar} {id : NodeId} {rule : String} {events : List Event}

theorem refusesOnly_node (g : Grammar) (id : NodeId) : RefusesOnly P (g.node id) := by
  unfold node
  split
  · exact .ok _
  · exact .error trivial

theorem refusesOnly_modifyNode (g : Grammar) (id : NodeId) (f : Node → Node) :
    RefusesOnly P (g.modifyNode id f) := by
  unfold modifyNode
  split
  · exact .ok _
  · exact .error trivial

theorem refusesOnly_walkDown (g : Grammar) (below : Node → List NodeId) (depth : Nat) (id : NodeId) :
    RefusesOnly P (g.walkDown below depth id) := by
  induction depth generalizing id with
  | zero =>
    rw [walkDown]
    exact .error trivial
  | succ depth ih =>
    rw [walkDown]
    apply (refusesOnly_node g id).bind
    intro node _
    exact (FailsOnly.mapM fun child _ => ih child).bind fun _ _ => .ok _

theorem refusesOnly_passLabel (g : Grammar) (rule : String) (id : NodeId) (node : Node)
    (label : String) : RefusesOnly P (g.passLabel rule id node label) := by
  unfold passLabel
  split
  · refine FailsOnly.bind ?_ fun _ _ => .ok _
    exact FailsOnly.foldlM (I := fun _ => True)
      (fun arm _ now _ => ⟨refusesOnly_modifyNode now arm _, fun _ _ => trivial⟩) trivial
  · exact .ok _

theorem refusesOnly_moveLabel (g : Grammar) (rule : String) (id : NodeId) :
    RefusesOnly P (g.moveLabel rule id) := by
  unfold moveLabel
  apply (refusesOnly_node g id).bind
  intro node _
  split
  · exact .ok _
  · split
    · exact .ok _
    · apply (refusesOnly_passLabel g rule id node _).bind
      intro moved _
      exact (refusesOnly_modifyNode moved.1 id _).bind fun _ _ => .ok _

theorem refusesOnly_moveLabels (rule : String) (ids : List NodeId) (g : Grammar) :
    RefusesOnly P (moveLabels rule ids g) := by
  induction ids generalizing g with
  | nil => exact .ok _
  | cons id rest ih =>
    rw [moveLabels]
    apply (refusesOnly_moveLabel g rule id).bind
    intro moved _
    exact (ih moved.1).bind fun _ _ => .ok _

theorem refusesOnly_declareVariables (g : Grammar) (id : NodeId) (declared : List Declared) :
    RefusesOnly P (g.declareVariables id declared) := by
  unfold declareVariables
  split
  · exact .ok g
  · exact refusesOnly_modifyNode g id _

theorem Nodes.labeled_of_agrees (h : g.Nodes Node.Labeled) (hagrees : Agrees Node.label g g') :
    g'.Nodes Node.Labeled := by
  intro id node' hnode' label hlabel
  obtain ⟨node, hnode, hsame⟩ := hagrees.node hnode'
  exact h id node hnode label (hsame.trans hlabel)

theorem Nodes.labeled_moveLabels {ids : List NodeId} (h : g.Nodes Node.Labeled)
    (hmoves : moveLabels rule ids g = .ok (g', events)) : g'.Nodes Node.Labeled := by
  intro id node' hnode' label hlabel
  obtain ⟨source, -, hsource⟩ :=
    labelAt?_of_moveLabels hmoves ((labelAt?_of_node hnode').trans hlabel)
  obtain ⟨node, hnode, hlabel⟩ := Option.bind_eq_some_iff.1 hsource
  exact h source node (node_eq_ok.2 hnode) label hlabel

end Grammar

/-! ## Steps -/

theorem Referenced.refusesOnly_add {P : String → Prop} (ruleNames : List String) (refs : Referenced)
    (r : Reference) : RefusesOnly P (refs.add ruleNames r) := by
  unfold add
  dsimp only
  split
  · exact .ok _
  · split
    · exact .ok _
    · split
      · exact .ok _
      · exact r.refusesOnly_varName?.bind fun _ _ => .ok _

theorem Referenced.refusesOnly_ofNodes {P : String → Prop} (ruleNames : List String) (nodes : List Node) :
    RefusesOnly P (ofNodes ruleNames nodes) :=
  FailsOnly.foldlM (I := fun _ => True)
    (fun r _ refs _ => ⟨refusesOnly_add ruleNames refs r, fun _ _ => trivial⟩) trivial

namespace Saving

variable {P : String → Prop} {scope : Scope} {saving : Saving} {refs : Referenced} {rule name : String}
  {options : Options} {id : NodeId} {found : List String}

theorem refusesOnly_store {node : Node} {type : Option Tokens} (h : Usable P name) :
    RefusesOnly P (saving.store rule options id node name type) := by
  unfold store
  split
  · exact .ok saving
  · apply (refusesOnly_checkedName h).bind
    intro name _
    exact (Grammar.refusesOnly_modifyNode _ id _).bind fun _ _ => .ok _

theorem refusesOnly_saveNode (h : ∀ node name, saving.grammar.node id = .ok node →
    refs.storedIn? node = some name → Usable P name) :
    RefusesOnly P (saveNode refs rule options saving id) := by
  rw [saveNode_eq]
  apply (Grammar.refusesOnly_node saving.grammar id).bind
  intro node hnode
  cases hname : refs.storedIn? node with
  | none => exact .ok saving
  | some name => exact refusesOnly_store (h node name hnode hname)

/-- Labels stay where they are when values are saved, so every node has a usable name to store its value
under. -/
theorem failsOnly_saveNodes (hscope : scope.Named) (hreads : refs.Reads scope)
    (hlabels : saving.grammar.Nodes Node.Labeled) (rule : String) (options : Options) (ids : List NodeId) :
    FailsOnly (Failure.Refuses scope.MakesFromRaw) (ids.foldlM (fun saving id =>
      (saveNode refs rule options saving id : Except (Failure GenerationError) Saving)) saving) := by
  refine FailsOnly.foldlM (I := fun now : Saving => now.grammar.Nodes Node.Labeled) ?_ hlabels
  intro id _ now hnow
  refine ⟨RefusesOnly.lift (refusesOnly_saveNode fun node name hnode hname => ?_), fun next hnext => ?_⟩
  · rw [hreads.storedIn?] at hname
    exact hscope.usable_variableOf? (hnow id node hnode) hname
  · exact hnow.labeled_of_agrees (agrees_saveNode (fun _ _ => rfl) (liftM_eq_ok.1 hnext))

section

variable (h : ∀ r name, resolve? refs found r = some name → Usable P name)
include h

theorem refusesOnly_substituteCode (code : Tokens) : RefusesOnly P (substituteCode refs found code) := by
  rw [substituteCode_eq]
  refine FailsOnly.bind (FailsOnly.mapM fun name hname => ?_) fun _ _ => .ok _
  obtain ⟨r, -, hresolve⟩ := List.mem_filterMap.1 hname
  exact refusesOnly_checkedName (h r name hresolve)

theorem refusesOnly_substituteOption (code : Option Tokens) :
    RefusesOnly P (substituteOption refs found code) := by
  cases code with
  | none => exact .ok _
  | some code => exact (refusesOnly_substituteCode h code).bind fun _ _ => .ok _

theorem refusesOnly_substituteKind (kind : NodeKind) : RefusesOnly P (substituteKind refs found kind) := by
  unfold substituteKind
  split
  · exact (refusesOnly_substituteCode h _).bind fun _ _ => .ok _
  · exact .ok _

theorem refusesOnly_substituteNode (g : Grammar) (id : NodeId) :
    RefusesOnly P (substituteNode refs found g id) := by
  unfold substituteNode
  apply (Grammar.refusesOnly_node g id).bind
  intro node _
  apply (refusesOnly_substituteOption h node.preAction).bind
  intro pre _
  apply (refusesOnly_substituteOption h node.postAction).bind
  intro post _
  apply (refusesOnly_substituteKind h node.kind).bind
  intro kind _
  exact (Grammar.refusesOnly_modifyNode g id _).bind fun _ _ => .ok _

theorem refusesOnly_substituteAll (ids : List NodeId) (g : Grammar) :
    RefusesOnly P (substituteAll refs found ids g) := by
  induction ids generalizing g with
  | nil => exact .ok _
  | cons id rest ih =>
    rw [substituteAll]
    apply (refusesOnly_substituteNode h g id).bind
    intro replaced _
    exact (ih replaced.1).bind fun _ _ => .ok _

end

end Saving

/-! ## Saving values -/

namespace Grammar

variable {g : Grammar} {name : String}

/-- Labels are names that may stand in code, as those which the builders accept (`Built.labeled`), and what
stands for a name in code is one, as in code that was read (`Tokens.named_lex`). -/
structure WellNamed (g : Grammar) : Prop where
  labels : g.Nodes Node.Labeled
  code : g.Nodes fun node => ∀ code ∈ node.codeBlocks, Tokens.Named code

/-- Code of the rule has a reference that makes this name from a raw one. -/
def MakesFromRaw (g : Grammar) (rule : String) (name : String) : Prop :=
  ∃ found, g.rule? rule = some found ∧ ∃ id node, g.MatchedBy found.body id ∧ g.node id = .ok node ∧
    ∃ r ∈ node.references, r.MakesFromRaw g.ruleNames name

section

variable {body : NodeId} {first ids : List NodeId} {moved : Grammar} {messages : List Event}
  {nodes : List Node} (hmoves : moveLabels name first g = .ok (moved, messages))
  (hids : moved.walkMatched body = .ok ids) (hnodes : ids.mapM moved.node = .ok nodes)
include hmoves hids hnodes

/-- Code stays where it is when labels move. -/
theorem exists_matched_of_mem_references {r : Reference} (hr : r ∈ nodes.flatMap Node.references) :
    ∃ id node, g.MatchedBy body id ∧ g.node id = .ok node ∧ r ∈ node.references := by
  obtain ⟨node', hnode', hr⟩ := List.mem_flatMap.1 hr
  obtain ⟨id, hid, hnode'⟩ := Forall₂.exists_of_mem_right (mapM_eq_ok.1 hnodes) hnode'
  obtain ⟨node, hnode, hsame⟩ :=
    (agrees_moveLabels (f := Node.references) (fun _ _ _ => rfl) hmoves).node hnode'
  have hshape := (relabels_moveLabels hmoves).annotates.kinds.sameShape
  exact ⟨id, node, hshape.symm.matchedBy ((mem_walkDown hids).1 hid), hnode, hsame ▸ hr⟩

theorem makesFromRaw_of_scope {rule : Rule} {made : String} (hrule : g.rule? name = some rule)
    (hbody : rule.body = body) (h : Scope.MakesFromRaw
      ⟨nodes.filterMap (·.label), moved.ruleNames, nodes.flatMap Node.references⟩ made) :
    g.MakesFromRaw name made := by
  obtain ⟨r, hr, hmakes⟩ := h
  obtain ⟨id, node, hmatched, hnode, hr⟩ := exists_matched_of_mem_references hmoves hids hnodes hr
  have hrules : moved.ruleNames = g.ruleNames := by
    rw [ruleNames, ruleNames, (relabels_moveLabels hmoves).rules]
  exact ⟨rule, hrule, id, node, hbody ▸ hmatched, hnode, r, hr, hrules ▸ hmakes⟩

theorem WellNamed.scope (hg : g.WellNamed) :
    Scope.Named ⟨nodes.filterMap (·.label), moved.ruleNames, nodes.flatMap Node.references⟩ where
  labels label hlabel := by
    obtain ⟨node, hnode, hlabel⟩ := List.mem_filterMap.1 hlabel
    obtain ⟨id, -, hnode⟩ := Forall₂.exists_of_mem_right (mapM_eq_ok.1 hnodes) hnode
    exact hg.labels.labeled_moveLabels hmoves id node hnode label hlabel
  references r hr := by
    obtain ⟨id, node, -, hnode, hr⟩ := exists_matched_of_mem_references hmoves hids hnodes hr
    obtain ⟨code, hcode, hr⟩ := List.mem_flatMap.1 hr
    exact fun name hname => hg.code id node hnode code hcode name
      (References.mem_idents_of_find code r hr name hname)

end

/-- **What saving the values of a rule refuses** is made from a raw name. -/
theorem failsOnly_saveValues (hg : g.WellNamed) (name : String) (options : Options) :
    FailsOnly (Failure.Refuses (g.MakesFromRaw name)) (g.saveValues name options) := by
  unfold saveValues
  split
  · exact .error trivial
  · rename_i rule hrule
    apply (refusesOnly_walkDown g _ _ rule.body).lift.bind
    intro first hfirst
    apply (refusesOnly_moveLabels name first g).lift.bind
    rintro ⟨moved, messages⟩ hmoves
    apply (refusesOnly_walkDown moved _ _ rule.body).lift.bind
    intro ids hids
    apply (FailsOnly.mapM fun id _ => (refusesOnly_node moved id).lift).bind
    intro nodes hnodes
    apply (Referenced.refusesOnly_ofNodes moved.ruleNames nodes).lift.bind
    intro refs hrefs
    have hmoves := liftM_eq_ok.1 hmoves
    have hids := liftM_eq_ok.1 hids
    have hnodes : ids.mapM moved.node = .ok nodes :=
      mapM_eq_ok.2 ((mapM_eq_ok.1 hnodes).imp fun _ _ => liftM_eq_ok.1)
    have hreads := Referenced.reads_ofNodes (liftM_eq_ok.1 hrefs)
    have hscope := hg.scope hmoves hids hnodes
    refine FailsOnly.imp (Failure.Refuses.imp fun _ =>
      makesFromRaw_of_scope hmoves hids hnodes hrule rfl) ?_
    apply (Saving.failsOnly_saveNodes hscope hreads
      (hg.labels.labeled_moveLabels hmoves) name options ids).bind
    intro saved _
    apply (Saving.refusesOnly_substituteAll (fun _ _ => hscope.usable_resolve? hreads) ids
      saved.grammar).lift.bind
    intro replaced _
    exact (refusesOnly_declareVariables replaced.1 rule.body saved.declared).lift.bind fun _ _ => .ok _

/-! ## All names -/

/-- The variable for a reference in code, and for the value of a rule, has a name that may stand in code,
unless a raw name is taken for it. Saving the values of a rule refuses no other name. -/
structure NamesVariables (g : Grammar) : Prop where
  references : ∀ code r name, Tokens.Named code → r ∈ References.find code →
    r.varName? = .ok (some name) → (Text.isIdentifier name = true ↔ ¬ r.TakesRaw)
  read : ∀ source code r name, Tokens.lex source = some code → r ∈ References.find code →
    r.varName? = .ok (some name) → (Text.isIdentifier name = true ↔ ¬ r.TakesRaw)
  rules : ∀ rule, Text.IsName rule →
    (Text.isIdentifier ("got_" ++ rule) = true ↔ ¬ Text.IsRawName rule)
  refused : ∀ rule options name, g.saveValues rule options = .error (.fault (.invalidName name)) →
    g.MakesFromRaw rule name

theorem isIdentifier_varName_of_mem_find {code : Tokens} {r : Reference} (hcode : Tokens.Named code)
    (hr : r ∈ References.find code) (hname : r.varName? = .ok (some name)) :
    Text.isIdentifier name = true ↔ ¬ r.TakesRaw := by
  refine Reference.isIdentifier_varName_iff (fun taken htaken => hcode taken ?_) hname
  exact References.mem_idents_of_find code r hr taken htaken

/-- **Variables have names that may stand in code**, unless raw names are taken for them. -/
theorem namesVariables (hg : g.WellNamed) : g.NamesVariables where
  references _ _ _ hcode hr hname := isIdentifier_varName_of_mem_find hcode hr hname
  read _ _ _ _ hlex hr hname := isIdentifier_varName_of_mem_find (Tokens.named_lex hlex) hr hname
  rules _ hrule := hrule.isIdentifier_append (by decide)
  refused rule options name h := failsOnly_saveValues hg rule options _ h

end Grammar

/-- The rule `item` calls a rule with a raw name, and its code refers to the value of this rule. -/
def calledRawly : Grammar where
  nodes := #[.ofKind (.terminal (.ofRanges [(97, 98)]) none),
    { Node.ofKind (.call "r#type") with postAction := some [.punct '$' .alone, .ident "r#type"] }]
  rules := [("r#type", .ofBody "r#type" 0), ("item", .ofBody "item" 1)]

theorem wellNamed_calledRawly : calledRawly.WellNamed := by
  have hnode : ∀ id node, calledRawly.node id = .ok node → node.label = none ∧
      ∀ code ∈ node.codeBlocks, code = [.punct '$' .alone, .ident "r#type"] := by
    intro id node hnode
    rw [Grammar.node_eq_ok] at hnode
    match id with
    | 0 =>
      cases hnode
      exact ⟨rfl, nofun⟩
    | 1 =>
      cases hnode
      exact ⟨rfl, fun _ => List.mem_singleton.1⟩
    | _ + 2 => cases hnode
  constructor
  case labels =>
    intro id node h label hlabel
    cases (hnode id node h).1.symm.trans hlabel
  case code =>
    intro id node h code hcode name hname
    rw [(hnode id node h).2 code hcode, Tokens.idents_cons, Tokens.idents_cons] at hname
    simp only [Token.idents, Tokens.idents_nil, List.nil_append, List.append_nil,
      List.mem_singleton] at hname
    exact hname ▸ Or.inr ⟨"type", by decide, by decide⟩

theorem calledRawly_namesVariables : calledRawly.WellNamed ∧
    calledRawly.saveValues "item" .default = .error (.fault (.invalidName "got_r#type")) ∧
    calledRawly.MakesFromRaw "item" "got_r#type" := by
  have hfails : calledRawly.saveValues "item" .default = .error (.fault (.invalidName "got_r#type")) :=
    failure?_eq_some.1 (by decide +kernel)
  exact ⟨wellNamed_calledRawly, hfails,
    (Grammar.namesVariables wellNamed_calledRawly).refused "item" .default _ hfails⟩

end PredictiveParser
