import PredictiveParser.Proofs.Code.Lockstep
import PredictiveParser.Proofs.Grammar.Shape
import PredictiveParser.Proofs.Text.Names
import PredictiveParser.Values.Save

/-!
# Saving values leaves the kinds of nodes alone

Saving the values of a rule moves labels, lets nodes store their values, and rewrites actions and the
code of checks. The first two touch labels and variables only (`Relabels`), and none of this changes
what a node is (`annotates_saveValues`).

Each function is told by what it can do: a node that has its turn stores its value or nothing happens
(`saveNode_eq`, `saveNode_cases`), and a reference becomes one of three kinds of variables
(`resolve?_cases`). `SavingSteps` holds the results of all steps of a run.
-/
namespace PredictiveParser

/-- The node without its label and without the variable for its value. -/
def Node.unlabeled (node : Node) : Node :=
  { node with label := none, isList := false, saver := none }

namespace Grammar

variable {g g' g'' : Grammar} {id : NodeId}

/-- What `f` reads of the nodes is the same in both grammars, and so are the rules. -/
structure Agrees {α : Type} (f : Node → α) (g g' : Grammar) : Prop where
  nodes : ∀ id : NodeId, g'.nodes[id]?.map f = g.nodes[id]?.map f
  rules : g'.rules = g.rules

/-- Only labels and variables differ. -/
abbrev Relabels (g g' : Grammar) : Prop := Agrees Node.unlabeled g g'

variable {α : Type} {f : Node → α}

theorem Agrees.refl (f : Node → α) (g : Grammar) : Agrees f g g := ⟨fun _ => rfl, rfl⟩

theorem Agrees.trans (h : Agrees f g g') (h' : Agrees f g' g'') : Agrees f g g'' :=
  ⟨fun id => (h'.nodes id).trans (h.nodes id), h'.rules.trans h.rules⟩

theorem Agrees.symm (h : Agrees f g g') : Agrees f g' g := ⟨fun id => (h.nodes id).symm, h.rules.symm⟩

theorem Agrees.comp {β : Type} (h : Agrees f g g') (k : α → β) : Agrees (k ∘ f) g g' where
  nodes id := by rw [← Option.map_map, ← Option.map_map, h.nodes]
  rules := h.rules

theorem Agrees.node (h : Agrees f g g') {node' : Node} (hnode' : g'.node id = .ok node') :
    ∃ node, g.node id = .ok node ∧ f node = f node' := by
  have hsame := h.nodes id
  rw [node_eq_ok.1 hnode'] at hsame
  obtain ⟨node, hnode, heq⟩ := Option.map_eq_some_iff.1 hsame.symm
  exact ⟨node, node_eq_ok.2 hnode, heq⟩

theorem agrees_modifyNode {change : Node → Node} (h : g.modifyNode id change = .ok g')
    (hf : ∀ node, f (change node) = f node) : Agrees f g g' := by
  obtain ⟨hrules, hnodes⟩ := modifyNode_eq_ok h
  refine ⟨fun other => ?_, hrules⟩
  rw [hnodes]
  split
  · rw [Option.map_map]
    exact congrFun (congrArg Option.map (funext hf)) _
  · rfl

theorem Agrees.kindAt? (h : g.Relabels g') (id : NodeId) : g'.kindAt? id = g.kindAt? id :=
  (h.comp Node.kind).nodes id

theorem Agrees.annotates (h : g.Relabels g') : g.Annotates g' :=
  ⟨fun id => by rw [h.kindAt? id], h.rules⟩

/-! ## Labels -/

section

variable {rule label : String} {node : Node} {events : List Event}
  (hf : ∀ (node : Node) (label : Option String) (isList : Bool), f { node with label, isList } = f node)

include hf

theorem agrees_passLabel (h : g.passLabel rule id node label = .ok (g', events)) :
    Agrees f g g' := by
  unfold passLabel at h
  split at h
  · obtain ⟨g₁, hg₁, h⟩ := bind_eq_ok.1 h
    cases pure_eq_ok.1 h
    refine foldlM_invariant (P := fun current => Agrees f g current) ?_ (.refl f g) hg₁
    intro arm _ g₁ g₂ hone hstep
    exact hone.trans (agrees_modifyNode hstep fun old => hf old _ _)
  · cases pure_eq_ok.1 h
    exact .refl f _

theorem agrees_moveLabel (h : g.moveLabel rule id = .ok (g', events)) : Agrees f g g' := by
  unfold moveLabel at h
  obtain ⟨node, -, h⟩ := bind_eq_ok.1 h
  split at h
  · cases pure_eq_ok.1 h
    exact .refl f g
  · split at h
    · cases pure_eq_ok.1 h
      exact .refl f g
    · obtain ⟨⟨g₁, events₁⟩, hpass, h⟩ := bind_eq_ok.1 h
      obtain ⟨g₂, hg₂, h⟩ := bind_eq_ok.1 h
      cases pure_eq_ok.1 h
      exact (agrees_passLabel hf hpass).trans (agrees_modifyNode hg₂ fun old => hf old none old.isList)

/-- What does not depend on labels stays the same when they move. -/
theorem agrees_moveLabels {ids : List NodeId} (h : moveLabels rule ids g = .ok (g', events)) :
    Agrees f g g' := by
  induction ids generalizing g events with
  | nil =>
    cases pure_eq_ok.1 h
    exact .refl f _
  | cons id rest ih =>
    rw [moveLabels] at h
    obtain ⟨⟨g₁, events₁⟩, hfirst, h⟩ := bind_eq_ok.1 h
    obtain ⟨⟨g₂, events₂⟩, hrest, h⟩ := bind_eq_ok.1 h
    cases pure_eq_ok.1 h
    exact (agrees_moveLabel hf hfirst).trans (ih hrest)

end

theorem relabels_moveLabel {rule : String} {events : List Event}
    (h : g.moveLabel rule id = .ok (g', events)) : g.Relabels g' :=
  agrees_moveLabel (fun _ _ _ => rfl) h

theorem relabels_moveLabels {rule : String} {ids : List NodeId} {events : List Event}
    (h : moveLabels rule ids g = .ok (g', events)) : g.Relabels g' :=
  agrees_moveLabels (fun _ _ _ => rfl) h

end Grammar

/-! ## Variables -/

theorem Declared.mem_insert {new declared : Declared} {others : List Declared} :
    declared ∈ new.insert others ↔ declared = new ∨ declared ∈ others := by
  induction others with
  | nil => simp [Declared.insert]
  | cons other rest ih =>
    rw [Declared.insert]
    split
    · exact List.mem_cons
    · rw [List.mem_cons, ih, List.mem_cons]
      exact or_left_comm

/-- The variable in which the value of a node is stored, if it is. -/
def Referenced.storedIn? (refs : Referenced) (node : Node) : Option String :=
  match node.kind with
  | .call callee =>
    node.label.or (if refs.rules.contains callee then some ("got_" ++ callee) else none)
  | .terminal .. => node.label.or ((node.basis.bind refs.variableFor?).bind (·.varName?))
  | _ => none

/-- The key of the references for which the node is a terminal. -/
def Referenced.foundBy? (refs : Referenced) (node : Node) : Option String :=
  match node.kind, node.label with
  | .terminal .., none =>
    match node.basis.bind refs.variableFor? with
    | some ⟨key, some _⟩ => some key
    | _ => none
  | _, _ => none

def Grammar.valueType? (g : Grammar) (options : Options) (node : Node) : Option Tokens :=
  match node.kind with
  | .call callee => Saving.ruleType? g callee
  | .terminal .. => options.terminalType
  | _ => none

theorem Grammar.valueType?_of_rules {g g' : Grammar} (h : g'.rules = g.rules) (options : Options)
    (node : Node) : g'.valueType? options node = g.valueType? options node := by
  have hrule : ∀ callee, Saving.ruleType? g' callee = Saving.ruleType? g callee := fun callee => by
    rw [Saving.ruleType?, rule?_of_rules h, Saving.ruleType?]
  unfold valueType?
  simp only [hrule]

namespace Saving

variable {saving saving' : Saving} {refs : Referenced} {rule : String} {options : Options}
  {id : NodeId}

theorem grammar_declareAs (saving : Saving) (rule : String) (id : NodeId) (name : String)
    (type init : Tokens) : (saving.declareAs rule id name type init).grammar = saving.grammar := by
  unfold declareAs
  simp only
  split
  · rfl
  · split <;> rfl

theorem grammar_orUnknown (saving : Saving) (rule : String) (id : NodeId) (type : Option Tokens) :
    (saving.orUnknown rule id type).1.grammar = saving.grammar := by
  unfold orUnknown
  split <;> rfl

/-- A node that stores its value gets the variable for it, and nothing else changes. -/
theorem grammar_store {node : Node} {name : String} {type : Option Tokens}
    (h : saving.store rule options id node name type = .ok saving') :
    saving'.grammar = saving.grammar ∨ ∃ saver,
      saving.grammar.modifyNode id ({ · with saver := some saver }) = .ok saving'.grammar := by
  unfold store at h
  split at h
  · cases pure_eq_ok.1 h
    exact Or.inl rfl
  · obtain ⟨name', -, h⟩ := bind_eq_ok.1 h
    obtain ⟨g, hg, h⟩ := bind_eq_ok.1 h
    cases pure_eq_ok.1 h
    have hunknown := grammar_orUnknown saving rule id type
    unfold orUnknown at hunknown
    rw [grammar_declareAs, hunknown] at hg
    exact Or.inr ⟨_, hg⟩

/-- A node has its turn: it stores its value where it is to be stored. -/
theorem saveNode_eq (refs : Referenced) (rule : String) (options : Options) (saving : Saving)
    (id : NodeId) : saveNode refs rule options saving id = (do
      let node ← saving.grammar.node id
      match refs.storedIn? node with
      | none => return saving
      | some name =>
        store { saving with found := (refs.foundBy? node).toList ++ saving.found } rule options id
          node name (saving.grammar.valueType? options node)) := by
  unfold saveNode
  refine congrArg _ (funext fun node => ?_)
  unfold Referenced.storedIn? Referenced.foundBy? Grammar.valueType?
  cases node.kind with
  | call callee =>
    cases node.label with
    | some label => rfl
    | none =>
      simp only [Option.none_or]
      split <;> rfl
  | terminal set mark =>
    cases node.label with
    | some label => rfl
    | none =>
      rcases node.basis.bind refs.variableFor? with _ | ⟨key, _ | name⟩ <;> rfl
  | _ => rfl

/-- A node that has its turn stores its value, or nothing happens. -/
theorem saveNode_cases (h : saveNode refs rule options saving id = .ok saving') :
    saving' = saving ∨ ∃ node name found, saving.grammar.node id = .ok node ∧
      store { saving with found } rule options id node name
        (saving.grammar.valueType? options node) = .ok saving' := by
  rw [saveNode_eq] at h
  obtain ⟨node, hnode, h⟩ := bind_eq_ok.1 h
  cases hname : refs.storedIn? node with
  | none =>
    rw [hname] at h
    exact Or.inl (pure_eq_ok.1 h).symm
  | some name =>
    rw [hname] at h
    exact Or.inr ⟨node, name, _, hnode, h⟩

theorem grammar_saveNode (h : saveNode refs rule options saving id = .ok saving') :
    saving'.grammar = saving.grammar ∨ ∃ saver,
      saving.grammar.modifyNode id ({ · with saver := some saver }) = .ok saving'.grammar := by
  rcases saveNode_cases h with rfl | ⟨node, name, found, -, hstore⟩
  · exact Or.inl rfl
  · have hgrammar := grammar_store hstore
    exact hgrammar

section

variable {α : Type} {f : Node → α}
  (hf : ∀ (node : Node) (saver : Option Saver), f { node with saver } = f node)

include hf

theorem agrees_saveNode (h : saveNode refs rule options saving id = .ok saving') :
    Grammar.Agrees f saving.grammar saving'.grammar := by
  rcases grammar_saveNode h with hsame | ⟨saver, hmodify⟩
  · rw [hsame]
    exact .refl f _
  · exact Grammar.agrees_modifyNode hmodify fun node => hf node _

/-- What does not depend on variables stays the same when values are saved. -/
theorem agrees_saveNodes {ids : List NodeId} (h : ids.foldlM (fun saving id =>
      (saveNode refs rule options saving id : Except (Failure GenerationError) Saving)) saving =
        .ok saving') : Grammar.Agrees f saving.grammar saving'.grammar := by
  refine foldlM_invariant
    (P := fun current : Saving => Grammar.Agrees f saving.grammar current.grammar) ?_ (.refl f _) h
  intro id _ current next hone hstep
  exact hone.trans (agrees_saveNode hf (liftM_eq_ok.1 hstep))

end

theorem relabels_saveNodes {ids : List NodeId} (h : ids.foldlM (fun saving id =>
      (saveNode refs rule options saving id : Except (Failure GenerationError) Saving)) saving =
        .ok saving') : saving.grammar.Relabels saving'.grammar :=
  agrees_saveNodes (fun _ _ => rfl) h

/-! ## References -/

section

open Template

variable {found : List String} {reference : Reference}

theorem run_substitute_of_some {name : String} (h : resolve? refs found reference = some name)
    (keys : List String) : (substitute refs found reference).run keys = do
      let name ← checkedName name
      return (some (word name), keys) := by
  rw [substitute, h]
  cases hname : checkedName name <;> simp [hname]

theorem run_substitute_of_none (h : resolve? refs found reference = none) (keys : List String) :
    (substitute refs found reference).run keys =
      pure (none, if reference.isLookahead then keys else keys ++ [reference.key]) := by
  rw [substitute, h]
  cases reference.isLookahead <;> rfl

/-- The variables of all references, and behind the keys noted before the keys of those that stay. -/
theorem run_mapM_substitute (references : List Reference) (keys : List String) :
    (references.mapM (substitute refs found)).run keys = do
      let _ ← (references.filterMap (resolve? refs found)).mapM checkedName
      return (references.map fun r => (resolve? refs found r).map word,
        keys ++ (references.filter fun r => !r.isLookahead && (resolve? refs found r).isNone).map
          Reference.key) := by
  induction references generalizing keys with
  | nil => simp
  | cons r rest ih =>
    simp only [List.mapM_cons, StateT.run_bind]
    cases hr : resolve? refs found r with
    | some name =>
      rw [run_substitute_of_some hr]
      rcases checkedName_cases name with hname | ⟨fault, hname⟩
      · simp [hr, hname, ih]
      · simp only [List.filterMap_cons, hr, List.mapM_cons, hname]
        rfl
    | none =>
      rw [run_substitute_of_none hr]
      cases hahead : r.isLookahead <;> simp [hr, ih, hahead]

/-- Replacing the references of a code block finds them, replaces them, and tells which of them stay. -/
theorem substituteCode_eq (refs : Referenced) (found : List String) (code : Tokens) :
    substituteCode refs found code = do
      let references := References.find code
      let _ ← (references.filterMap (resolve? refs found)).mapM checkedName
      let dangling := references.filter fun reference =>
        !reference.isLookahead && (resolve? refs found reference).isNone
      return (References.replace (fun r => (resolve? refs found r).map word) code,
        dangling.map Reference.key) := by
  rw [substituteCode, References.replaceM_eq_fill, StateT.run_map, run_mapM_substitute,
    References.replace_eq_fill]
  simp

end

/-- The code of a check is rewritten, and a kind without code stays. -/
theorem substituteKind_cases {found : List String} {kind kind' : NodeKind} {keys : List String}
    (h : substituteKind refs found kind = .ok (kind', keys)) :
    (∃ negate code mark code', substituteCode refs found code = .ok (code', keys) ∧
        kind = .check ⟨negate, .code code, mark⟩ ∧ kind' = .check ⟨negate, .code code', mark⟩) ∨
      kind.expression? = none ∧ kind' = kind ∧ keys = [] := by
  unfold substituteKind at h
  split at h
  · obtain ⟨⟨code', dangling⟩, hcode, h⟩ := bind_eq_ok.1 h
    cases pure_eq_ok.1 h
    exact Or.inl ⟨_, _, _, code', hcode, rfl, rfl⟩
  · rename_i hkind
    cases pure_eq_ok.1 h
    refine Or.inr ⟨?_, rfl, rfl⟩
    unfold NodeKind.expression?
    split
    · exact (hkind _ _ _ rfl).elim
    · rfl

theorem textless_substituteKind {found : List String} {kind kind' : NodeKind} {keys : List String}
    (h : substituteKind refs found kind = .ok (kind', keys)) : kind'.textless = kind.textless := by
  rcases substituteKind_cases h with ⟨_, _, _, _, -, rfl, rfl⟩ | ⟨-, rfl, -⟩ <;> rfl

/-- What a reference becomes is a label, the variable for the value of a rule, or that for a terminal
which was found. -/
theorem resolve?_cases {found : List String} {reference : Reference} {name : String}
    (h : resolve? refs found reference = some name) :
    name = reference.key ∧ reference.key ∈ refs.labels ∨
      name = "got_" ++ reference.key ∧ reference.key ∈ refs.rules ∨
        ∃ other, refs.others.find? (·.key == reference.key) = some other ∧ reference.key ∈ found ∧
          other.varName? = some name := by
  unfold resolve? at h
  simp only [List.contains_iff_mem] at h
  split at h
  · cases h
  · split at h
    · rename_i hlabel
      exact Or.inl ⟨(Option.some.inj h).symm, hlabel⟩
    · split at h
      · rename_i hrule
        exact Or.inr (Or.inl ⟨(Option.some.inj h).symm, hrule⟩)
      · split at h
        · rename_i other hother
          split at h
          · rename_i hfound
            exact Or.inr (Or.inr ⟨other, hother, hfound, h⟩)
          · cases h
        · cases h

/-- A node whose references are replaced keeps all but its code. -/
theorem substituteNode_eq_ok {found : List String} {g g' : Grammar} {keys : List String}
    (h : substituteNode refs found g id = .ok (g', keys)) :
    ∃ node preAction first postAction second kind third, g.node id = .ok node ∧
      substituteOption refs found node.preAction = .ok (preAction, first) ∧
      substituteOption refs found node.postAction = .ok (postAction, second) ∧
      substituteKind refs found node.kind = .ok (kind, third) ∧ keys = first ++ second ++ third ∧
      g.modifyNode id ({ · with kind, preAction, postAction }) = .ok g' := by
  unfold substituteNode at h
  obtain ⟨node, hnode, h⟩ := bind_eq_ok.1 h
  obtain ⟨⟨preAction, first⟩, hpre, h⟩ := bind_eq_ok.1 h
  obtain ⟨⟨postAction, second⟩, hpost, h⟩ := bind_eq_ok.1 h
  obtain ⟨⟨kind, third⟩, hkind, h⟩ := bind_eq_ok.1 h
  obtain ⟨g₁, hg₁, h⟩ := bind_eq_ok.1 h
  cases pure_eq_ok.1 h
  exact ⟨node, preAction, first, postAction, second, kind, third, hnode, hpre, hpost, hkind, rfl, hg₁⟩

theorem annotates_substituteNode {found : List String} {g g' : Grammar} {keys : List String}
    (h : substituteNode refs found g id = .ok (g', keys)) : g.Annotates g' := by
  obtain ⟨node, pre, _, post, _, kind, third, hnode, -, -, hkind, -, hmodify⟩ := substituteNode_eq_ok h
  refine Grammar.annotates_modifyNode hmodify fun node' hnode' => ?_
  cases hnode.symm.trans hnode'
  exact textless_substituteKind hkind

theorem annotates_substituteAll {found : List String} {ids : List NodeId} {g g' : Grammar}
    {dangling : List (NodeId × String)}
    (h : substituteAll refs found ids g = .ok (g', dangling)) : g.Annotates g' := by
  induction ids generalizing g dangling with
  | nil =>
    cases pure_eq_ok.1 h
    exact .refl _
  | cons id rest ih =>
    rw [substituteAll] at h
    obtain ⟨⟨g₁, keys⟩, hfirst, h⟩ := bind_eq_ok.1 h
    obtain ⟨⟨g₂, more⟩, hrest, h⟩ := bind_eq_ok.1 h
    cases pure_eq_ok.1 h
    exact (annotates_substituteNode hfirst).trans (ih hrest)

end Saving

theorem Grammar.annotates_declareVariables {g g' : Grammar} {id : NodeId} {declared : List Declared}
    (h : g.declareVariables id declared = .ok g') : g.Annotates g' := by
  unfold declareVariables at h
  split at h
  · cases h
    exact .refl _
  · exact annotates_modifyNode h fun _ _ => rfl

namespace Grammar

variable {g g' : Grammar} {name : String} {options : Options} {events : List Event}

/-- The steps by which the values of a rule are saved: labels move, nodes store their values, references
become variables, and the variables are declared. -/
structure SavingSteps (g : Grammar) (name : String) (options : Options) (g' : Grammar)
    (events : List Event) where
  rule : Rule
  first : List NodeId
  moved : Grammar
  messages : List Event
  ids : List NodeId
  nodes : List Node
  refs : Referenced
  saved : Saving
  replaced : Grammar
  dangling : List (NodeId × String)
  found : g.rule? name = some rule
  walksFirst : g.walkMatched rule.body = .ok first
  moves : moveLabels name first g = .ok (moved, messages)
  walks : moved.walkMatched rule.body = .ok ids
  reads : ids.mapM moved.node = .ok nodes
  refers : Referenced.ofNodes moved.ruleNames nodes = .ok refs
  saves : ids.foldlM (fun saving id =>
    (Saving.saveNode refs name options saving id : Except (Failure GenerationError) Saving))
      ⟨moved, messages, [], []⟩ = .ok saved
  replaces : Saving.substituteAll refs saved.found ids saved.grammar = .ok (replaced, dangling)
  declares : replaced.declareVariables rule.body saved.declared = .ok g'
  /-- Each reference that stays is reported. -/
  tells : events = saved.events ++ dangling.map fun (id, key) => Event.atNode replaced .error name id
    ("'$" ++ key ++ "' does not refer to a label, a rule or anything this rule matches.")

theorem exists_savingSteps (h : g.saveValues name options = .ok (g', events)) :
    Nonempty (SavingSteps g name options g' events) := by
  unfold saveValues at h
  split at h
  · cases h
  · rename_i rule hrule
    obtain ⟨first, hfirst, h⟩ := bind_eq_ok.1 h
    obtain ⟨⟨moved, messages⟩, hmoved, h⟩ := bind_eq_ok.1 h
    obtain ⟨ids, hids, h⟩ := bind_eq_ok.1 h
    obtain ⟨nodes, hnodes, h⟩ := bind_eq_ok.1 h
    obtain ⟨refs, hrefs, h⟩ := bind_eq_ok.1 h
    obtain ⟨saved, hsaved, h⟩ := bind_eq_ok.1 h
    obtain ⟨⟨replaced, dangling⟩, hreplaced, h⟩ := bind_eq_ok.1 h
    obtain ⟨declared, hdeclared, h⟩ := bind_eq_ok.1 h
    have hreads : ids.mapM moved.node = .ok nodes :=
      mapM_eq_ok.2 ((mapM_eq_ok.1 hnodes).imp fun _ _ => liftM_eq_ok.1)
    cases pure_eq_ok.1 h
    exact ⟨⟨rule, first, moved, messages, ids, nodes, refs, saved, replaced, dangling, hrule,
      liftM_eq_ok.1 hfirst, liftM_eq_ok.1 hmoved, liftM_eq_ok.1 hids, hreads, liftM_eq_ok.1 hrefs,
      hsaved, liftM_eq_ok.1 hreplaced, liftM_eq_ok.1 hdeclared, rfl⟩⟩

namespace SavingSteps

variable (steps : SavingSteps g name options g' events)

/-- Each reference that stays is an error. -/
theorem reports (entry : NodeId × String) (hentry : entry ∈ steps.dangling) :
    ∃ message, .report message ∈ events ∧ message.severity = .error := by
  rw [steps.tells]
  exact ⟨_, List.mem_append_right _ (List.mem_map_of_mem hentry), rfl⟩

theorem shape_moved : g.SameShape steps.moved :=
  (relabels_moveLabels steps.moves).annotates.kinds.sameShape

theorem relabels : g.Relabels steps.saved.grammar :=
  (relabels_moveLabels steps.moves).trans (Saving.relabels_saveNodes steps.saves)

theorem annotates_saved : steps.saved.grammar.Annotates g' :=
  (Saving.annotates_substituteAll steps.replaces).trans (annotates_declareVariables steps.declares)

/-- The nodes that are visited are those that the rule matches. -/
theorem mem_first {id : NodeId} : id ∈ steps.first ↔ g.MatchedBy steps.rule.body id :=
  mem_walkDown steps.walksFirst

theorem mem_ids {id : NodeId} : id ∈ steps.ids ↔ g.MatchedBy steps.rule.body id :=
  (mem_walkDown steps.walks).trans ⟨steps.shape_moved.symm.matchedBy, steps.shape_moved.matchedBy⟩

end SavingSteps

/-- **Saving values leaves the kinds of nodes alone.** -/
theorem annotates_saveValues (h : g.saveValues name options = .ok (g', events)) : g.Annotates g' := by
  obtain ⟨steps⟩ := exists_savingSteps h
  exact steps.relabels.annotates.trans steps.annotates_saved

end Grammar

end PredictiveParser
