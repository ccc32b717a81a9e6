import Mathlib
import PredictiveParser.Proofs.Values.Declared
import PredictiveParser.Proofs.Values.Messages

/-!
# Which values are saved

Where the nodes that a rule matches store no values yet, saving values is told by the grammars before and
after it (`Grammar.savesExactly_saveValues`). A node stores its value if it stands for a variable, by its
label or by what code refers to. Each variable is declared once, as the first node in the walk expects it.
Each later node that expects another type of it is reported once, and no other node is.
-/
namespace PredictiveParser

open Template

namespace Grammar

variable {g g' : Grammar} {name : String} {rule : Rule} {options : Options} {events : List Event}
  {ids : List NodeId} {id : NodeId} {node node' : Node}

/-- The values of these nodes are saved in the second grammar: which of them, in which variables, how the
variables are declared, and which conflicts are reported. -/
structure SavesExactly (g : Grammar) (name : String) (options : Options) (ids : List NodeId)
    (declared : List Declared) (events : List Event) (g' : Grammar) : Prop where
  savers : ∀ id ∈ ids, ∀ node, g'.node id = .ok node →
    node.saver = ((g.scopeOf g' ids).variableOf? node).map (⟨·, node.isList⟩)
  /-- A terminal without a label is saved by the first reference with its text that is to no label and to
  no rule. -/
  terminals : ∀ id ∈ ids, ∀ node set mark basis, g'.node id = .ok node →
    node.kind = .terminal set mark → node.label = none → node.basis = some basis →
    let scope := g.scopeOf g' ids
    ∀ value, node.saver = some ⟨value, node.isList⟩ ↔ ∃ before r after,
      scope.references = before ++ r :: after ∧
      (∀ earlier ∈ before, ¬scope.IsOther basis.normalText earlier) ∧
      scope.IsOther basis.normalText r ∧ r.variableName? = some value
  others : ∀ id, id ∉ ids → g'.nodes[id]?.map Node.saver = g.nodes[id]?.map Node.saver
  ascending : Declared.Ascending declared
  /-- A variable is declared as the first node expects it that stores its value in it. -/
  declares : ∀ value, Declared.find? declared value =
    Declared.find? (ids.filterMap (g'.savedAt? options)) value
  mismatches : events.filter Event.isMismatch = ids.eraseDups.filterMap fun id =>
    (g'.savedAt? options id).bind (g'.mismatch? name declared id)

namespace SavingSteps

variable (steps : SavingSteps g name options g' events)

/-- What is said apart from conflicts. -/
theorem filter_isMismatch :
    events.filter Event.isMismatch = steps.saved.events.filter Event.isMismatch := by
  have hdangling : ∀ key : String, DivergesFrom ("'$" ++ key ++
      "' does not refer to a label, a rule or anything this rule matches.") "Type mismatch: " := by
    intro key
    have hstart : DivergesFrom "'$" "Type mismatch: " := by constructor <;> decide
    exact (hstart.append key).append _
  refine (congrArg _ steps.tells).trans ((List.filter_append _ _).trans ?_)
  refine (congrArg _ (List.filter_eq_nil_iff.2 fun event hevent => ?_)).trans (List.append_nil _)
  obtain ⟨⟨id, key⟩, -, rfl⟩ := List.mem_map.1 hevent
  rw [Event.not_isMismatch (hdangling key)]
  exact Bool.false_ne_true

theorem filter_messages : steps.messages.filter Event.isMismatch = [] := by
  refine List.filter_eq_nil_iff.2 fun event hevent => ?_
  obtain ⟨g, id, label, node, rfl⟩ := isLabelError_moveLabels steps.moves event hevent
  have hstart : DivergesFrom "Label '" "Type mismatch: " := by constructor <;> decide
  rw [Event.not_isMismatch (((hstart.append label).append _).append _ |>.append _)]
  exact Bool.false_ne_true

section

variable (hsavers : ∀ id node, g.MatchedBy steps.rule.body id → g.node id = .ok node →
  node.saver = none)
include hsavers

theorem saver_moved (hid : id ∈ steps.ids) (hnode : steps.moved.node id = .ok node) :
    node.saver = none := by
  obtain ⟨old, hold, hsaver⟩ :=
    (agrees_moveLabels (f := Node.saver) (fun _ _ _ => rfl) steps.moves).node hnode
  rw [← hsaver]
  exact hsavers id old (steps.mem_ids.1 hid) hold

theorem saver_eq (hid : id ∈ steps.ids) (hnode' : g'.node id = .ok node') :
    node'.saver = ((g.scopeOf g' steps.ids).variableOf? node').map (⟨·, node'.isList⟩) := by
  obtain ⟨node, hnode, hcodeless⟩ := steps.exists_moved hid hnode'
  have hsaver : node'.saver = (steps.refs.storing node).saver := (congrArg Node.saver hcodeless :)
  have hlist : node'.isList = node.isList := (congrArg Node.isList hcodeless :)
  rw [hsaver, Referenced.storing, steps.saver_moved hsavers hid hnode, Option.none_or, hlist,
    steps.variableOf?_scopeOf hcodeless]

/-- What a node is to declare can be read off the grammar in the end. -/
theorem savedAt?_eq (hid : id ∈ steps.ids) :
    g'.savedAt? options id = steps.moved.newAt? steps.refs options id := by
  obtain ⟨node, hnode⟩ := node_of_walkDown steps.walks_ids hid
  rw [← steps.newlySavedAt?_eq hid, newlySavedAt?, node_eq_ok.1 hnode, Option.bind_some,
    hsavers id node (steps.mem_ids.1 hid) hnode]
  rfl

end

end SavingSteps

/-- **Saving values is exact**, where no value was stored before. -/
theorem savesExactly_saveValues (hrule : g.rule? name = some rule)
    (hsavers : ∀ id node, g.MatchedBy rule.body id → g.node id = .ok node → node.saver = none)
    (h : g.saveValues name options = .ok (g', events)) :
    ∃ ids resolve declared, g.walkMatched rule.body = .ok ids ∧
      g.CodeResolved rule.body ids resolve declared g' ∧
      g.SavesExactly name options ids declared events g' := by
  obtain ⟨steps⟩ := exists_savingSteps h
  cases hrule.symm.trans steps.found
  refine ⟨steps.ids, _, steps.saved.declared, steps.walks_ids, steps.codeResolved, ?_⟩
  have hsavedAt : ∀ id ∈ steps.ids, steps.moved.newAt? steps.refs options id =
      g'.savedAt? options id := fun id hid => (steps.savedAt?_eq hsavers hid).symm
  constructor
  case savers => exact fun id hid node => steps.saver_eq hsavers hid
  case terminals =>
    intro id hid node set mark basis hnode hkind hlabel hbasis scope value
    have hvariable : scope.variableOf? node =
        (scope.other? basis.normalText).bind Reference.variableName? := by
      simp only [Scope.variableOf?, hkind, hlabel, hbasis, Option.none_or, Option.bind_some]
    have hsaver : node.saver = some ⟨value, node.isList⟩ ↔ scope.variableOf? node = some value := by
      rw [steps.saver_eq hsavers hid hnode]
      simp [scope]
    rw [hsaver, hvariable, Option.bind_eq_some_iff]
    constructor
    · rintro ⟨r, hr, hname⟩
      obtain ⟨before, after, hsplit, hbefore, hother⟩ := Scope.other?_eq_some_iff.1 hr
      exact ⟨before, r, after, hsplit, hbefore, hother, hname⟩
    · rintro ⟨before, r, after, hsplit, hbefore, hother, hname⟩
      exact ⟨r, Scope.other?_eq_some_iff.2 ⟨before, after, hsplit, hbefore, hother⟩, hname⟩
  case others =>
    intro id hid
    have hsaved := (steps.agrees_codeless.comp Node.saver).nodes id
    have hmoved := (agrees_moveLabels (f := Node.saver) (fun _ _ _ => rfl) steps.moves).nodes id
    rw [steps.savedThrough.nodes] at hsaved
    simp only [if_neg hid, Option.map_id'] at hsaved
    exact hsaved.trans hmoved
  case ascending => exact steps.savedThrough.ascending
  case declares =>
    intro value
    rw [steps.savedThrough.declares, List.filterMap_congr hsavedAt]
  case mismatches =>
    have hbasis : Agrees Node.basis steps.moved g' :=
      (Saving.agrees_saveNodes (fun _ _ => rfl) steps.saves).trans
        (steps.agrees_codeless.comp Node.basis)
    rw [steps.filter_isMismatch, steps.savedThrough.mismatches, steps.filter_messages, List.nil_append]
    refine List.filterMap_congr fun id hid => ?_
    rw [hsavedAt id (List.mem_eraseDups.1 hid)]
    refine Option.bind_congr fun expected _ => ?_
    exact (mismatch?_of_agrees hbasis id).symm

end Grammar

/-- The rule `item` matches a letter and itself, and both have one label. -/
def clashing : Grammar where
  nodes := #[{ Node.ofKind (.terminal (.ofRanges [(97, 98)]) none) with label := some "x" },
    { Node.ofKind (.call "item") with label := some "x" }, .ofKind (.sequence [0, 1])]
  rules := [("item", .ofBody "item" 2)]

theorem clashing_savesExactly : ∃ g' events, clashing.saveValues "item" .default = .ok (g', events) ∧
    ∃ ids resolve declared, clashing.walkMatched 2 = .ok ids ∧
      clashing.CodeResolved 2 ids resolve declared g' ∧
      clashing.SavesExactly "item" .default ids declared events g' := by
  have hok : (clashing.saveValues "item" .default).toOption.isSome = true := by decide +kernel
  have hrule : clashing.rule? "item" = some (.ofBody "item" 2) := rfl
  have hsavers : ∀ node ∈ clashing.nodes, node.saver = none := by simp [clashing, Node.ofKind]
  cases hrun : clashing.saveValues "item" .default with
  | error failure =>
    rw [hrun] at hok
    cases hok
  | ok saved =>
    refine ⟨saved.1, saved.2, rfl, Grammar.savesExactly_saveValues hrule
      (fun id node _ hnode => hsavers node ?_) hrun⟩
    exact Array.mem_of_getElem? (Grammar.node_eq_ok.1 hnode)

def dotted : Tokens :=
  [.ident "a", .punct '.' .alone, .ident "b"]

def dottedTerminal (postAction : Option Tokens) : Node :=
  { Node.ofKind (.terminal (.ofRanges [(97, 97)]) none) with basis := some dotted, postAction }

/-- The code of `item` refers to its terminal twice. In the first reference the `a` stands in an invisible
group. -/
def obscured : Grammar where
  nodes := #[dottedTerminal (some [.punct '$' .alone,
    .group .parenthesis (.group .invisible [.ident "a"] :: dotted.tail), .punct '$' .alone,
    .group .parenthesis dotted])]
  rules := [("item", .ofBody "item" 0)]

/-- The result of `item` refers to its terminal. -/
def resulting : Grammar where
  nodes := #[dottedTerminal none]
  rules := [("item", { Rule.ofBody "item" 0 with
    returns := some [.ident "i32"], result := some [.punct '$' .alone, .group .parenthesis dotted] })]

/-- Code can refer to something by this text: there is a reference with it that is neither to a label nor to
a rule, and that can have the variable. -/
def Grammar.Refers (g : Grammar) (references : List Reference) (text value : String) : Prop :=
  ∃ r ∈ references, (g.scopeOf g [0]).IsOther text r ∧ r.variableName? = some value

/-- A terminal is not saved for a reference with its text that can have a variable, where another one with
the same text comes first and can have none. Nor is it saved for a reference in the result of the rule. -/
theorem obscured_reference :
    (∀ g ∈ [obscured, resulting], (g.saveValues "item" .default).map Prod.fst = .ok g ∧
      ∃ node, g.node 0 = .ok node ∧ node.label = none ∧ node.basis = some dotted ∧ node.saver = none) ∧
    obscured.Refers (obscured.scopeOf obscured [0]).references dotted.normalText "tok__b" ∧
    ∃ rule code, resulting.rule? "item" = some rule ∧ rule.result = some code ∧
      resulting.Refers (References.find code) dotted.normalText "tok__b" := by
  refine ⟨List.forall_mem_cons.2 ⟨⟨?_, _, rfl, rfl, rfl, rfl⟩, List.forall_mem_singleton.2
      ⟨?_, _, rfl, rfl, rfl, rfl⟩⟩,
    ⟨.code dotted, .tail _ (.head _), ⟨?_, ?_, rfl⟩, ?_⟩,
    _, _, rfl, rfl, .code dotted, .head _, ⟨?_, ?_, rfl⟩, ?_⟩ <;> cbv

/-- The value of `item` is no character, so its variable has another type. -/
example : (clashing.saveValues "item" .default).toOption.map (fun saved =>
      (saved.1.nodes.toList.map Node.saver, saved.2.map Event.isMismatch)) =
    some ([some ⟨"x", false⟩, some ⟨"x", false⟩, none], [true]) := by
  decide +kernel

end PredictiveParser
