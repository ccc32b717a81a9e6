import Mathlib.Logic.Function.Iterate
import PredictiveParser.Proofs.Values.Stored

/-!
# What becomes of the code

Once values are stored, the references in the code of each node become variables, as often as the walk
lists the node, and the variables are declared in front of the body (`Grammar.CodeResolved`,
`SavingSteps.codeResolved`). Nothing else changes then (`SavingSteps.agrees_codeless`).
-/
namespace PredictiveParser

open References Template

/-! ## Nodes -/

/-- The code with variables in the place of the references that have one, where this is done so many
times. -/
def Tokens.resolved (resolve : Reference → Option String) (times : Nat) : Tokens → Tokens :=
  (replace fun reference => (resolve reference).map word)^[times]

/-- The action with declarations in front of it, if there are any. -/
def declareFirst (declared : List Declared) (action : Option Tokens) : Option Tokens :=
  if declared.isEmpty then action else joinActions (some (declared.flatMap (·.code))) action

/-- The kind with the code of a check rewritten. -/
def NodeKind.rewrite (f : Reference → Option Tokens) : NodeKind → NodeKind
  | .check ⟨negate, .code code, mark⟩ => .check ⟨negate, .code (replace f code), mark⟩
  | kind => kind

theorem NodeKind.expression?_rewrite (f : Reference → Option Tokens) (kind : NodeKind) :
    (kind.rewrite f).expression? = kind.expression?.map (replace f) := by
  rcases kind with _ | _ | _ | ⟨_, _ | _, _⟩ | _ | _ <;> rfl

namespace Node

/-- The node without its code. -/
def codeless (node : Node) : Node :=
  { node with kind := node.kind.textless, preAction := none, postAction := none }

def rewrite (f : Reference → Option Tokens) (node : Node) : Node :=
  { node with
    kind := node.kind.rewrite f
    preAction := node.preAction.map (replace f)
    postAction := node.postAction.map (replace f) }

theorem codeless_rewrite (f : Reference → Option Tokens) (node : Node) :
    (node.rewrite f).codeless = node.codeless := by
  have hkind : ∀ kind : NodeKind, (kind.rewrite f).textless = kind.textless := by
    rintro (_ | _ | _ | ⟨_, _ | _, _⟩ | _ | _) <;> rfl
  rw [codeless, codeless, rewrite, hkind]

/-- Rewriting acts on the pieces of code separately, also when it is done again. -/
theorem iterate_rewrite (f : Reference → Option Tokens) (times : Nat) (node : Node) :
    ((rewrite f)^[times] node).codeless = node.codeless ∧
      ((rewrite f)^[times] node).preAction = node.preAction.map (replace f)^[times] ∧
      ((rewrite f)^[times] node).postAction = node.postAction.map (replace f)^[times] ∧
      ((rewrite f)^[times] node).kind.expression? = node.kind.expression?.map (replace f)^[times] := by
  induction times generalizing node with
  | zero => simp
  | succ times ih =>
    obtain ⟨hcodeless, hpre, hpost, hcheck⟩ := ih (node.rewrite f)
    simp only [Function.iterate_succ_apply, hcodeless, hpre, hpost, hcheck, codeless_rewrite]
    simp only [rewrite, NodeKind.expression?_rewrite, Option.map_map, Function.iterate_succ, and_self]

end Node

/-! ## Values do not depend on code -/

section

variable {node node' : Node}

theorem Scope.variableOf?_codeless (scope : Scope) (node : Node) :
    scope.variableOf? node.codeless = scope.variableOf? node := by
  unfold Scope.variableOf? Node.codeless
  rcases node.kind with _ | _ | _ | ⟨_, _ | _, _⟩ | _ | _ <;> rfl

theorem Grammar.valueType?_codeless (g : Grammar) (options : Options) (node : Node) :
    g.valueType? options node.codeless = g.valueType? options node := by
  unfold Grammar.valueType? Node.codeless
  rcases node.kind with _ | _ | _ | ⟨_, _ | _, _⟩ | _ | _ <;> rfl

theorem Grammar.declarationOf_codeless (g : Grammar) (options : Options) (node : Node) (name : String) :
    g.declarationOf options node.codeless name = g.declarationOf options node name := by
  rw [declarationOf, valueType?_codeless]
  rfl

theorem Node.hasValue_codeless (node : Node) : node.codeless.hasValue = node.hasValue := by
  unfold Node.hasValue Node.codeless
  rcases node.kind with _ | _ | _ | ⟨_, _ | _, _⟩ | _ | _ <;> rfl

theorem Node.labelsValue_codeless : node.codeless.LabelsValue ↔ node.LabelsValue := by
  rw [LabelsValue, hasValue_codeless]
  rfl

end

/-! ## Grammars -/

namespace Saving

variable {refs : Referenced} {found : List String} {g g' : Grammar} {id other : NodeId}

theorem rewrite_substituteCode {code code' : Tokens} {keys : List String}
    (h : substituteCode refs found code = .ok (code', keys)) :
    code' = replace (fun reference => (resolve? refs found reference).map word) code := by
  rw [substituteCode_eq] at h
  obtain ⟨names, -, h⟩ := bind_eq_ok.1 h
  cases pure_eq_ok.1 h
  rfl

theorem rewrite_substituteOption {code code' : Option Tokens} {keys : List String}
    (h : substituteOption refs found code = .ok (code', keys)) :
    code' = code.map (replace fun reference => (resolve? refs found reference).map word) := by
  unfold substituteOption at h
  split at h
  · obtain ⟨⟨code, dangling⟩, hcode, h⟩ := bind_eq_ok.1 h
    cases pure_eq_ok.1 h
    exact congrArg some (rewrite_substituteCode hcode)
  · cases pure_eq_ok.1 h
    rfl

theorem rewrite_substituteKind {kind kind' : NodeKind} {keys : List String}
    (h : substituteKind refs found kind = .ok (kind', keys)) :
    kind' = kind.rewrite fun reference => (resolve? refs found reference).map word := by
  rcases substituteKind_cases h with ⟨_, _, _, _, hcode, rfl, rfl⟩ | ⟨hnone, rfl, -⟩
  · rw [rewrite_substituteCode hcode]
    rfl
  · unfold NodeKind.rewrite
    split
    · cases hnone
    · rfl

theorem nodes_substituteNode {keys : List String}
    (h : substituteNode refs found g id = .ok (g', keys)) (other : NodeId) : g'.nodes[other]? =
      if other = id then g.nodes[other]?.map
        (Node.rewrite fun reference => (resolve? refs found reference).map word)
      else g.nodes[other]? := by
  obtain ⟨node, pre, _, post, _, kind, _, hnode, hpre, hpost, hkind, -, hmodify⟩ :=
    substituteNode_eq_ok h
  rw [(Grammar.modifyNode_eq_ok hmodify).2]
  split
  · rename_i heq
    subst heq
    rw [Grammar.node_eq_ok.1 hnode, rewrite_substituteOption hpre, rewrite_substituteOption hpost,
      rewrite_substituteKind hkind]
    rfl
  · rfl

/-- The code of a node is rewritten as often as the node is listed. -/
theorem nodes_substituteAll {ids : List NodeId} {dangling : List (NodeId × String)}
    (h : substituteAll refs found ids g = .ok (g', dangling)) (other : NodeId) :
    g'.nodes[other]? = g.nodes[other]?.map
      (Node.rewrite fun reference => (resolve? refs found reference).map word)^[ids.count other] := by
  induction ids generalizing g dangling with
  | nil =>
    cases pure_eq_ok.1 h
    simp
  | cons id rest ih =>
    rw [substituteAll] at h
    obtain ⟨⟨g₁, keys⟩, hfirst, h⟩ := bind_eq_ok.1 h
    obtain ⟨⟨g₂, more⟩, hrest, h⟩ := bind_eq_ok.1 h
    cases pure_eq_ok.1 h
    rw [ih hrest, nodes_substituteNode hfirst]
    by_cases heq : other = id
    · rw [if_pos heq, heq, List.count_cons_self, Option.map_map, Function.iterate_succ]
    · rw [if_neg heq, List.count_cons_of_ne (Ne.symm heq)]

end Saving

namespace Grammar

variable {g g' : Grammar} {name : String} {options : Options} {events : List Event}

theorem nodes_declareVariables {body : NodeId} {declared : List Declared}
    (h : g.declareVariables body declared = .ok g') (id : NodeId) : g'.nodes[id]? =
      g.nodes[id]?.map fun node =>
        { node with
          preAction := if id = body then declareFirst declared node.preAction else node.preAction } := by
  unfold declareVariables at h
  unfold declareFirst
  split at h
  · rename_i hempty
    cases h
    simp only [hempty, if_true, ite_self, Option.map_id']
  · rename_i hnonempty
    simp only [(modifyNode_eq_ok h).2, Bool.eq_false_iff.2 hnonempty, Bool.false_eq_true, if_false]
    split <;> simp

/-- The code of what the body matches has variables in the place of references, and the body declares
variables in front of its code. -/
def CodeResolved (g : Grammar) (body : NodeId) (ids : List NodeId)
    (resolve : Reference → Option String) (declared : List Declared) (g' : Grammar) : Prop :=
  ∀ id node, g.node id = .ok node → ∃ node', g'.node id = .ok node' ∧
    node'.postAction = node.postAction.map (Tokens.resolved resolve (ids.count id)) ∧
    node'.kind.expression? = node.kind.expression?.map (Tokens.resolved resolve (ids.count id)) ∧
    node'.preAction =
      let action := node.preAction.map (Tokens.resolved resolve (ids.count id))
      if id = body then declareFirst declared action else action

namespace SavingSteps

variable (steps : SavingSteps g name options g' events)

/-- What a node is like in the end. -/
theorem nodes_eq (id : NodeId) : g'.nodes[id]? = steps.saved.grammar.nodes[id]?.map fun node =>
    let node := (Node.rewrite fun reference =>
      (Saving.resolve? steps.refs steps.saved.found reference).map word)^[steps.ids.count id] node
    { node with
      preAction := if id = steps.rule.body then declareFirst steps.saved.declared node.preAction
        else node.preAction } := by
  rw [nodes_declareVariables steps.declares, Saving.nodes_substituteAll steps.replaces, Option.map_map]
  rfl

/-- Once values are stored, nothing changes but code. -/
theorem agrees_codeless : Agrees Node.codeless steps.saved.grammar g' where
  nodes id := by
    rw [steps.nodes_eq, Option.map_map]
    refine congrFun (congrArg Option.map (funext fun node => ?_)) _
    exact (Node.iterate_rewrite _ _ node).1
  rules := steps.annotates_saved.rules

/-- What labels and variables do not touch is the same before values are stored. -/
theorem agrees_code : Agrees (fun node => (node.preAction, node.postAction, node.kind)) g
    steps.saved.grammar :=
  (agrees_moveLabels (fun _ _ _ => rfl) steps.moves).trans
    (Saving.agrees_saveNodes (fun _ _ => rfl) steps.saves)

theorem codeResolved : g.CodeResolved steps.rule.body steps.ids
    (Saving.resolve? steps.refs steps.saved.found) steps.saved.declared g' := by
  intro id node hnode
  have hsame := steps.agrees_code.nodes id
  rw [node_eq_ok.1 hnode, Option.map_some] at hsame
  obtain ⟨saved, hsaved, hcode⟩ := Option.map_eq_some_iff.1 hsame
  simp only [Prod.mk.injEq] at hcode
  have hnode' := steps.nodes_eq id
  rw [hsaved, Option.map_some] at hnode'
  obtain ⟨-, hpre, hpost, hcheck⟩ := Node.iterate_rewrite (fun reference =>
    (Saving.resolve? steps.refs steps.saved.found reference).map word) (steps.ids.count id) saved
  refine ⟨_, node_eq_ok.2 hnode', ?_, ?_, ?_⟩
  · exact hpost.trans (by rw [hcode.2.1]; rfl)
  · exact hcheck.trans (by rw [hcode.2.2]; rfl)
  · simp only [hpre, hcode.1]
    rfl

end SavingSteps

end Grammar

end PredictiveParser
