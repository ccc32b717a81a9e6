import PredictiveParser.Proofs.Grammar.Matching
import PredictiveParser.Proofs.Success

/-!
# Looking up nodes
-/
namespace PredictiveParser

theorem Node.alternatives?_eq_some {node : Node} {alts : Alternatives} :
    node.alternatives? = some alts ↔ node.kind = .alternatives alts := by
  unfold Node.alternatives?
  cases node.kind <;> simp

/-- The code runs before or after the node. -/
def Node.HasAction (node : Node) (action : Tokens) : Prop :=
  node.preAction = some action ∨ node.postAction = some action

def NodeKind.expression? : NodeKind → Option Tokens
  | .check ⟨_, .code tokens, _⟩ => some tokens
  | _ => none

/-- The rule that a check runs, for a check whether something matches. -/
def NodeKind.checkRule? : NodeKind → Option (Option String)
  | .check ⟨_, .syntactic _ made, _⟩ => some made
  | _ => none

namespace Grammar

variable {g : Grammar} {id : NodeId}

theorem node_eq_ok {node : Node} : g.node id = .ok node ↔ g.nodes[id]? = some node := by
  unfold Grammar.node
  cases g.nodes[id]? with
  | none => exact ⟨nofun, nofun⟩
  | some other => exact ⟨fun h => by cases h; rfl, fun h => by cases h; rfl⟩

theorem kindAt?_of_node {node : Node} (h : g.node id = .ok node) :
    g.kindAt? id = some node.kind := by
  rw [kindAt?, node_eq_ok.1 h]
  rfl

theorem kindAt?_eq_some {kind : NodeKind} :
    g.kindAt? id = some kind ↔ ∃ node, g.node id = .ok node ∧ node.kind = kind := by
  rw [kindAt?, Option.map_eq_some_iff]
  exact exists_congr fun node => and_congr_left' node_eq_ok.symm

end Grammar

end PredictiveParser
