import PredictiveParser.Proofs.Grammar.Built
import PredictiveParser.Proofs.Grammar.Copies
import PredictiveParser.Proofs.Text.Names

/-!
# Nodes as the builders leave them

What new nodes have, and copies share with their sources, and annotations keep, all nodes have that the
builders make (`Built.nodes`). So the builders let no node store its value and give no check a rule to run:
all their nodes are blank (`Built.blank`). And each label is a name that may stand in code
(`Built.labeled`).
-/
namespace PredictiveParser

/-- The node does not store its value, and runs no rule as a check. -/
structure Node.Blank (node : Node) : Prop where
  saver : node.saver = none
  unmade : ∀ made, node.kind.checkRule? ≠ some (some made)

namespace Node

variable {node copied : Node}

theorem checkRule?_stem (node : Node) : node.stem.kind.checkRule? = node.kind.checkRule? := by
  obtain ⟨kind, label, isList, saver, pre, post, basis⟩ := node
  rcases kind with items | alts | ⟨predict, matched⟩ | ⟨negate, ⟨tokens⟩ | ⟨payload, rule⟩, mark⟩ |
    callee | ⟨set, mark⟩ <;> rfl

theorem Blank.of_stem (h : node.Blank) (hstem : copied.stem = node.stem) : copied.Blank where
  saver := (congrArg Node.saver hstem).trans h.saver
  unmade := by
    rw [← checkRule?_stem, hstem, checkRule?_stem]
    exact h.unmade

theorem checkRule?_mapAlternatives (f : Alternatives → Alternatives) (node : Node) :
    (node.mapAlternatives f).kind.checkRule? = node.kind.checkRule? := by
  rw [Grammar.kind_mapAlternatives]
  cases node.kind <;> rfl

theorem saver_mapAlternatives (f : Alternatives → Alternatives) (node : Node) :
    (node.mapAlternatives f).saver = node.saver := by
  unfold mapAlternatives
  split <;> rfl

theorem saver_withCheckRule (rule : String) (node : Node) :
    (node.withCheckRule rule).saver = node.saver := by
  unfold withCheckRule
  split <;> rfl

theorem Blank.mapAlternatives (h : node.Blank) (f : Alternatives → Alternatives) :
    (node.mapAlternatives f).Blank where
  saver := (saver_mapAlternatives f node).trans h.saver
  unmade := by
    rw [checkRule?_mapAlternatives]
    exact h.unmade

end Node

/-- The label of the node may stand in code. -/
def Node.Labeled (node : Node) : Prop :=
  ∀ label, node.label = some label → Text.isIdentifier label = true

/-- New nodes have it, and what the builders do with a node keeps it. -/
structure Node.Kept (P : Node → Prop) : Prop where
  ofKind : ∀ kind : NodeKind, (∀ made, kind.checkRule? ≠ some (some made)) → P (.ofKind kind)
  ofStem : ∀ node copied : Node, copied.stem = node.stem → P node → P copied
  mapAlternatives : ∀ (f : Alternatives → Alternatives) (node : Node), P node → P (node.mapAlternatives f)
  label : ∀ (node : Node) (name : String) (isList : Bool), Text.isIdentifier name = true → P node →
    P { node with label := some name, isList }
  code : ∀ (node : Node) (preAction postAction basis : Option Tokens), P node →
    P { node with preAction, postAction, basis }

theorem Node.kept_blank : Node.Kept Node.Blank where
  ofKind _ hkind := ⟨rfl, hkind⟩
  ofStem _ _ hstem h := h.of_stem hstem
  mapAlternatives f _ h := h.mapAlternatives f
  label _ _ _ _ h := ⟨h.saver, h.unmade⟩
  code _ _ _ _ h := ⟨h.saver, h.unmade⟩

theorem Node.label_mapAlternatives (f : Alternatives → Alternatives) (node : Node) :
    (node.mapAlternatives f).label = node.label := by
  unfold mapAlternatives
  split <;> rfl

theorem Node.kept_labeled : Node.Kept Node.Labeled where
  ofKind _ _ := nofun
  ofStem _ _ hstem h label hlabel := h label ((congrArg Node.label hstem).symm.trans hlabel)
  mapAlternatives f node h label hlabel := h label ((label_mapAlternatives f node).symm.trans hlabel)
  label _ _ _ hname _ _ hlabel := Option.some.inj hlabel ▸ hname
  code _ _ _ _ h := h

namespace Grammar

variable {g g' : Grammar} {id : NodeId} {P : Node → Prop}

def Blank (g : Grammar) : Prop :=
  ∀ id node, g.node id = .ok node → node.Blank

/-- All nodes have it. -/
def Nodes (P : Node → Prop) (g : Grammar) : Prop :=
  ∀ id node, g.node id = .ok node → P node

theorem Nodes.addKind (h : g.Nodes P) {kind : NodeKind} (hkind : P (.ofKind kind)) :
    (g.addKind kind).1.Nodes P := by
  intro id node hnode
  obtain rfl | hnode := node_addNode hnode
  · exact hkind
  · exact h id node hnode

theorem Nodes.modifyNode (h : g.Nodes P) {f : Node → Node} (hg' : g.modifyNode id f = .ok g')
    (hf : ∀ node : Node, P node → P (f node)) : g'.Nodes P := by
  intro other node' hnode'
  obtain ⟨node, hnode, rfl⟩ := node_modifyNode hg' hnode'
  split
  · exact hf node (h other node hnode)
  · exact h other node hnode

theorem Nodes.loopOf (hP : Node.Kept P) (h : g.Nodes P) {inner new : NodeId} {mode : Repetition}
    (hg' : g.loopOf inner mode = .ok (g', new)) : g'.Nodes P := by
  obtain ⟨node, -, hg'⟩ := bind_eq_ok.1 hg'
  split at hg'
  · dsimp only at hg'
    split at hg'
    · obtain ⟨g₁, hg₁, hg'⟩ := bind_eq_ok.1 hg'
      cases pure_eq_ok.1 hg'
      exact h.modifyNode hg₁ (hP.mapAlternatives _)
    · cases pure_eq_ok.1 hg'
      exact h.addKind (hP.ofKind _ (by rintro _ ⟨⟩))
  · cases pure_eq_ok.1 hg'
    exact h.addKind (hP.ofKind _ (by rintro _ ⟨⟩))

/-- **What the builders keep** all nodes have that are made with them. -/
theorem Built.nodes (hP : Node.Kept P) (h : g.Built) : g.Nodes P := by
  induction h with
  | empty => exact fun id node hnode => by cases hnode
  | terminal _ set ih => exact ih.addKind (hP.ofKind _ (by rintro _ ⟨⟩))
  | sequence _ items ih => exact ih.addKind (hP.ofKind _ (by rintro _ ⟨⟩))
  | alternatives _ arms ih => exact ih.addKind (hP.ofKind _ (by rintro _ ⟨⟩))
  | call _ rule ih => exact ih.addKind (hP.ofKind _ (by rintro _ ⟨⟩))
  | gate _ predict matched ih => exact ih.addKind (hP.ofKind _ (by rintro _ ⟨⟩))
  | checkCode _ negate code ih => exact ih.addKind (hP.ofKind _ (by rintro _ ⟨⟩))
  | checkMatch _ negate payload ih => exact ih.addKind (hP.ofKind _ (by rintro _ ⟨⟩))
  | loopOf _ done ih => exact ih.loopOf hP done
  | deepClone _ done ih =>
    intro id node' hnode'
    obtain ⟨source, node, hnode, hstem⟩ := stemsIn_copyDown done id node' hnode'
    exact hP.ofStem node node' hstem (ih source node hnode)
  | label _ done ih =>
    obtain ⟨_, -, done⟩ := bind_eq_ok.1 done
    obtain ⟨name', hname, done⟩ := bind_eq_ok.1 done
    have hname := isIdentifier_of_checkedName hname
    exact ih.modifyNode done fun node hnode => hP.label node name' _ hname hnode
  | preAction _ done ih => exact ih.modifyNode done fun node hnode => hP.code node _ _ _ hnode
  | postAction _ done ih => exact ih.modifyNode done fun node hnode => hP.code node _ _ _ hnode
  | basis _ done ih => exact ih.modifyNode done fun node hnode => hP.code node _ _ _ hnode
  | defaultArm _ done ih => exact ih.modifyNode done (hP.mapAlternatives _)
  | errorBranch _ done ih => exact ih.modifyNode done (hP.mapAlternatives _)
  | greedy _ done ih => exact ih.modifyNode done (hP.mapAlternatives _)
  | addRule _ done ih =>
    obtain ⟨-, rfl⟩ := addRule_eq_ok.1 done
    exact ih

/-- Grammars made with the builders have blank nodes. -/
theorem Built.blank (h : g.Built) : g.Blank :=
  h.nodes Node.kept_blank

/-- Labels that the builders accept may stand in code. -/
theorem Built.labeled (h : g.Built) : g.Nodes Node.Labeled :=
  h.nodes Node.kept_labeled

end Grammar

end PredictiveParser
