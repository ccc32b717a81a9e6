import Mathlib.Tactic.Linarith
import Mathlib.Tactic.Ring
import PredictiveParser.Proofs.Grammar.Height
import PredictiveParser.Proofs.Lookahead.Nesting
import PredictiveParser.Proofs.Lookahead.Within

/-!
# The height of stacks

The stack of a configuration stays below a height, whatever a search makes of it (`Fits.expands`). On
the way down the tree of a rule it grows by no more than the links of one node for each level, and a
search enters calls only up to the limit (`Fits`).
-/
namespace PredictiveParser

open Relation

section

variable {id : NodeId} {ids : List NodeId} {stack : List Frame}

@[simp] theorem Config.callDepth_pushNodes :
    Config.callDepth (pushNodes ids stack) = Config.callDepth stack := by
  simp [pushNodes]

@[simp] theorem length_pushNodes : (pushNodes ids stack).length = ids.length + stack.length := by
  simp [pushNodes]

end

namespace Grammar

variable {g : Grammar} {id : NodeId}

/-- No node has more children than there are links. -/
theorem length_children_le {node : Node} (h : g.node id = .ok node) :
    node.children.length ≤ Lookahead.linkCount g := by
  have sum : ∀ (nodes : List Node) (count : Nat), count ≤
      nodes.foldl (fun count node => count + node.children.length) count ∧
      ∀ node ∈ nodes, node.children.length ≤
        nodes.foldl (fun count node => count + node.children.length) count := by
    intro nodes
    induction nodes with
    | nil => exact fun count => ⟨Nat.le_refl _, fun node hnode => by cases hnode⟩
    | cons first rest ih =>
      intro count
      obtain ⟨hle, hmem⟩ := ih (count + first.children.length)
      rw [List.foldl_cons]
      refine ⟨by omega, fun node hnode => ?_⟩
      rcases List.mem_cons.1 hnode with rfl | hnode
      · omega
      · exact hmem node hnode
  rw [Lookahead.linkCount, ← Array.foldl_toList]
  have hmem : node ∈ g.nodes.toList :=
    Array.mem_toList_iff.2 (Array.mem_of_getElem? (node_eq_ok.1 h))
  exact (sum g.nodes.toList 0).2 node hmem

/-- What is predicted with is not left by looking ahead. -/
theorem closed_predicted (g : Grammar) : g.Closed g.Predicted where
  below hid hkind hchild := by
    obtain ⟨name, rule, hrule, hreach⟩ := hid
    obtain ⟨node, hnode, rfl⟩ := kindAt?_eq_some.1 hkind
    exact ⟨name, rule, hrule, hreach.tail ⟨node, hnode, hchild⟩⟩
  called _ _ hrule := ⟨_, _, hrule, .refl⟩

theorem predicted_of_shows {name : String} {rule : Rule} (hrule : g.rule? name = some rule)
    (h : g.Shows rule.body id) : g.Predicted id := by
  induction h with
  | refl => exact ⟨name, rule, hrule, .refl⟩
  | tail _ hlooks ih =>
    cases hlooks with
    | below kind mem => exact (closed_predicted g).below ih kind mem
    | called kind callee => exact (closed_predicted g).called ih kind callee

end Grammar

namespace Lookahead

variable {la : Lookahead} {offset height : Nat} {config config' : Config}

/-- How far the stack can grow in a called rule. -/
def callRoom (g : Grammar) : Nat :=
  g.nodes.size * (linkCount g + 2) + 2

/-- Whatever a search makes of the frames of a stack, the stack stays below the height. -/
def Fits (la : Lookahead) (height : Nat) : List Frame → Prop
  | [] => True
  | .ruleEnd :: below => below.length < height ∧ la.Fits height below
  | .node id :: below =>
    (∃ levels, la.grammar.HasDepth Node.predictedChildren levels id ∧
      below.length + levels * (linkCount la.grammar + 1) +
        (la.recursionLimit - Config.callDepth below) * callRoom la.grammar ≤ height) ∧
    la.Fits height below

theorem Fits.length_le {stack : List Frame} (h : la.Fits height stack) : stack.length ≤ height := by
  cases stack with
  | nil => exact Nat.zero_le _
  | cons frame below =>
    cases frame with
    | ruleEnd => exact h.1
    | node id =>
      obtain ⟨⟨levels, hlevels, hle⟩, -⟩ := h
      obtain ⟨less, rfl⟩ := hlevels.exists_succ
      rw [List.length_cons]
      rw [Nat.succ_mul] at hle
      omega

theorem Fits.exists_node {stack : List Frame} (h : la.Fits height stack) {id : NodeId}
    (hid : .node id ∈ stack) : ∃ node, la.grammar.node id = .ok node := by
  induction stack with
  | nil => cases hid
  | cons frame below ih =>
    cases frame with
    | ruleEnd => exact ih h.2 ((List.mem_cons.1 hid).resolve_left nofun)
    | node other =>
      obtain ⟨⟨levels, hlevels, -⟩, hbelow⟩ := h
      rcases List.mem_cons.1 hid with heq | hid
      · cases heq
        exact hlevels.exists_node
      · exact ih hbelow hid

theorem Fits.pushNodes {levels : Nat} {ids : List NodeId} {below : List Frame}
    (hids : ∀ id ∈ ids, la.grammar.HasDepth Node.predictedChildren levels id)
    (hle : below.length + ids.length + levels * (linkCount la.grammar + 1) +
      (la.recursionLimit - Config.callDepth below) * callRoom la.grammar ≤ height)
    (h : la.Fits height below) : la.Fits height (pushNodes ids below) := by
  induction ids with
  | nil => exact h
  | cons id rest ih =>
    rw [List.length_cons] at hle
    refine ⟨⟨levels, hids id List.mem_cons_self, ?_⟩,
      ih (fun id hid => hids id (List.mem_cons_of_mem _ hid)) (by omega)⟩
    change (PredictiveParser.pushNodes rest below).length + _ + (_ - Config.callDepth
      (PredictiveParser.pushNodes rest below)) * _ ≤ height
    rw [length_pushNodes, Config.callDepth_pushNodes]
    omega

/-- An expansion keeps the stack below the height. -/
theorem Fits.expands (hf : la.grammar.Forest) (h : la.Fits height config.stack)
    (hexpands : la.Expands offset config config') : la.Fits height config'.stack := by
  obtain ⟨stack, checks, past⟩ := config
  obtain ⟨hopens, -⟩ := hexpands.opens
  simp only at h hopens
  generalize config'.stack = stack' at hopens
  -- What is known of the node on top.
  have top : ∀ {id : NodeId} {below : List Frame} {kind : NodeKind},
      la.Fits height (.node id :: below) → la.grammar.kindAt? id = some kind →
      la.Fits height below ∧ (Node.ofKind kind).children.length ≤ linkCount la.grammar ∧
      ∃ levels, (∀ child ∈ (Node.ofKind kind).predictedChildren,
          la.grammar.HasDepth Node.predictedChildren levels child) ∧
        below.length + levels * (linkCount la.grammar + 1) + linkCount la.grammar + 1 +
          (la.recursionLimit - Config.callDepth below) * callRoom la.grammar ≤ height := by
    intro id below kind hfits hkind
    obtain ⟨⟨levels, hlevels, hle⟩, hbelow⟩ := hfits
    obtain ⟨less, rfl⟩ := hlevels.exists_succ
    obtain ⟨node, hnode, rfl⟩ := Grammar.kindAt?_eq_some.1 hkind
    rw [Nat.succ_mul] at hle
    have hlinks : node.children.length ≤ linkCount la.grammar := Grammar.length_children_le hnode
    exact ⟨hbelow, hlinks, less, fun child hchild => hlevels.child hnode hchild, by omega⟩
  cases hopens with
  | ruleEnd => exact h.2
  | sequence kind =>
    obtain ⟨hbelow, hlinks, levels, hlevels, hle⟩ := top h kind
    exact hbelow.pushNodes hlevels (by simp only [Node.children, Node.ofKind] at hlinks; omega)
  | @arm id arm alts below kind mem =>
    obtain ⟨hbelow, hlinks, levels, hlevels, hle⟩ := top h kind
    have harm := hlevels arm mem
    rw [Alternatives.behindArm]
    split
    · refine ⟨⟨levels, harm, ?_⟩, h⟩
      rw [List.length_cons, Config.callDepth_node]
      omega
    · exact ⟨⟨levels, harm, by omega⟩, hbelow⟩
  | exit kind hasExit => exact (top h kind).1
  | @gate id predict matched below kind =>
    obtain ⟨hbelow, hlinks, levels, hlevels, hle⟩ := top h kind
    exact ⟨⟨levels, hlevels predict (by simp [Node.predictedChildren, Node.children, Node.ofKind]),
      by omega⟩, hbelow⟩
  | check kind => exact (top h kind).1
  | @call id name rule below kind callee =>
    obtain ⟨hbelow, hlinks, levels, hlevels, hle⟩ := top h kind
    -- The search enters a call only below the limit, and the called rule needs no more than its room.
    have hdepth : Config.callDepth below < la.recursionLimit := by
      obtain ⟨next, hexpand, -⟩ := hexpands
      rw [expand_node kind] at hexpand
      simp only [expandKind] at hexpand
      split at hexpand
      · cases hexpand
      · omega
    obtain ⟨room, hroom⟩ : ∃ room, la.recursionLimit - Config.callDepth below = room + 1 :=
      ⟨la.recursionLimit - Config.callDepth below - 1, by omega⟩
    rw [hroom, Nat.succ_mul] at hle
    have hbody : la.grammar.nodes.size * (linkCount la.grammar + 1) + 2 ≤ callRoom la.grammar := by
      rw [callRoom]
      gcongr
      omega
    refine ⟨⟨la.grammar.nodes.size, hf.hasDepth_predicted (.body callee), ?_⟩, by omega, hbelow⟩
    rw [List.length_cons, Config.callDepth_ruleEnd,
      show la.recursionLimit - (Config.callDepth below + 1) = room by omega]
    omega

/-- A stack over trees stays below the height for which a search is bounded. -/
theorem fits_of_inUse {stack : List Frame} (hf : la.grammar.Forest)
    (h : ∀ id, .node id ∈ stack → la.grammar.InUse id)
    (hheight : stack.length + (la.recursionLimit + 1) * callRoom la.grammar ≤ height) :
    la.Fits height stack := by
  induction stack with
  | nil => trivial
  | cons frame below ih =>
    rw [List.length_cons] at hheight
    have hbelow := ih (fun id hid => h id (List.mem_cons_of_mem _ hid)) (by omega)
    cases frame with
    | ruleEnd => exact ⟨by omega, hbelow⟩
    | node id =>
      have hid := hf.hasDepth_predicted (h id List.mem_cons_self)
      refine ⟨⟨la.grammar.nodes.size, hid, ?_⟩, hbelow⟩
      have hbody : la.grammar.nodes.size * (linkCount la.grammar + 1) ≤ callRoom la.grammar := by
        rw [callRoom]
        nlinarith
      have hcalls : (la.recursionLimit - Config.callDepth below) * callRoom la.grammar ≤
          la.recursionLimit * callRoom la.grammar := by
        gcongr
        omega
      rw [Nat.succ_mul] at hheight
      omega

end Lookahead

end PredictiveParser
