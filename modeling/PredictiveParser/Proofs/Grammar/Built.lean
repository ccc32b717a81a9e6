import PredictiveParser.Proofs.Grammar.Growth

/-!
# Grammars made with the builders

A grammar that was made with the builders keeps its rules under their own names, and nothing in it is
said to be tested by prediction.
-/
namespace PredictiveParser

namespace Grammar

/-- The grammar was made with the builders and not analyzed. `star` and `opt` are cases of `loopOf`, and
`plus` is made of the others. -/
inductive Built : Grammar → Prop where
  | empty : Built empty
  | terminal {g : Grammar} (before : Built g) (set : CharSet) : Built (g.terminal set).1
  | sequence {g : Grammar} (before : Built g) (items : List NodeId) : Built (g.sequence items).1
  | alternatives {g : Grammar} (before : Built g) (arms : List NodeId) : Built (g.alternatives arms).1
  | call {g : Grammar} (before : Built g) (rule : String) : Built (g.call rule).1
  | gate {g : Grammar} (before : Built g) (predict matched : NodeId) : Built (g.gate predict matched).1
  | checkCode {g : Grammar} (before : Built g) (negate : Bool) (code : Tokens) :
      Built (g.checkCode negate code).1
  | checkMatch {g : Grammar} (before : Built g) (negate : Bool) (payload : NodeId) :
      Built (g.checkMatch negate payload).1
  | loopOf {g g' : Grammar} {inner new : NodeId} {mode : Repetition} (before : Built g)
      (done : g.loopOf inner mode = .ok (g', new)) : Built g'
  | deepClone {g g' : Grammar} {id new : NodeId} (before : Built g)
      (done : g.deepClone id = .ok (g', new)) : Built g'
  | label {g g' : Grammar} {id : NodeId} {name : String} {isList : Bool} (before : Built g)
      (done : g.label id name isList = .ok g') : Built g'
  | preAction {g g' : Grammar} {id : NodeId} {code : Tokens} (before : Built g)
      (done : g.preAction id code = .ok g') : Built g'
  | postAction {g g' : Grammar} {id : NodeId} {code : Tokens} (before : Built g)
      (done : g.postAction id code = .ok g') : Built g'
  | basis {g g' : Grammar} {id : NodeId} {code : Tokens} (before : Built g)
      (done : g.basis id code = .ok g') : Built g'
  | defaultArm {g g' : Grammar} {id : NodeId} {arm : Nat} (before : Built g)
      (done : g.defaultArm id arm = .ok g') : Built g'
  | errorBranch {g g' : Grammar} {id : NodeId} (before : Built g)
      (done : g.errorBranch id = .ok g') : Built g'
  | greedy {g g' : Grammar} {id : NodeId} {value : Bool} (before : Built g)
      (done : g.greedy id value = .ok g') : Built g'
  | addRule {g g' : Grammar} {rule : Rule} (before : Built g) (done : g.addRule rule = .ok g') :
      Built g'

/-- What the builders keep. -/
structure Fresh (g : Grammar) : Prop where
  keyed : g.Keyed
  clean : g.Clean

variable {g g' : Grammar} {id : NodeId}

theorem Fresh.addKind (h : g.Fresh) {kind : NodeKind} (hkind : kind.isMarked = false) :
    (g.addKind kind).1.Fresh :=
  ⟨h.keyed.of_rules rfl, h.clean.addNode hkind⟩

theorem Fresh.modifyNode (h : g.Fresh) {f : Node → Node} (hg' : g.modifyNode id f = .ok g')
    (hf : ∀ node, (f node).kind.isMarked = node.kind.isMarked) : g'.Fresh where
  keyed := h.keyed.of_rules (modifyNode_eq_ok hg').1
  clean other kind hk := by
    rw [kindAt?_modifyNode hg'] at hk
    split at hk
    · obtain ⟨node, hnode, rfl⟩ := Option.map_eq_some_iff.1 hk
      rw [hf]
      exact h.clean other _ (kindAt?_of_node (node_eq_ok.2 hnode))
    · exact h.clean other kind hk

theorem isMarked_mapAlternatives (f : Alternatives → Alternatives) (node : Node) :
    (node.mapAlternatives f).kind.isMarked = node.kind.isMarked := by
  rw [kind_mapAlternatives]
  cases node.kind <;> rfl

theorem Fresh.loopOf (h : g.Fresh) {inner new : NodeId} {mode : Repetition}
    (hg' : g.loopOf inner mode = .ok (g', new)) : g'.Fresh := by
  obtain ⟨node, -, hg'⟩ := bind_eq_ok.1 hg'
  split at hg'
  · dsimp only at hg'
    split at hg'
    · obtain ⟨g₁, hg₁, hg'⟩ := bind_eq_ok.1 hg'
      cases pure_eq_ok.1 hg'
      exact h.modifyNode hg₁ (isMarked_mapAlternatives _)
    · cases pure_eq_ok.1 hg'
      exact h.addKind rfl
  · cases pure_eq_ok.1 hg'
    exact h.addKind rfl

/-- Grammars made with the builders are fresh. -/
theorem Built.fresh (h : g.Built) : g.Fresh := by
  induction h with
  | empty => exact ⟨⟨List.nodup_nil, nofun⟩, nofun⟩
  | terminal _ set ih => exact ih.addKind rfl
  | sequence _ items ih => exact ih.addKind rfl
  | alternatives _ arms ih => exact ih.addKind rfl
  | call _ rule ih => exact ih.addKind rfl
  | gate _ predict matched ih => exact ih.addKind rfl
  | checkCode _ negate code ih => exact ih.addKind rfl
  | checkMatch _ negate payload ih => exact ih.addKind rfl
  | loopOf _ done ih => exact ih.loopOf done
  | deepClone _ done ih =>
    obtain ⟨hextends, -⟩ := extends_copyDown done
    exact ⟨ih.keyed.of_rules hextends.rules, hextends.clean ih.clean⟩
  | label _ done ih =>
    obtain ⟨_, -, done⟩ := bind_eq_ok.1 done
    obtain ⟨_, -, done⟩ := bind_eq_ok.1 done
    exact ih.modifyNode done fun _ => rfl
  | preAction _ done ih => exact ih.modifyNode done fun _ => rfl
  | postAction _ done ih => exact ih.modifyNode done fun _ => rfl
  | basis _ done ih => exact ih.modifyNode done fun _ => rfl
  | defaultArm _ done ih => exact ih.modifyNode done (isMarked_mapAlternatives _)
  | errorBranch _ done ih => exact ih.modifyNode done (isMarked_mapAlternatives _)
  | greedy _ done ih => exact ih.modifyNode done (isMarked_mapAlternatives _)
  | addRule _ done ih =>
    obtain ⟨-, heq⟩ := addRule_eq_ok.1 done
    refine ⟨ih.keyed.addRule done, ?_⟩
    rw [heq]
    exact ih.clean

end Grammar

end PredictiveParser
