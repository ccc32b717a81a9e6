import Mathlib.Logic.Relation
import PredictiveParser.Analysis.Lookahead
import PredictiveParser.Grammar.Validate
import PredictiveParser.Proofs.Grammar.Kinds

/-!
# Trees of nodes

A walk lists what can be reached over links between nodes (`mem_walkDown`), parents before their
children (`followed_walkDown`). What a rule matches is visited with what comes after it: a `Place` is a
node with such a continuation, and `Grammar.Under` leads from a place to the places right below it.

* `exists_places`: a visit meets the places under its start, in the order of the walk.
* `exists_visitDown`: whether a visit succeeds depends on its nodes only.
-/
namespace PredictiveParser

open Relation

namespace Grammar

/-! ## Walks -/

/-- One node is among those that `below` selects under another. -/
def Link (g : Grammar) (below : Node → List NodeId) (parent child : NodeId) : Prop :=
  ∃ node, g.node parent = .ok node ∧ child ∈ below node

/-- The node is matched by a rule with this body. -/
def MatchedBy (g : Grammar) (body id : NodeId) : Prop :=
  ReflTransGen (g.Link Node.matchedChildren) body id

variable {g : Grammar} {below : Node → List NodeId} {depth : Nat} {root id : NodeId}
  {ids : List NodeId}

theorem walkDown_succ_eq_ok : g.walkDown below (depth + 1) root = .ok ids ↔
    ∃ node parts, g.node root = .ok node ∧
      List.Forall₂ (fun child part => g.walkDown below depth child = .ok part) (below node) parts ∧
      ids = root :: parts.flatten := by
  rw [walkDown, bind_eq_ok]
  constructor
  · rintro ⟨node, hnode, h⟩
    obtain ⟨parts, hparts, h⟩ := bind_eq_ok.1 h
    exact ⟨node, parts, hnode, mapM_eq_ok.1 hparts, (pure_eq_ok.1 h).symm⟩
  · rintro ⟨node, parts, hnode, hparts, rfl⟩
    exact ⟨node, hnode, bind_eq_ok.2 ⟨parts, mapM_eq_ok.2 hparts, rfl⟩⟩

/-- A walk lists what can be reached. -/
theorem mem_walkDown (h : g.walkDown below depth root = .ok ids) :
    id ∈ ids ↔ ReflTransGen (g.Link below) root id := by
  induction depth generalizing root ids with
  | zero => cases h
  | succ depth ih =>
    obtain ⟨node, parts, hnode, hparts, rfl⟩ := walkDown_succ_eq_ok.1 h
    rw [List.mem_cons, List.mem_flatten]
    constructor
    · rintro (rfl | ⟨part, hpart, hid⟩)
      · exact .refl
      · obtain ⟨child, hchild, hwalk⟩ := Forall₂.exists_of_mem_right hparts hpart
        exact .head ⟨node, hnode, hchild⟩ ((ih hwalk).1 hid)
    · intro hreach
      rcases hreach.cases_head with rfl | ⟨child, ⟨node', hnode', hchild⟩, hrest⟩
      · exact Or.inl rfl
      · rw [hnode] at hnode'
        cases hnode'
        obtain ⟨part, hpart, hwalk⟩ := Forall₂.exists_of_mem_left hparts hchild
        exact Or.inr ⟨part, hpart, (ih hwalk).2 hrest⟩

theorem node_of_walkDown (h : g.walkDown below depth root = .ok ids) (hid : id ∈ ids) :
    ∃ node, g.node id = .ok node := by
  induction depth generalizing root ids with
  | zero => cases h
  | succ depth ih =>
    obtain ⟨node, parts, hnode, hparts, rfl⟩ := walkDown_succ_eq_ok.1 h
    rcases List.mem_cons.1 hid with rfl | hid
    · exact ⟨node, hnode⟩
    · obtain ⟨part, hpart, hid⟩ := List.mem_flatten.1 hid
      obtain ⟨child, -, hwalk⟩ := Forall₂.exists_of_mem_right hparts hpart
      exact ih hwalk hid

/-- Behind each place where a node is listed, the nodes right below it are listed too. -/
def Followed (g : Grammar) (below : Node → List NodeId) : List NodeId → Prop
  | [] => True
  | id :: rest => (∀ child, g.Link below id child → child ∈ rest) ∧ g.Followed below rest

theorem Followed.append {ids ids' : List NodeId} (h : g.Followed below ids)
    (h' : g.Followed below ids') : g.Followed below (ids ++ ids') := by
  induction ids with
  | nil => exact h'
  | cons id rest ih =>
    exact ⟨fun child hchild => List.mem_append_left _ (h.1 child hchild), ih h.2⟩

theorem followed_flatten {parts : List (List NodeId)} (h : ∀ part ∈ parts, g.Followed below part) :
    g.Followed below parts.flatten := by
  induction parts with
  | nil => exact trivial
  | cons part rest ih =>
    obtain ⟨hpart, hrest⟩ := List.forall_mem_cons.1 h
    exact hpart.append (ih hrest)

/-- A walk lists parents before their children, also where it lists a node again. -/
theorem followed_walkDown (h : g.walkDown below depth root = .ok ids) : g.Followed below ids := by
  induction depth generalizing root ids with
  | zero => cases h
  | succ depth ih =>
    obtain ⟨node, parts, hnode, hparts, rfl⟩ := walkDown_succ_eq_ok.1 h
    constructor
    · rintro child ⟨node', hnode', hchild⟩
      cases hnode.symm.trans hnode'
      obtain ⟨part, hpart, hwalk⟩ := Forall₂.exists_of_mem_left hparts hchild
      exact List.mem_flatten.2 ⟨part, hpart, (mem_walkDown hwalk).2 .refl⟩
    · refine followed_flatten fun part hpart => ?_
      obtain ⟨child, -, hwalk⟩ := Forall₂.exists_of_mem_right hparts hpart
      exact ih hwalk

/-- With fewer links a walk lists fewer nodes, in the same order. -/
theorem sublist_walkDown {below' : Node → List NodeId}
    (hsub : ∀ node, (below' node).Sublist (below node)) (h : g.walkDown below depth root = .ok ids) :
    ∃ ids', g.walkDown below' depth root = .ok ids' ∧ ids'.Sublist ids := by
  induction depth generalizing root ids with
  | zero => cases h
  | succ depth ih =>
    obtain ⟨node, parts, hnode, hparts, rfl⟩ := walkDown_succ_eq_ok.1 h
    have level : ∀ {children' children : List NodeId}, children'.Sublist children →
        ∀ {parts}, List.Forall₂ (fun child part => g.walkDown below depth child = .ok part)
          children parts →
        ∃ parts', List.Forall₂ (fun child part => g.walkDown below' depth child = .ok part)
          children' parts' ∧ parts'.flatten.Sublist parts.flatten := by
      intro children' children hs
      induction hs with
      | slnil => exact fun _ => ⟨[], .nil, List.nil_sublist _⟩
      | cons child _ ihs =>
        rintro _ (_ | ⟨_, hrest⟩)
        obtain ⟨parts', hp, hflat⟩ := ihs hrest
        exact ⟨parts', hp, hflat.trans (List.sublist_append_right _ _)⟩
      | cons_cons child _ ihs =>
        rintro _ (_ | ⟨hwalk, hrest⟩)
        obtain ⟨part', hpart', hsub'⟩ := ih hwalk
        obtain ⟨parts', hp, hflat⟩ := ihs hrest
        exact ⟨part' :: parts', .cons hpart' hp, hsub'.append hflat⟩
    obtain ⟨parts', hp, hflat⟩ := level (hsub node) hparts
    exact ⟨root :: parts'.flatten, walkDown_succ_eq_ok.2 ⟨node, parts', hnode, hp, rfl⟩,
      hflat.cons_cons root⟩

end Grammar

theorem Node.matchedChildren_sublist (node : Node) :
    node.matchedChildren.Sublist node.children := by
  unfold Node.matchedChildren Node.children
  rcases node.kind with items | alts | ⟨predict, matched⟩ | check | callee | ⟨set, mark⟩
  · exact List.Sublist.refl _
  · exact List.Sublist.refl _
  · exact List.sublist_cons_self predict [matched]
  · exact List.nil_sublist _
  · exact List.Sublist.refl _
  · exact List.Sublist.refl _

/-! ## Places -/

/-- A node of a rule with what comes after it. -/
structure Place where
  node : NodeId
  after : List Frame

namespace Alternatives

/-- What comes after an arm, when `after` comes after the alternative set. -/
def behindArm (alts : Alternatives) (id : NodeId) (after : List Frame) : List Frame :=
  if alts.mode = .star then .node id :: after else after

end Alternatives

def NodeKind.placesBelow (place : Place) : NodeKind → List Place
  | .sequence items => (withRests items).map fun (item, rest) => ⟨item, pushNodes rest place.after⟩
  | .alternatives alts => alts.arms.map fun arm => ⟨arm, alts.behindArm place.node place.after⟩
  | .gate _ matched => [⟨matched, place.after⟩]
  | _ => []

theorem mem_withRests {α : Type} {x : α} {rest items : List α} :
    (x, rest) ∈ withRests items ↔ ∃ before, items = before ++ x :: rest := by
  induction items with
  | nil => simp [withRests]
  | cons item items ih =>
    rw [withRests, List.mem_cons, ih]
    constructor
    · rintro (h | ⟨before, rfl⟩)
      · cases h
        exact ⟨[], rfl⟩
      · exact ⟨item :: before, rfl⟩
    · rintro ⟨before, h⟩
      cases before with
      | nil =>
        cases h
        exact Or.inl rfl
      | cons first before =>
        cases h
        exact Or.inr ⟨before, rfl⟩

theorem map_fst_withRests {α : Type} (items : List α) :
    (withRests items).map Prod.fst = items := by
  induction items with
  | nil => rfl
  | cons item items ih => rw [withRests, List.map_cons, ih]

theorem map_node_placesBelow (place : Place) (node : Node) :
    (node.kind.placesBelow place).map Place.node = node.matchedChildren := by
  unfold NodeKind.placesBelow Node.matchedChildren
  rcases node.kind with items | alts | ⟨predict, matched⟩ | check | callee | ⟨set, mark⟩
  · rw [List.map_map]
    exact map_fst_withRests items
  · rw [List.map_map]
    exact List.map_id' alts.arms
  all_goals rfl

namespace Grammar

def Under (g : Grammar) (place place' : Place) : Prop :=
  ∃ kind, g.kindAt? place.node = some kind ∧ place' ∈ kind.placesBelow place

/-- The place is among those of a rule with this body. -/
def Occurs (g : Grammar) (body : NodeId) (place : Place) : Prop :=
  ReflTransGen g.Under ⟨body, []⟩ place

variable {g : Grammar} {β : Type}
  {visit : NodeId → Node → List Frame → Except (Failure GenerationError) (List β)} {depth : Nat}

/-- One step of a visit: the node, and then the places right below it. -/
theorem visitDown_succ (id : NodeId) (after : List Frame) :
    g.visitDown visit (depth + 1) id after = (do
      let node ← g.node id
      let here ← visit id node after
      let below ← (node.kind.placesBelow ⟨id, after⟩).mapM fun place =>
        g.visitDown visit depth place.node place.after
      return here ++ below.flatten) := by
  rw [visitDown]
  refine congrArg _ (funext fun node => congrArg _ (funext fun here => ?_))
  rcases node.kind with items | alts | ⟨predict, matched⟩ | check | callee | ⟨set, mark⟩
  · simp only [NodeKind.placesBelow, List.mapM_map]
    rfl
  · simp only [NodeKind.placesBelow, List.mapM_map]
    rfl
  · simp only [NodeKind.placesBelow, List.mapM_cons, List.mapM_nil, bind_assoc, pure_bind]
  all_goals rfl

theorem visitDown_succ_eq_ok {id : NodeId} {after : List Frame} {results : List β} :
    g.visitDown visit (depth + 1) id after = .ok results ↔
    ∃ node here below, g.node id = .ok node ∧ visit id node after = .ok here ∧
      List.Forall₂ (fun (place : Place) found =>
        g.visitDown visit depth place.node place.after = .ok found)
        (node.kind.placesBelow ⟨id, after⟩) below ∧ results = here ++ below.flatten := by
  rw [visitDown_succ]
  constructor
  · intro h
    obtain ⟨node, hnode, h⟩ := bind_eq_ok.1 h
    obtain ⟨here, hhere, h⟩ := bind_eq_ok.1 h
    obtain ⟨below, hbelow, h⟩ := bind_eq_ok.1 h
    exact ⟨node, here, below, liftM_eq_ok.1 hnode, hhere, mapM_eq_ok.1 hbelow, (pure_eq_ok.1 h).symm⟩
  · rintro ⟨node, here, below, hnode, hhere, hbelow, rfl⟩
    exact bind_eq_ok.2 ⟨node, liftM_eq_ok.2 hnode, bind_eq_ok.2 ⟨here, hhere,
      bind_eq_ok.2 ⟨below, mapM_eq_ok.2 hbelow, rfl⟩⟩⟩

/-- What a visit meets: the places under its start, in the order of the walk, each of them with its
results. -/
theorem exists_places (place : Place) {results : List β}
    (h : g.visitDown visit depth place.node place.after = .ok results) :
    ∃ places found, g.walkDown Node.matchedChildren depth place.node =
        .ok (places.map Place.node) ∧
      List.Forall₂ (fun (p : Place) r => ∃ node, g.node p.node = .ok node ∧
        visit p.node node p.after = .ok r) places found ∧
      results = found.flatten ∧ ∀ p, p ∈ places ↔ ReflTransGen g.Under place p := by
  induction depth generalizing place results with
  | zero => cases h
  | succ depth ih =>
    obtain ⟨node, here, below, hnode, hhere, hbelow, rfl⟩ := visitDown_succ_eq_ok.1 h
    -- The same for the places right below, all together.
    have level : ∀ {starts : List Place} {below : List (List β)},
        List.Forall₂ (fun (p : Place) found => g.visitDown visit depth p.node p.after = .ok found)
          starts below →
        ∃ places found parts, List.Forall₂ (fun child part =>
            g.walkDown Node.matchedChildren depth child = .ok part) (starts.map Place.node) parts ∧
          parts.flatten = places.map Place.node ∧
          List.Forall₂ (fun (p : Place) r => ∃ node, g.node p.node = .ok node ∧
            visit p.node node p.after = .ok r) places found ∧
          below.flatten = found.flatten ∧
          ∀ p, p ∈ places ↔ ∃ start ∈ starts, ReflTransGen g.Under start p := by
      intro starts below hall
      induction hall with
      | nil => exact ⟨[], [], [], .nil, rfl, .nil, rfl, by simp⟩
      | @cons start part starts below hstart _ ihall =>
        obtain ⟨places₁, found₁, hwalk₁, hfound₁, rfl, hmem₁⟩ := ih start hstart
        obtain ⟨places₂, found₂, parts, hparts, hflat, hfound₂, hbelow, hmem₂⟩ := ihall
        refine ⟨places₁ ++ places₂, found₁ ++ found₂, places₁.map Place.node :: parts,
          .cons hwalk₁ hparts, ?_, List.rel_append hfound₁ hfound₂, ?_, ?_⟩
        · rw [List.flatten_cons, hflat, List.map_append]
        · rw [List.flatten_cons, hbelow, List.flatten_append]
        · intro p
          rw [List.mem_append, hmem₁, hmem₂]
          simp
    obtain ⟨places, found, parts, hparts, hflat, hfound, hall, hmem⟩ := level hbelow
    have hkind := kindAt?_of_node hnode
    refine ⟨place :: places, here :: found, ?_, .cons ⟨node, hnode, hhere⟩ hfound, ?_, ?_⟩
    · refine walkDown_succ_eq_ok.2 ⟨node, parts, hnode, ?_, ?_⟩
      · rw [← map_node_placesBelow place]
        exact hparts
      · rw [hflat, List.map_cons]
    · rw [List.flatten_cons, hall]
    · intro p
      rw [List.mem_cons, hmem]
      constructor
      · rintro (rfl | ⟨start, hstart, hreach⟩)
        · exact .refl
        · exact .head ⟨node.kind, hkind, hstart⟩ hreach
      · intro hreach
        rcases hreach.cases_head with rfl | ⟨start, ⟨kind, hk, hstart⟩, hrest⟩
        · exact Or.inl rfl
        · rw [hkind] at hk
          cases hk
          exact Or.inr ⟨start, hstart, hrest⟩

/-- A visit of the same nodes succeeds if it does so at each of them. -/
theorem exists_visitDown {g' : Grammar}
    {visit' : NodeId → Node → List Frame → Except (Failure GenerationError) (List β)}
    (hnodes : g'.nodes = g.nodes)
    (hvisit : ∀ id node after here, visit id node after = .ok here →
      ∃ here', visit' id node after = .ok here')
    {id : NodeId} {after : List Frame} {results : List β}
    (h : g.visitDown visit depth id after = .ok results) :
    ∃ results', g'.visitDown visit' depth id after = .ok results' := by
  induction depth generalizing id after results with
  | zero => cases h
  | succ depth ih =>
    obtain ⟨node, here, below, hnode, hhere, hbelow, rfl⟩ := visitDown_succ_eq_ok.1 h
    obtain ⟨here', hhere'⟩ := hvisit id node after here hhere
    have level : ∀ {places : List Place} {below : List (List β)},
        List.Forall₂ (fun (place : Place) found =>
          g.visitDown visit depth place.node place.after = .ok found) places below →
        ∃ below', List.Forall₂ (fun (place : Place) found =>
          g'.visitDown visit' depth place.node place.after = .ok found) places below' := by
      intro places below hall
      induction hall with
      | nil => exact ⟨[], .nil⟩
      | cons hfirst _ ihall =>
        obtain ⟨found', hfound'⟩ := ih hfirst
        obtain ⟨below', hbelow'⟩ := ihall
        exact ⟨found' :: below', .cons hfound' hbelow'⟩
    obtain ⟨below', hbelow'⟩ := level hbelow
    have hnode' : g'.node id = .ok node := by
      rw [Grammar.node, hnodes]
      exact hnode
    exact ⟨_, visitDown_succ_eq_ok.2 ⟨node, here', below', hnode', hhere', hbelow', rfl⟩⟩

end Grammar

end PredictiveParser
