import PredictiveParser.Proofs.Analysis.AtOnce
import PredictiveParser.Proofs.Grammar.Trees
import PredictiveParser.Proofs.Method.Alternatives
import PredictiveParser.Proofs.Method.Lowering

/-!
# What lowering says

All that lowering a rule ever says is that an arm cannot be reached or a loop not be left. It says so once
for each alternative set that it writes code for, and in one form of the rule only. An arm that no leaf
chooses has no code, so nothing is said about alternative sets inside it (`events_lowerDown`).
-/
namespace PredictiveParser

/-! ## Silent steps -/

namespace Lower

/-- Whatever comes of the step, it says nothing. -/
def Silent {α : Type} (x : Lower α) : Prop :=
  Logs LowerState.events (fun _ => False) x

variable {α β : Type} {st st' : LowerState} {wanted : Enclosure} {shared : List (Nat × List Stmt)}

theorem Silent.events {x : Lower α} {a : α} (h : Silent x) (hx : Yields x st a st') :
    st'.events = st.events := by
  obtain ⟨more, hmore, hnone⟩ := h.yields hx
  rw [hmore, List.eq_nil_iff_forall_not_mem.2 hnone, List.append_nil]

theorem silent_pure (a : α) : Silent (pure a) := logs_pure a

theorem silent_lift (result : Except (Failure GenerationError) α) : Silent (lift result) :=
  logs_lift result

theorem silent_modify {f : LowerState → LowerState} (h : ∀ s, (f s).events = s.events) :
    Silent (modify f) :=
  logs_modify fun s => by
    rw [h]
    exact .refl _ _

theorem Silent.bind {x : Lower α} {f : α → Lower β} (hx : Silent x) (hf : ∀ a, Silent (f a)) :
    Silent (x >>= f) :=
  Logs.bind hx hf

theorem silent_refer (set : CharSet) : Silent (refer set) :=
  Logs.bind logs_get fun _ => Silent.bind (silent_modify fun _ => rfl) fun _ => silent_pure _

theorem silent_nextStop : Silent nextStop :=
  Silent.bind (silent_modify fun _ => rfl) fun _ => Logs.bind logs_get fun _ => silent_pure _

theorem silent_loopLabel : Silent (loopLabel wanted shared) := by
  unfold loopLabel
  split
  · exact silent_nextStop.bind fun _ => silent_pure _
  · exact silent_pure none

theorem silent_sharedSuffix : Silent (sharedSuffix shared) := by
  unfold sharedSuffix
  split
  · exact silent_pure ""
  · exact Logs.bind logs_get fun _ => Silent.bind (silent_modify fun _ => rfl) fun _ => silent_pure _

theorem silent_surround {label : Option String} {suffix : String} {jumpOver : Bool}
    {decision : List Stmt} : Silent (surround wanted label suffix jumpOver shared decision) := by
  unfold surround
  dsimp only
  split
  · exact silent_pure _
  · exact silent_nextStop.bind fun _ => silent_pure _
  · exact silent_pure _

end Lower

namespace MethodPlan

open Lower

variable {m : MethodPlan} {wanted : Enclosure} {leaves : List (List Stmt)} {coverage : CharSet}
  {label : Option String}

theorem silent_lowerError : Silent (m.lowerError coverage) := by
  unfold lowerError
  split
  · exact silent_pure _
  · exact (silent_refer _).bind fun _ => silent_pure _

theorem silent_levelLabel {plan : LevelPlan} {count : Nat} : Silent (levelLabel plan wanted count label) := by
  unfold levelLabel
  split
  · exact silent_nextStop.bind fun _ => silent_pure _
  · exact silent_pure label

theorem silent_lowerLevel {plan : LevelPlan} {offset : Nat} {isAssertion : Bool}
    {branches : List (Branch Decision)} {codes : List (List Stmt)} :
    Silent (m.lowerLevel plan offset isAssertion branches codes) := by
  unfold lowerLevel
  split
  · exact silent_pure _
  · refine (silent_lift _).bind fun chain => ?_
    dsimp only
    split
    · exact Silent.bind (silent_modify fun _ => rfl) fun _ => silent_pure _
    · exact silent_pure _

mutual

theorem silent_lowerDecision (m : MethodPlan) (wanted : Enclosure) (leaves : List (List Stmt))
    (coverage : CharSet) (label : Option String) :
    (tree : Decision) → Silent (m.lowerDecision wanted leaves coverage label tree)
  | .pick (.arm index) => by
    rw [lowerDecision]
    exact silent_pure _
  | .pick .exit => by
    rw [lowerDecision]
    exact silent_pure _
  | .pick .error => by
    rw [lowerDecision]
    exact silent_lowerError.bind fun _ => silent_pure _
  | .level offset isAssertion branches coverage => by
    rw [lowerDecision]
    refine silent_levelLabel.bind fun label => ?_
    refine (silent_lowerBranches m wanted leaves coverage label branches).bind fun _ => ?_
    exact silent_lowerLevel.bind fun _ => silent_pure _

theorem silent_lowerBranches (m : MethodPlan) (wanted : Enclosure) (leaves : List (List Stmt))
    (coverage : CharSet) (label : Option String) :
    (branches : List (Branch Decision)) → Silent (m.lowerBranches wanted leaves coverage label branches)
  | [] => by
    rw [lowerBranches]
    exact silent_pure _
  | ⟨_, _, _, target⟩ :: rest => by
    rw [lowerBranches]
    refine (silent_lowerDecision m wanted leaves coverage label target).bind fun first => ?_
    exact (silent_lowerBranches m wanted leaves coverage first.2 rest).bind fun _ => silent_pure _

end

theorem silent_lowerAlternatives {alts : Alternatives} {tree : Decision} {arms : List (List Stmt)} :
    Silent (m.lowerAlternatives alts tree arms) := by
  unfold lowerAlternatives
  refine silent_loopLabel.bind fun label => silent_sharedSuffix.bind fun suffix => ?_
  exact (silent_lowerDecision m _ _ _ _ _).bind fun _ => silent_surround

theorem silent_lowerTerminal {set : CharSet} {mark : Option Bool} {saver : Option Saver} :
    Silent (m.lowerTerminal set mark saver) := by
  unfold lowerTerminal
  split
  · exact (silent_refer _).bind fun _ => silent_pure _
  · split
    · exact silent_pure _
    · exact (silent_refer _).bind fun _ => silent_pure _

end MethodPlan

/-! ## Warnings -/

/-- The warning that lists the arms that cannot be reached, if there are some. -/
def unreachableText (arms : List Nat) : List String :=
  match arms.map fun index => toString (index + 1) with
  | [] => []
  | [only] => ["Branch " ++ only ++ " is unreachable."]
  | several => ["Branches " ++ ", ".intercalate several ++ " are unreachable."]

def endlessText (endless : Bool) : List String :=
  if endless then ["Infinite loop. The exit branch is unreachable."] else []

/-- Warnings about a node, said by the form that reports. -/
def MethodPlan.warnings (m : MethodPlan) (id : NodeId) (texts : List String) : List Event :=
  if m.reports then texts.map (.atNode m.grammar .warning m.rule.name id) else []

namespace Alternatives

def unusedArms (alts : Alternatives) (tree : Decision) : List Nat :=
  (List.range alts.arms.length).filter fun index => !tree.uses (.arm index)

/-- There is an exit, and no leaf of the tree chooses it. -/
def isEndless (alts : Alternatives) (tree : Decision) : Bool :=
  alts.hasExit && !tree.uses .exit

theorem mem_unusedArms {alts : Alternatives} {tree : Decision} {index : Nat} :
    index ∈ alts.unusedArms tree ↔ index < alts.arms.length ∧ .arm index ∉ tree.leaves := by
  simp [unusedArms, Decision.uses]

theorem isEndless_iff {alts : Alternatives} {tree : Decision} :
    alts.isEndless tree = true ↔ alts.hasExit = true ∧ .exit ∉ tree.leaves := by
  simp [isEndless, Decision.uses]

end Alternatives

/-- The nodes directly below that code is written for: those that are matched with the node, without the
arms that its prediction never chooses. -/
def Node.writtenChildren (node : Node) : List NodeId :=
  match node.kind with
  | .alternatives alts =>
    match alts.prediction with
    | some tree => (alts.arms.zipIdx.filter fun entry => tree.uses (.arm entry.2)).map Prod.fst
    | none => []
  | _ => node.matchedChildren

theorem Node.sublist_writtenChildren (node : Node) :
    node.writtenChildren.Sublist node.matchedChildren := by
  unfold writtenChildren
  split
  · rename_i alts hkind
    rw [matchedChildren, hkind]
    split
    · rename_i tree htree
      have hsub := (List.filter_sublist (l := alts.arms.zipIdx)
        (p := fun entry => tree.uses (.arm entry.2))).map Prod.fst
      rwa [List.zipIdx_map_fst] at hsub
    · exact List.nil_sublist _
  · exact List.Sublist.refl _

namespace MethodPlan

open Lower

variable {m : MethodPlan} {id : NodeId} {alts : Alternatives} {tree : Decision} {st st' : LowerState}
  {depth : Nat} {code : List Stmt}

/-- What there is to say about a node, if it is an alternative set with a tree. -/
def unreachableAt (m : MethodPlan) (id : NodeId) : List Event :=
  match m.grammar.kindAt? id with
  | some (.alternatives alts) =>
    match alts.prediction with
    | some tree =>
      m.warnings id (unreachableText (alts.unusedArms tree) ++ endlessText (alts.isEndless tree))
    | none => []
  | _ => []

theorem unreachableAt_eq (hk : m.grammar.kindAt? id = some (.alternatives alts))
    (htree : alts.prediction = some tree) : m.unreachableAt id =
      m.warnings id (unreachableText (alts.unusedArms tree) ++ endlessText (alts.isEndless tree)) := by
  rw [unreachableAt, hk]
  simp only [htree]

theorem unreachableAt_of_ne (hk : ∀ alts, m.grammar.kindAt? id ≠ some (.alternatives alts)) :
    m.unreachableAt id = [] := by
  unfold unreachableAt
  split
  · rename_i alts halts
    exact (hk alts halts).elim
  · rfl

theorem warnings_append (m : MethodPlan) (id : NodeId) (texts others : List String) :
    m.warnings id (texts ++ others) = m.warnings id texts ++ m.warnings id others := by
  unfold warnings
  split
  · exact List.map_append
  · rfl

theorem node?_of_mem_warnings {event : Event} {texts : List String} (h : event ∈ m.warnings id texts) :
    event.node? = some id := by
  unfold warnings at h
  split at h
  · obtain ⟨text, -, rfl⟩ := List.mem_map.1 h
    rfl
  · cases h

theorem yields_warn {text : String} (h : Yields (m.warn id text) st ⟨⟩ st') :
    st'.events = st.events ++ m.warnings id [text] := by
  unfold warn at h
  unfold warnings
  split at h
  · rename_i hreports
    rw [yields_modify.1 h, if_pos hreports]
    rfl
  · rename_i hreports
    rw [(yields_pure.1 h).2, if_neg hreports, List.append_nil]

theorem warnings_nil : m.warnings id [] = [] := by
  unfold warnings
  exact ite_self []

/-- What is said about unreachable arms and endless loops. -/
theorem yields_warnUnreachable (h : Yields (m.warnUnreachable id alts tree) st ⟨⟩ st') :
    st'.events = st.events ++
      m.warnings id (unreachableText (alts.unusedArms tree) ++ endlessText (alts.isEndless tree)) := by
  have loop : ∀ {st st' : LowerState}, Yields (if (alts.hasExit && !tree.uses .exit) = true then
      m.warn id "Infinite loop. The exit branch is unreachable." else pure ()) st ⟨⟩ st' →
      st'.events = st.events ++ m.warnings id (endlessText (alts.isEndless tree)) := by
    intro st st' h
    unfold Alternatives.isEndless endlessText
    split at h
    · rename_i hendless
      rw [yields_warn h, if_pos hendless]
    · rename_i hendless
      rw [(yields_pure.1 h).2, if_neg hendless, warnings_nil, List.append_nil]
  have harms : ((List.range alts.arms.length).filter fun i => !tree.uses (.arm i)) =
      alts.unusedArms tree := rfl
  unfold warnUnreachable at h
  dsimp only at h
  rw [harms] at h
  rw [warnings_append, ← List.append_assoc]
  unfold unreachableText
  generalize (alts.unusedArms tree).map (fun index => toString (index + 1)) = texts at h ⊢
  match texts, h with
  | [], h =>
    rw [warnings_nil, List.append_nil]
    exact loop h
  | [only], h =>
    obtain ⟨_, st₁, hwarn, h⟩ := yields_bind.1 h
    rw [← yields_warn hwarn]
    exact loop h
  | first :: second :: rest, h =>
    obtain ⟨_, st₁, hwarn, h⟩ := yields_bind.1 h
    rw [← yields_warn hwarn]
    exact loop h

/-! ## Lowering a tree -/

/-- Lowering one node after the other says what lowering each of them does. Entries that are passed over
say nothing. -/
theorem events_mapM {α β : Type} {f : α → Lower β} {walk : NodeId → Except Fault (List NodeId)}
    {as : List α} {bs : List β} (node : α → NodeId) (taken : α → Bool)
    (htaken : ∀ a ∈ as, taken a = true → ∀ st b st', Yields (f a) st b st' →
      ∃ ids, walk (node a) = .ok ids ∧ st'.events = st.events ++ ids.flatMap m.unreachableAt)
    (hpassed : ∀ a ∈ as, taken a = false → ∀ st b st', Yields (f a) st b st' → st'.events = st.events)
    (h : Yields (as.mapM f) st bs st') :
    ∃ parts, List.Forall₂ (fun id part => walk id = .ok part) ((as.filter taken).map node) parts ∧
      st'.events = st.events ++ parts.flatten.flatMap m.unreachableAt := by
  induction as generalizing st bs with
  | nil =>
    obtain ⟨-, rfl⟩ := yields_mapM_nil.1 h
    exact ⟨[], .nil, (List.append_nil _).symm⟩
  | cons a as ih =>
    obtain ⟨b, st₁, bs, hfirst, hrest, rfl⟩ := yields_mapM_cons.1 h
    obtain ⟨parts, hparts, hevents⟩ := ih (fun a ha => htaken a (List.mem_cons_of_mem _ ha))
      (fun a ha => hpassed a (List.mem_cons_of_mem _ ha)) hrest
    cases htake : taken a with
    | true =>
      obtain ⟨ids, hids, hfirst⟩ := htaken a List.mem_cons_self htake _ _ _ hfirst
      refine ⟨ids :: parts, ?_, ?_⟩
      · rw [List.filter_cons_of_pos htake, List.map_cons]
        exact .cons hids hparts
      · rw [hevents, hfirst, List.flatten_cons, List.flatMap_append, List.append_assoc]
    | false =>
      rw [List.filter_cons_of_neg (by simp [htake])]
      refine ⟨parts, hparts, ?_⟩
      rw [hevents, hpassed a List.mem_cons_self htake _ _ _ hfirst]

/-- What is said by code for a node of this kind: first what there is to say about the node, then what is
said about the nodes below that code is written for. -/
theorem events_lowerKind {node : Node} (hk : m.grammar.kindAt? id = some node.kind)
    (hbelow : ∀ id st code st', Yields (m.lowerDown depth id) st code st' →
      ∃ ids, m.grammar.walkDown Node.writtenChildren depth id = .ok ids ∧
        st'.events = st.events ++ ids.flatMap m.unreachableAt)
    (h : Yields (m.lowerKind (m.lowerDown depth) id node.saver node.kind) st code st') :
    ∃ parts, List.Forall₂ (fun child part =>
        m.grammar.walkDown Node.writtenChildren depth child = .ok part) node.writtenChildren parts ∧
      st'.events = st.events ++ m.unreachableAt id ++ parts.flatten.flatMap m.unreachableAt := by
  have plain : (∀ alts, node.kind ≠ .alternatives alts) →
      m.unreachableAt id = [] ∧ node.writtenChildren = node.matchedChildren := by
    intro hother
    refine ⟨unreachableAt_of_ne fun alts halts => hother alts (Option.some.inj (hk.symm.trans halts)), ?_⟩
    unfold Node.writtenChildren
    split
    · rename_i alts halts
      exact (hother alts halts).elim
    · rfl
  have leaf : (∀ alts, node.kind ≠ .alternatives alts) → node.matchedChildren = [] →
      st'.events = st.events → ∃ parts, List.Forall₂ (fun child part =>
          m.grammar.walkDown Node.writtenChildren depth child = .ok part) node.writtenChildren parts ∧
        st'.events = st.events ++ m.unreachableAt id ++ parts.flatten.flatMap m.unreachableAt := by
    intro hother hnone hevents
    obtain ⟨hquiet, hchildren⟩ := plain hother
    rw [hchildren, hnone, hquiet, hevents]
    exact ⟨[], .nil, by simp⟩
  generalize hkind : node.kind = kind at h
  cases yields_lowerKind h with
  | sequence each =>
    obtain ⟨hquiet, hchildren⟩ := plain (by simp [hkind])
    obtain ⟨parts, hparts, hevents⟩ := events_mapM (fun item => item) (fun _ => true)
      (fun item _ _ => hbelow item) (fun _ _ hpassed => by cases hpassed) each
    rw [hquiet, List.append_nil, hchildren, Node.matchedChildren, hkind]
    rw [List.filter_true, List.map_id'] at hparts
    exact ⟨parts, hparts, hevents⟩
  | @alternatives alts _ _ _ set =>
    rw [hkind] at hk
    obtain ⟨tree, arms, st₁, st₂, htree, hwarned, harms, hset⟩ := yields_lowerSet_parts set
    obtain ⟨hprediction, -⟩ := yields_predictionTree htree
    obtain ⟨parts, hparts, hevents⟩ := events_mapM Prod.fst (fun entry => tree.uses (.arm entry.2))
      (fun entry _ huses st code st' harm => hbelow entry.1 st code st' (by
        simpa only [huses, if_true] using harm))
      (fun entry _ hunused st code st' harm => by
        simp only [hunused, Bool.false_eq_true, if_false] at harm
        rw [(yields_pure.1 harm).2]) harms
    have hchildren : node.writtenChildren =
        (alts.arms.zipIdx.filter fun entry => tree.uses (.arm entry.2)).map Prod.fst := by
      rw [Node.writtenChildren, hkind]
      simp only [hprediction]
    refine ⟨parts, hchildren ▸ hparts, ?_⟩
    rw [silent_lowerAlternatives.events hset, hevents, yields_warnUnreachable hwarned,
      unreachableAt_eq hk hprediction]
  | gate below =>
    obtain ⟨hquiet, hchildren⟩ := plain (by simp [hkind])
    obtain ⟨ids, hids, hevents⟩ := hbelow _ st code st' below
    rw [hquiet, List.append_nil, hchildren, Node.matchedChildren, hkind]
    exact ⟨[ids], .cons hids .nil, by simpa using hevents⟩
  | proven | check | call =>
    exact leaf (by simp [hkind]) (by simp [Node.matchedChildren, hkind]) rfl
  | terminal step =>
    exact leaf (by simp [hkind]) (by simp [Node.matchedChildren, hkind])
      (silent_lowerTerminal.events step)

/-- **What lowering a tree says**: of each node that code is written for, which arms cannot be reached and
whether the loop is endless. -/
theorem events_lowerDown (h : Yields (m.lowerDown depth id) st code st') :
    ∃ ids, m.grammar.walkDown Node.writtenChildren depth id = .ok ids ∧
      st'.events = st.events ++ ids.flatMap m.unreachableAt := by
  induction depth generalizing id st code st' with
  | zero =>
    rw [lowerDown] at h
    exact (not_yields_throw h).elim
  | succ depth ih =>
    obtain ⟨node, body, hnode, hbody, -⟩ := yields_lowerDown h
    obtain ⟨parts, hparts, hevents⟩ :=
      events_lowerKind (Grammar.kindAt?_of_node hnode) (fun id st code st' h => ih h) hbody
    refine ⟨_, Grammar.walkDown_succ_eq_ok.2 ⟨node, parts, hnode, hparts, rfl⟩, ?_⟩
    rw [hevents, List.flatMap_cons, List.append_assoc]

/-- **What lowering a method says.** -/
theorem events_lowerMethod {method : Method} (h : Yields m.lowerMethod st method st') :
    ∃ ids, m.grammar.walkDown Node.writtenChildren m.grammar.depthBound m.rule.body = .ok ids ∧
      st'.events = st.events ++ ids.flatMap m.unreachableAt := by
  obtain ⟨statements, st₁, hbody, h⟩ := yields_bind.1 h
  obtain ⟨tokens, -, h⟩ := yields_lift_bind.1 h
  obtain ⟨-, rfl⟩ := yields_pure.1 h
  obtain ⟨code, st₂, hcode, hbody⟩ := yields_bind.1 hbody
  have hbody := yields_get_bind.1 hbody
  obtain ⟨-, rfl⟩ := yields_pure.1 hbody
  exact events_lowerDown hcode

end MethodPlan

end PredictiveParser
