import PredictiveParser.Proofs.Values.Declarations
import PredictiveParser.Proofs.Values.Scope

/-!
# Storing values, node by node

`Saving.SavedThrough` is what holds once some of the nodes have had their turn to store their values.
Each of them has a variable if it is to have one, and none has lost the one it had. The variables that
are new are declared in the order of their names, as the first of the nodes expects that stores into
them. The others of these nodes that expect another type are reported, each of them once.

`SavedThrough.step` shows this for one more node, which may have had its turn before, and
`savedThrough_saveNodes` for all of them.
-/
namespace PredictiveParser

open Template

/-! ## What a node stores -/

namespace Grammar

variable {g g' : Grammar} {options : Options} {node : Node} {name : String}

/-- The declaration of a variable as the node expects it. -/
def declarationOf (g : Grammar) (options : Options) (node : Node) (name : String) : Declared :=
  .ofType options.listType node.isList (g.valueType? options node) name

theorem declarationOf_of_rules (h : g'.rules = g.rules) :
    g'.declarationOf options node name = g.declarationOf options node name := by
  rw [declarationOf, valueType?_of_rules h, declarationOf]

/-- The declaration that a node expects of the variable in which it stores its value. -/
def savedAt? (g : Grammar) (options : Options) (id : NodeId) : Option Declared :=
  g.nodes[id]?.bind fun node => node.saver.map fun saver => g.declarationOf options node saver.name

theorem savedAt?_frame {id : NodeId} (hrules : g'.rules = g.rules)
    (hnode : g'.nodes[id]? = g.nodes[id]?) : g'.savedAt? options id = g.savedAt? options id := by
  rw [savedAt?, savedAt?, hnode]
  simp only [declarationOf_of_rules hrules]

/-- The same, if the node stores no value in the first grammar. -/
def newlySavedAt? (g g' : Grammar) (options : Options) (id : NodeId) : Option Declared :=
  if (g.nodes[id]?.bind Node.saver).isSome then none else g'.savedAt? options id

theorem savedAt?_of_newlySavedAt? {id : NodeId} {new : Declared}
    (h : g.newlySavedAt? g' options id = some new) : g'.savedAt? options id = some new := by
  unfold newlySavedAt? at h
  split at h
  · cases h
  · exact h

end Grammar

namespace Referenced

variable {refs : Referenced} {node : Node}

/-- The variable in which the node stores its value once it had its turn, and did not before. -/
def newlyStored? (refs : Referenced) (node : Node) : Option String :=
  if node.saver.isSome then none else refs.storedIn? node

/-- The node once it had its turn. -/
def storing (refs : Referenced) (node : Node) : Node :=
  { node with saver := node.saver.or ((refs.storedIn? node).map (⟨·, node.isList⟩)) }

theorem storedIn?_withSaver (saver : Option Saver) :
    refs.storedIn? { node with saver } = refs.storedIn? node := rfl

theorem foundBy?_eq_none (h : refs.storedIn? node = none) : refs.foundBy? node = none := by
  unfold storedIn? at h
  unfold foundBy?
  cases hkind : node.kind with
  | terminal set mark =>
    cases hlabel : node.label with
    | some label => rfl
    | none =>
      simp only [hkind, hlabel, Option.none_or] at h
      rcases hfor : node.basis.bind refs.variableFor? with _ | ⟨key, _ | name⟩
      · rfl
      · rfl
      · rw [hfor] at h
        cases h
  | _ => rfl

/-- What a terminal is found for is a reference that has the variable of the terminal. -/
theorem storedIn?_of_foundBy? {key : String} (h : refs.foundBy? node = some key) :
    ∃ name, refs.others.find? (·.key == key) = some ⟨key, some name⟩ ∧
      refs.storedIn? node = some name := by
  unfold foundBy? at h
  unfold storedIn?
  split at h
  · rename_i set mark hkind hlabel
    split at h
    · rename_i key' name hfor
      cases h
      obtain ⟨basis, -, hbasis⟩ := Option.bind_eq_some_iff.1 hfor
      obtain ⟨hfind, -⟩ := Option.filter_eq_some_iff.1 hbasis
      have hkey : key = basis.normalText := by simpa using List.find?_some hfind
      refine ⟨name, hkey ▸ hfind, ?_⟩
      simp only [hkind, hlabel, hfor, Option.none_or, Option.bind_some]
    · cases h
  · cases h

/-- A second turn changes nothing. -/
theorem newlyStored?_storing (refs : Referenced) (node : Node) :
    refs.newlyStored? (refs.storing node) = none := by
  unfold newlyStored? storing
  rw [storedIn?_withSaver]
  cases node.saver with
  | some saver => rfl
  | none =>
    cases hstored : refs.storedIn? node with
    | some name => rfl
    | none => exact hstored

theorem storing_of_newlyStored?_eq_none (h : refs.newlyStored? node = none) :
    refs.storing node = node := by
  unfold newlyStored? at h
  unfold storing
  cases hsaver : node.saver with
  | some saver =>
    rw [Option.some_or, ← hsaver]
  | none =>
    rw [hsaver, if_neg (by simp)] at h
    rw [h, Option.map_none, Option.or_none, ← hsaver]

theorem storing_of_newlyStored? {name : String} (h : refs.newlyStored? node = some name) :
    refs.storing node = { node with saver := some ⟨name, node.isList⟩ } := by
  unfold newlyStored? at h
  split at h
  · cases h
  · rename_i hsaver
    rw [Option.not_isSome_iff_eq_none] at hsaver
    rw [storing, hsaver, h]
    rfl

end Referenced

namespace Saving

variable {saving saving' start : Saving} {refs : Referenced} {rule name : String}
  {options : Options} {id : NodeId} {node : Node}

/-! ## One node -/

/-- The declaration for a node that stores its value from now on, and what is said about it. -/
structure Stores (rule : String) (saving : Saving) (id : NodeId) (new : Declared) (isList : Bool)
    (saving' : Saving) : Prop where
  grammar : saving.grammar.modifyNode id ({ · with saver := some ⟨new.name, isList⟩ }) =
    .ok saving'.grammar
  declared : saving'.declared = new.add saving.declared
  found : saving'.found = saving.found
  mismatches : saving'.events.filter Event.isMismatch = saving.events.filter Event.isMismatch ++
    (saving.grammar.mismatch? rule saving.declared id new).toList

theorem declareAs_eq (saving : Saving) (rule : String) (id : NodeId) {new : Declared}
    {type init : Tokens} (hnew : new = ⟨name, Tokens.text type, declare name type init⟩) :
    (saving.declareAs rule id name type init).declared = new.add saving.declared ∧
      (saving.declareAs rule id name type init).found = saving.found ∧
      (saving.declareAs rule id name type init).events =
        saving.events ++ (saving.grammar.mismatch? rule saving.declared id new).toList := by
  subst hnew
  unfold declareAs Declared.add Grammar.mismatch? Declared.find?
  simp only
  split
  · rename_i hnone
    rw [hnone]
    exact ⟨rfl, rfl, (List.append_nil _).symm⟩
  · rename_i existing hsome
    rw [hsome]
    simp only [beq_iff_eq, Option.bind_some]
    split
    · exact ⟨rfl, rfl, (List.append_nil _).symm⟩
    · exact ⟨rfl, rfl, rfl⟩

/-- That a type is not known is said, and this is no conflict. -/
theorem orUnknown_eq (saving : Saving) (rule : String) (id : NodeId) (type : Option Tokens) :
    ∃ unknown, saving.orUnknown rule id type = (unknown, type.getD (word "_")) ∧
      unknown.grammar = saving.grammar ∧ unknown.declared = saving.declared ∧
      unknown.found = saving.found ∧
      unknown.events.filter Event.isMismatch = saving.events.filter Event.isMismatch := by
  cases type with
  | some type => exact ⟨saving, rfl, rfl, rfl, rfl, rfl⟩
  | none =>
    refine ⟨_, rfl, rfl, rfl, rfl, ?_⟩
    have hdiverges : DivergesFrom
        "The type of this expression is unknown (did you set the terminal_type option?)"
        "Type mismatch: " := by
      constructor <;> decide
    rw [say, List.filter_append, List.filter_singleton, Event.not_isMismatch hdiverges]
    exact List.append_nil _

theorem store_of_saver {saver : Saver} {type : Option Tokens} (hsaver : node.saver = some saver) :
    saving.store rule options id node name type = .ok saving := by
  unfold store
  rw [hsaver]
  rfl

theorem stores_store {type : Option Tokens} (hsaver : node.saver = none)
    (h : saving.store rule options id node name type = .ok saving') :
    Stores rule saving id (.ofType options.listType node.isList type name) node.isList saving' := by
  obtain ⟨unknown, hunknown, hgrammar, hdeclared, hfound, hmismatches⟩ :=
    orUnknown_eq saving rule id type
  generalize hnew : Declared.ofType options.listType node.isList type name = new
  unfold store at h
  unfold Declared.ofType at hnew
  rw [hsaver, if_neg (by simp), hunknown] at h
  dsimp only at h
  generalize variableType options.listType (type.getD (word "_")) node.isList = typed at h hnew
  obtain ⟨typed, init⟩ := typed
  dsimp only at h hnew
  obtain ⟨name', hname', h⟩ := bind_eq_ok.1 h
  cases checkedName_eq_ok hname'
  obtain ⟨g, hg, h⟩ := bind_eq_ok.1 h
  cases pure_eq_ok.1 h
  obtain ⟨hadd, hsame, hevents⟩ := declareAs_eq unknown rule id hnew.symm
  have hname : new.name = name := by rw [← hnew]
  rw [grammar_declareAs, hgrammar] at hg
  refine ⟨by rw [hname]; exact hg, hdeclared ▸ hadd, hsame.trans hfound, ?_⟩
  have hall : (unknown.grammar.mismatch? rule unknown.declared id new).toList.filter
      Event.isMismatch = (unknown.grammar.mismatch? rule unknown.declared id new).toList :=
    List.filter_eq_self.2 fun event hevent =>
      Grammar.isMismatch_mismatch? (Option.mem_toList.1 hevent)
  dsimp only
  rw [hevents, List.filter_append, hmismatches, hall, hgrammar, hdeclared]

/-- A node that has its turn has nothing new to store, or it stores its value from now on. -/
theorem saveNode_eq_ok (h : saveNode refs rule options saving id = .ok saving') :
    ∃ node, saving.grammar.node id = .ok node ∧
      (refs.newlyStored? node = none ∧
          saving' = { saving with found := (refs.foundBy? node).toList ++ saving.found } ∨
        ∃ name, refs.newlyStored? node = some name ∧
          Stores rule { saving with found := (refs.foundBy? node).toList ++ saving.found } id
            (saving.grammar.declarationOf options node name) node.isList saving') := by
  rw [saveNode_eq] at h
  obtain ⟨node, hnode, h⟩ := bind_eq_ok.1 h
  refine ⟨node, hnode, ?_⟩
  unfold Referenced.newlyStored?
  cases hname : refs.storedIn? node with
  | none =>
    rw [hname] at h
    cases pure_eq_ok.1 h
    rw [Referenced.foundBy?_eq_none hname]
    exact Or.inl ⟨ite_self _, rfl⟩
  | some name =>
    simp only [hname] at h
    cases hsaver : node.saver with
    | some saver =>
      rw [store_of_saver hsaver] at h
      cases h
      exact Or.inl ⟨rfl, rfl⟩
    | none => exact Or.inr ⟨name, rfl, stores_store hsaver h⟩

/-! ## Node by node -/

end Saving

namespace Grammar

variable {g : Grammar} {refs : Referenced} {options : Options} {id : NodeId}

/-- What the node there is to declare when it has its turn. -/
def newAt? (g : Grammar) (refs : Referenced) (options : Options) (id : NodeId) : Option Declared :=
  g.nodes[id]?.bind fun node => (refs.newlyStored? node).map (g.declarationOf options node)

/-- The key of the references for which the node there is a terminal. -/
def foundAt? (g : Grammar) (refs : Referenced) (id : NodeId) : Option String :=
  g.nodes[id]?.bind refs.foundBy?

end Grammar

theorem eraseDups_concat (ids : List NodeId) (id : NodeId) :
    (ids ++ [id]).eraseDups = ids.eraseDups ++ if id ∈ ids then [] else [id] := by
  rw [List.eraseDups_append]
  by_cases hid : id ∈ ids <;> simp [List.removeAll, hid, List.eraseDups_cons]

namespace Saving

variable {saving saving' start : Saving} {refs : Referenced} {rule name : String}
  {options : Options} {id : NodeId} {node : Node} {done : List NodeId}

/-- Where saving stands once these nodes have had their turn. -/
structure SavedThrough (refs : Referenced) (rule : String) (options : Options) (start : Saving)
    (done : List NodeId) (saving : Saving) : Prop where
  nodes : ∀ id : NodeId, saving.grammar.nodes[id]? = start.grammar.nodes[id]?.map fun node =>
    if id ∈ done then refs.storing node else node
  rules : saving.grammar.rules = start.grammar.rules
  ascending : Declared.Ascending saving.declared
  declares : ∀ name, Declared.find? saving.declared name =
    Declared.find? (done.filterMap (start.grammar.newAt? refs options)) name
  found : ∀ key, key ∈ saving.found ↔ ∃ id ∈ done, start.grammar.foundAt? refs id = some key
  mismatches : saving.events.filter Event.isMismatch = start.events.filter Event.isMismatch ++
    done.eraseDups.filterMap fun id => (start.grammar.newAt? refs options id).bind
      (start.grammar.mismatch? rule saving.declared id)

theorem savedThrough_nil (hdeclared : start.declared = []) (hfound : start.found = []) :
    SavedThrough refs rule options start [] start where
  nodes id := by simp
  rules := rfl
  ascending := by
    rw [hdeclared]
    exact .nil
  declares name := by rw [hdeclared]; rfl
  found key := by simp [hfound]
  mismatches := (List.append_nil _).symm

theorem SavedThrough.isSome_find? {expected : Declared}
    (h : SavedThrough refs rule options start done saving) (hid : id ∈ done)
    (hexpected : start.grammar.newAt? refs options id = some expected) :
    (Declared.find? saving.declared expected.name).isSome = true := by
  rw [h.declares]
  exact List.find?_isSome.2 ⟨expected, List.mem_filterMap.2 ⟨id, hid, hexpected⟩, beq_self_eq_true _⟩

/-- Messages name the grammar text of a node, which stays. -/
theorem SavedThrough.mismatch?_eq (h : SavedThrough refs rule options start done saving)
    (declared : List Declared) (expected : Declared) :
    saving.grammar.mismatch? rule declared id expected =
      start.grammar.mismatch? rule declared id expected := by
  refine Grammar.mismatch?_of_agrees ⟨fun id => ?_, h.rules⟩ id
  rw [h.nodes, Option.map_map]
  refine congrFun (congrArg Option.map (funext fun node => ?_)) _
  simp only [Function.comp_apply]
  split <;> rfl

/-- What is said of the nodes that had their turn does not depend on later declarations. -/
theorem SavedThrough.mismatch?_add (h : SavedThrough refs rule options start done saving)
    (new : Declared) :
    done.eraseDups.filterMap (fun id => (start.grammar.newAt? refs options id).bind
        (start.grammar.mismatch? rule (new.add saving.declared) id)) =
      done.eraseDups.filterMap (fun id => (start.grammar.newAt? refs options id).bind
        (start.grammar.mismatch? rule saving.declared id)) := by
  refine List.filterMap_congr fun id hid => Option.bind_congr fun expected hexpected => ?_
  refine Grammar.mismatch?_congr (Declared.find?_add_of_isSome new ?_)
  exact h.isSome_find? (List.mem_eraseDups.1 hid) hexpected

/-- A node that has nothing new to store changes nothing. -/
theorem SavedThrough.idle (h : SavedThrough refs rule options start done saving)
    (hidle : id ∈ done ∨ start.grammar.newAt? refs options id = none)
    (hgrammar : saving'.grammar = saving.grammar) (hdeclared : saving'.declared = saving.declared)
    (hevents : saving'.events = saving.events)
    (hfound : ∀ key, key ∈ saving'.found ↔
      key ∈ saving.found ∨ start.grammar.foundAt? refs id = some key) :
    SavedThrough refs rule options start (done ++ [id]) saving' where
  nodes other := by
    rw [hgrammar, h.nodes]
    by_cases heq : other = id
    · subst heq
      rcases hidle with hdone | hnone
      · simp [hdone]
      · cases hnode : start.grammar.nodes[other]? with
        | none => rfl
        | some node =>
          rw [Grammar.newAt?, hnode, Option.bind_some, Option.map_eq_none_iff] at hnone
          simp [Referenced.storing_of_newlyStored?_eq_none hnone]
    · simp [heq]
  rules := by rw [hgrammar, h.rules]
  ascending := by rw [hdeclared]; exact h.ascending
  declares name := by
    have hsubset : [id].filterMap (start.grammar.newAt? refs options) ⊆
        done.filterMap (start.grammar.newAt? refs options) := by
      intro new hnew
      obtain ⟨other, hother, hnew⟩ := List.mem_filterMap.1 hnew
      cases List.mem_singleton.1 hother
      rcases hidle with hdone | hnone
      · exact List.mem_filterMap.2 ⟨_, hdone, hnew⟩
      · rw [hnone] at hnew
        cases hnew
    rw [hdeclared, h.declares, List.filterMap_append, Declared.find?_append_of_subset hsubset]
  found key := by
    rw [hfound, h.found]
    simp [or_and_right, exists_or]
  mismatches := by
    rw [hevents, hdeclared, h.mismatches, eraseDups_concat, List.filterMap_append]
    rcases hidle with hdone | hnone
    · simp [hdone]
    · split <;> simp [hnone]

/-- A node that stores its value from now on has the variable declared, if no node before it had. -/
theorem SavedThrough.fresh {new : Declared} {isList : Bool} {found : List String}
    (h : SavedThrough refs rule options start done saving) (hid : id ∉ done)
    (hnode : start.grammar.node id = .ok node)
    (hnew : start.grammar.newAt? refs options id = some new)
    (hstoring : refs.storing node = { node with saver := some ⟨new.name, isList⟩ })
    (hstores : Stores rule { saving with found } id new isList saving')
    (hfound : ∀ key, key ∈ found ↔
      key ∈ saving.found ∨ start.grammar.foundAt? refs id = some key) :
    SavedThrough refs rule options start (done ++ [id]) saving' where
  nodes other := by
    rw [(Grammar.modifyNode_eq_ok hstores.grammar).2, h.nodes]
    by_cases heq : other = id
    · subst heq
      rw [if_pos rfl, Grammar.node_eq_ok.1 hnode]
      simp [hid, hstoring]
    · simp [heq]
  rules := (Grammar.modifyNode_eq_ok hstores.grammar).1.trans h.rules
  ascending := by
    rw [hstores.declared]
    exact h.ascending.add new
  declares name := by
    rw [hstores.declared, Declared.find?_add, h.declares, List.filterMap_append, Declared.find?_append,
      List.filterMap_cons, hnew, List.filterMap_nil, Declared.find?_cons]
    rfl
  found key := by
    rw [hstores.found, hfound, h.found]
    simp [or_and_right, exists_or]
  mismatches := by
    have hbefore := h.mismatch?_add new
    rw [← hstores.declared] at hbefore
    rw [hstores.mismatches, h.mismatches, eraseDups_concat, if_neg hid, List.filterMap_append, hbefore,
      List.append_assoc, List.filterMap_cons, hnew, Option.bind_some, hstores.declared,
      Grammar.mismatch?_add, ← h.mismatch?_eq]
    cases saving.grammar.mismatch? rule saving.declared id new <;> rfl

/-- **One more node**, whether it had its turn before or not. -/
theorem SavedThrough.step (h : SavedThrough refs rule options start done saving)
    (hsave : saveNode refs rule options saving id = .ok saving') :
    SavedThrough refs rule options start (done ++ [id]) saving' := by
  obtain ⟨node, hnode, hcases⟩ := saveNode_eq_ok hsave
  -- The node as it was before any of them had its turn.
  have hat := h.nodes id
  rw [Grammar.node_eq_ok.1 hnode] at hat
  obtain ⟨old, hold, heq⟩ := Option.map_eq_some_iff.1 hat.symm
  have hfound : ∀ key, key ∈ (refs.foundBy? node).toList ++ saving.found ↔
      key ∈ saving.found ∨ start.grammar.foundAt? refs id = some key := by
    have hfoundAt : start.grammar.foundAt? refs id = refs.foundBy? node := by
      rw [Grammar.foundAt?, hold, Option.bind_some, ← heq]
      split <;> rfl
    intro key
    rw [hfoundAt, List.mem_append, Option.mem_toList, or_comm]
  have hnewAt : start.grammar.newAt? refs options id =
      (refs.newlyStored? old).map (start.grammar.declarationOf options old) := by
    rw [Grammar.newAt?, hold, Option.bind_some]
  rcases hcases with ⟨hidle, rfl⟩ | ⟨name, hnew, hstores⟩
  · refine h.idle ?_ rfl rfl rfl hfound
    by_cases hid : id ∈ done
    · exact Or.inl hid
    · rw [if_neg hid] at heq
      rw [hnewAt, heq, hidle]
      exact Or.inr rfl
  · have hid : id ∉ done := by
      intro hid
      rw [if_pos hid] at heq
      rw [← heq, Referenced.newlyStored?_storing] at hnew
      cases hnew
    rw [if_neg hid] at heq
    subst heq
    refine h.fresh hid (Grammar.node_eq_ok.2 hold) ?_ (Referenced.storing_of_newlyStored? hnew) hstores
      hfound
    rw [hnewAt, hnew]
    exact congrArg some (Grammar.declarationOf_of_rules h.rules).symm

/-- **All nodes**, in the order of their turns. -/
theorem savedThrough_saveNodes {ids : List NodeId} (hdeclared : start.declared = [])
    (hfound : start.found = []) (h : ids.foldlM (fun saving id =>
      (saveNode refs rule options saving id : Except (Failure GenerationError) Saving)) start =
        .ok saving) : SavedThrough refs rule options start ids saving :=
  foldlM_append_invariant (P := SavedThrough refs rule options start)
    (fun _ _ _ _ hnow hsave => hnow.step (liftM_eq_ok.1 hsave)) (savedThrough_nil hdeclared hfound) h

end Saving

end PredictiveParser
