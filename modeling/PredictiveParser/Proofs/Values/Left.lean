import PredictiveParser.Proofs.Code.Apart
import PredictiveParser.Proofs.Values.Rewritten

/-!
# References that are left

When references are replaced in the code of nodes, those that stay are reported, node by node and in the
order in which they are written (`dangling_substituteAll`). Code in which nothing is left to replace stays
as it is (`substituteAll_eq_ok`). The declarations of variables have no references but those of the types in
them (`looksAhead_declaration`).
-/
namespace PredictiveParser

open References Template

/-! ## The code of nodes -/

namespace Node

variable {f : Reference → Option Tokens} {node : Node}

theorem codeBlocks_eq (node : Node) : node.codeBlocks =
    node.preAction.toList ++ node.postAction.toList ++ node.kind.expression?.toList := by
  unfold codeBlocks NodeKind.expression?
  rcases node.kind with _ | _ | _ | ⟨_, _ | _, _⟩ | _ | _ <;> rfl

theorem codeBlocks_rewrite : (node.rewrite f).codeBlocks = node.codeBlocks.map (replace f) := by
  simp [codeBlocks_eq, rewrite, NodeKind.expression?_rewrite, Option.toList_map]

def dollarsApart (node : Node) : Bool :=
  node.codeBlocks.all Tokens.dollarsApart

/-- In all code of the node, what is left after replacing references is what nothing was put in the
place of. -/
def ReplacedOnce (f : Reference → Option Tokens) (node : Node) : Prop :=
  ∀ code ∈ node.codeBlocks, References.ReplacedOnce f code

theorem ReplacedOnce.rewrite (h : node.ReplacedOnce f) : (node.rewrite f).ReplacedOnce f := by
  intro code hcode
  rw [codeBlocks_rewrite] at hcode
  obtain ⟨old, hold, rfl⟩ := List.mem_map.1 hcode
  exact (h old hold).replace

theorem ReplacedOnce.references_rewrite (h : node.ReplacedOnce f) :
    (node.rewrite f).references = node.references.filter fun r => (f r).isNone := by
  rw [references, references, codeBlocks_rewrite, List.flatMap_map, List.filter_flatMap]
  exact List.flatMap_congr h

theorem NodeKind.rewrite_eq_self {kind : NodeKind}
    (h : ∀ code ∈ kind.expression?, replace f code = code) : kind.rewrite f = kind := by
  rcases kind with _ | _ | _ | ⟨_, _ | _, _⟩ | _ | _
  case check.code negate mark code => rw [NodeKind.rewrite, h code rfl]
  all_goals rfl

theorem rewrite_of_codeBlocks (h : ∀ code ∈ node.codeBlocks, replace f code = code) :
    node.rewrite f = node := by
  simp only [codeBlocks_eq, List.forall_mem_append, Option.mem_toList] at h
  obtain ⟨⟨hpre, hpost⟩, hcheck⟩ := h
  have haction : ∀ action : Option Tokens, (∀ code ∈ action, replace f code = code) →
      action.map (replace f) = action := by
    rintro (_ | code) hcode
    · rfl
    · rw [Option.map_some, hcode code rfl]
  rw [rewrite, NodeKind.rewrite_eq_self hcheck, haction _ hpre, haction _ hpost]

theorem rewrite_eq_self (h : ∀ r ∈ node.references, f r = none) : node.rewrite f = node :=
  rewrite_of_codeBlocks fun code hcode =>
    replace_eq_self code fun r hr => h r (List.mem_flatMap.2 ⟨code, hcode, hr⟩)

theorem ReplacedOnce.iterate_succ (h : node.ReplacedOnce f) (times : Nat) :
    (Node.rewrite f)^[times + 1] node = node.rewrite f := by
  have hsame : (node.rewrite f).rewrite f = node.rewrite f := by
    refine rewrite_eq_self fun r hr => ?_
    rw [h.references_rewrite] at hr
    exact Option.isNone_iff_eq_none.1 (List.mem_filter.1 hr).2
  induction times with
  | zero => rfl
  | succ times ih => rw [Function.iterate_succ_apply', ih, hsame]

end Node

def Grammar.referencesAt (g : Grammar) (id : NodeId) : List Reference :=
  (g.nodes[id]?.map Node.references).getD []

theorem Grammar.referencesAt_of_node {g : Grammar} {id : NodeId} {node : Node}
    (h : g.node id = .ok node) : g.referencesAt id = node.references := by
  rw [referencesAt, node_eq_ok.1 h]
  rfl

/-- In the code of the node there, what is left after replacing references is what nothing was put in
the place of. -/
def Grammar.ReplacedOnceAt (g : Grammar) (f : Reference → Option Tokens) (id : NodeId) : Prop :=
  ∀ node, g.node id = .ok node → node.ReplacedOnce f

theorem Grammar.modifyNode_eq_self {g : Grammar} {id : NodeId} {node : Node} {f : Node → Node}
    (hnode : g.node id = .ok node) (hf : f node = node) : g.modifyNode id f = .ok g := by
  obtain ⟨g', hg'⟩ := exists_modifyNode (f := f) ⟨node, hnode⟩
  obtain ⟨hrules, hnodes⟩ := modifyNode_eq_ok hg'
  have hsame : g'.nodes = g.nodes := by
    refine Array.ext_getElem? fun other => ?_
    rw [hnodes]
    split
    · rename_i heq
      rw [heq, node_eq_ok.1 hnode, Option.map_some, hf]
    · rfl
  rw [hg']
  exact congrArg Except.ok (by cases g; cases g'; simp_all)

/-! ## Replacing -/

namespace Saving

variable {refs : Referenced} {found : List String} {g g' : Grammar} {id : NodeId} {node : Node}

/-- The reference is to a value, and no variable is put in its place. -/
def stays (refs : Referenced) (found : List String) (reference : Reference) : Bool :=
  !reference.isLookahead && (resolve? refs found reference).isNone

theorem keys_substituteCode {code code' : Tokens} {keys : List String}
    (h : substituteCode refs found code = .ok (code', keys)) :
    keys = ((find code).filter (stays refs found)).map Reference.key := by
  rw [substituteCode_eq] at h
  obtain ⟨names, -, h⟩ := bind_eq_ok.1 h
  cases pure_eq_ok.1 h
  rfl

theorem keys_substituteOption {code code' : Option Tokens} {keys : List String}
    (h : substituteOption refs found code = .ok (code', keys)) :
    keys = ((code.toList.flatMap find).filter (stays refs found)).map Reference.key := by
  unfold substituteOption at h
  split at h
  · obtain ⟨⟨code, dangling⟩, hcode, h⟩ := bind_eq_ok.1 h
    cases pure_eq_ok.1 h
    rw [keys_substituteCode hcode, Option.toList_some, List.flatMap_singleton]
  · cases pure_eq_ok.1 h
    rfl

theorem keys_substituteKind {kind kind' : NodeKind} {keys : List String}
    (h : substituteKind refs found kind = .ok (kind', keys)) :
    keys = ((kind.expression?.toList.flatMap find).filter (stays refs found)).map Reference.key := by
  rcases substituteKind_cases h with ⟨_, _, _, _, hcode, rfl, -⟩ | ⟨hnone, -, rfl⟩
  · rw [keys_substituteCode hcode, NodeKind.expression?, Option.toList_some, List.flatMap_singleton]
  · rw [hnone]
    rfl

/-- What is reported about a node are the references that stay. -/
theorem keys_substituteNode {keys : List String} (hnode : g.node id = .ok node)
    (h : substituteNode refs found g id = .ok (g', keys)) :
    keys = (node.references.filter (stays refs found)).map Reference.key := by
  obtain ⟨old, pre, _, post, _, kind, _, hold, hpre, hpost, hkind, rfl, -⟩ := substituteNode_eq_ok h
  cases hnode.symm.trans hold
  rw [keys_substituteOption hpre, keys_substituteOption hpost, keys_substituteKind hkind,
    Node.references, Node.codeBlocks_eq]
  simp only [List.flatMap_append, List.filter_append, List.map_append]

section

variable {other : NodeId} {keys : List String} (h : substituteNode refs found g id = .ok (g', keys))
include h

theorem replacedOnceAt_substituteNode
    (hother : g.ReplacedOnceAt (fun r => (resolve? refs found r).map word) other) :
    g'.ReplacedOnceAt (fun r => (resolve? refs found r).map word) other := by
  intro node' hnode'
  have hnodes := nodes_substituteNode h other
  rw [Grammar.node_eq_ok.1 hnode'] at hnodes
  split at hnodes
  · obtain ⟨node, hnode, rfl⟩ := Option.map_eq_some_iff.1 hnodes.symm
    exact (hother node (Grammar.node_eq_ok.2 hnode)).rewrite
  · exact hother node' (Grammar.node_eq_ok.2 hnodes.symm)

theorem stays_substituteNode
    (hcode : g.ReplacedOnceAt (fun r => (resolve? refs found r).map word) id) :
    (g'.referencesAt other).filter (stays refs found) =
    (g.referencesAt other).filter (stays refs found) := by
  have hnodes := nodes_substituteNode h other
  split at hnodes
  · rename_i heq
    subst heq
    obtain ⟨node, _, _, _, _, _, _, hnode, -⟩ := substituteNode_eq_ok h
    rw [Grammar.node_eq_ok.1 hnode] at hnodes
    rw [Grammar.referencesAt_of_node (Grammar.node_eq_ok.2 hnodes), Grammar.referencesAt_of_node hnode,
      (hcode node hnode).references_rewrite, List.filter_filter]
    refine List.filter_congr fun r _ => ?_
    simp only [stays, Option.isNone_map]
    cases (resolve? refs found r).isNone <;> simp
  · rw [Grammar.referencesAt, Grammar.referencesAt, hnodes]

end

/-- **What is reported** are the references that stay, node by node. -/
theorem dangling_substituteAll {ids : List NodeId} {dangling : List (NodeId × String)}
    (hcode : ∀ id ∈ ids, g.ReplacedOnceAt (fun r => (resolve? refs found r).map word) id)
    (h : substituteAll refs found ids g = .ok (g', dangling)) :
    dangling = ids.flatMap fun id =>
      ((g.referencesAt id).filter (stays refs found)).map fun r => (id, r.key) := by
  induction ids generalizing g dangling with
  | nil =>
    cases pure_eq_ok.1 h
    rfl
  | cons id rest ih =>
    rw [substituteAll] at h
    obtain ⟨⟨g₁, keys⟩, hfirst, h⟩ := bind_eq_ok.1 h
    obtain ⟨⟨g₂, more⟩, hrest, h⟩ := bind_eq_ok.1 h
    cases pure_eq_ok.1 h
    obtain ⟨hid, hothers⟩ := List.forall_mem_cons.1 hcode
    obtain ⟨node, _, _, _, _, _, _, hnode, -⟩ := substituteNode_eq_ok hfirst
    have hmore := ih (fun other hother => replacedOnceAt_substituteNode hfirst (hothers other hother))
      hrest
    rw [hmore, keys_substituteNode hnode hfirst, List.flatMap_cons, Grammar.referencesAt_of_node hnode,
      List.map_map]
    simp only [stays_substituteNode hfirst hid]
    rfl

/-! ### Nothing to replace -/

theorem substituteCode_eq_ok {code : Tokens} (h : ∀ r ∈ find code, resolve? refs found r = none) :
    ∃ keys, substituteCode refs found code = .ok (code, keys) := by
  have hnames : (find code).filterMap (resolve? refs found) = [] :=
    List.filterMap_eq_nil_iff.2 h
  have hsame : replace (fun r => (resolve? refs found r).map word) code = code :=
    replace_eq_self code fun r hr => by rw [h r hr, Option.map_none]
  refine ⟨_, (substituteCode_eq refs found code).trans
    (bind_eq_ok.2 ⟨[], ?_, pure_eq_ok.2 (congrArg (·, _) hsame)⟩)⟩
  rw [hnames]
  rfl

theorem substituteOption_eq_ok {code : Option Tokens}
    (h : ∀ c ∈ code, ∀ r ∈ find c, resolve? refs found r = none) :
    ∃ keys, substituteOption refs found code = .ok (code, keys) := by
  cases code with
  | none => exact ⟨[], rfl⟩
  | some code =>
    obtain ⟨keys, hkeys⟩ := substituteCode_eq_ok (h code rfl)
    exact ⟨keys, bind_eq_ok.2 ⟨_, hkeys, rfl⟩⟩

theorem substituteKind_eq_ok {kind : NodeKind}
    (h : ∀ c ∈ kind.expression?, ∀ r ∈ find c, resolve? refs found r = none) :
    ∃ keys, substituteKind refs found kind = .ok (kind, keys) := by
  unfold substituteKind
  split
  · rename_i negate code mark
    obtain ⟨keys, hkeys⟩ := substituteCode_eq_ok (h code rfl)
    exact ⟨keys, bind_eq_ok.2 ⟨_, hkeys, rfl⟩⟩
  · exact ⟨[], rfl⟩

theorem substituteNode_eq_self (hnode : g.node id = .ok node)
    (h : ∀ r ∈ node.references, resolve? refs found r = none) :
    ∃ keys, substituteNode refs found g id = .ok (g, keys) := by
  simp only [Node.references, Node.codeBlocks_eq, List.flatMap_append, List.forall_mem_append,
    List.mem_flatMap, Option.mem_toList, forall_exists_index, and_imp] at h
  obtain ⟨⟨hpre, hpost⟩, hcheck⟩ := h
  obtain ⟨first, hfirst⟩ := substituteOption_eq_ok fun c hc r hr => hpre r c hc hr
  obtain ⟨second, hsecond⟩ := substituteOption_eq_ok fun c hc r hr => hpost r c hc hr
  obtain ⟨third, hthird⟩ := substituteKind_eq_ok fun c hc r hr => hcheck r c hc hr
  have hsame := Grammar.modifyNode_eq_self hnode (f := ({ · with
    kind := node.kind, preAction := node.preAction, postAction := node.postAction })) rfl
  exact ⟨_, bind_eq_ok.2 ⟨node, hnode, bind_eq_ok.2 ⟨_, hfirst, bind_eq_ok.2 ⟨_, hsecond,
    bind_eq_ok.2 ⟨_, hthird, bind_eq_ok.2 ⟨g, hsame, rfl⟩⟩⟩⟩⟩⟩

/-- Where nothing is left to replace, nothing changes. -/
theorem substituteAll_eq_self {ids : List NodeId} (hnodes : ∀ id ∈ ids, ∃ node, g.node id = .ok node)
    (h : ∀ id ∈ ids, ∀ r ∈ g.referencesAt id, resolve? refs found r = none) :
    ∃ dangling, substituteAll refs found ids g = .ok (g, dangling) := by
  induction ids with
  | nil => exact ⟨[], rfl⟩
  | cons id rest ih =>
    obtain ⟨⟨node, hnode⟩, hothers⟩ := List.forall_mem_cons.1 hnodes
    obtain ⟨hid, hrest⟩ := List.forall_mem_cons.1 h
    rw [Grammar.referencesAt_of_node hnode] at hid
    obtain ⟨keys, hkeys⟩ := substituteNode_eq_self hnode hid
    obtain ⟨more, hmore⟩ := ih hothers hrest
    exact ⟨_, bind_eq_ok.2 ⟨_, hkeys, bind_eq_ok.2 ⟨_, hmore, rfl⟩⟩⟩

end Saving

/-! ## Declarations -/

theorem find_declare (name : String) (type init rest : Tokens) :
    find (declare name type init ++ rest) = find type ++ find init ++ find rest := by
  have hname : NoDollar (Template.words ["let", "mut", name] ++ op ":") :=
    (only_words _).append (only_op rfl)
  have hdeclare : declare name type init ++ rest = (Template.words ["let", "mut", name] ++ op ":" ++
      (type ++ .punct '=' .alone :: init)) ++ .punct ';' .alone :: rest := by
    simp only [declare, op, String.toList, List.append_assoc, List.cons_append]
    rfl
  rw [hdeclare, find_append_punct rfl, hname.find_append, find_append_punct rfl]

/-- The value that a variable starts with has no references but those of its type. -/
theorem find_variableType (listType type : Tokens) (isList : Bool) :
    find (variableType listType type isList).2 ⊆ find (variableType listType type isList).1 := by
  unfold variableType
  split
  · have htype : listType ++ op "<" ++ type ++ op ">" =
        listType ++ .punct '<' .alone :: (type ++ op ">") := by
      rw [List.append_assoc, List.append_assoc]
      rfl
    have hinit : listType ++ op "::" ++ word "new" ++ parens [] =
        listType ++ .punct ':' .joint :: (op ":" ++ word "new" ++ parens []) := by
      rw [List.append_assoc, List.append_assoc]
      rfl
    have hnew : NoDollar (op ":" ++ word "new" ++ parens []) :=
      ((only_op rfl).append (only_word _)).append (only_parens .nil)
    rw [htype, hinit, find_append_punct rfl, find_append_punct rfl, hnew.find_eq_nil, List.append_nil]
    exact List.subset_append_left _ _
  · split
    · rw [NoDollar.find_eq_nil (only_natLiteral 0)]
      exact List.nil_subset _
    · rw [NoDollar.find_eq_nil ((only_absolutePath _).append (only_parens .nil))]
      exact List.nil_subset _

def Grammar.variableTypeOf (g : Grammar) (options : Options) (node : Node) : Tokens :=
  (variableType options.listType ((g.valueType? options node).getD (word "_")) node.isList).1

/-- The code has no references but those to the terminal under inspection. -/
def Tokens.LooksAhead (code : Tokens) : Prop :=
  ∀ r ∈ find code, r.isLookahead = true

/-- Declarations have no references but those of their types. -/
theorem find_declarations (declared : List Declared) (rest : Tokens)
    (hwell : ∀ new ∈ declared, ∃ type init, new.code = declare new.name type init ∧
      type.LooksAhead ∧ init.LooksAhead) :
    ∃ ahead, find (declared.flatMap Declared.code ++ rest) = ahead ++ find rest ∧
      ∀ r ∈ ahead, r.isLookahead = true := by
  induction declared with
  | nil => exact ⟨[], rfl, nofun⟩
  | cons new others ih =>
    obtain ⟨⟨type, init, hcode, htype, hinit⟩, hothers⟩ := List.forall_mem_cons.1 hwell
    obtain ⟨ahead, hfind, hahead⟩ := ih hothers
    refine ⟨find type ++ find init ++ ahead, ?_, ?_⟩
    · rw [List.flatMap_cons, List.append_assoc, hcode, find_declare, hfind]
      simp only [List.append_assoc]
    · exact List.forall_mem_append.2 ⟨List.forall_mem_append.2 ⟨htype, hinit⟩, hahead⟩

/-- With declarations in front of its code, a node has no other references to values. -/
theorem Node.references_declareFirst {declared : List Declared} (node : Node)
    (hwell : ∀ new ∈ declared, ∃ type init, new.code = declare new.name type init ∧
      type.LooksAhead ∧ init.LooksAhead) :
    ∃ ahead, { node with preAction := declareFirst declared node.preAction }.references =
        ahead ++ node.references ∧ ∀ r ∈ ahead, r.isLookahead = true := by
  have hblocks : ∀ action, { node with preAction := action }.references =
      action.toList.flatMap find ++
        (node.postAction.toList ++ node.kind.expression?.toList).flatMap find := by
    intro action
    rw [references, codeBlocks_eq, List.append_assoc, List.flatMap_append]
  unfold declareFirst
  split
  · exact ⟨[], rfl, nofun⟩
  · obtain ⟨ahead, hfind, hahead⟩ := find_declarations declared (node.preAction.getD []) hwell
    refine ⟨ahead, ?_, hahead⟩
    have hnode : node.references = _ := hblocks node.preAction
    have hjoined : ∀ action : Option Tokens,
        (joinActions (some (declared.flatMap (·.code))) action).toList.flatMap find =
          find (declared.flatMap (·.code) ++ action.getD []) := by
      rintro (_ | action) <;> simp [joinActions]
    have haction : ∀ action : Option Tokens, action.toList.flatMap find = find (action.getD []) := by
      rintro (_ | action) <;> simp [find]
    rw [hblocks, hjoined, hfind, hnode, haction, List.append_assoc]

end PredictiveParser
