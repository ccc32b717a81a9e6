import PredictiveParser.Proofs.Code.Variables
import PredictiveParser.Proofs.Values.Frame

/-!
# What references stand for

A reference in the code of a rule is to a label, to the value of a rule, or to a terminal by its text.
`Scope` decides this by looking at all labels and all references, and so does it with the variable in
which the value of a node is stored. `reads_ofNodes` shows that `Referenced`, which is put together
reference by reference, says the same. Where several references have one key, the first of them counts.

Labels are looked at once they have moved, and then only nodes with a value have one
(`labelsValue_moveLabels`), since what is behind a node in a walk has not had its turn.
-/
namespace PredictiveParser

open Relation

/-! ## Labels -/

/-- The node has a value if it has a label. -/
def Node.LabelsValue (node : Node) : Prop :=
  node.label = none ∨ node.hasValue = true

namespace Grammar

variable {g g' : Grammar} {id : NodeId} {rule : String} {events : List Event}

theorem labelsValue_moveLabel (h : g.moveLabel rule id = .ok (g', events)) {node' : Node}
    (hnode' : g'.node id = .ok node') : node'.LabelsValue := by
  unfold moveLabel at h
  obtain ⟨node, hnode, h⟩ := bind_eq_ok.1 h
  split at h
  · rename_i hlabel
    cases pure_eq_ok.1 h
    cases hnode.symm.trans hnode'
    exact Or.inl hlabel
  · split at h
    · rename_i hvalue
      cases pure_eq_ok.1 h
      cases hnode.symm.trans hnode'
      exact Or.inr hvalue
    · obtain ⟨⟨g₁, events₁⟩, -, h⟩ := bind_eq_ok.1 h
      obtain ⟨g₂, hg₂, h⟩ := bind_eq_ok.1 h
      cases pure_eq_ok.1 h
      obtain ⟨old, -, rfl⟩ := node_modifyNode hg₂ hnode'
      exact Or.inl (by simp)

/-- A label that is at a value stays there. -/
theorem moveLabel_of_labelsValue {node : Node} (hnode : g.node id = .ok node) (h : node.LabelsValue) :
    g.moveLabel rule id = .ok (g, []) := by
  refine bind_eq_ok.2 ⟨node, hnode, ?_⟩
  rcases h with hnone | hvalue
  · rw [hnone]
    rfl
  · cases node.label with
    | none => rfl
    | some label => exact if_pos hvalue

theorem Followed.of_sameShape {ids : List NodeId} (h : g.Followed Node.matchedChildren ids)
    (hshape : g.SameShape g') : g'.Followed Node.matchedChildren ids := by
  induction ids with
  | nil => exact trivial
  | cons id rest ih => exact ⟨fun child hchild => h.1 child (hshape.symm.link hchild), ih h.2⟩

/-- **Labels move to values.** A label that is where no value is has its turn still to come: that of a
node passes to nodes which are listed behind it. -/
theorem labelsValue_moveLabels {ids : List NodeId} (among : NodeId → Prop)
    (hfollowed : g.Followed Node.matchedChildren ids)
    (hturn : ∀ id, among id → ∀ node, g.node id = .ok node → node.LabelsValue ∨ id ∈ ids)
    (h : moveLabels rule ids g = .ok (g', events)) :
    ∀ id, among id → ∀ node, g'.node id = .ok node → node.LabelsValue := by
  induction ids generalizing g events with
  | nil =>
    cases pure_eq_ok.1 h
    exact fun id hid node hnode => (hturn id hid node hnode).resolve_right List.not_mem_nil
  | cons first rest ih =>
    rw [moveLabels] at h
    obtain ⟨⟨g₁, events₁⟩, hfirst, h⟩ := bind_eq_ok.1 h
    obtain ⟨⟨g₂, events₂⟩, hrest, h⟩ := bind_eq_ok.1 h
    cases pure_eq_ok.1 h
    obtain ⟨hbehind, hfollowed⟩ := hfollowed
    have hshape : g.SameShape g₁ := (relabels_moveLabel hfirst).annotates.kinds.sameShape
    have htouches : g.Touches (fun x => x = first ∨ x ∈ rest) g₁ :=
      touches_moveLabel (Or.inl rfl) (fun child hchild => Or.inr (hbehind child hchild)) hfirst
    refine ih (hfollowed.of_sameShape hshape) (fun id hid node hnode => ?_) hrest
    by_cases heq : id = first
    · exact Or.inl (labelsValue_moveLabel hfirst (heq ▸ hnode))
    · by_cases hm : id ∈ rest
      · exact Or.inr hm
      · have hkept := htouches.frame id (not_or.2 ⟨heq, hm⟩)
        rw [node_eq_ok, hkept, ← node_eq_ok] at hnode
        exact (hturn id hid node hnode).imp_right fun hm' => (List.mem_cons.1 hm').resolve_left heq

end Grammar

/-! ## Scopes -/

/-- The references in the code blocks of the node, as they are written. -/
def Node.references (node : Node) : List Reference :=
  node.codeBlocks.flatMap References.find

/-- The variable for a reference that is neither a label nor a rule, if it can have one. -/
def Reference.variableName? (reference : Reference) : Option String :=
  match reference.varName? with
  | .ok name? => name?
  | .error _ => none

theorem Reference.varName?_of_variableName? {r : Reference} {name : String}
    (h : r.variableName? = some name) : r.varName? = .ok (some name) := by
  unfold Reference.variableName? at h
  split at h
  · rename_i hname
    rw [hname, h]
  · cases h

/-- What decides what the references of a rule stand for: the labels of its nodes, the rules there are,
and all of its references in their order. -/
structure Scope where
  labels : List String
  ruleNames : List String
  references : List Reference

namespace Scope

variable {scope : Scope} {node : Node}

/-- Whether the reference is to a value, but not by a label. -/
def isUnlabeled (scope : Scope) (reference : Reference) : Bool :=
  !reference.isLookahead && !scope.labels.contains reference.key

/-- Whether the reference is a plain name, which a rule has. -/
def namesRule (scope : Scope) (reference : Reference) : Bool :=
  reference.name?.isSome && scope.ruleNames.contains reference.key

/-- Whether some reference is to the value of the rule. -/
def refersTo (scope : Scope) (callee : String) : Bool :=
  scope.references.any fun reference =>
    scope.isUnlabeled reference && scope.namesRule reference && reference.key == callee

/-- The reference has this key, and it is neither to a label nor to a rule. -/
def IsOther (scope : Scope) (key : String) (reference : Reference) : Prop :=
  scope.isUnlabeled reference = true ∧ scope.namesRule reference = false ∧ reference.key = key

/-- The first reference with the key that is neither to a label nor to a rule. -/
def other? (scope : Scope) (key : String) : Option Reference :=
  scope.references.find? fun reference =>
    scope.isUnlabeled reference && !scope.namesRule reference && reference.key == key

theorem isOther_iff {key : String} {reference : Reference} : scope.IsOther key reference ↔
    (scope.isUnlabeled reference && !scope.namesRule reference && reference.key == key) = true := by
  simp only [IsOther, Bool.and_eq_true, Bool.not_eq_true', beq_iff_eq, and_assoc]

theorem isOther_of_other? {key : String} {reference : Reference}
    (h : scope.other? key = some reference) : scope.IsOther key reference := by
  have hholds := List.find?_some h
  exact isOther_iff.2 hholds

/-- The variable in which the value of the node is to be stored. -/
def variableOf? (scope : Scope) (node : Node) : Option String :=
  match node.kind with
  | .call callee =>
    node.label.or (if scope.refersTo callee then some ("got_" ++ callee) else none)
  | .terminal .. =>
    node.label.or (node.basis.bind fun basis =>
      (scope.other? basis.normalText).bind Reference.variableName?)
  | _ => none

theorem variableOf?_of_label {label : String} (hlabel : node.label = some label)
    (hvalue : node.LabelsValue) : scope.variableOf? node = some label := by
  have hvalue : node.hasValue = true := by simpa [Node.LabelsValue, hlabel] using hvalue
  unfold variableOf?
  unfold Node.hasValue at hvalue
  cases hkind : node.kind <;> simp_all

def push (scope : Scope) (reference : Reference) : Scope :=
  { scope with references := scope.references ++ [reference] }

theorem refersTo_push (scope : Scope) (reference : Reference) (callee : String) :
    (scope.push reference).refersTo callee = (scope.refersTo callee ||
      (scope.isUnlabeled reference && scope.namesRule reference && reference.key == callee)) := by
  simp only [refersTo, push, List.any_append, List.any_cons, List.any_nil, Bool.or_false]
  rfl

theorem other?_push (scope : Scope) (reference : Reference) (key : String) :
    (scope.push reference).other? key = (scope.other? key).or
      (if scope.isUnlabeled reference && !scope.namesRule reference && reference.key == key then
        some reference else none) := by
  simp only [other?, push, List.find?_append, List.find?_singleton]
  rfl

theorem foldl_push (scope : Scope) (references : List Reference) : references.foldl push scope =
    { scope with references := scope.references ++ references } := by
  induction references generalizing scope with
  | nil => rw [List.foldl_nil, List.append_nil]
  | cons reference rest ih => rw [List.foldl_cons, ih, push, List.append_assoc, List.singleton_append]

theorem other?_foldl_push {key : String} {reference : Reference} (references : List Reference)
    (h : scope.other? key = some reference) :
    (references.foldl push scope).other? key = some reference := by
  induction references generalizing scope with
  | nil => exact h
  | cons other rest ih => exact ih (by rw [other?_push, h, Option.some_or])

/-- The reference that counts for a key is the first that is to no label and to no rule. -/
theorem other?_eq_some_iff {key : String} {r : Reference} : scope.other? key = some r ↔
    ∃ before after, scope.references = before ++ r :: after ∧
      (∀ earlier ∈ before, ¬scope.IsOther key earlier) ∧ scope.IsOther key r := by
  rw [other?, List.find?_eq_some_iff_append]
  constructor
  · rintro ⟨hr, before, after, hsplit, hbefore⟩
    exact ⟨before, after, hsplit, fun earlier he hother => by
      simpa [isOther_iff.1 hother] using hbefore earlier he, isOther_iff.2 hr⟩
  · rintro ⟨before, after, hsplit, hbefore, hr⟩
    refine ⟨isOther_iff.1 hr, before, after, hsplit, fun earlier he => ?_⟩
    rw [Bool.not_eq_true', Bool.eq_false_iff]
    exact fun hother => hbefore earlier he (isOther_iff.2 hother)

end Scope

/-! ## References one after another -/

/-- What was put together from references says what these decide. -/
structure Referenced.Reads (refs : Referenced) (scope : Scope) : Prop where
  labels : refs.labels = scope.labels
  rules : ∀ callee, refs.rules.contains callee = scope.refersTo callee
  others : ∀ key, refs.others.find? (·.key == key) =
    (scope.other? key).map fun reference => ⟨key, reference.variableName?⟩

namespace Referenced

variable {refs refs' : Referenced} {scope : Scope} {reference : Reference} {nodes : List Node}

theorem Reads.variableFor? (h : refs.Reads scope) (basis : Tokens) :
    (refs.variableFor? basis).bind (·.varName?) =
      (scope.other? basis.normalText).bind Reference.variableName? := by
  rw [Referenced.variableFor?, h.others]
  cases scope.other? basis.normalText with
  | none => rfl
  | some reference => cases hname : reference.variableName? <;> simp [Option.filter, hname]

theorem Reads.storedIn? (h : refs.Reads scope) (node : Node) :
    refs.storedIn? node = scope.variableOf? node := by
  unfold Referenced.storedIn? Scope.variableOf?
  cases node.kind with
  | call callee => simp only [h.rules]
  | terminal set mark =>
    simp only [Option.bind_assoc, h.variableFor?]
  | _ => rfl

/-! ### One more reference -/

theorem Reads.skip (h : refs.Reads scope) (hskip : scope.isUnlabeled reference = false) :
    refs.Reads (scope.push reference) where
  labels := h.labels
  rules callee := by
    rw [h.rules, Scope.refersTo_push, hskip, Bool.false_and, Bool.false_and, Bool.or_false]
  others key := by
    rw [h.others, Scope.other?_push, hskip]
    exact congrArg _ Option.or_none.symm

theorem Reads.addRule (h : refs.Reads scope) (hunlabeled : scope.isUnlabeled reference = true)
    (hrule : scope.namesRule reference = true) :
    (if refs.rules.contains reference.key then refs
      else { refs with rules := refs.rules ++ [reference.key] }).Reads (scope.push reference) where
  labels := by split <;> exact h.labels
  rules callee := by
    rw [Scope.refersTo_push, hunlabeled, hrule, Bool.and_self, Bool.true_and, ← h.rules]
    split
    · rename_i hknown
      cases heq : reference.key == callee with
      | false => rw [Bool.or_false]
      | true => rw [← beq_iff_eq.1 heq, hknown, Bool.true_or]
    · rw [List.contains_append, List.contains_cons, List.contains_nil, Bool.or_false, Bool.beq_comm]
  others key := by
    have hsame : (if refs.rules.contains reference.key then refs
        else { refs with rules := refs.rules ++ [reference.key] }).others = refs.others := by
      split <;> rfl
    rw [hsame, h.others, Scope.other?_push, hrule, Bool.not_true, Bool.and_false, Bool.false_and]
    exact congrArg _ Option.or_none.symm

section

variable (h : refs.Reads scope) (hrule : scope.namesRule reference = false)
include h hrule

theorem Reads.rules_push (callee : String) :
    refs.rules.contains callee = (scope.push reference).refersTo callee := by
  rw [h.rules, Scope.refersTo_push, hrule, Bool.and_false, Bool.false_and, Bool.or_false]

theorem Reads.known (hknown : refs.others.any (·.key == reference.key) = true) :
    refs.Reads (scope.push reference) where
  labels := h.labels
  rules := h.rules_push hrule
  others key := by
    rw [Scope.other?_push, h.others]
    split
    · rename_i hkey
      have hkey : reference.key = key := beq_iff_eq.1 (Bool.and_eq_true_iff.1 hkey).2
      have hsome : (scope.other? key).isSome = true := by
        rw [← Option.isSome_map, ← h.others, List.find?_isSome, ← hkey]
        exact List.any_eq_true.1 hknown
      obtain ⟨first, hfirst⟩ := Option.isSome_iff_exists.1 hsome
      rw [hfirst, Option.some_or]
    · rw [Option.or_none]

theorem Reads.addOther {name? : Option String} (hunlabeled : scope.isUnlabeled reference = true)
    (hname : reference.varName? = .ok name?) :
    Reads { refs with others := refs.others ++ [⟨reference.key, name?⟩] } (scope.push reference) where
  labels := h.labels
  rules := h.rules_push hrule
  others key := by
    have hvariable : reference.variableName? = name? := by rw [Reference.variableName?, hname]
    rw [Scope.other?_push, hunlabeled, hrule, List.find?_append, h.others, List.find?_singleton]
    cases scope.other? key with
    | some first => rfl
    | none =>
      simp only [Bool.not_false, Bool.true_and]
      split
      · rename_i hkey
        cases beq_iff_eq.1 hkey
        rw [← hvariable]
        rfl
      · rfl

end

/-- A reference counts where there was none with its key before. -/
theorem Reads.add (h : refs.Reads scope) (hadd : refs.add scope.ruleNames reference = .ok refs') :
    refs'.Reads (scope.push reference) := by
  unfold Referenced.add at hadd
  have hunlabeled : scope.isUnlabeled reference =
      !(reference.isLookahead || refs.labels.contains reference.key) := by
    rw [Scope.isUnlabeled, h.labels, Bool.not_or]
  simp only at hadd
  split at hadd
  case isTrue hskip =>
    cases pure_eq_ok.1 hadd
    exact h.skip (by rw [hunlabeled, hskip]; rfl)
  case isFalse hkeep =>
    rw [Bool.eq_false_iff.2 hkeep] at hunlabeled
    split at hadd
    case isTrue hrule =>
      cases pure_eq_ok.1 hadd
      exact h.addRule hunlabeled hrule
    case isFalse hrule =>
      have hrule : scope.namesRule reference = false := Bool.eq_false_iff.2 hrule
      split at hadd
      case isTrue hknown =>
        cases pure_eq_ok.1 hadd
        exact h.known hrule hknown
      case isFalse =>
        obtain ⟨name?, hname, hadd⟩ := bind_eq_ok.1 hadd
        cases pure_eq_ok.1 hadd
        exact h.addOther hrule hunlabeled hname

/-- **Referenced says what the scope decides.** -/
theorem reads_ofNodes {ruleNames : List String} (h : ofNodes ruleNames nodes = .ok refs) :
    refs.Reads ⟨nodes.filterMap (·.label), ruleNames, nodes.flatMap Node.references⟩ :=
  foldlM_append_invariant
    (P := fun references (now : Referenced) =>
      now.Reads ⟨nodes.filterMap (·.label), ruleNames, references⟩)
    (fun _ _ _ _ hnow hadd => hnow.add hadd) ⟨rfl, fun _ => rfl, fun _ => rfl⟩ h

/-- Recording a reference fails only where it counts and its variable has no name that can be told. -/
theorem Reads.exists_add_iff (h : refs.Reads scope) :
    (∃ refs', refs.add scope.ruleNames reference = .ok refs') ↔
      (scope.IsOther reference.key reference → scope.other? reference.key = none →
        ∃ name?, reference.varName? = .ok name?) := by
  have hknown : refs.others.any (·.key == reference.key) = (scope.other? reference.key).isSome := by
    rw [← Option.isSome_map, ← h.others, List.isSome_find?]
  unfold Referenced.add Scope.IsOther Scope.isUnlabeled Scope.namesRule
  simp only [hknown, h.labels]
  cases reference.isLookahead
  case true => simpa using ⟨refs, rfl⟩
  cases scope.labels.contains reference.key
  case true => simpa using ⟨refs, rfl⟩
  cases reference.name?.isSome && scope.ruleNames.contains reference.key
  case true => simpa using ⟨_, rfl⟩
  cases scope.other? reference.key
  case some => simpa using ⟨refs, rfl⟩
  constructor
  · rintro ⟨refs', hadd⟩ - -
    obtain ⟨name?, hname, -⟩ := bind_eq_ok.1 hadd
    exact ⟨name?, hname⟩
  · intro hname
    obtain ⟨name?, hname⟩ := hname (by simp) rfl
    exact ⟨_, bind_eq_ok.2 ⟨name?, hname, rfl⟩⟩

theorem exists_foldlM_add {references : List Reference} (h : refs.Reads scope)
    (hnames : ∀ key reference, (references.foldl Scope.push scope).other? key = some reference →
      ∃ name?, reference.varName? = .ok name?) :
    ∃ refs', references.foldlM (add scope.ruleNames) refs = .ok refs' := by
  induction references generalizing scope refs with
  | nil => exact ⟨refs, rfl⟩
  | cons reference rest ih =>
    obtain ⟨refs₁, hadd⟩ := h.exists_add_iff.2 fun hother hfirst => by
      refine hnames reference.key reference (Scope.other?_foldl_push rest ?_)
      rw [Scope.other?_push, hfirst, if_pos (Scope.isOther_iff.1 hother), Option.none_or]
    obtain ⟨refs', hrest⟩ := ih (h.add hadd) hnames
    exact ⟨refs', foldlM_cons_eq_ok.2 ⟨refs₁, hadd, hrest⟩⟩

/-- **What there is to refer to can be recorded** if and only if each reference that counts has a variable
whose name can be told, or none. -/
theorem exists_ofNodes_iff {ruleNames : List String} : (∃ refs, ofNodes ruleNames nodes = .ok refs) ↔
    ∀ key reference, Scope.other? ⟨nodes.filterMap (·.label), ruleNames, nodes.flatMap Node.references⟩
      key = some reference → ∃ name?, reference.varName? = .ok name? := by
  constructor
  · rintro ⟨refs, h⟩
    refine (foldlM_append_invariant (P := fun references (now : Referenced) =>
        let scope : Scope := ⟨nodes.filterMap (·.label), ruleNames, references⟩
        now.Reads scope ∧ ∀ key reference, scope.other? key = some reference →
          ∃ name?, reference.varName? = .ok name?)
      (fun done reference now next hnow hadd => ?_) ⟨⟨rfl, fun _ => rfl, fun _ => rfl⟩, nofun⟩ h).2
    obtain ⟨hreads, hnames⟩ := hnow
    refine ⟨hreads.add hadd, fun key other hother => ?_⟩
    have hpush := (Scope.other?_push ⟨_, ruleNames, done⟩ reference key).symm.trans hother
    rcases Option.or_eq_some_iff.1 hpush with hbefore | ⟨hnone, hnew⟩
    · exact hnames key other hbefore
    · obtain ⟨hholds, hsame⟩ := Option.ite_none_right_eq_some.1 hnew
      cases hsame
      have hother := Scope.isOther_iff.2 hholds
      exact hreads.exists_add_iff.1 ⟨next, hadd⟩ (hother.2.2 ▸ hother) (hother.2.2 ▸ hnone)
  · intro h
    have hreads : Reads ⟨nodes.filterMap (·.label), [], []⟩
        ⟨nodes.filterMap (·.label), ruleNames, []⟩ := ⟨rfl, fun _ => rfl, fun _ => rfl⟩
    refine exists_foldlM_add hreads ?_
    rwa [Scope.foldl_push]

end Referenced

end PredictiveParser
