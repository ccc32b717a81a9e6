import PredictiveParser.Proofs.Analysis.Attach
import PredictiveParser.Proofs.Values.Declarations

/-!
# What saving values reports

All messages of saving the values of a rule are about that rule or a node of it
(`concerns_saveValues`): labels that cannot be attached, variables of two types, values of unknown type, and
references that nothing matches.
-/
namespace PredictiveParser

/-! ## Labels -/

/-- The event is that a label cannot be attached to a node of the rule. -/
def Event.IsLabelError (event : Event) (rule : String) : Prop :=
  ∃ g id label, ∃ node : Node, event = .atNode g .error rule id
    ("Label '" ++ label ++ "' cannot be attached to a " ++ node.kindName ++ ".")

theorem Event.IsLabelError.concerns {event : Event} {rule : String} (h : event.IsLabelError rule) :
    event.Concerns rule := by
  obtain ⟨g, id, label, node, rfl⟩ := h
  exact Event.concerns_atNode ..

namespace Grammar

variable {g g' : Grammar} {events : List Event} {rule label : String} {id : NodeId} {node : Node}

theorem isLabelError_passLabel (h : g.passLabel rule id node label = .ok (g', events)) :
    ∀ event ∈ events, event.IsLabelError rule := by
  unfold passLabel at h
  split at h
  · obtain ⟨g₁, -, h⟩ := bind_eq_ok.1 h
    cases pure_eq_ok.1 h
    nofun
  · cases pure_eq_ok.1 h
    exact List.forall_mem_singleton.2 ⟨_, _, _, _, rfl⟩

theorem isLabelError_moveLabel (h : g.moveLabel rule id = .ok (g', events)) :
    ∀ event ∈ events, event.IsLabelError rule := by
  unfold moveLabel at h
  obtain ⟨node, -, h⟩ := bind_eq_ok.1 h
  split at h
  · cases pure_eq_ok.1 h
    nofun
  · split at h
    · cases pure_eq_ok.1 h
      nofun
    · obtain ⟨⟨g₁, events₁⟩, hpass, h⟩ := bind_eq_ok.1 h
      obtain ⟨g₂, -, h⟩ := bind_eq_ok.1 h
      cases pure_eq_ok.1 h
      exact isLabelError_passLabel hpass

/-- All that is said about labels is that some cannot be attached. -/
theorem isLabelError_moveLabels {ids : List NodeId} (h : moveLabels rule ids g = .ok (g', events)) :
    ∀ event ∈ events, event.IsLabelError rule := by
  induction ids generalizing g events with
  | nil =>
    cases pure_eq_ok.1 h
    nofun
  | cons id rest ih =>
    rw [moveLabels] at h
    obtain ⟨⟨g₁, events₁⟩, hfirst, h⟩ := bind_eq_ok.1 h
    obtain ⟨⟨g₂, events₂⟩, hrest, h⟩ := bind_eq_ok.1 h
    cases pure_eq_ok.1 h
    exact List.forall_mem_append.2 ⟨isLabelError_moveLabel hfirst, ih hrest⟩

end Grammar

/-! ## Variables -/

/-- The event is about the type of a variable of the rule: it is not known, or there are two. -/
inductive Event.IsTypeError (rule : String) : Event → Prop where
  | unknown (g : Grammar) (id : NodeId) : IsTypeError rule (.atNode g .error rule id
      "The type of this expression is unknown (did you set the terminal_type option?)")
  | mismatch (g : Grammar) (id : NodeId) (name declared expected : String) :
      IsTypeError rule (.atNode g .error rule id (mismatchText name declared expected))

theorem Event.IsTypeError.concerns {event : Event} {rule : String} (h : event.IsTypeError rule) :
    event.Concerns rule := by
  cases h <;> exact Event.concerns_atNode ..

namespace Saving

variable {saving saving' : Saving} {refs : Referenced} {rule : String} {options : Options}
  {id : NodeId} {P : Event → Prop}

/-- All that was said is what `P` allows. -/
def Says (P : Event → Prop) (saving : Saving) : Prop :=
  ∀ event ∈ saving.events, P event

theorem Says.say (h : saving.Says P) {message : String}
    (hmessage : P (.atNode saving.grammar .error rule id message)) :
    (saving.say rule id message).Says P :=
  List.forall_mem_append.2 ⟨h, List.forall_mem_singleton.2 hmessage⟩

section

variable (hP : ∀ event : Event, event.IsTypeError rule → P event)
include hP

theorem Says.declareAs (h : saving.Says P) (id : NodeId) (name : String) (type init : Tokens) :
    (saving.declareAs rule id name type init).Says P := by
  unfold Saving.declareAs
  simp only
  split
  · exact h
  · split
    · exact h
    · exact h.say (hP _ (.mismatch ..))

theorem Says.orUnknown (h : saving.Says P) (id : NodeId) (type : Option Tokens) :
    (saving.orUnknown rule id type).1.Says P := by
  unfold Saving.orUnknown
  split
  · exact h
  · exact h.say (hP _ (.unknown ..))

theorem Says.store (h : saving.Says P) {node : Node} {name : String} {type : Option Tokens}
    (hstore : saving.store rule options id node name type = .ok saving') : saving'.Says P := by
  unfold Saving.store at hstore
  split at hstore
  · cases pure_eq_ok.1 hstore
    exact h
  · obtain ⟨name', -, hstore⟩ := bind_eq_ok.1 hstore
    obtain ⟨g, -, hstore⟩ := bind_eq_ok.1 hstore
    cases pure_eq_ok.1 hstore
    exact (h.orUnknown hP id type).declareAs hP id _ _ _

theorem Says.saveNode (h : saving.Says P)
    (hsave : saveNode refs rule options saving id = .ok saving') : saving'.Says P := by
  rcases saveNode_cases hsave with rfl | ⟨node, name, found, -, hstore⟩
  · exact h
  · have hfound : Says P { saving with found } := h
    exact hfound.store hP hstore

end

/-! ### What was said before -/

theorem subset_declareAs (saving : Saving) (rule : String) (id : NodeId) (name : String)
    (type init : Tokens) : saving.events ⊆ (saving.declareAs rule id name type init).events := by
  unfold Saving.declareAs
  simp only
  split
  · exact List.Subset.refl _
  · split
    · exact List.Subset.refl _
    · exact List.subset_append_left _ _

theorem subset_orUnknown (saving : Saving) (rule : String) (id : NodeId) (type : Option Tokens) :
    saving.events ⊆ (saving.orUnknown rule id type).1.events := by
  unfold Saving.orUnknown
  split
  · exact List.Subset.refl _
  · exact List.subset_append_left _ _

theorem subset_saveNode (hsave : saveNode refs rule options saving id = .ok saving') :
    saving.events ⊆ saving'.events := by
  rcases saveNode_cases hsave with rfl | ⟨node, name, found, -, hstore⟩
  · exact List.Subset.refl _
  · unfold Saving.store at hstore
    split at hstore
    · cases pure_eq_ok.1 hstore
      exact List.Subset.refl _
    · obtain ⟨name', -, hstore⟩ := bind_eq_ok.1 hstore
      obtain ⟨g, -, hstore⟩ := bind_eq_ok.1 hstore
      cases pure_eq_ok.1 hstore
      exact List.Subset.trans (subset_orUnknown { saving with found } rule id _)
        (subset_declareAs ..)

end Saving

namespace Grammar

variable {g g' : Grammar} {name : String} {options : Options} {events : List Event}

/-- Before references are looked at, all that is said is about labels and types. -/
theorem SavingSteps.says_saved {g' : Grammar} (steps : SavingSteps g name options g' events) :
    steps.saved.Says fun event => event.IsLabelError name ∨ event.IsTypeError name :=
  foldlM_invariant
    (P := Saving.Says fun event => event.IsLabelError name ∨ event.IsTypeError name)
    (fun _ _ _ _ hnow hnext => hnow.saveNode (fun _ => Or.inr) (liftM_eq_ok.1 hnext))
    (fun event hevent => Or.inl (isLabelError_moveLabels steps.moves event hevent)) steps.saves

/-- What is said about labels is reported. -/
theorem SavingSteps.messages_subset {g' : Grammar} (steps : SavingSteps g name options g' events) :
    steps.messages ⊆ events := by
  have hsaved : steps.messages ⊆ steps.saved.events :=
    foldlM_invariant (P := fun saving : Saving => steps.messages ⊆ saving.events)
      (fun _ _ _ _ hnow hnext =>
        List.Subset.trans hnow (Saving.subset_saveNode (liftM_eq_ok.1 hnext)))
      (List.Subset.refl _) steps.saves
  intro event hevent
  rw [steps.tells]
  exact List.mem_append_left _ (hsaved hevent)

/-- Saving the values of a rule reports messages about the rule. -/
theorem concerns_saveValues (h : g.saveValues name options = .ok (g', events)) :
    ∀ event ∈ events, event.Concerns name := by
  obtain ⟨steps⟩ := exists_savingSteps h
  rw [steps.tells]
  refine List.forall_mem_append.2 ⟨fun event hevent => ?_, fun event hevent => ?_⟩
  · exact (steps.says_saved event hevent).elim Event.IsLabelError.concerns Event.IsTypeError.concerns
  · obtain ⟨⟨id, key⟩, -, rfl⟩ := List.mem_map.1 hevent
    exact Event.concerns_atNode ..

end Grammar

end PredictiveParser
