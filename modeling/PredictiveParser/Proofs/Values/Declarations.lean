import PredictiveParser.Proofs.Values.Frame

/-!
# Declarations of variables

A variable is declared with the type that the first node expects which stores its value in it
(`Declared.find?_add`), and declarations are in the order of names (`Declared.Ascending`). A node that
expects another type is reported (`Grammar.mismatch?`). Messages of this kind are told from others by
how they start.
-/
namespace PredictiveParser

open Template

/-! ## Lists of declarations -/

namespace Declared

variable {new : Declared} {declared : List Declared} {name : String}

/-- The declaration of a variable for values of a type. -/
def ofType (listType : Tokens) (isList : Bool) (type : Option Tokens) (name : String) : Declared :=
  let (type, init) := variableType listType (type.getD (word "_")) isList
  ⟨name, Tokens.text type, declare name type init⟩

def find? (declared : List Declared) (name : String) : Option Declared :=
  List.find? (·.name == name) declared

/-- Adds a declaration in the order of names, unless its variable is declared. -/
def add (new : Declared) (declared : List Declared) : List Declared :=
  match find? declared new.name with
  | none => new.insert declared
  | some _ => declared

theorem find?_cons (other : Declared) (rest : List Declared) (name : String) :
    find? (other :: rest) name = if other.name = name then some other else find? rest name := by
  rw [find?, List.find?_cons]
  by_cases heq : other.name = name
  · rw [beq_iff_eq.2 heq, if_pos heq]
  · rw [beq_eq_false_iff_ne.2 heq, if_neg heq, find?]

theorem find?_insert (h : find? declared new.name = none) :
    find? (new.insert declared) name = if new.name = name then some new else find? declared name := by
  induction declared with
  | nil => rw [insert, find?_cons]
  | cons other rest ih =>
    rw [find?_cons] at h
    split at h
    · cases h
    · rename_i hother
      rw [insert]
      split
      · rw [find?_cons]
      · rw [find?_cons, find?_cons, ih h]
        by_cases heq : other.name = name
        · rw [if_pos heq, if_neg fun hnew => hother (heq.trans hnew.symm), if_pos heq]
        · rw [if_neg heq, if_neg heq]

theorem find?_add (new : Declared) (declared : List Declared) (name : String) :
    find? (new.add declared) name =
      (find? declared name).or (if new.name = name then some new else none) := by
  unfold add
  split
  · rename_i hnone
    rw [find?_insert hnone]
    split
    · rename_i heq
      rw [← heq, hnone, Option.none_or]
    · rw [Option.or_none]
  · rename_i existing hsome
    split
    · rename_i heq
      rw [← heq, hsome, Option.some_or]
    · rw [Option.or_none]

theorem find?_add_of_isSome (new : Declared) (h : (find? declared name).isSome = true) :
    find? (new.add declared) name = find? declared name := by
  obtain ⟨existing, hexisting⟩ := Option.isSome_iff_exists.1 h
  rw [find?_add, hexisting, Option.some_or]

theorem find?_append (first second : List Declared) (name : String) :
    find? (first ++ second) name = (find? first name).or (find? second name) :=
  List.find?_append

/-- What was in the list before is not found behind it. -/
theorem find?_append_of_subset {first second : List Declared} (h : second ⊆ first)
    (name : String) : find? (first ++ second) name = find? first name := by
  rw [find?_append]
  cases hfirst : find? first name with
  | some declared => rfl
  | none =>
    rw [Option.none_or]
    exact List.find?_eq_none.2 fun declared hm => List.find?_eq_none.1 hfirst declared (h hm)

/-- Variables are declared once, in the order of their names. -/
def Ascending (declared : List Declared) : Prop :=
  declared.Pairwise (·.name < ·.name)

theorem Ascending.insert (h : Ascending declared) (hnew : find? declared new.name = none) :
    Ascending (new.insert declared) := by
  induction declared with
  | nil => exact List.pairwise_singleton _ _
  | cons other rest ih =>
    obtain ⟨hother, hrest⟩ := List.pairwise_cons.1 h
    have hne : other.name ≠ new.name := by
      intro heq
      rw [find?_cons, if_pos heq] at hnew
      cases hnew
    rw [find?_cons, if_neg hne] at hnew
    rw [Declared.insert]
    split
    · rename_i hlt
      refine List.pairwise_cons.2 ⟨fun later hlater => ?_, h⟩
      rcases List.mem_cons.1 hlater with rfl | hlater
      · exact hlt
      · exact String.lt_trans hlt (hother later hlater)
    · rename_i hge
      refine List.pairwise_cons.2 ⟨fun later hlater => ?_, ih hrest hnew⟩
      rcases Declared.mem_insert.1 hlater with rfl | hlater
      · exact Std.lt_of_le_of_ne (String.not_lt.1 hge) hne
      · exact hother later hlater

theorem Ascending.add (h : Ascending declared) (new : Declared) : Ascending (new.add declared) := by
  unfold Declared.add
  split
  · rename_i hnone
    exact h.insert hnone
  · exact h

theorem Ascending.nodup (h : Ascending declared) : (declared.map Declared.name).Nodup := by
  refine List.pairwise_map.2 (h.imp fun {first second} hlt heq => ?_)
  rw [heq] at hlt
  exact String.lt_irrefl _ hlt

theorem Ascending.find?_eq_some (h : Ascending declared) (hnew : new ∈ declared) :
    find? declared new.name = some new := by
  induction declared with
  | nil => cases hnew
  | cons other rest ih =>
    obtain ⟨hother, hrest⟩ := List.pairwise_cons.1 h
    rw [find?_cons]
    rcases List.mem_cons.1 hnew with rfl | hnew
    · exact if_pos rfl
    · rw [if_neg fun heq => ?_, ih hrest hnew]
      have hlt := hother new hnew
      rw [heq] at hlt
      exact String.lt_irrefl _ hlt

theorem mem_names_iff : name ∈ declared.map Declared.name ↔ (find? declared name).isSome = true := by
  simp [find?, List.find?_isSome]

end Declared

/-! ## Conflicts -/

/-- Neither text is the start of the other. -/
def DivergesFrom (s start : String) : Prop :=
  ¬ start.toList <+: s.toList ∧ ¬ s.toList <+: start.toList

theorem DivergesFrom.append {s start : String} (h : DivergesFrom s start) (rest : String) :
    DivergesFrom (s ++ rest) start := by
  have hlonger : s.toList <+: (s ++ rest).toList := by
    rw [String.toList_append]
    exact List.prefix_append _ _
  refine ⟨fun hstart => ?_, fun hstart => h.2 (hlonger.trans hstart)⟩
  rcases List.prefix_or_prefix_of_prefix hstart hlonger with hs | hs
  · exact h.1 hs
  · exact h.2 hs

/-- What is said about a variable that was declared with another type. -/
def mismatchText (name declared expected : String) : String :=
  "Type mismatch: Variable '" ++ name ++ "' was generated earlier with type " ++ declared ++
    ", but this predicate expects " ++ expected ++ "."

theorem mismatchText_starts (name declared expected : String) :
    "Type mismatch: ".toList <+: (mismatchText name declared expected).toList := by
  have step : ∀ {s : String}, "Type mismatch: ".toList <+: s.toList → ∀ rest : String,
      "Type mismatch: ".toList <+: (s ++ rest).toList := by
    intro s h rest
    rw [String.toList_append]
    exact h.trans (List.prefix_append _ _)
  have hstart : "Type mismatch: ".toList <+: "Type mismatch: Variable '".toList := by decide
  exact step (step (step (step (step (step hstart _) _) _) _) _) _

/-- Whether the event is a message about a variable of two types. -/
def Event.isMismatch : Event → Bool
  | .report message => "Type mismatch: ".toList.isPrefixOf message.body.toList
  | .skipped .. => false

section

variable {g : Grammar} {severity : Severity} {rule body : String} {id : NodeId}

theorem Event.isMismatch_of_starts (h : "Type mismatch: ".toList <+: body.toList) :
    (Event.atNode g severity rule id body).isMismatch = true :=
  List.isPrefixOf_iff_prefix.2 h

theorem Event.not_isMismatch (h : DivergesFrom body "Type mismatch: ") :
    (Event.atNode g severity rule id body).isMismatch = false :=
  Bool.eq_false_iff.2 fun hmismatch => h.1 <| List.isPrefixOf_iff_prefix.1 hmismatch

end

/-- The message about a node that expects another type of a variable than was declared. -/
def Grammar.mismatch? (g : Grammar) (rule : String) (declared : List Declared) (id : NodeId)
    (expected : Declared) : Option Event :=
  (Declared.find? declared expected.name).bind fun existing =>
    if existing.type = expected.type then none
    else some (.atNode g .error rule id (mismatchText expected.name existing.type expected.type))

theorem Grammar.isMismatch_mismatch? {g : Grammar} {rule : String} {declared : List Declared}
    {id : NodeId} {expected : Declared} {event : Event}
    (h : g.mismatch? rule declared id expected = some event) : event.isMismatch = true := by
  obtain ⟨existing, -, h⟩ := Option.bind_eq_some_iff.1 h
  split at h
  · cases h
  · cases h
    exact Event.isMismatch_of_starts (mismatchText_starts _ _ _)

/-- Messages about a node depend on its grammar text only. -/
theorem Event.atNode_of_agrees {g g' : Grammar} (h : Grammar.Agrees Node.basis g g')
    (severity : Severity) (rule : String) (id : NodeId) (body : String) :
    Event.atNode g' severity rule id body = Event.atNode g severity rule id body := by
  have hbasis : ∀ g : Grammar, (g.nodes[id]?.bind fun node => node.basis.map Tokens.text) =
      (g.nodes[id]?.map Node.basis).bind fun basis => basis.map Tokens.text := fun g => by
    rw [Option.bind_map]
    rfl
  rw [Event.atNode, Event.atNode, Location.ofNode, Location.ofNode, hbasis, hbasis, h.nodes]

theorem Grammar.mismatch?_of_agrees {g g' : Grammar} (h : Grammar.Agrees Node.basis g g')
    {rule : String} {declared : List Declared} (id : NodeId) {expected : Declared} :
    g'.mismatch? rule declared id expected = g.mismatch? rule declared id expected := by
  simp only [mismatch?, Event.atNode_of_agrees h]

/-- What was declared before says whether there is a conflict, also behind other declarations. -/
theorem Grammar.mismatch?_congr {g : Grammar} {rule : String} {declared declared' : List Declared}
    {id : NodeId} {expected : Declared}
    (h : Declared.find? declared' expected.name = Declared.find? declared expected.name) :
    g.mismatch? rule declared' id expected = g.mismatch? rule declared id expected := by
  rw [mismatch?, mismatch?, h]

/-- A declaration is not in conflict with itself. -/
theorem Grammar.mismatch?_add {g : Grammar} {rule : String} {declared : List Declared} {id : NodeId}
    {new : Declared} :
    g.mismatch? rule (new.add declared) id new = g.mismatch? rule declared id new := by
  rw [mismatch?, mismatch?, Declared.find?_add, if_pos rfl]
  cases Declared.find? declared new.name with
  | some existing => rfl
  | none => exact if_pos rfl

end PredictiveParser
