import PredictiveParser.Proofs.Success
import PredictiveParser.Proofs.Surface.Attribute
import PredictiveParser.Surface.Settings

/-!
# The last setting counts

An entry of an attribute gives one setting or is refused (`setItem_eq_ok`). Settings that are read are those
of the entries of all attributes for settings, in their order, put into the defaults one after the other and
checked at the end (`ofAttributes_eq_ok`). So each field holds the value of the last setting that was made for
it, or its default (`read_ofAttributes`), and the numbers among them fit into a machine word
(`bounds_of_ofAttributes`). The list of an attribute is read as a whole, however deep its entries are nested
(`attributeItems_eq_ok`).
-/
namespace PredictiveParser.Options

open Surface

inductive Setting where
  | k (number : Nat)
  | recursionLimit (number : Nat)
  | switchThreshold (number : Nat)
  | terminalType (type : Tokens)
  | listType (path : Tokens)

def Setting.apply (options : Options) : Setting → Options
  | .k number => { options with k := number }
  | .recursionLimit number => { options with recursionLimit := number }
  | .switchThreshold number => { options with switchThreshold := number }
  | .terminalType type => { options with terminalType := some type }
  | .listType path => { options with listType := path }

/-- The setting that an entry `key = value` gives. -/
inductive Gives : String → LiteralValue → Setting → Prop where
  | k {number : Nat} (h : number < numberBound) : Gives "k" (.int false number) (.k number)
  | recursionLimit {number : Nat} (h : number < numberBound) :
      Gives "recursion_limit" (.int false number) (.recursionLimit number)
  | switchThreshold {number : Nat} (h : number < numberBound) :
      Gives "switch_threshold" (.int false number) (.switchThreshold number)
  | terminalType {text : String} {type : Tokens} (h : typeOf text = .ok type) :
      Gives "terminal_type" (.string text) (.terminalType type)
  | listType {text : String} {path : Tokens} (h : pathOf text = .ok path) :
      Gives "list_type" (.string text) (.listType path)

variable {options options' : Options}

theorem numberOf_eq_ok {negative : Bool} {magnitude number : Nat} :
    numberOf negative magnitude = .ok number ↔
      negative = false ∧ magnitude < numberBound ∧ number = magnitude := by
  unfold numberOf
  cases negative
  · simp only [Bool.false_eq_true, ↓reduceIte, true_and]
    split
    · rename_i h
      exact ⟨nofun, fun h' => absurd h'.1 (Nat.not_lt.2 h)⟩
    · rename_i h
      rw [pure_eq_ok]
      exact ⟨fun heq => ⟨Nat.lt_of_not_le h, heq.symm⟩, fun h' => h'.2.symm⟩
  · exact ⟨nofun, fun h => nomatch h.1⟩

theorem not_refuse_eq_ok {α : Type} {reason : String} {a : α} : refuse reason ≠ .ok a :=
  nofun

theorem gives_of_set {key : String} {value : LiteralValue} (h : options.set key value = .ok options') :
    ∃ setting, Gives key value setting ∧ options' = setting.apply options := by
  unfold set at h
  split at h
  · rename_i hkey
    split at h
    · rename_i negative magnitude
      obtain ⟨number, hnumber, h⟩ := bind_eq_ok.1 h
      obtain ⟨rfl, hbound, rfl⟩ := numberOf_eq_ok.1 hnumber
      split at h
      · rename_i hk
        cases eq_of_beq hk
        cases h
        exact ⟨.k _, .k hbound, rfl⟩
      split at h
      · rename_i hlimit
        cases eq_of_beq hlimit
        cases h
        exact ⟨.recursionLimit _, .recursionLimit hbound, rfl⟩
      · have hthreshold : key = "switch_threshold" := by simp_all
        cases hthreshold
        cases h
        exact ⟨.switchThreshold _, .switchThreshold hbound, rfl⟩
    · exact (not_refuse_eq_ok h).elim
  split at h
  · rename_i hkey
    split at h
    · split at h
      · rename_i text htype
        cases eq_of_beq htype
        obtain ⟨type, hread, h⟩ := bind_eq_ok.1 h
        cases h
        exact ⟨.terminalType type, .terminalType (mapError_eq_ok.1 hread), rfl⟩
      · have hlist : key = "list_type" := by simp_all
        cases hlist
        obtain ⟨path, hread, h⟩ := bind_eq_ok.1 h
        cases h
        exact ⟨.listType path, .listType (mapError_eq_ok.1 hread), rfl⟩
    · exact (not_refuse_eq_ok h).elim
  · exact (not_refuse_eq_ok h).elim

theorem set_of_gives {key : String} {value : LiteralValue} {setting : Setting}
    (h : Gives key value setting) : options.set key value = .ok (setting.apply options) := by
  cases h with
  | k h => exact bind_eq_ok.2 ⟨_, numberOf_eq_ok.2 ⟨rfl, h, rfl⟩, rfl⟩
  | recursionLimit h => exact bind_eq_ok.2 ⟨_, numberOf_eq_ok.2 ⟨rfl, h, rfl⟩, rfl⟩
  | switchThreshold h => exact bind_eq_ok.2 ⟨_, numberOf_eq_ok.2 ⟨rfl, h, rfl⟩, rfl⟩
  | terminalType h => exact bind_eq_ok.2 ⟨_, mapError_eq_ok.2 h, rfl⟩
  | listType h => exact bind_eq_ok.2 ⟨_, mapError_eq_ok.2 h, rfl⟩

/-- The setting of an entry, where `key = value` is the only form that has one. -/
def GivenBy (item : MetaItem) (setting : Setting) : Prop :=
  ∃ key value, item = .named [key] false (.value value) ∧ Gives key value setting

theorem setItem_eq_ok {item : MetaItem} : setItem options item = .ok options' ↔
    ∃ setting, GivenBy item setting ∧ options' = setting.apply options := by
  constructor
  · intro h
    unfold setItem at h
    split at h
    · split at h
      · rename_i value _ _ key
        obtain ⟨setting, hgives, rfl⟩ := gives_of_set h
        exact ⟨setting, ⟨key, value, rfl, hgives⟩, rfl⟩
      · exact (not_refuse_eq_ok h).elim
    · exact (not_refuse_eq_ok h).elim
  · rintro ⟨setting, ⟨key, value, rfl, hgives⟩, rfl⟩
    exact set_of_gives hgives

/-- Settings put into options one after the other. -/
def withSettings (options : Options) (settings : List Setting) : Options :=
  settings.foldl Setting.apply options

theorem setItems_eq_ok {items : List MetaItem} : items.foldlM setItem options = .ok options' ↔
    ∃ settings, List.Forall₂ GivenBy items settings ∧ options' = options.withSettings settings := by
  refine foldlM_eq_ok ?_
  intro options item options'
  exact setItem_eq_ok

/-- What an attribute gives: settings in a list, if it is one for settings, and nothing else. -/
def GivenIn (attr : Attribute) (settings : List Setting) : Prop :=
  if attr.path = ["llk"] ∧ !attr.isAbsolute then
    ∃ items, attributeItems attr.tokens = .ok (some items) ∧ List.Forall₂ GivenBy items settings
  else settings = []

theorem setAttribute_eq_ok {attr : Attribute} : setAttribute options attr = .ok options' ↔
    ∃ settings, GivenIn attr settings ∧ options' = options.withSettings settings := by
  unfold setAttribute GivenIn
  split
  · constructor
    · intro h
      obtain ⟨items?, hitems, h⟩ := bind_eq_ok.1 h
      cases items? with
      | none => exact (not_refuse_eq_ok h).elim
      | some items =>
        obtain ⟨settings, hgivens, rfl⟩ := setItems_eq_ok.1 h
        exact ⟨settings, ⟨items, mapError_eq_ok.1 hitems, hgivens⟩, rfl⟩
    · rintro ⟨settings, ⟨items, hitems, hgivens⟩, rfl⟩
      exact bind_eq_ok.2 ⟨some items, mapError_eq_ok.2 hitems, setItems_eq_ok.2 ⟨settings, hgivens, rfl⟩⟩
  · rw [pure_eq_ok]
    constructor
    · rintro rfl
      exact ⟨[], rfl, rfl⟩
    · rintro ⟨_, rfl, rfl⟩
      rfl

theorem setAttributes_eq_ok {attributes : List Attribute} :
    attributes.foldlM setAttribute options = .ok options' ↔
      ∃ settings, List.Forall₂ GivenIn attributes settings ∧
        options' = options.withSettings settings.flatten := by
  unfold withSettings
  simp only [List.foldl_flatten]
  refine foldlM_eq_ok ?_
  intro options attr options'
  exact setAttribute_eq_ok

theorem check_eq_ok : options.check = .ok () ↔ options.k ≠ 0 ∧ options.recursionLimit ≠ 0 := by
  unfold check
  split
  · rename_i h
    exact ⟨nofun, fun h' => absurd h h'.1⟩
  split
  · rename_i h
    exact ⟨nofun, fun h' => absurd h h'.2⟩
  · rename_i hk hlimit
    exact ⟨fun _ => ⟨hk, hlimit⟩, fun _ => rfl⟩

/-- The options are the defaults with all settings, in their order, and they are accepted for what they are
at the end only. -/
theorem ofAttributes_eq_ok {attributes : List Attribute} : ofAttributes attributes = .ok options ↔
    ∃ settings, List.Forall₂ GivenIn attributes settings ∧ options = default.withSettings settings.flatten ∧
      options.check = .ok () := by
  unfold ofAttributes
  rw [bind_eq_ok]
  constructor
  · rintro ⟨made, hmade, h⟩
    obtain ⟨_, hcheck, h⟩ := bind_eq_ok.1 h
    obtain rfl := pure_eq_ok.1 h
    obtain ⟨settings, hgivens, rfl⟩ := setAttributes_eq_ok.1 hmade
    exact ⟨settings, hgivens, rfl, mapError_eq_ok.1 hcheck⟩
  · rintro ⟨settings, hgivens, hoptions, hcheck⟩
    exact ⟨options, setAttributes_eq_ok.2 ⟨settings, hgivens, hoptions⟩,
      bind_eq_ok.2 ⟨(), mapError_eq_ok.2 hcheck, rfl⟩⟩

/-! ## Fields -/

/-- A field of the options, and the value that a setting gives it. -/
structure Field (α : Type) where
  read : Options → α
  value? : Setting → Option α
  read_apply : ∀ options setting, read (setting.apply options) = (value? setting).getD (read options)

namespace Field

def k : Field Nat where
  read := Options.k
  value?
    | .k number => some number
    | _ => none
  read_apply := by rintro _ (_ | _ | _ | _ | _) <;> rfl

def recursionLimit : Field Nat where
  read := Options.recursionLimit
  value?
    | .recursionLimit number => some number
    | _ => none
  read_apply := by rintro _ (_ | _ | _ | _ | _) <;> rfl

def switchThreshold : Field Nat where
  read := Options.switchThreshold
  value?
    | .switchThreshold number => some number
    | _ => none
  read_apply := by rintro _ (_ | _ | _ | _ | _) <;> rfl

def terminalType : Field (Option Tokens) where
  read := Options.terminalType
  value?
    | .terminalType type => some (some type)
    | _ => none
  read_apply := by rintro _ (_ | _ | _ | _ | _) <;> rfl

def listType : Field Tokens where
  read := Options.listType
  value?
    | .listType path => some path
    | _ => none
  read_apply := by rintro _ (_ | _ | _ | _ | _) <;> rfl

end Field

/-- The last setting for a field counts. -/
theorem read_withSettings {α : Type} (field : Field α) (settings : List Setting) :
    field.read (options.withSettings settings) =
      (settings.filterMap field.value?).getLast?.getD (field.read options) := by
  induction settings generalizing options with
  | nil => rfl
  | cons setting settings ih =>
    change field.read ((setting.apply options).withSettings settings) = _
    rw [ih, field.read_apply]
    cases h : field.value? setting with
    | none => rw [List.filterMap_cons_none h, Option.getD_none]
    | some value => rw [List.filterMap_cons_some h, List.getLast?_cons, Option.getD_some, Option.getD_some]

theorem read_ofAttributes {attributes : List Attribute} (h : ofAttributes attributes = .ok options) :
    ∃ settings, List.Forall₂ GivenIn attributes settings ∧ ∀ (α : Type) (field : Field α),
      field.read options = (settings.flatten.filterMap field.value?).getLast?.getD (field.read default) := by
  obtain ⟨settings, hgivens, rfl, -⟩ := ofAttributes_eq_ok.1 h
  exact ⟨settings, hgivens, fun _ field => read_withSettings field _⟩

/-- Attributes for other things change nothing. -/
theorem ofAttributes_filter (attributes : List Attribute) :
    ofAttributes (attributes.filter fun attr => attr.path = ["llk"] ∧ !attr.isAbsolute) =
      ofAttributes attributes := by
  unfold ofAttributes
  rw [List.foldlM_filter]
  congr 2
  funext options attr
  unfold setAttribute
  split <;> simp_all

/-! ## Bounds -/

/-- The numbers among the settings fit into a machine word. -/
structure Fits (options : Options) : Prop where
  k : options.k < numberBound
  recursionLimit : options.recursionLimit < numberBound
  switchThreshold : options.switchThreshold < numberBound

theorem Fits.apply {key : String} {value : LiteralValue} {setting : Setting} (hfits : options.Fits)
    (h : Gives key value setting) : (setting.apply options).Fits := by
  cases h with
  | k h => exact { hfits with k := h }
  | recursionLimit h => exact { hfits with recursionLimit := h }
  | switchThreshold h => exact { hfits with switchThreshold := h }
  | terminalType => exact { hfits with }
  | listType => exact { hfits with }

theorem Fits.withSettings {items : List MetaItem} {settings : List Setting} (hfits : options.Fits)
    (h : List.Forall₂ GivenBy items settings) : (options.withSettings settings).Fits := by
  induction h generalizing options with
  | nil => exact hfits
  | cons hgiven _ ih =>
    obtain ⟨_, _, -, hgives⟩ := hgiven
    exact ih (hfits.apply hgives)

theorem fits_of_setAttributes {attributes : List Attribute}
    (h : attributes.foldlM setAttribute default = .ok options) : options.Fits := by
  refine foldlM_invariant (fun attr _ options options' hfits h => ?_) ?_ h
  · obtain ⟨settings, hgiven, rfl⟩ := setAttribute_eq_ok.1 h
    unfold GivenIn at hgiven
    split at hgiven
    · obtain ⟨items, -, hgivens⟩ := hgiven
      exact hfits.withSettings hgivens
    · rw [hgiven]
      exact hfits
  · exact ⟨by decide, by decide, by decide⟩

/-- With accepted options something can be predicted and called, and each number fits. -/
theorem bounds_of_ofAttributes {attributes : List Attribute} (h : ofAttributes attributes = .ok options) :
    options.Fits ∧ options.k ≠ 0 ∧ options.recursionLimit ≠ 0 := by
  obtain ⟨made, hmade, h⟩ := bind_eq_ok.1 h
  obtain ⟨_, hcheck, h⟩ := bind_eq_ok.1 h
  obtain rfl := pure_eq_ok.1 h
  exact ⟨fits_of_setAttributes hmade, check_eq_ok.1 (mapError_eq_ok.1 hcheck)⟩

end PredictiveParser.Options

namespace PredictiveParser.Surface

/-! ## The list of an attribute -/

/-- Entries are read up to the end of the list. -/
theorem rest_of_metaItems {depth : Nat} {items : List MetaItem} {input after : Input}
    (h : Reads (metaItems depth) input items after) : after.rest = [] := by
  cases depth with
  | zero => cases h
  | succ depth =>
    obtain ⟨parts, between, hparts, h⟩ := reads_bind.1 h
    obtain ⟨-, rfl⟩ := reads_pure.1 h
    exact List.isEmpty_iff.1 ((stop_of_readItemsUntil (by decide) hparts).elim id id)

/-! ## The depth -/

theorem AgreeBelow.metaForm {bound : Nat} {items others : Reader Unit} (h : AgreeBelow bound items others) :
    AgreeBelow (bound + 1) (metaForm items) (metaForm others) := by
  refine agreeBelow_bind _ fun isList => ?_
  split
  · exact (h.readGroup _).bind fun _ => agreeBelow_refl _
  · exact agreeBelow_refl _

theorem AgreeBelow.metaItem {bound : Nat} {items others : Reader Unit} (h : AgreeBelow bound items others) :
    AgreeBelow (bound + 1) (metaItem items) (metaItem others) := by
  refine agreeBelow_bind _ fun tokens => agreeBelow_bind _ fun isLiteral => ?_
  split
  · exact agreeBelow_refl _
  split
  · exact agreeBelow_bind _ fun _ => agreeBelow_bind _ fun _ => h.metaForm.bind fun _ => agreeBelow_refl _
  · exact agreeBelow_refl _

/-- More depth than there are tokens changes nothing. -/
theorem metaItems_agree (depth more : Nat) :
    AgreeBelow depth (metaItems depth) (metaItems (depth + more)) := by
  induction depth with
  | zero => exact fun _ hsize => absurd hsize (Nat.not_lt_zero _)
  | succ depth ih =>
    rw [Nat.add_right_comm]
    exact ih.discard.metaItem.readItemsUntil.bind fun _ => agreeBelow_refl _

theorem readAll_metaItems {depth : Nat} {body : Tokens} (h : size body < depth) :
    readAll (metaItems depth) body = readAll (metaItems (size body + 1)) body := by
  obtain ⟨more, rfl⟩ := Nat.exists_eq_add_of_le h
  unfold readAll
  rw [metaItems_agree (size body + 1) more ⟨body, false⟩ (Nat.lt_succ_self _)]

/-- The entries of an attribute are those of one list in parentheses, which is read as a whole; no depth is
too small for it but one that is not above its size. -/
theorem attributeItems_eq_ok {tokens : Tokens} {items : List MetaItem} :
    attributeItems tokens = .ok (some items) ↔ ∃ body, tokens = [.group .parenthesis body] ∧
      ∀ depth, size body < depth → readAll (metaItems depth) body = .ok items := by
  unfold attributeItems
  rw [readAll_eq_ok, reads_peek_bind]
  constructor
  · intro h
    split at h
    · obtain ⟨items', between, hgroup, h⟩ := reads_bind.1 h
      cases h
      obtain ⟨body, rest, inside, rfl, hinside, hafter⟩ := reads_readGroup.1 hgroup
      obtain ⟨insideRest, leftover⟩ := inside
      obtain ⟨rfl, hleftover⟩ := Input.mk.inj hafter
      obtain ⟨rfl, hrest⟩ := Bool.or_eq_false_iff.1 hleftover.symm
      rw [Bool.not_eq_false', List.isEmpty_iff] at hrest
      subst hrest
      refine ⟨body, rfl, fun depth hdepth => ?_⟩
      rw [readAll_metaItems hdepth, readAll_eq_ok]
      exact reads_ahead_bind.1 hinside
    · obtain ⟨_, _, _, h⟩ := reads_bind.1 h
      cases h
  · rintro ⟨body, rfl, h⟩
    have hinside := readAll_eq_ok.1 (h (size body + 1) (Nat.lt_succ_self _))
    exact reads_bind.2 ⟨items, ⟨[], false⟩,
      reads_readGroup.2 ⟨body, [], ⟨[], false⟩, rfl, reads_ahead_bind.2 hinside, rfl⟩, rfl⟩

end PredictiveParser.Surface
