import PredictiveParser.Proofs.Surface.Reader
import PredictiveParser.Surface.Attribute

/-!
# Attributes read back

Reading attributes goes on until none stands in front (`AttributesAhead.none_ahead`). What is read of each
is all there is to it: the code of attributes that have been read is read as the same attributes
(`readAll_code`). For this the tokens behind a path must not make it longer, which holds of what has been read
(`Attribute.Sound`).
-/
namespace PredictiveParser.Surface

variable {starts : Tokens → Bool} {input after : Input} {names : List String} {attr : Attribute}
  {isInner : Bool}

/-! ## Paths -/

/-- How a round of reading names may go: no name, a last one, or one with `::` behind it. -/
inductive NameRound (starts : Tokens → Bool) : Input → Option (String × Bool) → Bool → Input → Prop where
  | none {input : Input} (hstarts : starts input.rest = false) : NameRound starts input none false input
  | last {name : String} {rest : Tokens} {leftover : Bool} (hstarts : starts (.ident name :: rest) = true)
      (hends : startsOp "::" rest = false) :
      NameRound starts ⟨.ident name :: rest, leftover⟩ (some (name, false)) false ⟨rest, leftover⟩
  | more {name : String} {rest : Tokens} {leftover : Bool} (hstarts : starts (.ident name :: rest) = true)
      (hgoes : startsOp "::" rest = true) :
      NameRound starts ⟨.ident name :: rest, leftover⟩ (some (name, true)) true ⟨rest.drop 2, leftover⟩

theorem reads_nameRound {found : Option (String × Bool)} {more : Bool} :
    Reads (nameRound starts) input (found, more) after ↔ NameRound starts input found more after := by
  unfold nameRound
  rw [reads_peek_bind]
  constructor
  · intro h
    split at h
    · rename_i hstarts
      obtain ⟨name, between, hname, h⟩ := reads_bind.1 h
      obtain ⟨tokens, leftover⟩ := input
      obtain ⟨rest, rfl, rfl⟩ := reads_readAnyWord.1 hname
      have h := reads_peek_bind.1 h
      split at h
      · rename_i hgoes
        obtain ⟨_, _, hop, h⟩ := reads_bind.1 h
        obtain ⟨-, -, rfl⟩ := reads_readOp.1 hop
        cases h
        exact .more hstarts hgoes
      · rename_i hends
        cases h
        exact .last hstarts (eq_false_of_ne_true hends)
    · rename_i hstarts
      cases h
      exact .none (eq_false_of_ne_true hstarts)
  · rintro (hstarts | ⟨hstarts, hends⟩ | ⟨hstarts, hgoes⟩)
    · rw [hstarts]
      rfl
    · simp only [hstarts, ↓reduceIte]
      refine reads_bind.2 ⟨_, _, reads_readAnyWord.2 ⟨_, rfl, rfl⟩, reads_peek_bind.2 ?_⟩
      simp only [hends, Bool.false_eq_true, ↓reduceIte]
      rfl
    · simp only [hstarts, ↓reduceIte]
      refine reads_bind.2 ⟨_, _, reads_readAnyWord.2 ⟨_, rfl, rfl⟩, reads_peek_bind.2 ?_⟩
      simp only [hgoes, ↓reduceIte]
      exact reads_bind.2 ⟨_, _, reads_readOp.2 ⟨hgoes, rfl, rfl⟩, rfl⟩

theorem shortens_nameRound : Shortens (nameRound starts) := by
  intro input found after h
  cases reads_nameRound.1 h
  exact Nat.lt_succ_of_le (List.drop_suffix _ _).length_le

/-- Names with `::` between them. -/
inductive Names (starts : Tokens → Bool) : Input → List String → Input → Prop where
  | last {name : String} {rest : Tokens} {leftover : Bool} (hstarts : starts (.ident name :: rest) = true)
      (hends : startsOp "::" rest = false) :
      Names starts ⟨.ident name :: rest, leftover⟩ [name] ⟨rest, leftover⟩
  | more {name : String} {rest : Tokens} {leftover : Bool} {names : List String} {after : Input}
      (hstarts : starts (.ident name :: rest) = true) (hgoes : startsOp "::" rest = true)
      (hnames : Names starts ⟨rest.drop 2, leftover⟩ names after) :
      Names starts ⟨.ident name :: rest, leftover⟩ (name :: names) after

theorem names_of_rounds {parts : List (Option (String × Bool))}
    (h : Rounds (nameRound starts) input parts after) (hparts : parts.filterMap id ≠ [])
    (hlast : (parts.filterMap id).getLast?.any Prod.snd = false) :
    Names starts input ((parts.filterMap id).map Prod.fst) after := by
  induction h with
  | last h =>
    cases reads_nameRound.1 h with
    | none => exact absurd rfl hparts
    | last hstarts hends => exact .last hstarts hends
  | more h _ ih =>
    cases reads_nameRound.1 h with
    | more hstarts hgoes =>
      rw [List.filterMap_cons_some (f := id) rfl] at hlast ⊢
      refine .more hstarts hgoes (ih ?_ ?_)
      · intro hnil
        rw [hnil] at hlast
        cases hlast
      · rw [List.getLast?_cons] at hlast
        cases hrest : (List.filterMap id _).getLast? with
        | none => rfl
        | some part => rwa [hrest] at hlast

theorem Names.exists_rounds (h : Names starts input names after) :
    ∃ parts, Rounds (nameRound starts) input parts after ∧ parts.filterMap id ≠ [] ∧
      (parts.filterMap id).getLast?.any Prod.snd = false ∧ (parts.filterMap id).map Prod.fst = names := by
  induction h with
  | @last name _ _ hstarts hends =>
    exact ⟨[some (name, false)], .last (reads_nameRound.2 (.last hstarts hends)), List.cons_ne_nil _ _,
      rfl, rfl⟩
  | @more name _ _ _ _ hstarts hgoes _ ih =>
    obtain ⟨parts, hrounds, hparts, hlast, rfl⟩ := ih
    refine ⟨some (name, true) :: parts, .more (reads_nameRound.2 (.more hstarts hgoes)) hrounds,
      List.cons_ne_nil _ _, ?_, rfl⟩
    rw [List.filterMap_cons_some (f := id) rfl, List.getLast?_cons, List.getLast?_eq_some_getLast hparts]
    rwa [List.getLast?_eq_some_getLast hparts] at hlast

theorem reads_readNames : Reads (readNames starts) input names after ↔ Names starts input names after := by
  unfold readNames
  rw [reads_ahead_bind, reads_bind]
  simp only [reads_repeatFor shortens_nameRound (Nat.lt_succ_self _)]
  constructor
  · rintro ⟨parts, between, hrounds, h⟩
    split at h
    · cases h
    · rename_i hparts
      split at h
      · cases h
      · rename_i hlast
        obtain ⟨rfl, rfl⟩ := reads_pure.1 h
        exact names_of_rounds hrounds (fun h => hparts (by rw [h]; rfl)) (eq_false_of_ne_true hlast)
  · intro h
    obtain ⟨parts, hrounds, hparts, hlast, rfl⟩ := h.exists_rounds
    refine ⟨parts, after, hrounds, ?_⟩
    rw [if_neg (by rwa [List.isEmpty_iff]), if_neg (by rw [hlast]; exact Bool.false_ne_true)]
    exact reads_pure.2 ⟨rfl, rfl⟩

/-- Behind the names that have been read no `::` follows. -/
theorem Names.sound (h : Names starts input names after) :
    names ≠ [] ∧ (∀ name ∈ names, ∃ rest, starts (.ident name :: rest) = true) ∧
      startsOp "::" after.rest = false := by
  induction h with
  | last hstarts hends => exact ⟨List.cons_ne_nil _ _, List.forall_mem_singleton.2 ⟨_, hstarts⟩, hends⟩
  | more hstarts _ _ ih =>
    exact ⟨List.cons_ne_nil _ _, List.forall_mem_cons.2 ⟨⟨_, hstarts⟩, ih.2.1⟩, ih.2.2⟩

/-- A path is read as the names it was written from. -/
theorem names_path {tokens : Tokens} {leftover : Bool} (htokens : startsOp "::" tokens = false) :
    ∀ {names : List String}, names ≠ [] → (∀ name ∈ names, ∀ rest, starts (.ident name :: rest) = true) →
      Names starts ⟨Template.path names ++ tokens, leftover⟩ names ⟨tokens, leftover⟩
  | [], hne, _ => absurd rfl hne
  | [name], _, hnames => .last (hnames name List.mem_cons_self _) htokens
  | name :: _ :: _, _, hnames =>
    .more (hnames name List.mem_cons_self _) rfl
      (names_path htokens (List.cons_ne_nil _ _) fun other h => hnames other (List.mem_cons_of_mem _ h))

/-! ## Attributes -/

/-- What is known of an attribute that has been read: its path has names, and its tokens do not make the path
longer. -/
structure Attribute.Sound (attr : Attribute) : Prop where
  path_ne_nil : attr.path ≠ []
  names : ∀ name ∈ attr.path, startsModuleName [.ident name] = true
  tokens : startsOp "::" attr.tokens = false

theorem names_of_readModulePath {isAbsolute : Bool}
    (h : Reads readModulePath input (isAbsolute, names) after) :
    ∃ between, Names startsModuleName between names after := by
  obtain ⟨colons, between, -, h⟩ := reads_bind.1 h
  obtain ⟨names', after', hnames, h⟩ := reads_bind.1 h
  cases h
  exact ⟨between, reads_readNames.1 hnames⟩

theorem Attribute.Sound.reads_path (h : attr.Sound) (leftover : Bool) :
    Reads readModulePath
      ⟨(if attr.isAbsolute then Template.op "::" else []) ++ Template.path attr.path ++ attr.tokens, leftover⟩
      (attr.isAbsolute, attr.path) ⟨attr.tokens, leftover⟩ := by
  have hnames : Reads (readNames startsModuleName) ⟨Template.path attr.path ++ attr.tokens, leftover⟩
      attr.path ⟨attr.tokens, leftover⟩ :=
    reads_readNames.2 (names_path h.tokens h.path_ne_nil fun name hname _ => h.names name hname)
  cases attr.isAbsolute
  · obtain ⟨name, names, hpath⟩ := List.exists_cons_of_ne_nil h.path_ne_nil
    refine reads_bind.2 ⟨[], ⟨Template.path attr.path ++ attr.tokens, leftover⟩, ?_, ?_⟩
    · rw [reads_optionalOp, hpath]
      cases names <;> exact ⟨rfl, rfl⟩
    · exact reads_bind.2 ⟨_, _, hnames, rfl⟩
  · refine reads_bind.2 ⟨Template.op "::", _, reads_optionalOp.2 (reads_readOp.2 ⟨rfl, rfl, rfl⟩), ?_⟩
    exact reads_bind.2 ⟨_, _, hnames, rfl⟩

theorem sound_of_readAttribute (h : Reads (readAttribute isInner) input attr after) :
    attr.isInner = isInner ∧ attr.Sound := by
  obtain ⟨_, _, -, h⟩ := reads_bind.1 h
  obtain ⟨_, _, -, h⟩ := reads_bind.1 h
  obtain ⟨body, rest, inside, -, hinside, -⟩ := reads_readGroup.1 h
  obtain ⟨⟨isAbsolute, names⟩, between, hpath, h⟩ := reads_bind.1 hinside
  cases h
  obtain ⟨_, hnames⟩ := names_of_readModulePath hpath
  obtain ⟨hne, hstarts, htokens⟩ := hnames.sound
  exact ⟨rfl, hne, fun name hname => (hstarts name hname).choose_spec, htokens⟩

theorem Attribute.Sound.reads_body (h : attr.Sound) (rest : Tokens) (leftover : Bool) :
    Reads (attributeBody attr.isInner)
      ⟨Template.brackets ((if attr.isAbsolute then Template.op "::" else []) ++ Template.path attr.path ++
        attr.tokens) ++ rest, leftover⟩ attr ⟨rest, leftover⟩ := by
  refine reads_readGroup.2 ⟨_, rest, ⟨[], leftover⟩, rfl, ?_, ?_⟩
  · refine reads_bind.2 ⟨_, _, h.reads_path _, ?_⟩
    rw [reads_ahead_bind, reads_advance_bind, reads_pure, List.drop_length]
    exact ⟨rfl, rfl⟩
  · rw [List.isEmpty_nil, Bool.not_true, Bool.or_false]

theorem Attribute.Sound.reads_code (h : attr.Sound) (rest : Tokens) (leftover : Bool) :
    Reads (readAttribute attr.isInner) ⟨attr.code ++ rest, leftover⟩ attr ⟨rest, leftover⟩ := by
  have hbody := h.reads_body rest leftover
  refine reads_bind.2 ⟨_, _, reads_readOp.2 ⟨rfl, rfl, rfl⟩, ?_⟩
  obtain ⟨isInner, path, isAbsolute, tokens⟩ := attr
  cases isInner
  · exact reads_bind.2 ⟨[], _, reads_pure.2 ⟨rfl, rfl⟩, hbody⟩
  · exact reads_bind.2 ⟨_, _, reads_readOp.2 ⟨rfl, rfl, rfl⟩, hbody⟩

/-! ## Lists of attributes -/

/-- A round finds no attribute and ends, or it reads one and goes on. -/
theorem reads_attributeRound {found : Option Attribute} {more : Bool} :
    Reads (attributeRound isInner) input (found, more) after ↔
      (startsAttribute isInner input.rest = false ∧ found = none ∧ more = false ∧ after = input) ∨
      ∃ attr, startsAttribute isInner input.rest = true ∧ found = some attr ∧ more = true ∧
        Reads (readAttribute isInner) input attr after := by
  unfold attributeRound
  rw [reads_peek_bind]
  constructor
  · intro h
    split at h
    · rename_i hstarts
      obtain ⟨attr, _, hattr, h⟩ := reads_bind.1 h
      cases h
      exact .inr ⟨attr, hstarts, rfl, rfl, hattr⟩
    · rename_i hstarts
      cases h
      exact .inl ⟨eq_false_of_ne_true hstarts, rfl, rfl, rfl⟩
  · rintro (⟨hstarts, rfl, rfl, rfl⟩ | ⟨attr, hstarts, rfl, rfl, hattr⟩)
    · rw [hstarts]
      rfl
    · rw [if_pos hstarts]
      exact reads_bind.2 ⟨attr, after, hattr, rfl⟩

theorem shortens_attributeRound : Shortens (attributeRound isInner) := by
  intro input found after h
  obtain ⟨_, _, ⟨⟩, _⟩ | ⟨attr, _, _, _, hattr⟩ := reads_attributeRound.1 h
  obtain ⟨_, between, hmark, h⟩ := reads_bind.1 hattr
  exact Nat.lt_of_le_of_lt h.behind.length_le (length_lt_of_readOp (by decide) hmark)

/-- Attributes one behind the other, up to where none stands in front. -/
inductive AttributesAhead (isInner : Bool) : Input → List Attribute → Input → Prop where
  | nil {input : Input} (h : startsAttribute isInner input.rest = false) :
      AttributesAhead isInner input [] input
  | cons {input between after : Input} {attr : Attribute} {attributes : List Attribute}
      (hstarts : startsAttribute isInner input.rest = true)
      (h : Reads (readAttribute isInner) input attr between)
      (rest : AttributesAhead isInner between attributes after) :
      AttributesAhead isInner input (attr :: attributes) after

theorem attributesAhead_of_rounds {parts : List (Option Attribute)}
    (h : Rounds (attributeRound isInner) input parts after) :
    AttributesAhead isInner input (parts.filterMap id) after := by
  induction h with
  | last h =>
    obtain ⟨hnone, rfl, _, rfl⟩ | ⟨_, _, _, ⟨⟩, _⟩ := reads_attributeRound.1 h
    exact .nil hnone
  | more h _ ih =>
    obtain ⟨_, _, ⟨⟩, _⟩ | ⟨attr, hstarts, rfl, _, hattr⟩ := reads_attributeRound.1 h
    exact .cons hstarts hattr ih

theorem AttributesAhead.exists_rounds {attributes : List Attribute}
    (h : AttributesAhead isInner input attributes after) :
    ∃ parts, Rounds (attributeRound isInner) input parts after ∧ parts.filterMap id = attributes := by
  induction h with
  | nil h => exact ⟨[none], .last (reads_attributeRound.2 (.inl ⟨h, rfl, rfl, rfl⟩)), rfl⟩
  | @cons _ _ _ attr _ hstarts h _ ih =>
    obtain ⟨parts, hrounds, rfl⟩ := ih
    have hround := reads_attributeRound.2 (.inr ⟨attr, hstarts, rfl, rfl, h⟩)
    exact ⟨some attr :: parts, .more hround hrounds, rfl⟩

theorem reads_attributesAhead {attributes : List Attribute} :
    Reads (attributesAhead isInner) input attributes after ↔
      AttributesAhead isInner input attributes after := by
  unfold attributesAhead
  rw [reads_ahead_bind, reads_bind]
  simp only [reads_repeatFor shortens_attributeRound (Nat.lt_succ_self _)]
  constructor
  · rintro ⟨parts, between, hrounds, h⟩
    obtain ⟨rfl, rfl⟩ := reads_pure.1 h
    exact attributesAhead_of_rounds hrounds
  · intro h
    obtain ⟨parts, hrounds, rfl⟩ := h.exists_rounds
    exact ⟨parts, after, hrounds, reads_pure.2 ⟨rfl, rfl⟩⟩

theorem AttributesAhead.none_ahead {attributes : List Attribute}
    (h : AttributesAhead isInner input attributes after) : startsAttribute isInner after.rest = false := by
  induction h with
  | nil h => exact h
  | cons _ _ _ ih => exact ih

theorem AttributesAhead.sound {attributes : List Attribute}
    (h : AttributesAhead isInner input attributes after) :
    ∀ attr ∈ attributes, attr.isInner = isInner ∧ attr.Sound := by
  induction h with
  | nil => exact List.forall_mem_nil _
  | cons _ h _ ih => exact List.forall_mem_cons.2 ⟨sound_of_readAttribute h, ih⟩

/-- The code of attributes is read as these attributes. -/
theorem attributesAhead_code {rest : Tokens} {leftover : Bool} {attributes : List Attribute}
    (hsound : ∀ attr ∈ attributes, attr.isInner = isInner ∧ attr.Sound)
    (hrest : startsAttribute isInner rest = false) :
    AttributesAhead isInner ⟨attributes.flatMap Attribute.code ++ rest, leftover⟩ attributes
      ⟨rest, leftover⟩ := by
  induction attributes with
  | nil => exact .nil hrest
  | cons attr attributes ih =>
    obtain ⟨⟨rfl, hattr⟩, hsound⟩ := List.forall_mem_cons.1 hsound
    rw [List.flatMap_cons, List.append_assoc]
    refine .cons ?_ (hattr.reads_code _ _) (ih hsound)
    unfold Attribute.code
    cases attr.isInner <;> rfl

/-- What has been read of attributes is all there is to them: their code is read as the same attributes. -/
theorem readAll_code {tokens : Tokens} {attributes : List Attribute}
    (h : readAll (attributesAhead isInner) tokens = .ok attributes) :
    readAll (attributesAhead isInner) (attributes.flatMap Attribute.code) = .ok attributes := by
  have hread := reads_attributesAhead.1 (readAll_eq_ok.1 h)
  rw [readAll_eq_ok, reads_attributesAhead, ← List.append_nil (attributes.flatMap _)]
  exact attributesAhead_code hread.sound hread.none_ahead

end PredictiveParser.Surface
