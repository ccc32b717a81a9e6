import PredictiveParser.Proofs.Success
import PredictiveParser.Surface.Reader

/-!
# What a reader has read

What a reader leaves is an end of what it was given, so what it has read is what stood in front of that
(`reads_asWritten`). Tokens that are left over in a group are remembered to the end, where `readAll` refuses
them (`reads_readGroup`, `readAll_eq_ok`).

Repetitions count down from the number of tokens that are there. The count does not run out, since each round
that is not the last one takes a token away (`reads_repeatFor`). So a list of items ends for a reason
(`stop_of_readItemsUntil`). Neither does the depth to which things may be nested: readers that agree on fewer
tokens than `bound` agree on a group of as many (`AgreeBelow.readGroup`).
-/
namespace PredictiveParser.Surface

variable {α β : Type} {reader : Reader α} {input after : Input} {value : α}

/-- The reader comes from one input to another, with this value. -/
def Reads (reader : Reader α) (input : Input) (value : α) (after : Input) : Prop :=
  reader.run input = .ok (value, after)

theorem Reads.behind (h : Reads reader input value after) : after.Behind input :=
  reader.behind h

theorem Input.Behind.length_le (h : after.Behind input) : after.rest.length ≤ input.rest.length :=
  h.suffix.length_le

theorem reads_pure {other : α} :
    Reads (pure value : Reader α) input other after ↔ other = value ∧ after = input := by
  constructor
  · intro h
    cases h
    exact ⟨rfl, rfl⟩
  · rintro ⟨rfl, rfl⟩
    rfl

theorem run_bind {f : α → Reader β} : (reader >>= f).run input =
    match reader.run input with
    | .ok (value, between) => (f value).run between
    | .error failure => .error failure :=
  rfl

theorem reads_bind {f : α → Reader β} {other : β} : Reads (reader >>= f) input other after ↔
    ∃ value between, Reads reader input value between ∧ Reads (f value) between other after := by
  unfold Reads
  rw [run_bind]
  cases reader.run input with
  | error failure =>
    constructor
    · exact nofun
    · rintro ⟨_, _, ⟨⟩, _⟩
  | ok pair =>
    constructor
    · exact fun h => ⟨pair.1, pair.2, rfl, h⟩
    · rintro ⟨value, between, ⟨⟩, h⟩
      exact h

theorem reads_ahead_bind {f : Tokens → Reader β} {other : β} :
    Reads (ahead >>= f) input other after ↔ Reads (f input.rest) input other after :=
  Iff.rfl

theorem reads_peek_bind {condition : Tokens → Bool} {f : Bool → Reader β} {other : β} :
    Reads (peek condition >>= f) input other after ↔
      Reads (f (condition input.rest)) input other after :=
  Iff.rfl

theorem reads_advance_bind {count : Nat} {f : Unit → Reader β} {other : β} :
    Reads (advance count >>= f) input other after ↔
      Reads (f ()) { input with rest := input.rest.drop count } other after :=
  Iff.rfl

/-! ## Words and operators -/

theorem reads_readOp {op : String} {tokens : Tokens} : Reads (readOp op) input tokens after ↔
    startsOp op input.rest = true ∧ tokens = Template.op op ∧
      after = { input with rest := input.rest.drop op.length } := by
  unfold readOp
  rw [reads_ahead_bind]
  constructor
  · intro h
    split at h
    · rename_i hstarts
      rw [reads_advance_bind, reads_pure] at h
      obtain ⟨rfl, rfl⟩ := h
      exact ⟨hstarts, rfl, rfl⟩
    · cases h
  · rintro ⟨hstarts, rfl, rfl⟩
    rw [if_pos hstarts]
    rfl

theorem reads_optionalOp {op : String} {tokens : Tokens} : Reads (optionalOp op) input tokens after ↔
    if startsOp op input.rest then Reads (readOp op) input tokens after
    else tokens = [] ∧ after = input := by
  unfold optionalOp peekOp
  rw [reads_peek_bind]
  cases startsOp op input.rest
  · exact reads_pure
  · rfl

theorem reads_readAnyWord {name : String} : Reads readAnyWord input name after ↔
    ∃ rest, input.rest = .ident name :: rest ∧ after = { input with rest } := by
  unfold readAnyWord
  rw [reads_ahead_bind]
  constructor
  · intro h
    split at h
    · rename_i heq
      rw [reads_advance_bind, reads_pure] at h
      obtain ⟨rfl, rfl⟩ := h
      exact ⟨_, heq, by rw [heq]; rfl⟩
    · cases h
  · rintro ⟨rest, heq, rfl⟩
    rw [heq]
    refine reads_advance_bind.2 ?_
    rw [heq]
    rfl

theorem startsChars_nil {chars : List Char} (h : chars ≠ []) : startsChars chars [] = false := by
  match chars with
  | [] => exact absurd rfl h
  | [_] => rfl
  | _ :: _ :: _ => rfl

/-- An operator takes a token away, since it has a character. -/
theorem length_lt_of_readOp {op : String} {tokens : Tokens} (hop : op ≠ "")
    (h : Reads (readOp op) input tokens after) : after.rest.length < input.rest.length := by
  obtain ⟨hstarts, -, rfl⟩ := reads_readOp.1 h
  have hchars : op.toList ≠ [] := fun h => hop (String.toList_eq_nil_iff.1 h)
  have hpos : 0 < op.length := List.length_pos_iff.2 hchars
  cases hrest : input.rest with
  | nil =>
    rw [hrest, startsOp, startsChars_nil hchars] at hstarts
    cases hstarts
  | cons token rest =>
    rw [List.length_drop, List.length_cons]
    omega

/-! ## Groups -/

/-- A group is read to its end, or it is remembered that tokens are left over in it. -/
theorem reads_readGroup {delimiter : Delimiter} :
    Reads (readGroup delimiter reader) input value after ↔
      ∃ body rest inside, input.rest = .group delimiter body :: rest ∧
        Reads reader { input with rest := body } value inside ∧
        after = ⟨rest, inside.leftover || !inside.rest.isEmpty⟩ := by
  constructor
  · intro h
    unfold Reads readGroup at h
    dsimp only at h
    split at h
    · rename_i delimiter' body rest heq
      split at h
      · rename_i hdelimiter
        subst hdelimiter
        split at h
        · rename_i value' inside hinside
          cases h
          exact ⟨body, rest, inside, heq, hinside, rfl⟩
        · cases h
      · cases h
    · cases h
  · rintro ⟨body, rest, inside, heq, hinside, rfl⟩
    unfold Reads readGroup
    dsimp only
    rw [heq]
    dsimp only
    rw [if_pos rfl, hinside]

/-- What reads a whole list leaves nothing of it, and nothing of the groups in it. -/
theorem readAll_eq_ok {tokens : Tokens} :
    readAll reader tokens = .ok value ↔ Reads reader ⟨tokens, false⟩ value ⟨[], false⟩ := by
  unfold readAll Reads
  rw [bind_eq_ok]
  constructor
  · rintro ⟨⟨value', rest, leftover⟩, hread, h⟩
    dsimp only at h
    split at h
    · cases h
    · rename_i hnothing
      cases h
      obtain ⟨rfl, hrest⟩ := Bool.or_eq_false_iff.1 (eq_false_of_ne_true hnothing)
      rw [Bool.not_eq_false', List.isEmpty_iff] at hrest
      rwa [hrest] at hread
  · exact fun h => ⟨_, h, rfl⟩

/-! ## What is kept as it was written -/

theorem take_length_sub_of_suffix {α : Type} {rest all : List α} (h : rest <:+ all) :
    all.take (all.length - rest.length) ++ rest = all := by
  obtain ⟨front, rfl⟩ := h
  rw [List.length_append, Nat.add_sub_cancel, List.take_left]

/-- The tokens that are kept are those that have been read. -/
theorem reads_asWritten {tokens : Tokens} (h : Reads (asWritten reader) input tokens after) :
    (∃ value, Reads reader input value after) ∧ input.rest = tokens ++ after.rest := by
  obtain ⟨value, between, hread, h⟩ := reads_bind.1 (reads_ahead_bind.1 h)
  rw [writtenSince, reads_ahead_bind, reads_pure] at h
  obtain ⟨rfl, rfl⟩ := h
  exact ⟨⟨value, hread⟩, (take_length_sub_of_suffix hread.behind.suffix).symm⟩

/-! ## Repetition -/

/-- A round that is not the last one takes a token away. -/
def Shortens (reader : Reader (α × Bool)) : Prop :=
  ∀ input value after, Reads reader input (value, true) after → after.rest.length < input.rest.length

/-- Rounds of a reader up to the one that says it is the last. -/
inductive Rounds (reader : Reader (α × Bool)) : Input → List α → Input → Prop where
  | last {input after : Input} {value : α} (h : Reads reader input (value, false) after) :
      Rounds reader input [value] after
  | more {input between after : Input} {value : α} {values : List α}
      (h : Reads reader input (value, true) between) (rest : Rounds reader between values after) :
      Rounds reader input (value :: values) after

/-- The count does not matter: it is larger than the number of tokens, and each round takes one away. -/
theorem reads_repeatFor {reader : Reader (α × Bool)} (hshortens : Shortens reader) :
    ∀ {count : Nat} {input after : Input} {values : List α}, input.rest.length < count →
      (Reads (repeatFor reader count) input values after ↔ Rounds reader input values after)
  | 0, _, _, _, hcount => absurd hcount (Nat.not_lt_zero _)
  | count + 1, input, after, values, hcount => by
    have hless {value between} (hfirst : Reads reader input (value, true) between) :
        between.rest.length < count :=
      Nat.lt_of_lt_of_le (hshortens _ _ _ hfirst) (Nat.le_of_lt_succ hcount)
    constructor
    · intro h
      obtain ⟨⟨value, more⟩, between, hfirst, h⟩ := reads_bind.1 h
      cases more
      · obtain ⟨rfl, rfl⟩ := reads_pure.1 h
        exact .last hfirst
      · obtain ⟨values', between', hrest, h⟩ := reads_bind.1 h
        obtain ⟨rfl, rfl⟩ := reads_pure.1 h
        exact .more hfirst ((reads_repeatFor hshortens (hless hfirst)).1 hrest)
    · rintro (hfirst | ⟨hfirst, hrest⟩)
      · exact reads_bind.2 ⟨_, _, hfirst, reads_pure.2 ⟨rfl, rfl⟩⟩
      · exact reads_bind.2 ⟨_, _, hfirst, reads_bind.2
          ⟨_, _, (reads_repeatFor hshortens (hless hfirst)).2 hrest, reads_pure.2 ⟨rfl, rfl⟩⟩⟩

/-- What holds behind a last round holds at the end. -/
theorem Rounds.at_end {reader : Reader (α × Bool)} {values : List α} {p : Input → Prop}
    (hlast : ∀ input value after, Reads reader input (value, false) after → p after)
    (h : Rounds reader input values after) : p after := by
  induction h with
  | last h => exact hlast _ _ _ h
  | more _ _ ih => exact ih

/-! ## Lists of items -/

section Items

variable {separator : String} {stop isLast : Tokens → Bool} {item : Reader α}

/-- A round ends at the stop, behind a last item, or behind an operator. -/
theorem reads_itemRound {found : Option (α × Bool)} {more : Bool}
    (h : Reads (itemRound separator stop isLast item) input (found, more) after) :
    (found = none ∧ more = false ∧ stop input.rest = true ∧ after = input) ∨
    (∃ value, found = some (value, false) ∧ more = false ∧ Reads item input value after ∧
      isLast after.rest = true) ∨
    (∃ value between tokens, found = some (value, true) ∧ more = true ∧ Reads item input value between ∧
      Reads (readOp separator) between tokens after) := by
  have h := reads_peek_bind.1 h
  split at h
  · rename_i hstop
    cases h
    exact .inl ⟨rfl, rfl, hstop, rfl⟩
  · obtain ⟨value, between, hvalue, h⟩ := reads_bind.1 h
    have h := reads_peek_bind.1 h
    split at h
    · rename_i hlast
      cases h
      exact .inr (.inl ⟨value, rfl, rfl, hvalue, hlast⟩)
    · obtain ⟨tokens, _, hop, h⟩ := reads_bind.1 h
      cases h
      exact .inr (.inr ⟨value, between, tokens, rfl, rfl, hvalue, hop⟩)

theorem shortens_itemRound (hseparator : separator ≠ "") :
    Shortens (itemRound separator stop isLast item) := by
  intro input found after h
  obtain ⟨_, ⟨⟩, _⟩ | ⟨_, _, ⟨⟩, _⟩ | ⟨value, between, _, _, _, hvalue, hop⟩ := reads_itemRound h
  exact Nat.lt_of_lt_of_le (length_lt_of_readOp hseparator hop) hvalue.behind.length_le

/-- Items end at the stop or behind a last item, and not for want of a count. -/
theorem stop_of_readItemsUntil {items : List (α × Bool)} (hseparator : separator ≠ "")
    (h : Reads (readItemsUntil separator stop isLast item) input items after) :
    stop after.rest = true ∨ isLast after.rest = true := by
  obtain ⟨parts, between, hparts, h⟩ := reads_bind.1 (reads_ahead_bind.1 h)
  obtain ⟨-, rfl⟩ := reads_pure.1 h
  have hrounds := (reads_repeatFor (shortens_itemRound hseparator) (Nat.lt_succ_self _)).1 hparts
  refine hrounds.at_end (p := fun input => stop input.rest = true ∨ isLast input.rest = true) ?_
  intro input found after h
  obtain ⟨_, _, hstop, rfl⟩ | ⟨_, _, _, _, hlast⟩ | ⟨_, _, _, _, ⟨⟩, _⟩ := reads_itemRound h
  · exact .inl hstop
  · exact .inr hlast

end Items

/-! ## What is nested -/

theorem size_append (front back : Tokens) : size (front ++ back) = size front + size back := by
  induction front with
  | nil => simp [size]
  | cons token front ih => rw [List.cons_append, size, size, ih, Nat.add_assoc]

theorem Input.Behind.size_le (h : after.Behind input) : size after.rest ≤ size input.rest := by
  obtain ⟨front, hfront⟩ := h.suffix
  rw [← hfront, size_append]
  exact Nat.le_add_left _ _

/-- Two readers read the same of fewer than `bound` tokens. -/
def AgreeBelow (bound : Nat) (reader other : Reader α) : Prop :=
  ∀ input, size input.rest < bound → reader.run input = other.run input

section AgreeBelow

variable {bound : Nat} {other : Reader α}

theorem agreeBelow_refl (reader : Reader α) : AgreeBelow bound reader reader :=
  fun _ _ => rfl

theorem AgreeBelow.bind {f f' : α → Reader β} (h : AgreeBelow bound reader other)
    (hf : ∀ value, AgreeBelow bound (f value) (f' value)) :
    AgreeBelow bound (reader >>= f) (other >>= f') := by
  intro input hsize
  rw [run_bind, run_bind, ← h input hsize]
  cases hread : reader.run input with
  | error failure => rfl
  | ok pair => exact hf pair.1 pair.2 (Nat.lt_of_le_of_lt (reader.behind hread).size_le hsize)

/-- They go on the same way behind what both read. -/
theorem agreeBelow_bind {γ : Type} (first : Reader γ) {f f' : γ → Reader β}
    (hf : ∀ value, AgreeBelow bound (f value) (f' value)) : AgreeBelow bound (first >>= f) (first >>= f') :=
  (agreeBelow_refl first).bind hf

/-- What stands in a group is smaller by the group itself. -/
theorem AgreeBelow.readGroup (h : AgreeBelow bound reader other) (delimiter : Delimiter) :
    AgreeBelow (bound + 1) (readGroup delimiter reader) (readGroup delimiter other) := by
  intro input hsize
  unfold Surface.readGroup
  dsimp only
  split
  · rename_i body rest heq
    have hbody : size body < bound := by
      rw [heq, size, treeSize] at hsize
      omega
    rw [h ⟨body, input.leftover⟩ hbody]
  · rfl

theorem AgreeBelow.repeatFor {reader other : Reader (α × Bool)} (h : AgreeBelow bound reader other)
    (count : Nat) : AgreeBelow bound (repeatFor reader count) (repeatFor other count) := by
  induction count with
  | zero => exact agreeBelow_refl _
  | succ count ih =>
    refine h.bind fun (value, more) => ?_
    cases more
    · exact agreeBelow_refl _
    · exact ih.bind fun _ => agreeBelow_refl _

theorem AgreeBelow.itemRound {separator : String} {stop isLast : Tokens → Bool}
    (h : AgreeBelow bound reader other) :
    AgreeBelow bound (itemRound separator stop isLast reader) (itemRound separator stop isLast other) := by
  refine agreeBelow_bind _ fun stops => ?_
  cases stops
  · exact h.bind fun _ => agreeBelow_refl _
  · exact agreeBelow_refl _

theorem AgreeBelow.readItemsUntil {separator : String} {stop isLast : Tokens → Bool}
    (h : AgreeBelow bound reader other) :
    AgreeBelow bound (readItemsUntil separator stop isLast reader)
      (readItemsUntil separator stop isLast other) :=
  agreeBelow_bind _ fun _ => (h.itemRound.repeatFor _).bind fun _ => agreeBelow_refl _

theorem AgreeBelow.discard (h : AgreeBelow bound reader other) :
    AgreeBelow bound (Functor.discard reader) (Functor.discard other) :=
  h.bind fun _ => agreeBelow_refl _

end AgreeBelow

end PredictiveParser.Surface
