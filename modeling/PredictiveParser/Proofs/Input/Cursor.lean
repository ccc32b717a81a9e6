import Mathlib.Logic.Function.Iterate
import PredictiveParser.Proofs.Input.Bytes
import PredictiveParser.Proofs.Input.Lawful

/-!
# What a cursor on a text keeps

A `Script` is what a parser can do with its source: one operation after the other, each chosen by the answers
to those before, and recognizers that are tried in between. On a text no operation of a script cuts a
character: the cursor stands on a boundary at first, each operation leads from a boundary to a boundary
(`Operation.exists_run?`), and so does a script. `Cursor.Sound` says what holds wherever it comes to
(`Cursor.always_sound`).

On a boundary a cursor does what the source of characters does that parsers read from
(`Operation.run?_cursor`, `Script.run?_cursor`).
-/
namespace PredictiveParser

open Source

/-! ## Scripts -/

/-- What a parser asks of its source. -/
inductive Operation where
  | lookahead (offset : Nat)
  | index
  | advance
  | skip
  | matchSet (ranges : List (Int × Int))
  | tryMatchSet (ranges : List (Int × Int))
  | restore (place : Nat)

def Operation.Answer : Operation → Type
  | .lookahead _ | .skip => Int
  | .index => Nat
  | .matchSet _ => Except InputError Int
  | .tryMatchSet _ => Bool
  | .advance | .restore _ => Unit

/-- A recognizer: what it asks for depends on the answers it gets. -/
inductive Script where
  | stop (answer : Bool)
  | perform (op : Operation) (next : op.Answer → Script)
  | tryRecognize (closure : Script) (next : Bool → Script)

/-! ### On a source -/

section

variable {σ : Type} [Source σ]

def Operation.run : (op : Operation) → σ → op.Answer × σ
  | .lookahead offset, s => (Source.lookahead s offset, s)
  | .index, s => (Source.index s, s)
  | .advance, s => ((), Source.advance s)
  | .skip, s => Source.skip s
  | .matchSet ranges, s => Source.matchSet s ranges
  | .tryMatchSet ranges, s => Source.tryMatchSet s ranges
  | .restore place, s => ((), Source.restore s place)

def Script.run : Script → σ → Bool × σ
  | .stop answer, s => (answer, s)
  | .perform op next, s => (next (op.run s).1).run (op.run s).2
  | .tryRecognize closure next, s =>
    (next (Source.tryRecognize s closure.run).1).run (Source.tryRecognize s closure.run).2

end

/-! ### On a text in memory -/

namespace Cursor

/-- So many characters on. -/
def advances? : Nat → Cursor → Option Cursor
  | 0, c => some c
  | n + 1, c => do
    let (_, next) ← c.advance?
    next.advances? n

/-- The value that comes next, unless the input has ended. -/
def nextValue (c : Cursor) : List Int :=
  (c.peek? 0).toList.filter (· ≠ eof)

end Cursor

namespace Operation

def run? : (op : Operation) → Cursor → Option (op.Answer × Cursor)
  | .lookahead offset, c => (c.peek? offset).map fun value => (value, c)
  | .index, c => some (c.index, c)
  | .advance, c => c.advance?.map fun (_, next) => ((), next)
  | .skip, c => c.skip?
  | .matchSet ranges, c => c.matchSet? ranges
  | .tryMatchSet ranges, c => c.tryMatchSet? ranges
  | .restore place, c => some ((), c.restore place)

def consumed (c : Cursor) : Operation → List Int
  | .advance | .skip => c.nextValue
  | .matchSet ranges | .tryMatchSet ranges => c.nextValue.filter (inSet ranges)
  | .lookahead _ | .index | .restore _ => []

end Operation

namespace Script

def run? : Script → Cursor → Option (Bool × Cursor)
  | .stop answer, c => some (answer, c)
  | .perform op next, c => do
    let (answer, after) ← op.run? c
    (next answer).run? after
  | .tryRecognize closure next, c => do
    let (answer, after) ← c.tryRecognize? closure.run?
    (next answer).run? after

/-- No operation of the script fails, and `P` holds of every cursor that it comes to, those of the recognizers
that it tries included. -/
def Always (P : Cursor → Prop) : Script → Cursor → Prop
  | .stop _, c => P c
  | .perform op next, c => P c ∧ ∃ answer after, op.run? c = some (answer, after) ∧
    (next answer).Always P after
  | .tryRecognize closure next, c => P c ∧ closure.Always P c ∧ ∃ answer after,
    c.tryRecognize? closure.run? = some (answer, after) ∧ (next answer).Always P after

/-- The script does not go back, except behind a recognizer that it tries. -/
def GoesOn : Script → Cursor → Prop
  | .stop _, _ => True
  | .perform op next, c => (∀ place, op ≠ .restore place) ∧
    ∀ answer after, op.run? c = some (answer, after) → (next answer).GoesOn after
  | .tryRecognize closure next, c =>
    ∀ answer after, c.tryRecognize? closure.run? = some (answer, after) → (next answer).GoesOn after

/-- The values that a script consumes. What a recognizer reads is not consumed. -/
def consumed : Script → Cursor → List Int
  | .stop _, _ => []
  | .perform op next, c =>
    match op.run? c with
    | some (answer, after) => op.consumed c ++ (next answer).consumed after
    | none => []
  | .tryRecognize closure next, c =>
    match c.tryRecognize? closure.run? with
    | some (answer, after) => (next answer).consumed after
    | none => []

variable {P Q : Cursor → Prop} {c : Cursor}

/-- What every operation keeps, a script keeps. -/
theorem exists_run? (hop : ∀ (op : Operation) c, P c → ∃ answer after, op.run? c = some (answer, after) ∧
    P after) (script : Script) (hc : P c) :
    ∃ answer after, script.run? c = some (answer, after) ∧ P after := by
  induction script generalizing c with
  | stop answer => exact ⟨answer, c, rfl, hc⟩
  | perform op next ih =>
    obtain ⟨answer, after, hrun, hafter⟩ := hop op c hc
    rw [run?, hrun]
    exact ih answer hafter
  | tryRecognize closure next ihClosure ih =>
    obtain ⟨answer, after, hrun, hafter⟩ := ihClosure hc
    obtain ⟨_, _, hrestore, hback⟩ := hop (.restore c.index) after hafter
    cases hrestore
    rw [run?, Cursor.tryRecognize?, hrun]
    exact ih answer hback

theorem always (hop : ∀ (op : Operation) c, P c → ∃ answer after, op.run? c = some (answer, after) ∧
    P after) (script : Script) (hc : P c) : script.Always P c := by
  induction script generalizing c with
  | stop answer => exact hc
  | perform op next ih =>
    obtain ⟨answer, after, hrun, hafter⟩ := hop op c hc
    exact ⟨hc, answer, after, hrun, ih answer hafter⟩
  | tryRecognize closure next ihClosure ih =>
    obtain ⟨answer, after, hrun, hafter⟩ := exists_run? hop closure hc
    obtain ⟨_, _, hrestore, hback⟩ := hop (.restore c.index) after hafter
    cases hrestore
    refine ⟨hc, ihClosure hc, answer, after.restore c.index, ?_, ih answer hback⟩
    rw [Cursor.tryRecognize?, hrun]
    rfl

theorem Always.imp (h : ∀ c, P c → Q c) {script : Script} (hscript : script.Always P c) :
    script.Always Q c := by
  induction script generalizing c with
  | stop answer => exact h c hscript
  | perform op next ih =>
    obtain ⟨hc, answer, after, hrun, hrest⟩ := hscript
    exact ⟨h c hc, answer, after, hrun, ih answer hrest⟩
  | tryRecognize closure next ihClosure ih =>
    obtain ⟨hc, hclosure, answer, after, hrun, hrest⟩ := hscript
    exact ⟨h c hc, ihClosure hclosure, answer, after, hrun, ih answer hrest⟩

end Script

/-! ## Sources of characters and cursors -/

namespace TextSource

variable {s t u : TextSource} {cs ds : List Char} {place : Nat}

/-- Where the source stands in the bytes of its text. -/
def cursor (s : TextSource) : Cursor :=
  s.position.cursor

theorem restore_cursor (s : TextSource) (place : Nat) :
    s.cursor.restore place = (s.restore place).cursor := by
  have hnew : Cursor.new s.cursor.input place = (Position.ofIndex s.position.input place).map Position.cursor :=
    Position.new_eq s.position.input place
  rw [Position.ofIndex] at hnew
  unfold Cursor.restore TextSource.restore
  rw [hnew]
  cases Position.ofIndex? s.position.input place <;> rfl

theorem location?_cursor (s : TextSource) : s.cursor.location? = some (location s) := by
  rw [Cursor.location?, cursor, Position.lineCol?_cursor]
  rfl

end TextSource

/-- **On a boundary an operation does not fail**, and does what it does on the source there. -/
theorem Operation.run?_cursor (op : Operation) (s : TextSource) :
    op.run? s.cursor = some ((op.run s).1, (op.run s).2.cursor) := by
  have hpeek : ∀ n, s.cursor.peek? n = some (Source.lookahead s n) := s.position.peek?_cursor
  have hadvance : s.cursor.advance? = some (!s.atEnd, (Source.advance s).cursor) :=
    s.position.advance?_cursor
  cases op with
  | lookahead offset => rw [run?, hpeek]; rfl
  | index => rfl
  | advance => rw [run?, hadvance]; rfl
  | skip => rw [run?, Cursor.skip?, hpeek, hadvance]; rfl
  | matchSet ranges =>
    rw [run?, Cursor.matchSet?, hpeek, hadvance, s.location?_cursor, run, Source.matchSet]
    simp only [Option.bind_eq_bind, Option.bind_some]
    cases inSet ranges (Source.lookahead s 0) <;> rfl
  | tryMatchSet ranges =>
    rw [run?, Cursor.tryMatchSet?, hpeek, hadvance, run, Source.tryMatchSet]
    simp only [Option.bind_eq_bind, Option.bind_some]
    cases inSet ranges (Source.lookahead s 0) <;> rfl
  | restore place => rw [run?, s.restore_cursor]; rfl

theorem Cursor.tryRecognize?_cursor {α : Type} {run? : Cursor → Option (α × Cursor)}
    {run : TextSource → α × TextSource} (s : TextSource)
    (h : run? s.cursor = some ((run s).1, (run s).2.cursor)) :
    s.cursor.tryRecognize? run? =
      some ((Source.tryRecognize s run).1, (Source.tryRecognize s run).2.cursor) := by
  rw [Cursor.tryRecognize?, h]
  exact congrArg some (Prod.ext rfl ((run s).2.restore_cursor (Source.index s)))

/-- **A script** does so, too. -/
theorem Script.run?_cursor (script : Script) (s : TextSource) :
    script.run? s.cursor = some ((script.run s).1, (script.run s).2.cursor) := by
  induction script generalizing s with
  | stop answer => rfl
  | perform op next ih =>
    rw [run?, op.run?_cursor s]
    exact ih _ _
  | tryRecognize closure next ihClosure ih =>
    rw [run?, Cursor.tryRecognize?_cursor s (ihClosure s)]
    exact ih _ _

namespace TextSource

variable {s t u : TextSource} {cs ds : List Char} {place : Nat}

/-! ### The text stays -/

theorem input_restore (s : TextSource) (place : Nat) : (s.restore place).input = s.input := by
  unfold TextSource.restore
  split
  · rename_i position hposition
    exact (Position.ofIndex?_eq_some.1 hposition).1
  · rfl

theorem state_matchSet (s : TextSource) (ranges : List (Int × Int)) :
    (matchSet s ranges).2 = if inSet ranges (lookahead s 0) then advance s else s := by
  unfold matchSet
  split <;> rfl

theorem state_tryMatchSet (s : TextSource) (ranges : List (Int × Int)) :
    (tryMatchSet s ranges).2 = if inSet ranges (lookahead s 0) then advance s else s := by
  unfold tryMatchSet
  split <;> rfl

theorem input_advance (s : TextSource) : (advance s).input = s.input :=
  s.position.input_advance

theorem input_run (op : Operation) (s : TextSource) : (op.run s).2.input = s.input := by
  cases op with
  | lookahead | index => rfl
  | advance | skip => exact input_advance s
  | matchSet ranges =>
    rw [Operation.run, state_matchSet]
    split
    · exact input_advance s
    · rfl
  | tryMatchSet ranges =>
    rw [Operation.run, state_tryMatchSet]
    split
    · exact input_advance s
    · rfl
  | restore place => exact input_restore s place

/-- Whatever was done on the same text, going back leads to where it began. -/
theorem restore_index (h : t.input = s.input) : t.restore (index s) = s := by
  have hposition : Position.ofIndex? t.position.input s.position.index = some s.position :=
    Position.ofIndex?_eq_some.2 ⟨h.symm, rfl⟩
  show TextSource.restore t s.position.index = s
  rw [TextSource.restore, hposition]

theorem input_script (script : Script) (s : TextSource) : (script.run s).2.input = s.input := by
  induction script generalizing s with
  | stop answer => rfl
  | perform op next ih => exact (ih _ _).trans (input_run op s)
  | tryRecognize closure next ihClosure ih =>
    exact (ih _ _).trans ((input_restore _ _).trans (ihClosure s))

theorem tryRecognize_script (s : TextSource) (closure : Script) : (tryRecognize s closure.run).2 = s :=
  restore_index (input_script closure s)

/-! ### What was consumed -/

/-- The characters were consumed between two states. -/
def Passes (s : TextSource) (cs : List Char) (t : TextSource) : Prop :=
  t.position.before = s.position.before ++ cs ∧ s.position.after = cs ++ t.position.after

theorem Passes.refl (s : TextSource) : s.Passes [] s :=
  ⟨(List.append_nil _).symm, rfl⟩

theorem Passes.trans (h : s.Passes cs t) (h' : t.Passes ds u) : s.Passes (cs ++ ds) u :=
  ⟨by rw [h'.1, h.1, List.append_assoc], by rw [h.2, h'.2, List.append_assoc]⟩

theorem nextValue_cursor (s : TextSource) :
    s.cursor.nextValue = if lookahead s 0 = eof then [] else [lookahead s 0] := by
  have hpeek : s.cursor.peek? 0 = some (lookahead s 0) := s.position.peek?_cursor 0
  rw [Cursor.nextValue, hpeek, Option.toList_some, List.filter_singleton]
  by_cases heof : lookahead s 0 = eof <;> simp [heof]

/-- Advancing consumes the value that comes next. -/
theorem exists_passes_advance (s : TextSource) :
    ∃ cs, s.Passes cs (advance s) ∧ cs.map (fun c => (c.toNat : Int)) = s.cursor.nextValue := by
  rw [nextValue_cursor]
  obtain ⟨before, _ | ⟨c, rest⟩⟩ := s
  · exact ⟨[], .refl _, rfl⟩
  · refine ⟨[c], ⟨rfl, rfl⟩, ?_⟩
    have hvalue : (c.toNat : Int) ≠ eof := by
      have := Int.natCast_nonneg c.toNat
      unfold eof
      omega
    exact (if_neg hvalue).symm

theorem exists_passes_match (s : TextSource) (ranges : List (Int × Int)) :
    ∃ cs, s.Passes cs (if inSet ranges (lookahead s 0) then advance s else s) ∧
      cs.map (fun c => (c.toNat : Int)) = s.cursor.nextValue.filter (inSet ranges) := by
  have hnext := s.nextValue_cursor
  by_cases hin : inSet ranges (lookahead s 0) = true
  · obtain ⟨cs, hpass, hvalues⟩ := exists_passes_advance s
    refine ⟨cs, by rwa [if_pos hin], hvalues.trans (List.filter_eq_self.2 fun value hvalue => ?_).symm⟩
    rw [hnext] at hvalue
    split at hvalue
    · cases hvalue
    · rwa [List.mem_singleton.1 hvalue]
  · refine ⟨[], by rw [if_neg hin]; exact .refl s, (List.filter_eq_nil_iff.2 fun value hvalue => ?_).symm⟩
    rw [hnext] at hvalue
    split at hvalue
    · cases hvalue
    · rwa [List.mem_singleton.1 hvalue]

theorem exists_passes_run {op : Operation} (hop : ∀ place, op ≠ .restore place) (s : TextSource) :
    ∃ cs, s.Passes cs (op.run s).2 ∧ cs.map (fun c => (c.toNat : Int)) = op.consumed s.cursor := by
  cases op with
  | lookahead | index => exact ⟨[], .refl s, rfl⟩
  | advance | skip => exact exists_passes_advance s
  | matchSet ranges =>
    rw [Operation.run, state_matchSet]
    exact exists_passes_match s ranges
  | tryMatchSet ranges =>
    rw [Operation.run, state_tryMatchSet]
    exact exists_passes_match s ranges
  | restore place => exact (hop place rfl).elim

theorem exists_passes_script {script : Script} (h : script.GoesOn s.cursor) :
    ∃ cs, s.Passes cs (script.run s).2 ∧
      cs.map (fun c => (c.toNat : Int)) = script.consumed s.cursor := by
  induction script generalizing s with
  | stop answer => exact ⟨[], .refl s, rfl⟩
  | perform op next ih =>
    obtain ⟨cs, hpass, hvalues⟩ := exists_passes_run h.1 s
    obtain ⟨ds, hpass', hvalues'⟩ := ih _ (h.2 _ _ (op.run?_cursor s))
    refine ⟨cs ++ ds, hpass.trans hpass', ?_⟩
    rw [List.map_append, hvalues, hvalues', Script.consumed, op.run?_cursor s]
  | tryRecognize closure next _ ih =>
    have htry := Cursor.tryRecognize?_cursor s (closure.run?_cursor s)
    obtain ⟨cs, hpass, hvalues⟩ := ih _ (h _ _ htry)
    rw [Script.run, Script.consumed, htry]
    rw [tryRecognize_script] at hpass hvalues ⊢
    exact ⟨cs, hpass, hvalues⟩

theorem Passes.textSince? (h : s.Passes cs t) :
    t.cursor.textSince? s.cursor.index =
      some (.ok ⟨s.cursor.index, t.cursor.index, String.ofList cs⟩) := by
  obtain ⟨hbefore, hafter⟩ := h
  have hinput : s.position.input = t.position.input := by
    rw [Position.input, Position.input, hbefore, hafter, List.append_assoc]
  have hle : s.position.index ≤ t.position.index := by
    rw [Position.index, Position.index, hbefore, byteCount_append]
    exact Nat.le_add_right _ _
  have hplace : Cursor.new t.cursor.input s.cursor.index = .ok s.position.cursor := by
    have hposition : Position.ofIndex? t.position.input s.position.index = some s.position :=
      Position.ofIndex?_eq_some.2 ⟨hinput, rfl⟩
    refine (Position.new_eq _ _).trans ?_
    show (Position.ofIndex t.position.input s.position.index).map _ = _
    rw [Position.ofIndex, hposition]
    rfl
  have hspan : Span.between s.position t.position =
      .ok ⟨s.position.index, t.position.index, String.ofList cs⟩ := by
    rw [Span.between, if_neg (not_not.2 hinput), if_neg (Nat.not_lt.2 hle), hbefore, List.drop_left]
  rw [Cursor.textSince?, hplace]
  exact (Position.between?_cursor _ _).trans (congrArg some hspan)

end TextSource

/-! ## Wherever the cursor stands -/

namespace Cursor

/-- The cursor stands in front of, between or behind the characters of this text. -/
structure StandsIn (text : String) (c : Cursor) : Prop where
  input : c.input = text
  boundary : isBoundary text c.index = true

/-- What holds of a cursor on a text wherever it stands. -/
structure Sound (text : String) (c : Cursor) : Prop extends StandsIn text c where
  bounded : c.index ≤ text.utf8ByteSize
  /-- It looks ahead at the characters behind its index, and from the end of the text on at `eof`. -/
  ahead : ∃ before after : List Char, text = String.ofList (before ++ after) ∧
    c.index = (String.ofList before).utf8ByteSize ∧
    ∀ n, c.peek? n = some ((after.map fun char => (char.toNat : Int)).getD n eof)
  shift : ∀ m, ∃ after, c.advances? m = some after ∧ ∀ n, after.peek? n = c.peek? (n + m)
  matchSet : ∀ ranges, ∃ answer after, c.matchSet? ranges = some (answer, after) ∧
    ∀ error, answer = .error error → after = c
  tryMatchSet : ∀ ranges, ∃ answer after, c.tryMatchSet? ranges = some (answer, after) ∧
    (answer = false → after = c)
  restore : ∀ place, isBoundary text place = false → c.restore place = c
  restored : ∀ place, isBoundary text place = true → c.restore place = ⟨text, place⟩
  tryRecognize : ∀ closure : Script, ∃ answer, c.tryRecognize? closure.run? = some (answer, c)
  since : ∀ script : Script, script.GoesOn c → ∃ answer after passed,
    script.run? c = some (answer, after) ∧
      after.textSince? c.index = some (.ok ⟨c.index, after.index, passed⟩) ∧
      passed.toList.map (fun char => (char.toNat : Int)) = script.consumed c
  /-- The source that parsers read from gives the same answers there, and comes to the same place. -/
  source : ∃ s : TextSource, s.input = text ∧ s.cursor = c ∧
    ∀ script : Script, script.run? c = some ((script.run s).1, (script.run s).2.cursor)

variable {text : String} {c : Cursor}

theorem standsIn_cursor (s : TextSource) : StandsIn s.input s.cursor :=
  ⟨rfl, isBoundary_iff.2 ⟨s.position, s.position.ofIndex?_index⟩⟩

theorem StandsIn.exists_source (h : c.StandsIn text) : ∃ s : TextSource, s.input = text ∧ s.cursor = c := by
  obtain ⟨rfl, hboundary⟩ := h
  obtain ⟨p, hp⟩ := isBoundary_iff.1 hboundary
  obtain ⟨hinput, hindex⟩ := Position.ofIndex?_eq_some.1 hp
  refine ⟨⟨p⟩, hinput, ?_⟩
  rw [TextSource.cursor, Position.cursor, hinput, hindex]

/-- **One operation** leads from a boundary to a boundary, and does not fail. -/
theorem StandsIn.exists_run? (op : Operation) (h : c.StandsIn text) :
    ∃ answer after, op.run? c = some (answer, after) ∧ after.StandsIn text := by
  obtain ⟨s, rfl, rfl⟩ := h.exists_source
  refine ⟨_, _, op.run?_cursor s, ?_⟩
  rw [← s.input_run op]
  exact standsIn_cursor _

theorem advances?_cursor (m : Nat) (s : TextSource) : advances? m s.cursor = some (advance^[m] s).cursor := by
  induction m generalizing s with
  | zero => rfl
  | succ m ih =>
    have hadvance : s.cursor.advance? = some (!s.atEnd, (advance s).cursor) :=
      s.position.advance?_cursor
    rw [advances?, hadvance]
    exact ih (advance s)

theorem peek?_iterate (s : TextSource) (m n : Nat) :
    (advance^[m] s).cursor.peek? n = s.cursor.peek? (n + m) := by
  have hpeek : ∀ (s : TextSource) n, s.cursor.peek? n = some (lookahead s n) :=
    fun s => s.position.peek?_cursor
  rw [hpeek, hpeek]
  induction m generalizing s with
  | zero => rfl
  | succ m ih => rw [Function.iterate_succ_apply, ih, lookahead_advance, Nat.add_assoc]

theorem StandsIn.sound (h : c.StandsIn text) : c.Sound text := by
  obtain ⟨s, rfl, rfl⟩ := h.exists_source
  constructor
  case toStandsIn => exact h
  case bounded => exact le_of_isBoundary h.boundary
  case ahead =>
    refine ⟨s.position.before, s.position.after, rfl, byteCount_eq _, fun n => ?_⟩
    refine (s.position.peek?_cursor n).trans (congrArg some ?_)
    rw [Position.peek, List.getD_eq_getElem?_getD, List.getElem?_map]
    cases s.position.after[n]? <;> rfl
  case shift => exact fun m => ⟨_, advances?_cursor m s, peek?_iterate s m⟩
  case matchSet =>
    refine fun ranges => ⟨_, _, (Operation.matchSet ranges).run?_cursor s, fun error herror => ?_⟩
    rw [Operation.run, Source.matchSet] at herror ⊢
    split at herror
    · cases herror
    · rw [if_neg ‹_›]
  case tryMatchSet =>
    refine fun ranges => ⟨_, _, (Operation.tryMatchSet ranges).run?_cursor s, fun hfalse => ?_⟩
    rw [Operation.run, Source.tryMatchSet] at hfalse ⊢
    split at hfalse
    · cases hfalse
    · rw [if_neg ‹_›]
  case restore =>
    intro place hplace
    have hplace : isBoundary s.cursor.input place = false := hplace
    rw [Cursor.restore, new, hplace, Bool.and_false]
    rfl
  case restored =>
    intro place hplace
    have hboundary : isBoundary s.cursor.input place = true := hplace
    rw [Cursor.restore, new, hboundary, decide_eq_true (le_of_isBoundary hboundary)]
    rfl
  case tryRecognize =>
    intro closure
    have htry := tryRecognize?_cursor s (closure.run?_cursor s)
    rw [TextSource.tryRecognize_script] at htry
    exact ⟨_, htry⟩
  case since =>
    intro script hscript
    obtain ⟨cs, hpass, hvalues⟩ := TextSource.exists_passes_script hscript
    exact ⟨_, _, String.ofList cs, script.run?_cursor s, hpass.textSince?,
      by rw [String.toList_ofList, hvalues]⟩
  case source => exact ⟨s, rfl, rfl, fun script => script.run?_cursor s⟩

/-- **A cursor stays within its text** and between its characters, whatever is done with it, and it is back
where it was when a recognizer was tried. -/
theorem always_sound (text : String) : ∃ c, Cursor.new text 0 = .ok c ∧
    ∀ script : Script, script.Always (Sound text) c := by
  have hstart : isBoundary text 0 = true := String.Pos.Raw.isValid_eq_true_iff.2 String.Pos.Raw.isValid_zero
  refine ⟨⟨text, 0⟩, ?_, fun script => ?_⟩
  · rw [new, hstart, decide_eq_true (Nat.zero_le _)]
    rfl
  · have hinside : script.Always (StandsIn text) ⟨text, 0⟩ :=
      script.always (fun op _ => StandsIn.exists_run? op) ⟨rfl, hstart⟩
    exact hinside.imp fun _ => StandsIn.sound

end Cursor

end PredictiveParser
