import Mathlib.Data.List.Induction
import Mathlib.Data.Prod.Lex
import PredictiveParser.Proofs.Input.Position

/-!
# Lines and columns

The line of a position counts the newlines before it, its column the characters since the last newline.
Both depend on nothing but the characters before the position, so one more character either begins a new
line or moves one column on (`coordinates_concat`). Either way the pair grows in the order that compares
lines first. Positions of one text differ by characters that are passed between them, and so they are
ordered and told apart by their lines and columns (`Position.coordinates_faithful`).
-/
namespace PredictiveParser

namespace Position

variable {p q : Position} {input : String} {index : Nat} {c : Char} {cs rest : List Char}

/-- Line and column, ordered by line first. -/
def coordinates (p : Position) : Nat ×ₗ Nat :=
  toLex (p.line, p.column)

theorem coordinates_of_before (h : p.before = q.before) : p.coordinates = q.coordinates := by
  rw [coordinates, coordinates, line, column, h, line, column]

/-! ## The current line -/

/-- The characters before the position are whole lines, each with its newline, and then those of the current
line. -/
structure Lies (p : Position) (lines current : List Char) : Prop where
  before : p.before = lines ++ current
  ended : lines = [] ∨ lines.getLast? = some '\n'
  current : '\n' ∉ current

theorem Lies.line_eq {lines current : List Char} (h : p.Lies lines current) :
    p.line = 1 + lines.count '\n' := by
  rw [line, h.before, List.count_append, List.count_eq_zero.2 h.current]
  omega

/-- Counting from behind stops at the newline in front of the current line. -/
theorem Lies.column_eq {lines current : List Char} (h : p.Lies lines current) :
    p.column = 1 + current.length := by
  have hall : ∀ c ∈ current.reverse, (c != '\n') = true := by
    intro c hc
    rw [bne_iff_ne]
    rintro rfl
    exact h.current (List.mem_reverse.1 hc)
  have hstop : lines.reverse.takeWhile (· != '\n') = [] := by
    rcases h.ended with rfl | hlast
    · rfl
    · obtain ⟨front, rfl⟩ := List.getLast?_eq_some_iff.1 hlast
      rw [List.reverse_append]
      rfl
  rw [column, h.before, List.reverse_append, List.takeWhile_append_of_pos hall, hstop, List.append_nil,
    List.length_reverse, Nat.add_comm]

theorem exists_lies (p : Position) : ∃ lines current, p.Lies lines current := by
  obtain ⟨before, after⟩ := p
  induction before using List.reverseRecOn with
  | nil => exact ⟨[], [], rfl, Or.inl rfl, List.not_mem_nil⟩
  | append_singleton front c ih =>
    obtain ⟨lines, current, hbefore, hended, hcurrent⟩ := ih
    have hfront : front = lines ++ current := hbefore
    by_cases hc : c = '\n'
    · refine ⟨front ++ [c], [], (List.append_nil _).symm, Or.inr ?_, List.not_mem_nil⟩
      rw [List.getLast?_concat, hc]
    · refine ⟨lines, current ++ [c], ?_, hended, ?_⟩
      · rw [hfront, List.append_assoc]
      · rw [List.mem_append, List.mem_singleton]
        exact fun h => h.elim hcurrent (Ne.symm hc)

/-! ## Passing characters -/

/-- **One more character** begins a new line or moves one column on. -/
theorem coordinates_concat (h : q.before = p.before ++ [c]) :
    q.coordinates = if c = '\n' then toLex (p.line + 1, 1) else toLex (p.line, p.column + 1) := by
  obtain ⟨lines, current, hp⟩ := p.exists_lies
  by_cases hc : c = '\n'
  · have hq : q.Lies (p.before ++ [c]) [] :=
      ⟨by rw [h, List.append_nil], Or.inr (by rw [List.getLast?_concat, hc]), List.not_mem_nil⟩
    rw [if_pos hc, coordinates, hq.line_eq, hq.column_eq, hc, List.count_append, List.count_singleton_self,
      line, Nat.add_comm 1]
    rfl
  · have hq : q.Lies lines (current ++ [c]) := by
      refine ⟨by rw [h, hp.before, List.append_assoc], hp.ended, ?_⟩
      rw [List.mem_append, List.mem_singleton]
      exact fun hm => hm.elim hp.current (Ne.symm hc)
    rw [if_neg hc, coordinates, hq.line_eq, hq.column_eq, hp.line_eq, hp.column_eq, List.length_append]
    rfl

theorem coordinates_lt_concat (h : q.before = p.before ++ [c]) : p.coordinates < q.coordinates := by
  rw [coordinates_concat h]
  split
  · exact Prod.Lex.toLex_lt_toLex.2 (Or.inl (Nat.lt_succ_self _))
  · exact Prod.Lex.toLex_lt_toLex.2 (Or.inr ⟨rfl, Nat.lt_succ_self _⟩)

/-- Characters that are passed make line and column grow. -/
theorem coordinates_lt_append (h : q.before = p.before ++ cs) (hcs : cs ≠ []) :
    p.coordinates < q.coordinates := by
  induction cs using List.reverseRecOn generalizing q with
  | nil => exact (hcs rfl).elim
  | append_singleton front c ih =>
    have hlast : p.coordinates ≤ (⟨p.before ++ front, []⟩ : Position).coordinates := by
      by_cases hfront : front = []
      · exact le_of_eq (coordinates_of_before (by rw [hfront, List.append_nil]))
      · exact le_of_lt (ih rfl hfront)
    exact lt_of_le_of_lt hlast (coordinates_lt_concat (by rw [h, List.append_assoc]))

theorem coordinates_lt_of_index_lt (h : p.input = q.input) (hlt : p.index < q.index) :
    p.coordinates < q.coordinates := by
  obtain ⟨cs, hbefore⟩ := exists_before_append h hlt.le
  refine coordinates_lt_append hbefore ?_
  rintro rfl
  rw [index, index, hbefore, List.append_nil] at hlt
  exact lt_irrefl _ hlt

/-! ## The positions of a text -/

/-- What lines and columns say of the positions of a text. -/
structure Faithful (input : String) : Prop where
  /-- There is a position at each place between characters, and at no other. -/
  valid : ∀ index, (∃ p, ofIndex? input index = some p) ↔ (String.Pos.Raw.mk index).IsValid input
  located : ∀ index p, ofIndex? input index = some p ↔ p.input = input ∧ p.index = index
  counted : ∀ index p, ofIndex? input index = some p → p.line = 1 + p.before.count '\n' ∧
    ∃ lines current, p.Lies lines current ∧ p.column = 1 + current.length
  advanced : ∀ index p c rest, ofIndex? input index = some p → p.after = c :: rest →
    ofIndex? input (index + c.utf8Size) = some p.advance ∧ p.advance.coordinates =
      if c = '\n' then toLex (p.line + 1, 1) else toLex (p.line, p.column + 1)
  ordered : ∀ i j p q, ofIndex? input i = some p → ofIndex? input j = some q →
    (i < j ↔ p.coordinates < q.coordinates)
  determined : ∀ i j p q, ofIndex? input i = some p → ofIndex? input j = some q →
    p.coordinates = q.coordinates → i = j ∧ p = q

/-- **Lines and columns are faithful**: they count what stands before a position, grow with each character
that is passed, and tell the positions of a text apart. -/
theorem coordinates_faithful (input : String) : Faithful input := by
  constructor
  case valid => exact fun index => exists_ofIndex?
  case located => exact fun index p => ofIndex?_eq_some
  case counted =>
    intro index p hp
    obtain ⟨lines, current, hlies⟩ := p.exists_lies
    exact ⟨Nat.add_comm _ _, lines, current, hlies, hlies.column_eq⟩
  case advanced =>
    intro index p c rest hp hafter
    obtain ⟨hinput, hindex⟩ := ofIndex?_eq_some.1 hp
    refine ⟨ofIndex?_eq_some.2 ⟨p.input_advance.trans hinput, ?_⟩, coordinates_concat ?_⟩
    · rw [index_advance hafter, hindex]
    · rw [advance, hafter]
  case ordered =>
    intro i j p q hp hq
    obtain ⟨hinput, rfl⟩ := ofIndex?_eq_some.1 hp
    obtain ⟨hinput', rfl⟩ := ofIndex?_eq_some.1 hq
    refine ⟨coordinates_lt_of_index_lt (hinput.trans hinput'.symm), fun hlt => ?_⟩
    by_contra hge
    rcases lt_or_eq_of_le (Nat.le_of_not_lt hge) with hback | heq
    · exact lt_asymm hlt (coordinates_lt_of_index_lt (hinput'.trans hinput.symm) hback)
    · have hsame : some q = some p := by rw [← hq, heq, hp]
      cases hsame
      exact lt_irrefl _ hlt
  case determined =>
    intro i j p q hp hq hsame
    obtain ⟨hinput, rfl⟩ := ofIndex?_eq_some.1 hp
    obtain ⟨hinput', rfl⟩ := ofIndex?_eq_some.1 hq
    rcases lt_trichotomy p.index q.index with hlt | heq | hlt
    · exact absurd hsame (coordinates_lt_of_index_lt (hinput.trans hinput'.symm) hlt).ne
    · refine ⟨heq, ?_⟩
      rw [heq, hq] at hp
      exact (Option.some.inj hp).symm
    · exact absurd hsame.symm (coordinates_lt_of_index_lt (hinput'.trans hinput.symm) hlt).ne

/-- Behind the newline a line begins, and a character of two bytes is one column. -/
example : (ofIndex? "é\né" 5).map (·.coordinates) = some (toLex (2, 2)) := by
  decide

end Position

end PredictiveParser
