import PredictiveParser.Input.Cursor
import PredictiveParser.Proofs.Input.Coordinates

/-!
# Cursors stand at positions

A text can be cut between its characters, and cutting it there gives the characters between
(`slice?_append`). A cursor that stands between two characters stands at a position, and reading the bytes
at a position gives what the position says: the characters ahead, its line and column, and the text since an
earlier position. None of this fails, and moving on adds the right number of bytes.
-/
namespace PredictiveParser

/-! ## Cutting texts -/

theorem isBoundary_iff {text : String} {index : Nat} :
    isBoundary text index = true ↔ ∃ p, Position.ofIndex? text index = some p :=
  String.Pos.Raw.isValid_eq_true_iff.trans Position.exists_ofIndex?.symm

theorem isBoundary_append (first last : String) :
    isBoundary (first ++ last) first.utf8ByteSize = true :=
  String.Pos.Raw.isValid_eq_true_iff.2
    (String.Pos.Raw.isValid_iff_exists_append.2 ⟨first, last, rfl, rfl⟩)

theorem le_of_isBoundary {text : String} {index : Nat} (h : isBoundary text index = true) :
    index ≤ text.utf8ByteSize :=
  (String.Pos.Raw.isValid_eq_true_iff.1 h).le_utf8ByteSize

/-- **A text that is cut between characters** gives the characters between. -/
theorem slice?_append (first part last : String) :
    slice? (first ++ part ++ last) first.utf8ByteSize (first ++ part).utf8ByteSize = some part := by
  have hstart : isBoundary (first ++ part ++ last) first.utf8ByteSize = true := by
    rw [String.append_assoc]
    exact isBoundary_append first (part ++ last)
  have hle : first.utf8ByteSize ≤ (first ++ part).utf8ByteSize := by
    rw [String.utf8ByteSize_append]
    exact Nat.le_add_right _ _
  have hbytes : (first ++ part ++ last).toByteArray.extract first.utf8ByteSize
      (first ++ part).utf8ByteSize = part.toByteArray := by
    have hskip := ByteArray.extract_append_size_add (a := first.toByteArray)
      (b := part.toByteArray ++ last.toByteArray) (i := 0) (j := part.toByteArray.size)
    rw [Nat.add_zero] at hskip
    rw [String.append_assoc, String.toByteArray_append, String.toByteArray_append,
      String.utf8ByteSize_append, ← String.size_toByteArray, ← String.size_toByteArray, hskip]
    exact ByteArray.extract_append_eq_left rfl
  rw [slice?, if_pos ⟨hle, hstart, isBoundary_append (first ++ part) last⟩, hbytes, String.fromUTF8?,
    dif_pos part.isValidUTF8]
  rfl

/-- The text cannot be cut inside a character. -/
example : slice? "é" 1 2 = none := rfl

/-- The same in characters. -/
theorem slice?_ofList (before cs after : List Char) :
    slice? (String.ofList (before ++ cs ++ after)) (byteCount before) (byteCount (before ++ cs)) =
      some (String.ofList cs) := by
  rw [String.ofList_append, String.ofList_append, byteCount_eq, byteCount_eq, String.ofList_append]
  exact slice?_append _ _ _

theorem slice?_ofList_end (before cs : List Char) :
    slice? (String.ofList (before ++ cs)) (byteCount before) (String.ofList (before ++ cs)).utf8ByteSize =
      some (String.ofList cs) := by
  have hslice := slice?_ofList before cs []
  rwa [List.append_nil, byteCount_eq (before ++ cs)] at hslice

/-! ## Searching newlines -/

theorem lastIndexOf?_eq_none {c : Char} {cs : List Char} (h : c ∉ cs) (index : Nat) :
    lastIndexOf? c index cs = none := by
  induction cs generalizing index with
  | nil => rfl
  | cons d rest ih =>
    obtain ⟨hd, hrest⟩ := not_or.1 (mt List.mem_cons.2 h)
    rw [lastIndexOf?, ih hrest, if_neg (Ne.symm hd)]
    rfl

theorem lastIndexOf?_append {c : Char} {front current : List Char} (h : c ∉ current) (index : Nat) :
    lastIndexOf? c index (front ++ c :: current) = some (index + byteCount front) := by
  induction front generalizing index with
  | nil =>
    rw [List.nil_append, lastIndexOf?, lastIndexOf?_eq_none h, if_pos rfl]
    rfl
  | cons d rest ih =>
    rw [List.cons_append, lastIndexOf?, ih, byteCount, Option.some_or, Nat.add_assoc]

/-! ## Cursors at positions -/

namespace Position

variable (p : Position)

def cursor (p : Position) : Cursor where
  input := p.input
  index := p.index

theorem rest?_cursor : p.cursor.rest? = some (String.ofList p.after) :=
  slice?_ofList_end p.before p.after

theorem peek?_cursor (offset : Nat) : p.cursor.peek? offset = some (p.peek offset) := by
  rw [Cursor.peek?, rest?_cursor, Option.map_some, String.toList_ofList, peek]
  cases p.after[offset]? <;> rfl

/-- **Moving on** by the bytes of the next character leads to the next position. -/
theorem advance?_cursor : p.cursor.advance? = some (!p.atEnd, p.advance.cursor) := by
  rw [Cursor.advance?, rest?_cursor, Option.map_some, String.toList_ofList]
  cases hafter : p.after with
  | nil => rw [atEnd, advance, hafter]; rfl
  | cons c rest =>
    have hindex := index_advance hafter
    rw [atEnd, hafter, cursor, cursor, p.input_advance, hindex]
    rfl

theorem atEnd_cursor : p.cursor.atEnd = p.atEnd := by
  have hsize : p.input.utf8ByteSize = p.index + byteCount p.after := by
    rw [index, ← byteCount_append, byteCount_eq, input]
  show decide (p.input.utf8ByteSize ≤ p.index) = p.after.isEmpty
  rw [hsize]
  cases p.after with
  | nil => exact decide_eq_true (Nat.le_refl _)
  | cons c rest =>
    have hpos := c.utf8Size_pos
    rw [byteCount]
    exact decide_eq_false (by omega)

theorem lineCol?_cursor : p.cursor.lineCol? = some (p.line, p.column) := by
  have hbefore : slice? p.cursor.input 0 p.cursor.index = some (String.ofList p.before) :=
    slice?_ofList [] p.before p.after
  obtain ⟨lines, current, hlies⟩ := p.exists_lies
  rw [Cursor.lineCol?, hbefore, Option.bind_eq_bind, Option.bind_some, String.toList_ofList,
    hlies.column_eq]
  rcases hlies.ended with rfl | hlast
  · have hcurrent : p.before = current := hlies.before
    rw [hcurrent, lastIndexOf?_eq_none hlies.current, line, hcurrent, Nat.add_comm 1]
    rfl
  · obtain ⟨front, rfl⟩ := List.getLast?_eq_some_iff.1 hlast
    have hsplit : p.before = front ++ ['\n'] ++ current := hlies.before
    have hcurrent := slice?_ofList_end (front ++ ['\n']) current
    have hnewline : byteCount (front ++ ['\n']) = 0 + byteCount front + 1 := by
      rw [byteCount_append, Nat.zero_add]
      rfl
    rw [hnewline] at hcurrent
    rw [line, hsplit, List.append_assoc, List.singleton_append, lastIndexOf?_append hlies.current]
    rw [List.append_assoc, List.singleton_append] at hcurrent
    simp only [hcurrent, Option.bind_some, String.toList_ofList, Nat.add_comm 1]
    rfl

theorem new_eq (text : String) (index : Nat) :
    Cursor.new text index = (ofIndex text index).map cursor := by
  rw [Cursor.new, ofIndex]
  cases hplace : ofIndex? text index with
  | none =>
    have hboundary : isBoundary text index ≠ true := by
      rw [ne_eq, isBoundary_iff, hplace]
      exact nofun
    rw [Bool.eq_false_iff.2 hboundary, Bool.and_false]
    rfl
  | some p =>
    have hboundary := isBoundary_iff.2 ⟨p, hplace⟩
    obtain ⟨rfl, rfl⟩ := ofIndex?_eq_some.1 hplace
    rw [hboundary, decide_eq_true (le_of_isBoundary hboundary)]
    rfl

theorem between?_cursor (q : Position) :
    Cursor.between? p.cursor q.cursor = some (Span.between p q) := by
  unfold Cursor.between? Span.between
  by_cases hinput : p.input = q.input
  · by_cases hlt : q.index < p.index
    · simp [cursor, hinput, hlt]
    · obtain ⟨cs, hcs⟩ := exists_before_append hinput (Nat.not_lt.1 hlt)
      have hslice := slice?_ofList p.before cs q.after
      rw [← hcs] at hslice
      have htext : slice? q.input p.index q.index = some (String.ofList cs) := hslice
      simp [cursor, hinput, hlt, htext, hcs]
  · simp [cursor, hinput]

end Position

end PredictiveParser
