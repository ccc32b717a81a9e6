import Mathlib.Data.List.Infix
import PredictiveParser.Input.Position

/-!
# Positions and indices

The index of a position tells where in its text it stands (`Position.ofIndex?_eq_some`), and the indices that
positions have are those at which no character is cut (`Position.exists_ofIndex?`).
-/
namespace PredictiveParser

theorem byteCount_eq (cs : List Char) : byteCount cs = (String.ofList cs).utf8ByteSize := by
  induction cs with
  | nil => rfl
  | cons c rest ih =>
    rw [byteCount, String.ofList_cons, String.utf8ByteSize_append, String.utf8ByteSize_singleton, ih]

theorem byteCount_append (before cs : List Char) :
    byteCount (before ++ cs) = byteCount before + byteCount cs := by
  rw [byteCount_eq, byteCount_eq, byteCount_eq, String.ofList_append, String.utf8ByteSize_append]

theorem eq_nil_of_byteCount {cs : List Char} (h : byteCount cs = 0) : cs = [] := by
  cases cs with
  | nil => rfl
  | cons c rest =>
    have hsize := c.utf8Size_pos
    rw [byteCount] at h
    omega

theorem splitBytes_byteCount (before after : List Char) :
    splitBytes (byteCount before) (before ++ after) = some (before, after) := by
  induction before with
  | nil => cases after <;> rfl
  | cons c rest ih =>
    have hsize := c.utf8Size_pos
    rw [List.cons_append, splitBytes, byteCount, if_neg (by omega), if_neg (by omega),
      Nat.add_sub_cancel_left, ih]
    rfl

theorem splitBytes_eq_some {count : Nat} {cs before after : List Char} :
    splitBytes count cs = some (before, after) ↔ cs = before ++ after ∧ byteCount before = count := by
  constructor
  · intro h
    induction cs generalizing count before after with
    | nil =>
      obtain ⟨rfl, hnil⟩ : count = 0 ∧ ([], []) = (before, after) := by simpa [splitBytes] using h
      cases hnil
      exact ⟨rfl, rfl⟩
    | cons c rest ih =>
      rw [splitBytes] at h
      split at h
      · cases h
        exact ⟨rfl, Eq.symm ‹count = 0›⟩
      · split at h
        · cases h
        · obtain ⟨⟨taken, left⟩, hsplit, heq⟩ := Option.map_eq_some_iff.1 h
          cases heq
          obtain ⟨rfl, hcount⟩ := ih hsplit
          exact ⟨rfl, by rw [byteCount, hcount]; omega⟩
  · rintro ⟨rfl, rfl⟩
    exact splitBytes_byteCount before after

namespace Position

theorem ofIndex?_eq_some {input : String} {index : Nat} {p : Position} :
    ofIndex? input index = some p ↔ p.input = input ∧ p.index = index := by
  obtain ⟨before, after⟩ := p
  have hinput : input.toList = before ++ after ↔ String.ofList (before ++ after) = input :=
    ⟨fun h => by rw [← h, String.ofList_toList], fun h => by rw [← h, String.toList_ofList]⟩
  rw [ofIndex?, Option.map_eq_some_iff]
  constructor
  · rintro ⟨⟨b, a⟩, hsplit, heq⟩
    cases heq
    obtain ⟨happend, hcount⟩ := splitBytes_eq_some.1 hsplit
    exact ⟨hinput.1 happend, hcount⟩
  · rintro ⟨happend, hcount⟩
    exact ⟨(before, after), splitBytes_eq_some.2 ⟨hinput.2 happend, hcount⟩, rfl⟩

theorem ofIndex?_index (p : Position) : ofIndex? p.input p.index = some p :=
  ofIndex?_eq_some.2 ⟨rfl, rfl⟩

/-- The indices of a text are the places between its characters. -/
theorem exists_ofIndex? {input : String} {index : Nat} :
    (∃ p, ofIndex? input index = some p) ↔ (String.Pos.Raw.mk index).IsValid input := by
  rw [String.Pos.Raw.isValid_iff_exists_append]
  constructor
  · rintro ⟨⟨before, after⟩, hp⟩
    obtain ⟨rfl, rfl⟩ := ofIndex?_eq_some.1 hp
    refine ⟨.ofList before, .ofList after, String.ofList_append, ?_⟩
    exact congrArg String.Pos.Raw.mk (byteCount_eq before)
  · rintro ⟨first, second, rfl, hindex⟩
    refine ⟨⟨first.toList, second.toList⟩, ofIndex?_eq_some.2 ⟨?_, ?_⟩⟩
    · rw [Position.input, String.ofList_append, String.ofList_toList, String.ofList_toList]
    · rw [Position.index, byteCount_eq, String.ofList_toList]
      exact (congrArg String.Pos.Raw.byteIdx hindex).symm

theorem input_advance (p : Position) : p.advance.input = p.input := by
  obtain ⟨before, _ | ⟨c, rest⟩⟩ := p
  · rfl
  · simp [advance, input]

theorem index_advance {p : Position} {c : Char} {rest : List Char} (h : p.after = c :: rest) :
    p.advance.index = p.index + c.utf8Size := by
  rw [advance, h, index, index, byteCount_append]
  rfl

/-- Of two positions in one text, one is reached from the other by passing characters. -/
theorem exists_before_append {p q : Position} (h : p.input = q.input) (hle : p.index ≤ q.index) :
    ∃ cs, q.before = p.before ++ cs := by
  have htext : p.before ++ p.after = q.before ++ q.after := String.ofList_injective h
  have hpre : p.before <+: q.before ++ q.after := htext ▸ List.prefix_append _ _
  rcases List.prefix_or_prefix_of_prefix hpre (List.prefix_append _ _) with ⟨cs, hcs⟩ | ⟨cs, hcs⟩
  · exact ⟨cs, hcs.symm⟩
  · rw [index, index, ← hcs, byteCount_append] at hle
    obtain rfl := eq_nil_of_byteCount (show byteCount cs = 0 by omega)
    exact ⟨[], by rw [← hcs, List.append_nil, List.append_nil]⟩

end Position

end PredictiveParser
