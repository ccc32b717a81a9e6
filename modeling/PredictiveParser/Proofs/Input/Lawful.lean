import PredictiveParser.Input.Source
import PredictiveParser.Proofs.CharSet.Membership

/-!
# Sources that are streams

Whatever a parser reads from, its lookahead is a stream of terminals: advancing shifts it by one,
and every value is a code point or `eof`. `LawfulSource` says so, and is all that is used about a
source in what follows.

A text is lawful, and so is a `Tape`, which holds any stream of terminals whatsoever.
-/
namespace PredictiveParser

open Source

class LawfulSource (σ : Type) [Source σ] : Prop where
  lookahead_advance : ∀ (s : σ) (n : Nat), lookahead (advance s) n = lookahead s (n + 1)
  isTerminal : ∀ (s : σ) (n : Nat), IsTerminal (lookahead s n)

export LawfulSource (lookahead_advance isTerminal)

/-! ## Texts -/

theorem isTerminal_toNat (c : Char) : IsTerminal c.toNat := by
  have hlt : c.toNat < 0x110000 := by
    rcases c.valid with h | ⟨-, h⟩
    · exact Nat.lt_trans h (by decide)
    · exact h
  simp only [IsTerminal, eof, maxChar]
  omega

theorem peek_advance (p : Position) (n : Nat) : p.advance.peek n = p.peek (n + 1) := by
  obtain ⟨before, after⟩ := p
  cases after with
  | nil => rfl
  | cons c rest => simp [Position.advance, Position.peek]

instance : LawfulSource TextSource where
  lookahead_advance s n := peek_advance s.position n
  isTerminal s n := by
    show IsTerminal (s.position.peek n)
    unfold Position.peek
    split
    · exact isTerminal_toNat _
    · exact ⟨Int.le_refl _, by decide⟩

/-! ## Tapes -/

/-- A stream of terminals and a place in it. -/
structure Tape where
  cell : Nat → Int
  isTerminal_cell : ∀ n, IsTerminal (cell n)
  position : Nat

namespace Tape

instance : Source Tape where
  lookahead t n := t.cell (t.position + n)
  advance t := { t with position := t.position + 1 }
  index t := t.position
  restore t index := { t with position := index }
  location t := "index " ++ toString t.position

instance : LawfulSource Tape where
  lookahead_advance t n := by
    show t.cell (t.position + 1 + n) = t.cell (t.position + (n + 1))
    rw [Nat.add_assoc, Nat.add_comm 1 n]
  isTerminal t n := t.isTerminal_cell _

end Tape

end PredictiveParser
