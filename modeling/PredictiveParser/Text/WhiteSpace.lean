import PredictiveParser.Text.Ranges

/-!
# White space

The characters with the Unicode property `White_Space`. Source text also treats the two invisible
direction marks, U+200E and U+200F, as blanks between tokens.
-/
namespace PredictiveParser.Text

def whiteSpaceRanges : List (Nat × Nat) := [
  (0x9, 0xd), (0x20, 0x20), (0x85, 0x85), (0xa0, 0xa0), (0x1680, 0x1680), (0x2000, 0x200a),
  (0x2028, 0x2029), (0x202f, 0x202f), (0x205f, 0x205f), (0x3000, 0x3000)]

def isWhiteSpace (c : Char) : Bool :=
  inRanges whiteSpaceRanges c.toNat

/-- What separates tokens in source text: white space and the two direction marks. -/
def isBlank (c : Char) : Bool :=
  isWhiteSpace c || c.toNat == 0x200e || c.toNat == 0x200f

/-- A control character: U+0000 to U+001F and U+007F to U+009F. -/
def isControl (c : Char) : Bool :=
  c.toNat < 0x20 || (0x7f ≤ c.toNat && c.toNat < 0xa0)

end PredictiveParser.Text
