/-!
# Tables of code point ranges

A property of characters is stored as the list of the inclusive ranges of code points that have it.
`inRanges` reads such a list.
-/
namespace PredictiveParser.Text

/-- Whether some inclusive range of `table` holds the code point `n`. -/
def inRanges (table : List (Nat × Nat)) (n : Nat) : Bool :=
  table.any fun range => range.1 ≤ n && n ≤ range.2

end PredictiveParser.Text
