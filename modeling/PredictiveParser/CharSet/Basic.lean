/-!
# Sets of code points

A terminal of a grammar is a set of code points. The universe is the Unicode code space together
with `eof`, the value that lookahead reports at the end of input. A set is stored as the list of
its maximal inclusive ranges in ascending order, so that two sets with the same members are equal.

The invariant `Canonical` is part of the type: every operation below returns ranges that are
non-empty, ascending, separated by at least one missing value, and inside the universe.

Results:
* `canonical_merge`: merging clamped ranges gives canonical ranges.
* `canonical_cut_append`: cutting ranges out of one range leaves canonical ranges.
-/
namespace PredictiveParser

/-- The value that lookahead reports at the end of input. -/
def eof : Int := -1

def maxChar : Int := 0x10ffff

/-- Ranges that are non-empty, ascending, not adjacent, at or above `least` and at or below
`maxChar`. -/
def Canonical (least : Int) : List (Int × Int) → Prop
  | [] => True
  | range :: rest =>
    least ≤ range.1 ∧ range.1 ≤ range.2 ∧ range.2 ≤ maxChar ∧ Canonical (range.2 + 2) rest

/-- A set of code points and possibly `eof`. -/
structure CharSet where
  /-- The maximal ranges of the set, in ascending order. -/
  ranges : List (Int × Int)
  canonical : Canonical eof ranges
deriving DecidableEq

theorem Canonical.weaken {a b : Int} {ranges : List (Int × Int)} (h : Canonical b ranges)
    (hab : a ≤ b) : Canonical a ranges := by
  cases ranges with
  | nil => trivial
  | cons range rest => exact ⟨Int.le_trans hab h.1, h.2⟩

theorem Canonical.nonempty {least : Int} {ranges : List (Int × Int)} (h : Canonical least ranges) :
    ∀ range ∈ ranges, range.1 ≤ range.2 := by
  induction ranges generalizing least with
  | nil => simp
  | cons range rest ih =>
    intro r hr
    rcases List.mem_cons.1 hr with rfl | hr
    · exact h.2.1
    · exact ih h.2.2.2 r hr

/-! ## Building sets -/

def meetsUniverse (range : Int × Int) : Bool :=
  range.1 ≤ range.2 && eof ≤ range.2 && range.1 ≤ maxChar

/-- The part of a range that lies inside the universe. -/
def clamp (range : Int × Int) : Int × Int :=
  (max range.1 eof, min range.2 maxChar)

def rangeLe (a b : Int × Int) : Bool :=
  a.1 < b.1 || (a.1 == b.1 && a.2 ≤ b.2)

/-- Joins each range with the one before it when they overlap or touch. The range in hand is
`current`. -/
def mergeFrom (current : Int × Int) : List (Int × Int) → List (Int × Int)
  | [] => [current]
  | next :: rest =>
    if next.1 ≤ current.2 + 1 then mergeFrom (current.1, max current.2 next.2) rest
    else current :: mergeFrom next rest

/-- Joins ranges that overlap or touch; the ranges are in ascending order of their lower ends. -/
def merge : List (Int × Int) → List (Int × Int)
  | [] => []
  | range :: rest => mergeFrom range rest

def InUniverse (range : Int × Int) : Prop :=
  eof ≤ range.1 ∧ range.1 ≤ range.2 ∧ range.2 ≤ maxChar

theorem inUniverse_clamp {range : Int × Int} (h : meetsUniverse range = true) :
    InUniverse (clamp range) := by
  simp only [meetsUniverse, Bool.and_eq_true, decide_eq_true_eq] at h
  simp only [InUniverse, clamp, eof, maxChar] at *
  omega

theorem canonical_mergeFrom {current : Int × Int} {least : Int} {ranges : List (Int × Int)}
    (hleast : least ≤ current.1) (hc : InUniverse current) (hr : ∀ r ∈ ranges, InUniverse r) :
    Canonical least (mergeFrom current ranges) := by
  induction ranges generalizing current least with
  | nil => exact ⟨hleast, hc.2.1, hc.2.2, trivial⟩
  | cons next rest ih =>
    have hn := hr next List.mem_cons_self
    have hrest : ∀ r ∈ rest, InUniverse r := fun r h => hr r (List.mem_cons_of_mem _ h)
    simp only [InUniverse] at hc hn
    unfold mergeFrom
    split
    · refine ih (by simpa using hleast) ?_ hrest
      simp only [InUniverse]
      omega
    · next hgap => exact ⟨hleast, hc.2.1, hc.2.2, ih (by omega) hn hrest⟩

theorem canonical_merge {ranges : List (Int × Int)} (hr : ∀ r ∈ ranges, InUniverse r) :
    Canonical eof (merge ranges) := by
  cases ranges with
  | nil => trivial
  | cons range rest =>
    have hc := hr range List.mem_cons_self
    exact canonical_mergeFrom hc.1 hc fun r h => hr r (List.mem_cons_of_mem _ h)

/-- The clamped ranges of a list in ascending order, without those outside the universe. -/
def sortedRanges (ranges : List (Int × Int)) : List (Int × Int) :=
  ((ranges.filter meetsUniverse).mergeSort rangeLe).map clamp

theorem inUniverse_of_mem_sortedRanges {ranges : List (Int × Int)} :
    ∀ r ∈ sortedRanges ranges, InUniverse r := by
  intro r hr
  obtain ⟨range, hrange, rfl⟩ := List.mem_map.1 hr
  exact inUniverse_clamp (List.mem_filter.1 (List.mem_mergeSort.1 hrange)).2

/-! ## Removing ranges -/

/-- What is left of the range `lo..hi` without the ranges of a canonical list. -/
def cut (lo hi : Int) : List (Int × Int) → List (Int × Int)
  | [] => [(lo, hi)]
  | other :: rest =>
    if other.2 < lo then cut lo hi rest
    else if hi < other.1 then [(lo, hi)]
    else
      let before := if lo < other.1 then [(lo, other.1 - 1)] else []
      let after := if hi < other.2 + 1 then [] else cut (other.2 + 1) hi rest
      before ++ after

theorem canonical_cut_append {lo hi least : Int} {others tail : List (Int × Int)}
    (hleast : least ≤ lo) (hlo : lo ≤ hi) (hhi : hi ≤ maxChar) (htail : Canonical (hi + 2) tail)
    (ho : ∀ r ∈ others, r.1 ≤ r.2) : Canonical least (cut lo hi others ++ tail) := by
  induction others generalizing lo least with
  | nil => exact ⟨hleast, hlo, hhi, htail⟩
  | cons other rest ih =>
    have hother := ho other List.mem_cons_self
    have hrest : ∀ r ∈ rest, r.1 ≤ r.2 := fun r h => ho r (List.mem_cons_of_mem _ h)
    unfold cut
    split
    · exact ih hleast hlo hrest
    · split
      · exact ⟨hleast, hlo, hhi, htail⟩
      · have hafter : ∀ bound : Int, bound ≤ other.2 + 1 → bound ≤ hi + 2 →
            Canonical bound ((if hi < other.2 + 1 then [] else cut (other.2 + 1) hi rest) ++ tail) := by
          intro bound hb hb'
          split
          · exact htail.weaken hb'
          · exact ih hb (by omega) hrest
        by_cases hl : lo < other.1
        · simp only [hl, if_true, List.cons_append, List.nil_append]
          refine ⟨hleast, by simp only; omega, by simp only; omega, ?_⟩
          exact hafter _ (by simp only; omega) (by simp only; omega)
        · simp only [hl, if_false, List.nil_append]
          exact hafter _ (by omega) (by omega)

/-- What is left of each range without the ranges of `others`. -/
def subtractRanges (ranges others : List (Int × Int)) : List (Int × Int) :=
  ranges.flatMap fun range => cut range.1 range.2 others

theorem canonical_subtractRanges {least : Int} {ranges others : List (Int × Int)}
    (h : Canonical least ranges) (ho : ∀ r ∈ others, r.1 ≤ r.2) :
    Canonical least (subtractRanges ranges others) := by
  induction ranges generalizing least with
  | nil => trivial
  | cons range rest ih =>
    simp only [subtractRanges, List.flatMap_cons]
    exact canonical_cut_append h.1 h.2.1 h.2.2.1 (ih h.2.2.2) ho

namespace CharSet

/-- The members of the given ranges. Reversed ranges are empty and values outside the universe are
left out. -/
def ofRanges (ranges : List (Int × Int)) : CharSet where
  ranges := merge (sortedRanges ranges)
  canonical := canonical_merge inUniverse_of_mem_sortedRanges

def empty : CharSet where
  ranges := []
  canonical := trivial

/-- Every code point and `eof`. -/
def everything : CharSet where
  ranges := [(eof, maxChar)]
  canonical := by simp [Canonical, eof, maxChar]

def endOfInput : CharSet where
  ranges := [(eof, eof)]
  canonical := by simp [Canonical, eof, maxChar]

instance : Inhabited CharSet := ⟨empty⟩

def ofCharRange (lo hi : Char) : CharSet :=
  ofRanges [(lo.toNat, hi.toNat)]

def ofChar (c : Char) : CharSet :=
  ofCharRange c c

def ofString (s : String) : CharSet :=
  ofRanges (s.toList.map fun c => ((c.toNat : Int), (c.toNat : Int)))

/-! ## Operations -/

def contains (s : CharSet) (c : Int) : Bool :=
  s.ranges.any fun range => range.1 ≤ c && c ≤ range.2

def union (s t : CharSet) : CharSet :=
  ofRanges (s.ranges ++ t.ranges)

def subtract (s t : CharSet) : CharSet where
  ranges := subtractRanges s.ranges t.ranges
  canonical := canonical_subtractRanges s.canonical t.canonical.nonempty

def complement (s : CharSet) : CharSet :=
  everything.subtract s

def intersection (s t : CharSet) : CharSet :=
  s.subtract (s.subtract t)

def isEmpty (s : CharSet) : Bool :=
  s.ranges.isEmpty

def isEverything (s : CharSet) : Bool :=
  s.ranges == [(eof, maxChar)]

def isSubsetOf (s t : CharSet) : Bool :=
  (s.subtract t).isEmpty

def unionAll (sets : List CharSet) : CharSet :=
  sets.foldl union empty

/-! ## Cost of a test -/

/-- The number of comparisons that test one range: one at an end of the universe or for a single
value, else two. -/
def rangeCost (range : Int × Int) : Nat :=
  if range.1 = range.2 ∨ range.1 = eof ∨ range.2 = maxChar then 1 else 2

/-- The number of comparisons that test membership range by range. -/
def testCost (s : CharSet) : Nat :=
  s.ranges.foldl (fun cost range => cost + rangeCost range) 0

/-- The number of comparisons of the cheaper of the tests for the set and for its complement. -/
def cheapestTestCost (s : CharSet) : Nat :=
  min s.testCost s.complement.testCost

/-- A set with the same members as `s` outside `covered` that may be cheaper to test: `covered` is
added when that saves comparisons. -/
def optimize (s covered : CharSet) : CharSet :=
  let widened := s.union covered
  if widened.cheapestTestCost < s.cheapestTestCost then widened else s

end CharSet

end PredictiveParser
