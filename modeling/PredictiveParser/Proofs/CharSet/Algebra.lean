import Mathlib
import PredictiveParser.Proofs.CharSet.Membership

/-!
# Sets of code points are a Boolean algebra

A `SetExpr` is any way to put a set together from ranges by union, difference, intersection and
complement. It stands for the set of its members (`SetExpr.members`), and it is computed on lists of
ranges, where each addition and subtraction is one of words of 32 bits and has no result when it leaves
them (`SetExpr.ranges?`).

* `SetExpr.ranges?_eq`: nothing leaves the words, and the ranges are those of the set
  (`SetExpr.value`). Ends of ranges are at most one step outside the universe.
* `SetExpr.contains_value`: the members are the right ones.
* `SetExpr.value_exact`: so ranges are canonical, and comparing ranges compares members.
-/
namespace PredictiveParser

/-! ## Words -/

/-- The number as a signed word of 32 bits, if it is one. -/
def word? (n : Int) : Option Int :=
  if -2 ^ 31 ≤ n ∧ n < 2 ^ 31 then some n else none

/-- Numbers one step outside the universe are words. -/
theorem word?_eq {n : Int} (hl : eof - 1 ≤ n) (hu : n ≤ maxChar + 1) : word? n = some n := by
  refine if_pos ?_
  simp only [eof, maxChar] at hl hu
  omega

def mergeFrom? (current : Int × Int) : List (Int × Int) → Option (List (Int × Int))
  | [] => some [current]
  | next :: rest => do
    let touching ← word? (current.2 + 1)
    if next.1 ≤ touching then mergeFrom? (current.1, max current.2 next.2) rest
    else return current :: (← mergeFrom? next rest)

def merge? : List (Int × Int) → Option (List (Int × Int))
  | [] => some []
  | range :: rest => mergeFrom? range rest

/-- What `cut` leaves of the range from `lo` on in front of another range. -/
def cutBefore? (lo : Int) (other : Int × Int) : Option (List (Int × Int)) :=
  if lo < other.1 then (fun last => [(lo, last)]) <$> word? (other.1 - 1) else some []

def cut? (lo hi : Int) : List (Int × Int) → Option (List (Int × Int))
  | [] => some [(lo, hi)]
  | other :: rest =>
    if other.2 < lo then cut? lo hi rest
    else if hi < other.1 then some [(lo, hi)]
    else do
      let before ← cutBefore? lo other
      let behind ← word? (other.2 + 1)
      if hi < behind then return before else return before ++ (← cut? behind hi rest)

def subtractRanges? (ranges others : List (Int × Int)) : Option (List (Int × Int)) :=
  List.flatten <$> ranges.mapM fun range => cut? range.1 range.2 others

theorem mergeFrom?_eq {current : Int × Int} {ranges : List (Int × Int)} (hc : InUniverse current)
    (hr : ∀ r ∈ ranges, InUniverse r) :
    mergeFrom? current ranges = some (mergeFrom current ranges) := by
  induction ranges generalizing current with
  | nil => rfl
  | cons next rest ih =>
    have hn := hr next List.mem_cons_self
    have hrest : ∀ r ∈ rest, InUniverse r := fun r h => hr r (List.mem_cons_of_mem _ h)
    have htouching : word? (current.2 + 1) = some (current.2 + 1) := by
      obtain ⟨hl, hle, hu⟩ := hc
      exact word?_eq (by omega) (by omega)
    rw [mergeFrom?, htouching, mergeFrom]
    show (if next.1 ≤ current.2 + 1 then _ else _) = _
    split
    · refine ih ?_ hrest
      simp only [InUniverse] at hc hn ⊢
      omega
    · rw [ih hn hrest]
      rfl

theorem merge?_sortedRanges (ranges : List (Int × Int)) :
    merge? (sortedRanges ranges) = some (merge (sortedRanges ranges)) := by
  have hall : ∀ r ∈ sortedRanges ranges, InUniverse r := inUniverse_of_mem_sortedRanges
  cases hsorted : sortedRanges ranges with
  | nil => rfl
  | cons range rest =>
    rw [hsorted] at hall
    exact mergeFrom?_eq (hall range List.mem_cons_self) fun r h => hall r (List.mem_cons_of_mem _ h)

theorem cut?_eq {lo hi : Int} {others : List (Int × Int)} (ho : ∀ r ∈ others, InUniverse r) :
    cut? lo hi others = some (cut lo hi others) := by
  induction others generalizing lo with
  | nil => rfl
  | cons other rest ih =>
    obtain ⟨hl, hle, hu⟩ := ho other List.mem_cons_self
    have hrest : ∀ r ∈ rest, InUniverse r := fun r h => ho r (List.mem_cons_of_mem _ h)
    have hbefore : cutBefore? lo other = some (if lo < other.1 then [(lo, other.1 - 1)] else []) := by
      rw [cutBefore?, word?_eq (by omega) (by omega)]
      split <;> rfl
    have hbehind : word? (other.2 + 1) = some (other.2 + 1) := word?_eq (by omega) (by omega)
    rw [cut?, cut, hbefore, hbehind]
    split
    · exact ih hrest
    · split
      · rfl
      · show (if hi < other.2 + 1 then some _ else (cut? (other.2 + 1) hi rest).bind _) = _
        rw [ih hrest]
        split
        · exact congrArg some (List.append_nil _).symm
        · rfl

theorem subtractRanges?_eq (ranges : List (Int × Int)) {others : List (Int × Int)}
    (ho : ∀ r ∈ others, InUniverse r) :
    subtractRanges? ranges others = some (subtractRanges ranges others) := by
  have hmap : (ranges.mapM fun range => cut? range.1 range.2 others) =
      some (ranges.map fun range => cut range.1 range.2 others) := by
    simp only [cut?_eq ho]
    exact List.mapM_pure
  rw [subtractRanges?, hmap, subtractRanges, List.flatMap_def]
  rfl

/-! ## Canonical ranges -/

theorem Canonical.inUniverse {least : Int} {ranges : List (Int × Int)} (h : Canonical least ranges)
    (hleast : eof ≤ least) : ∀ range ∈ ranges, InUniverse range := by
  induction ranges generalizing least with
  | nil => simp
  | cons range rest ih =>
    obtain ⟨hl, hle, hu, hrest⟩ := h
    intro r hr
    rcases List.mem_cons.1 hr with rfl | hr
    · exact ⟨by omega, hle, hu⟩
    · exact ih hrest (by omega) r hr

/-- Between two canonical ranges there is a gap. -/
theorem Canonical.pairwise {least : Int} {ranges : List (Int × Int)} (h : Canonical least ranges) :
    ranges.Pairwise fun a b => a.2 + 1 < b.1 := by
  induction ranges generalizing least with
  | nil => exact .nil
  | cons range rest ih =>
    obtain ⟨-, -, -, hrest⟩ := h
    refine List.pairwise_cons.2 ⟨fun r hr => ?_, ih hrest⟩
    have hfirst : rest.any (holdsIn r.1) = true :=
      List.any_eq_true.2 ⟨r, hr, holdsIn_iff.2 ⟨Int.le_refl _, hrest.nonempty r hr⟩⟩
    have := hrest.least_le hfirst
    omega

theorem CharSet.inUniverse (s : CharSet) : ∀ range ∈ s.ranges, InUniverse range :=
  s.canonical.inUniverse (Int.le_refl _)

/-! ## Expressions -/

/-- A set of code points as it is put together. -/
inductive SetExpr where
  | ofRanges (ranges : List (Int × Int))
  | union (s t : SetExpr)
  | subtract (s t : SetExpr)
  | intersection (s t : SetExpr)
  | complement (s : SetExpr)

namespace SetExpr

def value : SetExpr → CharSet
  | .ofRanges ranges => .ofRanges ranges
  | .union s t => s.value.union t.value
  | .subtract s t => s.value.subtract t.value
  | .intersection s t => s.value.intersection t.value
  | .complement s => s.value.complement

/-- The ranges that the expression computes on words, unless some number is no word. -/
def ranges? : SetExpr → Option (List (Int × Int))
  | .ofRanges ranges => merge? (sortedRanges ranges)
  | .union s t => do merge? (sortedRanges ((← s.ranges?) ++ (← t.ranges?)))
  | .subtract s t => do subtractRanges? (← s.ranges?) (← t.ranges?)
  | .intersection s t => do
    let ranges ← s.ranges?
    subtractRanges? ranges (← subtractRanges? ranges (← t.ranges?))
  | .complement s => do subtractRanges? [(eof, maxChar)] (← s.ranges?)

/-- The members of the set that the expression stands for. -/
def members : SetExpr → Set Int
  | .ofRanges ranges => {c | IsTerminal c ∧ ∃ range ∈ ranges, range.1 ≤ c ∧ c ≤ range.2}
  | .union s t => s.members ∪ t.members
  | .subtract s t => s.members \ t.members
  | .intersection s t => s.members ∩ t.members
  | .complement s => {c | IsTerminal c} \ s.members

/-- **No number leaves the words.** -/
theorem ranges?_eq (s : SetExpr) : s.ranges? = some s.value.ranges := by
  induction s with
  | ofRanges ranges => exact merge?_sortedRanges ranges
  | union s t hs ht =>
    rw [ranges?, hs, ht]
    exact merge?_sortedRanges _
  | subtract s t hs ht =>
    rw [ranges?, hs, ht]
    exact subtractRanges?_eq _ t.value.inUniverse
  | intersection s t hs ht =>
    have hinner : subtractRanges? s.value.ranges t.value.ranges =
        some (s.value.subtract t.value).ranges := subtractRanges?_eq _ t.value.inUniverse
    rw [ranges?, hs, ht]
    show (subtractRanges? s.value.ranges t.value.ranges).bind (subtractRanges? s.value.ranges) = _
    rw [hinner]
    exact subtractRanges?_eq _ (s.value.subtract t.value).inUniverse
  | complement s hs =>
    rw [ranges?, hs]
    exact subtractRanges?_eq _ s.value.inUniverse

theorem isTerminal_of_mem_members {s : SetExpr} {c : Int} (h : c ∈ s.members) : IsTerminal c := by
  induction s with
  | ofRanges ranges => exact h.1
  | union s t hs ht => exact h.elim hs ht
  | subtract s t hs ht => exact hs h.1
  | intersection s t hs ht => exact hs h.1
  | complement s hs => exact h.1

/-- **Each operation is the one of sets.** -/
theorem contains_value (s : SetExpr) (c : Int) : s.value.contains c = true ↔ c ∈ s.members := by
  by_cases hc : IsTerminal c
  · induction s with
    | ofRanges ranges =>
      rw [value, CharSet.contains_ofRanges hc, List.any_eq_true]
      simp only [holdsIn_iff]
      exact ⟨fun h => ⟨hc, h⟩, fun h => h.2⟩
    | union s t hs ht =>
      rw [value, CharSet.contains_union, Bool.or_eq_true, hs, ht]
      rfl
    | subtract s t hs ht =>
      rw [value, CharSet.contains_subtract, Bool.and_eq_true, Bool.not_eq_true', ← Bool.not_eq_true,
        hs, ht]
      rfl
    | intersection s t hs ht =>
      rw [value, CharSet.contains_intersection, Bool.and_eq_true, hs, ht]
      rfl
    | complement s hs =>
      rw [value, CharSet.contains_complement hc, Bool.not_eq_true', ← Bool.not_eq_true, hs]
      exact ⟨fun h => ⟨hc, h⟩, fun h => h.2⟩
  · exact ⟨fun h => (hc (CharSet.isTerminal_of_contains h)).elim,
      fun h => (hc (isTerminal_of_mem_members h)).elim⟩

theorem value_eq_iff {s t : SetExpr} : s.value = t.value ↔ s.members = t.members := by
  constructor
  · intro h
    ext c
    rw [← contains_value, ← contains_value, h]
  · intro h
    refine CharSet.ext fun c => ?_
    rw [Bool.eq_iff_iff, contains_value, contains_value, h]

theorem isEmpty_value {s : SetExpr} : s.value.isEmpty = true ↔ s.members = ∅ := by
  rw [CharSet.isEmpty_iff, Set.eq_empty_iff_forall_notMem]
  refine forall_congr' fun c => ?_
  rw [← contains_value, Bool.not_eq_true]

theorem isEverything_value {s : SetExpr} :
    s.value.isEverything = true ↔ s.members = {c | IsTerminal c} := by
  rw [CharSet.isEverything_iff]
  constructor
  · intro h
    ext c
    rw [← contains_value, h]
    exact CharSet.contains_everything
  · intro h
    refine CharSet.ext fun c => ?_
    rw [Bool.eq_iff_iff, contains_value, h, CharSet.contains_everything]
    rfl

theorem isSubsetOf_value {s t : SetExpr} :
    s.value.isSubsetOf t.value = true ↔ s.members ⊆ t.members := by
  rw [CharSet.isSubsetOf_iff]
  simp only [contains_value]
  rfl

/-- **The sets are a Boolean algebra, and ranges are a canonical form.** Whatever ranges a set is put
together from, and however: no number leaves the words of 32 bits; its ranges are not empty, ascending
with gaps in between, and inside the universe; it has the members it should have; and looking at ranges
tells whether two sets are equal, whether a set is empty or holds everything, and whether a set is part
of another. -/
theorem value_exact (s t : SetExpr) :
    s.ranges? = some s.value.ranges ∧
      ((∀ range ∈ s.value.ranges, InUniverse range) ∧
        s.value.ranges.Pairwise fun a b => a.2 + 1 < b.1) ∧
      (∀ c, s.value.contains c = true ↔ c ∈ s.members) ∧
      ((s.value == t.value) = true ↔ s.members = t.members) ∧
      (s.value.isEmpty = true ↔ s.members = ∅) ∧
      (s.value.isEverything = true ↔ s.members = {c | IsTerminal c}) ∧
      (s.value.isSubsetOf t.value = true ↔ s.members ⊆ t.members) := by
  refine ⟨s.ranges?_eq, ⟨s.value.inUniverse, s.value.canonical.pairwise⟩, s.contains_value, ?_,
    isEmpty_value, isEverything_value, isSubsetOf_value⟩
  rw [beq_iff_eq]
  exact value_eq_iff

/-- The ranges of a set that is put together from the ends of the words. -/
example : (complement (union (ofRanges [(-2 ^ 31, 47), (2 ^ 31 - 1, -2 ^ 31)])
    (ofRanges [(58, 2 ^ 31 - 1), (48, 49)]))).ranges? = some [(50, 57)] := by
  cbv

end SetExpr

end PredictiveParser
