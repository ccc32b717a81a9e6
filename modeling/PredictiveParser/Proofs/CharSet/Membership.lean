import Mathlib.Tactic.Common
import PredictiveParser.Method.SetCode

/-!
# Membership in sets of code points

Every operation on `CharSet` is told by what it does to `CharSet.contains`: a union holds what one
of the sets holds, a difference what the first holds and the second does not, and so on. The ranges
of a set are canonical, so sets with the same members are equal (`ext`).

* `contains_ofRanges`: sorting, clamping and merging ranges keeps their members in the universe.
* `contains_subtract`: cutting ranges out keeps exactly the members outside them.
* `holds_test`: the test written for a set, direct or complemented, decides membership.
* `contains_optimize`: a widened set differs only inside what is covered.
-/
namespace PredictiveParser

/-- A lookahead value: a code point or `eof`. -/
def IsTerminal (c : Int) : Prop := eof ≤ c ∧ c ≤ maxChar

def holdsIn (c : Int) (range : Int × Int) : Bool := range.1 ≤ c && c ≤ range.2

theorem holdsIn_iff {c : Int} {range : Int × Int} :
    holdsIn c range = true ↔ range.1 ≤ c ∧ c ≤ range.2 := by
  simp [holdsIn]

theorem holdsIn_eq_false_iff {c : Int} {range : Int × Int} :
    holdsIn c range = false ↔ c < range.1 ∨ range.2 < c := by
  rw [Bool.eq_false_iff, ne_eq, holdsIn_iff]
  omega

theorem holdsIn_clamp {c : Int} (hc : IsTerminal c) (range : Int × Int) :
    holdsIn c (clamp range) = holdsIn c range := by
  obtain ⟨hl, hu⟩ := hc
  rw [Bool.eq_iff_iff, holdsIn_iff, holdsIn_iff]
  simp only [clamp]
  omega

theorem not_holdsIn_of_not_meets {c : Int} (hc : IsTerminal c) {range : Int × Int}
    (h : meetsUniverse range = false) : holdsIn c range = false := by
  obtain ⟨hl, hu⟩ := hc
  rw [Bool.eq_false_iff, ne_eq, holdsIn_iff]
  intro hr
  have : meetsUniverse range = true := by
    simp only [meetsUniverse, Bool.and_eq_true, decide_eq_true_eq]
    omega
  rw [this] at h
  cases h

/-! ## Canonical ranges -/

theorem Canonical.least_le {least c : Int} {ranges : List (Int × Int)} (h : Canonical least ranges)
    (hc : ranges.any (holdsIn c) = true) : least ≤ c := by
  induction ranges generalizing least with
  | nil => cases hc
  | cons range rest ih =>
    obtain ⟨h1, h2, -, h4⟩ := h
    rw [List.any_cons, Bool.or_eq_true, holdsIn_iff] at hc
    rcases hc with hc | hc
    · omega
    · have := ih h4 hc
      omega

theorem Canonical.le_maxChar {least c : Int} {ranges : List (Int × Int)}
    (h : Canonical least ranges) (hc : ranges.any (holdsIn c) = true) : c ≤ maxChar := by
  induction ranges generalizing least with
  | nil => cases hc
  | cons range rest ih =>
    obtain ⟨-, -, h3, h4⟩ := h
    rw [List.any_cons, Bool.or_eq_true, holdsIn_iff] at hc
    rcases hc with hc | hc
    · omega
    · exact ih h4 hc

/-- The first range of canonical ranges is read off their members: it starts at the least member
and ends in front of the first gap. -/
theorem Canonical.head_eq {least least' : Int} {r s : Int × Int} {rs ss : List (Int × Int)}
    (hr : Canonical least (r :: rs)) (hs : Canonical least' (s :: ss))
    (h : ∀ c, (r :: rs).any (holdsIn c) = (s :: ss).any (holdsIn c)) : r = s := by
  obtain ⟨-, hr1, -, hr2⟩ := hr
  obtain ⟨-, hs1, -, hs2⟩ := hs
  have mem_r : ∀ {c}, r.1 ≤ c → c ≤ r.2 → (r :: rs).any (holdsIn c) = true := by
    intro c h1 h2
    rw [List.any_cons, Bool.or_eq_true]
    exact Or.inl (holdsIn_iff.2 ⟨h1, h2⟩)
  have mem_s : ∀ {c}, s.1 ≤ c → c ≤ s.2 → (s :: ss).any (holdsIn c) = true := by
    intro c h1 h2
    rw [List.any_cons, Bool.or_eq_true]
    exact Or.inl (holdsIn_iff.2 ⟨h1, h2⟩)
  have of_r : ∀ {c}, (r :: rs).any (holdsIn c) = true → r.1 ≤ c ∧ c ≤ r.2 ∨ r.2 + 2 ≤ c := by
    intro c hc
    rw [List.any_cons, Bool.or_eq_true, holdsIn_iff] at hc
    rcases hc with hc | hc
    · exact Or.inl hc
    · exact Or.inr (hr2.least_le hc)
  have of_s : ∀ {c}, (s :: ss).any (holdsIn c) = true → s.1 ≤ c ∧ c ≤ s.2 ∨ s.2 + 2 ≤ c := by
    intro c hc
    rw [List.any_cons, Bool.or_eq_true, holdsIn_iff] at hc
    rcases hc with hc | hc
    · exact Or.inl hc
    · exact Or.inr (hs2.least_le hc)
  have e1 : r.1 = s.1 := by
    have h1 := of_s ((h r.1).symm.trans (mem_r (Int.le_refl _) hr1))
    have h2 := of_r ((h s.1).trans (mem_s (Int.le_refl _) hs1))
    omega
  have e2 : r.2 = s.2 := by
    rcases Int.lt_trichotomy r.2 s.2 with hlt | heq | hgt
    · have := of_r ((h (r.2 + 1)).trans (mem_s (by omega) (by omega)))
      omega
    · exact heq
    · have := of_s ((h (s.2 + 1)).symm.trans (mem_r (by omega) (by omega)))
      omega
  exact Prod.ext e1 e2

theorem Canonical.eq_of_any_eq {least : Int} {rs ss : List (Int × Int)} (hr : Canonical least rs)
    (hs : Canonical least ss) (h : ∀ c, rs.any (holdsIn c) = ss.any (holdsIn c)) : rs = ss := by
  induction rs generalizing least ss with
  | nil =>
    cases ss with
    | nil => rfl
    | cons s ss =>
      have := h s.1
      rw [List.any_nil, List.any_cons, holdsIn_iff.2 ⟨Int.le_refl _, hs.2.1⟩] at this
      cases this
  | cons r rs ih =>
    cases ss with
    | nil =>
      have := h r.1
      rw [List.any_nil, List.any_cons, holdsIn_iff.2 ⟨Int.le_refl _, hr.2.1⟩] at this
      cases this
    | cons s ss =>
      have e := hr.head_eq hs h
      subst e
      have tail : ∀ c, rs.any (holdsIn c) = ss.any (holdsIn c) := by
        intro c
        by_cases hc : r.2 + 2 ≤ c
        · have hn : holdsIn c r = false := holdsIn_eq_false_iff.2 (by omega)
          simpa [hn] using h c
        · have h1 : rs.any (holdsIn c) = false :=
            Bool.eq_false_iff.2 fun hm => hc (hr.2.2.2.least_le hm)
          have h2 : ss.any (holdsIn c) = false :=
            Bool.eq_false_iff.2 fun hm => hc (hs.2.2.2.least_le hm)
          rw [h1, h2]
      rw [ih hr.2.2.2 hs.2.2.2 tail]

/-! ## Merging -/

theorem any_mergeFrom (c : Int) (current : Int × Int) (ranges : List (Int × Int))
    (hc : current.1 ≤ current.2) (hr : ∀ r ∈ ranges, r.1 ≤ r.2)
    (hs : (current :: ranges).Pairwise fun a b => a.1 ≤ b.1) :
    (mergeFrom current ranges).any (holdsIn c) = (current :: ranges).any (holdsIn c) := by
  induction ranges generalizing current with
  | nil => simp [mergeFrom]
  | cons next rest ih =>
    obtain ⟨hcur, hnext, hrest⟩ := List.pairwise_cons.1 hs |>.imp_right List.pairwise_cons.1
    have hle := hcur next List.mem_cons_self
    have hn := hr next List.mem_cons_self
    have hr' : ∀ r ∈ rest, r.1 ≤ r.2 := fun r h => hr r (List.mem_cons_of_mem _ h)
    unfold mergeFrom
    split
    · rename_i htouch
      have joined : holdsIn c (current.1, max current.2 next.2) =
          (holdsIn c current || holdsIn c next) := by
        rw [Bool.eq_iff_iff, Bool.or_eq_true, holdsIn_iff, holdsIn_iff, holdsIn_iff]
        simp only
        omega
      rw [ih _ (by simp only; omega) hr']
      · rw [List.any_cons, joined, List.any_cons, List.any_cons, Bool.or_assoc]
      · exact List.pairwise_cons.2 ⟨fun r h => hcur r (List.mem_cons_of_mem _ h), hrest⟩
    · rw [List.any_cons, ih next hn hr' (List.pairwise_cons.2 ⟨hnext, hrest⟩), List.any_cons,
        List.any_cons, List.any_cons]

theorem rangeLe_fst {a b : Int × Int} (h : rangeLe a b = true) : a.1 ≤ b.1 := by
  simp only [rangeLe, Bool.or_eq_true, Bool.and_eq_true, decide_eq_true_eq, beq_iff_eq] at h
  omega

theorem pairwise_sortedRanges (ranges : List (Int × Int)) :
    (sortedRanges ranges).Pairwise fun a b => a.1 ≤ b.1 := by
  have sorted : ((ranges.filter meetsUniverse).mergeSort rangeLe).Pairwise
      (fun a b => rangeLe a b = true) := by
    refine List.pairwise_mergeSort ?_ ?_ _
    · intro a b d hab hbd
      simp only [rangeLe, Bool.or_eq_true, Bool.and_eq_true, decide_eq_true_eq, beq_iff_eq] at *
      omega
    · intro a b
      simp only [rangeLe, Bool.or_eq_true, Bool.and_eq_true, decide_eq_true_eq, beq_iff_eq] at *
      omega
  refine List.pairwise_map.2 (sorted.imp ?_)
  intro a b h
  have := rangeLe_fst h
  simp only [clamp]
  omega

theorem any_sortedRanges {c : Int} (hc : IsTerminal c) (ranges : List (Int × Int)) :
    (sortedRanges ranges).any (holdsIn c) = ranges.any (holdsIn c) := by
  rw [Bool.eq_iff_iff, List.any_eq_true, List.any_eq_true]
  constructor
  · rintro ⟨r, hr, h⟩
    obtain ⟨range, hrange, rfl⟩ := List.mem_map.1 hr
    rw [holdsIn_clamp hc] at h
    exact ⟨range, (List.mem_filter.1 (List.mem_mergeSort.1 hrange)).1, h⟩
  · rintro ⟨range, hrange, h⟩
    have hm : meetsUniverse range = true := by
      by_contra hn
      rw [not_holdsIn_of_not_meets hc (Bool.eq_false_iff.2 hn)] at h
      cases h
    have hkept := List.mem_filter.2 ⟨hrange, hm⟩
    refine ⟨clamp range, List.mem_map_of_mem (List.mem_mergeSort.2 hkept), ?_⟩
    rw [holdsIn_clamp hc]
    exact h

theorem any_merge (c : Int) (ranges : List (Int × Int)) (hr : ∀ r ∈ ranges, r.1 ≤ r.2)
    (hs : ranges.Pairwise fun a b => a.1 ≤ b.1) :
    (merge ranges).any (holdsIn c) = ranges.any (holdsIn c) := by
  cases ranges with
  | nil => rfl
  | cons range rest =>
    exact any_mergeFrom c range rest (hr range List.mem_cons_self)
      (fun r h => hr r (List.mem_cons_of_mem _ h)) hs

/-! ## Cutting -/

/-- What a range keeps in front of the first range that is cut out. -/
theorem any_before (c lo first : Int) :
    (if lo < first then [(lo, first - 1)] else []).any (holdsIn c) =
      (decide (lo ≤ c) && decide (c < first)) := by
  rw [Bool.eq_iff_iff, Bool.and_eq_true, decide_eq_true_iff, decide_eq_true_iff]
  split
  · rw [List.any_cons, List.any_nil, Bool.or_false, holdsIn_iff]
    simp only
    omega
  · simp only [List.any_nil, Bool.false_eq_true, false_iff]
    omega

theorem any_cut (c lo hi : Int) (others : List (Int × Int)) (hlo : lo ≤ hi)
    {least : Int} (ho : Canonical least others) :
    (cut lo hi others).any (holdsIn c) = (holdsIn c (lo, hi) && !others.any (holdsIn c)) := by
  induction others generalizing lo least with
  | nil => simp [cut]
  | cons other rest ih =>
    obtain ⟨-, ho1, hmax, ho2⟩ := ho
    -- The ranges behind `other` matter only beyond its end.
    have hrest : rest.any (holdsIn c) = true → other.2 + 2 ≤ c := ho2.least_le
    unfold cut
    split
    · -- `other` lies in front of the range.
      rename_i hlt
      rw [ih lo hlo ho2, List.any_cons]
      cases hin : holdsIn c (lo, hi) with
      | false => rfl
      | true =>
        have hc : lo ≤ c ∧ c ≤ hi := holdsIn_iff.1 hin
        rw [holdsIn_eq_false_iff.2 (Or.inr (by omega : other.2 < c)), Bool.false_or]
    · split
      · -- All others lie behind the range.
        rename_i h1 h2
        rw [List.any_cons, List.any_nil, Bool.or_false]
        cases hin : holdsIn c (lo, hi) with
        | false => rfl
        | true =>
          have hc : lo ≤ c ∧ c ≤ hi := holdsIn_iff.1 hin
          have hbehind : Canonical other.1 (other :: rest) := ⟨Int.le_refl _, ho1, hmax, ho2⟩
          have hnone : (other :: rest).any (holdsIn c) = false :=
            Bool.eq_false_iff.2 fun h => by have := hbehind.least_le h; omega
          rw [hnone]
          rfl
      · -- What is kept lies in front of `other` or behind it.
        rename_i h1 h2
        have hafter : (if hi < other.2 + 1 then [] else cut (other.2 + 1) hi rest).any (holdsIn c) =
            (holdsIn c (other.2 + 1, hi) && !rest.any (holdsIn c)) := by
          split
          · have hn : holdsIn c (other.2 + 1, hi) = false := holdsIn_eq_false_iff.2 (by simp only; omega)
            rw [hn]
            rfl
          · exact ih _ (by omega) ho2
        simp only [List.any_append, any_before, hafter, List.any_cons]
        rw [Bool.eq_iff_iff]
        simp only [Bool.or_eq_true, Bool.and_eq_true, Bool.not_eq_true', Bool.or_eq_false_iff,
          decide_eq_true_eq, holdsIn_iff, holdsIn_eq_false_iff]
        cases hr : rest.any (holdsIn c) with
        | false =>
          simp only [and_true]
          omega
        | true =>
          have := hrest hr
          simp only [Bool.true_eq_false, and_false, or_false, iff_false]
          omega

theorem any_subtractRanges (c : Int) {least : Int} {ranges others : List (Int × Int)}
    (hr : ∀ r ∈ ranges, r.1 ≤ r.2) (ho : Canonical least others) :
    (subtractRanges ranges others).any (holdsIn c) =
      (ranges.any (holdsIn c) && !others.any (holdsIn c)) := by
  induction ranges with
  | nil => rfl
  | cons range rest ih =>
    have hrest : ∀ r ∈ rest, r.1 ≤ r.2 := fun r h => hr r (List.mem_cons_of_mem _ h)
    have hcut := any_cut c range.1 range.2 others (hr range List.mem_cons_self) ho
    simp only [subtractRanges] at ih
    simp only [subtractRanges, List.flatMap_cons, List.any_append, hcut, ih hrest, List.any_cons]
    rw [← Bool.and_or_distrib_right]

/-! ## Operations -/

namespace CharSet

theorem contains_eq_any (s : CharSet) (c : Int) : s.contains c = s.ranges.any (holdsIn c) := rfl

theorem isTerminal_of_contains {s : CharSet} {c : Int} (h : s.contains c = true) : IsTerminal c :=
  ⟨s.canonical.least_le h, s.canonical.le_maxChar h⟩

/-- Sets with the same members are equal. -/
theorem ext {s t : CharSet} (h : ∀ c, s.contains c = t.contains c) : s = t := by
  have := s.canonical.eq_of_any_eq t.canonical h
  cases s
  cases t
  simp only at this
  subst this
  rfl

theorem contains_ofRanges {c : Int} (hc : IsTerminal c) (ranges : List (Int × Int)) :
    (ofRanges ranges).contains c = ranges.any (holdsIn c) := by
  have hr : ∀ r ∈ sortedRanges ranges, r.1 ≤ r.2 :=
    fun r h => (inUniverse_of_mem_sortedRanges r h).2.1
  rw [contains_eq_any]
  exact (any_merge c _ hr (pairwise_sortedRanges ranges)).trans (any_sortedRanges hc ranges)

@[simp] theorem contains_empty (c : Int) : empty.contains c = false := rfl

theorem contains_everything {c : Int} : everything.contains c = true ↔ IsTerminal c := by
  simp [contains, everything, IsTerminal]

theorem contains_endOfInput {c : Int} : endOfInput.contains c = true ↔ c = eof := by
  rw [contains, endOfInput, List.any_cons, List.any_nil, Bool.or_false, Bool.and_eq_true,
    decide_eq_true_eq, decide_eq_true_eq]
  omega

@[simp] theorem contains_union (s t : CharSet) (c : Int) :
    (s.union t).contains c = (s.contains c || t.contains c) := by
  by_cases hc : IsTerminal c
  · rw [union, contains_ofRanges hc, List.any_append]
    rfl
  · have none : ∀ u : CharSet, u.contains c = false :=
      fun u => Bool.eq_false_iff.2 fun h => hc (isTerminal_of_contains h)
    rw [none, none, none]
    rfl

@[simp] theorem contains_subtract (s t : CharSet) (c : Int) :
    (s.subtract t).contains c = (s.contains c && !t.contains c) :=
  any_subtractRanges c s.canonical.nonempty t.canonical

@[simp] theorem contains_intersection (s t : CharSet) (c : Int) :
    (s.intersection t).contains c = (s.contains c && t.contains c) := by
  rw [intersection, contains_subtract, contains_subtract]
  cases s.contains c <;> cases t.contains c <;> rfl

theorem contains_complement {s : CharSet} {c : Int} (hc : IsTerminal c) :
    s.complement.contains c = !s.contains c := by
  rw [complement, contains_subtract, contains_everything.2 hc, Bool.true_and]

theorem contains_foldl_union (sets : List CharSet) (s : CharSet) (c : Int) :
    (sets.foldl union s).contains c = (s.contains c || sets.any (·.contains c)) := by
  induction sets generalizing s with
  | nil => simp
  | cons t rest ih => rw [List.foldl_cons, ih, contains_union, List.any_cons, Bool.or_assoc]

@[simp] theorem contains_unionAll (sets : List CharSet) (c : Int) :
    (unionAll sets).contains c = sets.any (·.contains c) := by
  rw [unionAll, contains_foldl_union, contains_empty, Bool.false_or]

theorem isEmpty_iff {s : CharSet} : s.isEmpty = true ↔ ∀ c, s.contains c = false := by
  constructor
  · intro h c
    rw [contains_eq_any, List.isEmpty_iff.1 h]
    rfl
  · intro h
    have : s = empty := ext h
    rw [this]
    rfl

theorem exists_contains_of_not_isEmpty {s : CharSet} (h : s.isEmpty = false) :
    ∃ c, s.contains c = true := by
  by_contra hn
  have : s.isEmpty = true :=
    isEmpty_iff.2 fun c => Bool.eq_false_iff.2 fun hc => hn ⟨c, hc⟩
  rw [this] at h
  cases h

theorem isEverything_iff {s : CharSet} : s.isEverything = true ↔ s = everything := by
  rw [isEverything, beq_iff_eq]
  constructor
  · intro h
    cases s
    cases h
    rfl
  · rintro rfl
    rfl

theorem isSubsetOf_iff {s t : CharSet} :
    s.isSubsetOf t = true ↔ ∀ c, s.contains c = true → t.contains c = true := by
  rw [isSubsetOf, isEmpty_iff]
  refine forall_congr' fun c => ?_
  rw [contains_subtract]
  cases s.contains c <;> cases t.contains c <;> simp

/-! ## Tests -/

/-- The comparison for a range agrees with the range on every lookahead value. -/
theorem holds_ofRange {c : Int} (hc : IsTerminal c) (range : Int × Int) :
    (Comparison.ofRange range).holds c = holdsIn c range := by
  obtain ⟨hl, hu⟩ := hc
  unfold Comparison.ofRange
  split
  · rw [Bool.eq_iff_iff, holdsIn_iff]
    simp only [Comparison.holds, beq_iff_eq]
    omega
  · split
    · rw [Bool.eq_iff_iff, holdsIn_iff]
      simp only [Comparison.holds, decide_eq_true_eq]
      omega
    · split
      · rw [Bool.eq_iff_iff, holdsIn_iff]
        simp only [Comparison.holds, decide_eq_true_eq]
        omega
      · rfl

theorem any_holds_ofRange {c : Int} (hc : IsTerminal c) (s : CharSet) :
    (s.ranges.map Comparison.ofRange).any (·.holds c) = s.contains c := by
  rw [List.any_map, contains_eq_any]
  congr 1
  funext range
  exact holds_ofRange hc range

/-- The test of a set decides membership. -/
theorem holds_test {c : Int} (hc : IsTerminal c) (s : CharSet) :
    s.test.holds c = s.contains c := by
  unfold test
  split
  · rename_i h
    rw [isEmpty_iff.1 h]
    rfl
  · split
    · rename_i h
      rw [isEverything_iff.1 h, contains_everything.2 hc]
      rfl
    · split
      · rw [SetTest.holds, any_holds_ofRange hc, contains_complement hc, Bool.not_not]
      · rw [SetTest.holds, any_holds_ofRange hc]

/-- Widening a set by what is covered changes nothing outside of it. -/
theorem contains_optimize {s covered : CharSet} {c : Int} (h : covered.contains c = false) :
    (s.optimize covered).contains c = s.contains c := by
  simp only [optimize]
  split
  · rw [contains_union, h, Bool.or_false]
  · rfl

end CharSet

end PredictiveParser
