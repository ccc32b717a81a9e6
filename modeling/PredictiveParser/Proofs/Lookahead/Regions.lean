import Mathlib.Data.List.Pairwise
import PredictiveParser.Analysis.Tree
import PredictiveParser.Proofs.CharSet.Membership
import PredictiveParser.Proofs.Success

/-!
# Regions of terminals

A level of a prediction tree splits the terminals that can come next into regions. `Region.refine`
keeps three things: no terminal is in two regions, each region lists every choice once and with
something that leads to it (`Region.Partition`), and what was recorded for a terminal stays recorded
(`Region.Leads`).

* `partition_regionsOf`: the regions of a level are a partition.
* `leads_regionsOf`: every step that a search finds is recorded for all of its terminals.
* `has_of_regionsOf`, `leads_regionsOf_iff`: nothing else is recorded.
-/
namespace PredictiveParser

/-! ## Recorded choices -/

namespace Live

def Has (live : Live) (alt : Alt) (config : Config) : Prop :=
  ∃ configs, (alt, configs) ∈ live ∧ config ∈ configs

/-- Each choice is listed once, and something leads to it. -/
structure Sound (live : Live) : Prop where
  nodup : (live.map Prod.fst).Nodup
  nonempty : ∀ entry ∈ live, entry.2 ≠ []

variable {live : Live} {alt a : Alt} {config c : Config}

theorem add_ne_nil (live : Live) (alt : Alt) (config : Config) : live.add alt config ≠ [] := by
  cases live with
  | nil => exact List.cons_ne_nil _ _
  | cons entry rest =>
    rw [add]
    split <;> exact List.cons_ne_nil _ _

theorem has_cons {entry : Alt × List Config} :
    Has (entry :: live) a c ↔ (entry.1 = a ∧ c ∈ entry.2) ∨ live.Has a c := by
  constructor
  · rintro ⟨configs, hm, hc⟩
    rcases List.mem_cons.1 hm with rfl | hm
    · exact Or.inl ⟨rfl, hc⟩
    · exact Or.inr ⟨configs, hm, hc⟩
  · rintro (⟨rfl, hc⟩ | ⟨configs, hm, hc⟩)
    · exact ⟨entry.2, List.mem_cons_self, hc⟩
    · exact ⟨configs, List.mem_cons_of_mem _ hm, hc⟩

theorem has_nil : ¬ Has [] a c := fun ⟨_, hm, _⟩ => by cases hm

theorem has_add : (live.add alt config).Has a c ↔ live.Has a c ∨ (alt = a ∧ c = config) := by
  induction live with
  | nil => simp [add, has_cons, has_nil]
  | cons entry rest ih =>
    rw [add]
    split
    · rename_i heq
      rw [has_cons, has_cons]
      split
      · rename_i hmem
        have hmem := List.contains_iff_mem.1 hmem
        constructor
        · exact Or.inl
        · rintro (h | ⟨rfl, rfl⟩)
          · exact h
          · exact Or.inl ⟨heq, hmem⟩
      · rw [List.mem_append, List.mem_singleton, heq]
        tauto
    · rw [has_cons, has_cons, ih]
      tauto

theorem mem_keys_add : a ∈ (live.add alt config).map Prod.fst ↔ a ∈ live.map Prod.fst ∨ a = alt := by
  induction live with
  | nil => simp [add]
  | cons entry rest ih =>
    rw [add]
    split
    · rename_i heq
      simp only [List.map_cons, List.mem_cons, heq]
      tauto
    · rw [List.map_cons, List.map_cons, List.mem_cons, List.mem_cons, ih]
      tauto

theorem Sound.singleton (alt : Alt) (config : Config) : Sound [(alt, [config])] where
  nodup := List.pairwise_singleton _ _
  nonempty := by
    intro entry h
    rw [List.mem_singleton.1 h]
    exact List.cons_ne_nil _ _

theorem Sound.add (h : live.Sound) (alt : Alt) (config : Config) : (live.add alt config).Sound := by
  induction live with
  | nil => exact .singleton alt config
  | cons entry rest ih =>
    obtain ⟨nodup, nonempty⟩ := h
    rw [List.map_cons, List.nodup_cons] at nodup
    have hrest : Sound rest := ⟨nodup.2, fun e he => nonempty e (List.mem_cons_of_mem _ he)⟩
    rw [Live.add]
    split
    · constructor
      · exact List.nodup_cons.2 nodup
      · intro e he
        rcases List.mem_cons.1 he with rfl | he
        · split
          · exact nonempty entry List.mem_cons_self
          · simp
        · exact hrest.nonempty e he
    · rename_i hne
      obtain ⟨nodup', nonempty'⟩ := ih hrest
      constructor
      · rw [List.map_cons, List.nodup_cons, mem_keys_add]
        exact ⟨fun h => h.elim nodup.1 hne, nodup'⟩
      · intro e he
        rcases List.mem_cons.1 he with rfl | he
        · exact nonempty e List.mem_cons_self
        · exact nonempty' e he

theorem has_sort : live.sort.Has a c ↔ live.Has a c :=
  exists_congr fun _ => and_congr_left' List.mem_mergeSort

theorem Sound.sort (h : live.Sound) : live.sort.Sound where
  nodup := ((List.mergeSort_perm live _).map Prod.fst).nodup_iff.2 h.nodup
  nonempty := fun entry he => h.nonempty entry (List.mem_mergeSort.1 he)

theorem Sound.exists_has (h : live.Sound) {entry : Alt × List Config} (he : entry ∈ live) :
    ∃ config ∈ entry.2, live.Has entry.1 config := by
  obtain ⟨config, hc⟩ := List.exists_mem_of_ne_nil _ (h.nonempty entry he)
  exact ⟨config, hc, entry.2, he, hc⟩

end Live

/-! ## Refining regions -/

namespace Region

/-- Whether the regions record for a terminal that it leads to a choice and leaves `next`. -/
def Leads (regions : List Region) (c : Int) (alt : Alt) (next : Config) : Prop :=
  ∃ region ∈ regions, region.set.contains c = true ∧ region.live.Has alt next

def Apart (r r' : Region) : Prop :=
  ∀ c, r.set.contains c = true → r'.set.contains c = true → False

theorem Apart.symm {r r' : Region} (h : Apart r r') : Apart r' r :=
  fun c hc hc' => h c hc' hc

instance : Std.Symm Apart := ⟨fun _ _ => Apart.symm⟩

/-- No terminal is in two regions, and the choices of each region are listed soundly. -/
structure Partition (regions : List Region) : Prop where
  disjoint : regions.Pairwise Apart
  sound : ∀ region ∈ regions, region.live.Sound

variable {regions : List Region} {alt a : Alt} {set remaining : CharSet} {next n : Config} {c : Int}

theorem leads_cons {region : Region} : Leads (region :: regions) c a n ↔
    (region.set.contains c = true ∧ region.live.Has a n) ∨ Leads regions c a n := by
  simp [Leads]

theorem leads_append {regions' : List Region} :
    Leads (regions ++ regions') c a n ↔ Leads regions c a n ∨ Leads regions' c a n := by
  simp [Leads, or_and_right, exists_or]

theorem leads_toList (region : Region) (hc : region.set.contains c = true)
    (h : region.live.Has a n) :
    Leads (if region.set.isEmpty then [] else [region]) c a n := by
  split
  · rename_i hempty
    rw [CharSet.isEmpty_iff.1 hempty c] at hc
    cases hc
  · exact ⟨region, List.mem_singleton.2 rfl, hc, h⟩

theorem leads_refine (h : Leads regions c a n) :
    Leads (refine alt set next remaining regions) c a n := by
  induction regions generalizing remaining with
  | nil => simp [Leads] at h
  | cons region rest ih =>
    rw [refine]
    rw [leads_cons] at h
    split
    · rw [leads_cons]
      exact h.imp_right ih
    · rw [leads_cons, leads_append]
      rcases h with ⟨hc, hn⟩ | h
      · cases hset : set.contains c with
        | true => exact Or.inl ⟨by simp [hc, hset], Live.has_add.2 (Or.inl hn)⟩
        | false =>
          exact Or.inr (Or.inl (leads_toList ⟨region.set.subtract set, region.live⟩
            (by simp [hc, hset]) hn))
      · exact Or.inr (Or.inr (ih h))

/-- The terminals of the set that were not met so far are recorded. -/
theorem leads_refine_remaining (h : remaining.contains c = true) :
    Leads (refine alt set next remaining regions) c alt next := by
  induction regions generalizing remaining with
  | nil =>
    rw [refine]
    exact leads_toList ⟨remaining, [(alt, [next])]⟩ h
      (Live.has_cons.2 (Or.inl ⟨rfl, List.mem_singleton.2 rfl⟩))
  | cons region rest ih =>
    rw [refine]
    split
    · exact leads_cons.2 (Or.inr (ih h))
    · rw [leads_cons, leads_append]
      cases hi : (region.set.intersection set).contains c with
      | true => exact Or.inl ⟨rfl, Live.has_add.2 (Or.inr ⟨rfl, rfl⟩)⟩
      | false => exact Or.inr (Or.inr (ih (by simp [h, hi])))

/-- Nothing else is recorded. -/
theorem leads_of_refine (hsub : ∀ c, remaining.contains c = true → set.contains c = true)
    (h : Leads (refine alt set next remaining regions) c a n) :
    Leads regions c a n ∨ (a = alt ∧ n = next ∧ set.contains c = true) := by
  induction regions generalizing remaining with
  | nil =>
    rw [refine] at h
    split at h
    · simp [Leads] at h
    · rw [leads_cons, Live.has_cons] at h
      rcases h with ⟨hc, ⟨rfl, hn⟩ | hn⟩ | h
      · exact Or.inr ⟨rfl, List.mem_singleton.1 hn, hsub c hc⟩
      · exact (Live.has_nil hn).elim
      · simp [Leads] at h
  | cons region rest ih =>
    rw [refine] at h
    rw [leads_cons]
    split at h
    · rw [leads_cons] at h
      rcases h with h | h
      · exact Or.inl (Or.inl h)
      · exact (ih hsub h).imp_left Or.inr
    · rw [leads_cons, leads_append] at h
      rcases h with ⟨hc, hn⟩ | h | h
      · simp only [CharSet.contains_intersection, Bool.and_eq_true] at hc
        rcases Live.has_add.1 hn with hn | ⟨rfl, rfl⟩
        · exact Or.inl (Or.inl ⟨hc.1, hn⟩)
        · exact Or.inr ⟨rfl, rfl, hc.2⟩
      · split at h
        · simp [Leads] at h
        · rw [leads_cons] at h
          rcases h with ⟨hc, hn⟩ | h
          · simp only [CharSet.contains_subtract, Bool.and_eq_true] at hc
            exact Or.inl (Or.inl ⟨hc.1, hn⟩)
          · simp [Leads] at h
      · refine (ih (fun c hc => hsub c ?_) h).imp_left Or.inr
        simp only [CharSet.contains_subtract, Bool.and_eq_true] at hc
        exact hc.1

/-- Every region that comes out is a piece of one that went in, or of what remained. -/
theorem mem_refine {r : Region} (h : r ∈ refine alt set next remaining regions) :
    (∃ r' ∈ regions, (∀ c, r.set.contains c = true → r'.set.contains c = true) ∧
      (r.live = r'.live ∨ r.live = r'.live.add alt next)) ∨
    ((∀ c, r.set.contains c = true → remaining.contains c = true) ∧ r.live = [(alt, [next])]) := by
  induction regions generalizing remaining with
  | nil =>
    rw [refine] at h
    split at h
    · cases h
    · rw [List.mem_singleton.1 h]
      exact Or.inr ⟨fun _ hc => hc, rfl⟩
  | cons region rest ih =>
    rw [refine] at h
    have later : ∀ {remaining' : CharSet}, r ∈ refine alt set next remaining' rest →
        (∀ c, remaining'.contains c = true → remaining.contains c = true) →
        (∃ r' ∈ region :: rest, (∀ c, r.set.contains c = true → r'.set.contains c = true) ∧
          (r.live = r'.live ∨ r.live = r'.live.add alt next)) ∨
        ((∀ c, r.set.contains c = true → remaining.contains c = true) ∧
          r.live = [(alt, [next])]) := by
      intro remaining' hr hsub
      rcases ih hr with ⟨r', hr', hrest⟩ | ⟨hc, hlive⟩
      · exact Or.inl ⟨r', List.mem_cons_of_mem region hr', hrest⟩
      · exact Or.inr ⟨fun c h => hsub c (hc c h), hlive⟩
    split at h
    · rcases List.mem_cons.1 h with rfl | h
      · exact Or.inl ⟨r, List.mem_cons_self, fun _ hc => hc, Or.inl rfl⟩
      · exact later h fun _ hc => hc
    · rcases List.mem_cons.1 h with rfl | h
      · exact Or.inl ⟨region, List.mem_cons_self, by simp +contextual, Or.inr rfl⟩
      · rcases List.mem_append.1 h with h | h
        · split at h
          · cases h
          · rw [List.mem_singleton.1 h]
            exact Or.inl ⟨region, List.mem_cons_self, by simp +contextual, Or.inl rfl⟩
        · exact later h (by simp +contextual)

theorem sound_refine (h : ∀ r ∈ regions, r.live.Sound) {r : Region}
    (hr : r ∈ refine alt set next remaining regions) : r.live.Sound := by
  rcases mem_refine hr with ⟨r', hr', -, hlive | hlive⟩ | ⟨-, hlive⟩
  · rw [hlive]
    exact h r' hr'
  · rw [hlive]
    exact (h r' hr').add alt next
  · rw [hlive]
    exact .singleton alt next

theorem has_of_mem_refine {r : Region} (hr : r ∈ refine alt set next remaining regions)
    (hn : r.live.Has a n) : (∃ r' ∈ regions, r'.live.Has a n) ∨ (alt = a ∧ n = next) := by
  rcases mem_refine hr with ⟨r', hr', -, hlive | hlive⟩ | ⟨-, hlive⟩
  · rw [hlive] at hn
    exact Or.inl ⟨r', hr', hn⟩
  · rw [hlive, Live.has_add] at hn
    exact hn.imp_left fun hn => ⟨r', hr', hn⟩
  · rw [hlive, Live.has_cons] at hn
    rcases hn with ⟨ha, hn⟩ | hn
    · exact Or.inr ⟨ha, List.mem_singleton.1 hn⟩
    · exact (Live.has_nil hn).elim

/-- What comes out stays apart from what the regions and the remainder are apart from. -/
theorem apart_refine {inside : CharSet} {r : Region}
    (hregions : ∀ r ∈ regions, ∀ c, inside.contains c = true → r.set.contains c = true → False)
    (hremaining : ∀ c, remaining.contains c = true → inside.contains c = true → False)
    (hr : r ∈ refine alt set next remaining regions) :
    ∀ c, inside.contains c = true → r.set.contains c = true → False := by
  intro c hin hc
  rcases mem_refine hr with ⟨r', hr', hsub, -⟩ | ⟨hsub, -⟩
  · exact hregions r' hr' c hin (hsub c hc)
  · exact hremaining c (hsub c hc) hin

theorem disjoint_refine (h : regions.Pairwise Apart)
    (hsub : ∀ c, remaining.contains c = true → set.contains c = true) :
    (refine alt set next remaining regions).Pairwise Apart := by
  induction regions generalizing remaining with
  | nil =>
    rw [refine]
    split
    · exact List.Pairwise.nil
    · exact List.pairwise_singleton _ _
  | cons region rest ih =>
    rw [List.pairwise_cons] at h
    obtain ⟨hhead, hrest⟩ := h
    rw [refine]
    split
    · rename_i hempty
      refine List.pairwise_cons.2 ⟨fun r => apart_refine hhead fun c hc hin => ?_, ih hrest hsub⟩
      have := CharSet.isEmpty_iff.1 hempty c
      simp [hin, hsub c hc] at this
    · have hsub' : ∀ c, (remaining.subtract (region.set.intersection set)).contains c = true →
          set.contains c = true := by
        intro c hc
        simp at hc
        exact hsub c hc.1
      have hafter : ∀ c, (remaining.subtract (region.set.intersection set)).contains c = true →
          region.set.contains c = true → False := by
        intro c hc hin
        simp [hin] at hc
        rw [hsub c hc.1] at hc
        cases hc.2
      have hout : ∀ r ∈ (if (region.set.subtract set).isEmpty then []
          else [(⟨region.set.subtract set, region.live⟩ : Region)]),
          r = ⟨region.set.subtract set, region.live⟩ := by
        intro r hr
        split at hr
        · cases hr
        · exact List.mem_singleton.1 hr
      refine List.pairwise_cons.2 ⟨?_, List.pairwise_append.2 ⟨?_, ih hrest hsub', ?_⟩⟩
      · intro r hr c hin hc
        simp at hin
        rcases List.mem_append.1 hr with hr | hr
        · rw [hout r hr] at hc
          simp [hin.2] at hc
        · exact apart_refine hhead hafter hr c hin.1 hc
      · split
        · exact List.Pairwise.nil
        · exact List.pairwise_singleton _ _
      · intro r hr r' hr' c hc hc'
        rw [hout r hr] at hc
        simp at hc
        exact apart_refine hhead hafter hr' c hc.1 hc'

theorem Partition.refine (h : Partition regions) (alt : Alt) (set : CharSet) (next : Config) :
    Partition (refine alt set next set regions) where
  disjoint := disjoint_refine h.disjoint fun _ hc => hc
  sound := fun _ hr => sound_refine h.sound hr

/-! ## Regions that have something -/

/-- The region has a terminal, and something is recorded for it. -/
structure Inhabited (r : Region) : Prop where
  terminal : ∃ c, r.set.contains c = true
  choice : r.live ≠ []

theorem inhabited_refine (h : ∀ r ∈ regions, r.Inhabited) :
    ∀ r ∈ refine alt set next remaining regions, r.Inhabited := by
  induction regions generalizing remaining with
  | nil =>
    intro r hr
    rw [refine] at hr
    split at hr
    · cases hr
    · rename_i hne
      rw [List.mem_singleton.1 hr]
      exact ⟨CharSet.exists_contains_of_not_isEmpty (Bool.eq_false_iff.2 hne), List.cons_ne_nil _ _⟩
  | cons region rest ih =>
    intro r hr
    obtain ⟨hfirst, hrest⟩ := List.forall_mem_cons.1 h
    rw [refine] at hr
    split at hr
    · rcases List.mem_cons.1 hr with rfl | hr
      · exact hfirst
      · exact ih hrest r hr
    · rename_i hinside
      rcases List.mem_cons.1 hr with rfl | hr
      · exact ⟨CharSet.exists_contains_of_not_isEmpty (Bool.eq_false_iff.2 hinside),
          Live.add_ne_nil _ _ _⟩
      · rcases List.mem_append.1 hr with hr | hr
        · split at hr
          · cases hr
          · rename_i houtside
            rw [List.mem_singleton.1 hr]
            exact ⟨CharSet.exists_contains_of_not_isEmpty (Bool.eq_false_iff.2 houtside),
              hfirst.choice⟩
        · exact ih hrest r hr

/-! ## The order of regions -/

theorem mem_sortAll {r : Region} :
    r ∈ sortAll regions ↔ ∃ r' ∈ regions, r = { r' with live := r'.live.sort } := by
  rw [sortAll, List.mem_mergeSort, List.mem_map]
  exact exists_congr fun r' => and_congr_right' eq_comm

theorem Partition.sortAll (h : Partition regions) : Partition (sortAll regions) := by
  constructor
  · refine ((List.mergeSort_perm _ _).pairwise_iff Apart.symm).2 ?_
    exact List.pairwise_map.2 h.disjoint
  · intro r hr
    obtain ⟨r', hr', rfl⟩ := mem_sortAll.1 hr
    exact (h.sound r' hr').sort

theorem leads_sortAll : Leads (sortAll regions) c a n ↔ Leads regions c a n := by
  constructor
  · rintro ⟨r, hr, hc, hn⟩
    obtain ⟨r', hr', rfl⟩ := mem_sortAll.1 hr
    exact ⟨r', hr', hc, Live.has_sort.1 hn⟩
  · rintro ⟨r, hr, hc, hn⟩
    exact ⟨_, mem_sortAll.2 ⟨r, hr, rfl⟩, hc, Live.has_sort.2 hn⟩

/-- A terminal is in one region only. -/
theorem Partition.unique (h : Partition regions) {r r' : Region} (hr : r ∈ regions)
    (hr' : r' ∈ regions) (hc : r.set.contains c = true) (hc' : r'.set.contains c = true) :
    r = r' := by
  by_contra hne
  exact h.disjoint.forall hr hr' hne c hc hc'

/-! ## Refining by several steps -/

/-- Refines regions by steps, each of which leads to a choice. -/
def refineAll (regions : List Region) (found : List (Alt × CharSet × Config)) : List Region :=
  found.foldl (fun regions (alt, set, next) => refine alt set next set regions) regions

variable {found : List (Alt × CharSet × Config)}

theorem Partition.refineAll (h : Partition regions) : Partition (refineAll regions found) := by
  induction found generalizing regions with
  | nil => exact h
  | cons step rest ih => exact ih (h.refine step.1 step.2.1 step.2.2)

theorem leads_refineAll (h : Leads regions c a n) : Leads (refineAll regions found) c a n := by
  induction found generalizing regions with
  | nil => exact h
  | cons step rest ih => exact ih (leads_refine h)

theorem leads_refineAll_of_mem (h : (alt, set, next) ∈ found) (hc : set.contains c = true) :
    Leads (refineAll regions found) c alt next := by
  induction found generalizing regions with
  | nil => cases h
  | cons step rest ih =>
    rcases List.mem_cons.1 h with rfl | h
    · show Leads (refineAll (refine alt set next set regions) rest) c alt next
      exact leads_refineAll (leads_refine_remaining hc)
    · exact ih h

theorem has_of_mem_refineAll {r : Region} (hr : r ∈ refineAll regions found)
    (hn : r.live.Has a n) : (∃ r' ∈ regions, r'.live.Has a n) ∨ ∃ set, (a, set, n) ∈ found := by
  induction found generalizing regions with
  | nil => exact Or.inl ⟨r, hr, hn⟩
  | cons step rest ih =>
    rcases ih hr with ⟨r', hr', hn'⟩ | ⟨set, hset⟩
    · rcases has_of_mem_refine hr' hn' with h | ⟨rfl, rfl⟩
      · exact Or.inl h
      · exact Or.inr ⟨step.2.1, List.mem_cons_self⟩
    · exact Or.inr ⟨set, List.mem_cons_of_mem _ hset⟩

theorem inhabited_refineAll (h : ∀ r ∈ regions, r.Inhabited) :
    ∀ r ∈ refineAll regions found, r.Inhabited := by
  induction found generalizing regions with
  | nil => exact h
  | cons step rest ih => exact ih (inhabited_refine h)

theorem leads_of_refineAll (h : Leads (refineAll regions found) c a n) :
    Leads regions c a n ∨ ∃ set, (a, set, n) ∈ found ∧ set.contains c = true := by
  induction found generalizing regions with
  | nil => exact Or.inl h
  | cons step rest ih =>
    rcases ih h with h | ⟨set, hm, hc⟩
    · rcases leads_of_refine (fun _ hc => hc) h with h | ⟨rfl, rfl, hc⟩
      · exact Or.inl h
      · exact Or.inr ⟨step.2.1, List.mem_cons_self, hc⟩
    · exact Or.inr ⟨set, List.mem_cons_of_mem _ hm, hc⟩

end Region

/-! ## The regions of a level -/

section

variable {la : Lookahead} {live : Live} {offset : Nat} {regions : List Region} {alt : Alt}
  {config next : Config}

theorem exists_steps_of_regionsOf (h : regionsOf la live offset = .ok regions) :
    ∃ found, regions = Region.sortAll (Region.refineAll [] found) ∧
      (∀ alt config, live.Has alt config → ∃ steps, la.steps config offset = .ok steps ∧
        ∀ step ∈ steps, (alt, step) ∈ found) ∧
      ∀ alt step, (alt, step) ∈ found → ∃ config steps, live.Has alt config ∧
        la.steps config offset = .ok steps ∧ step ∈ steps := by
  obtain ⟨found, hfound, h⟩ := bind_eq_ok.1 h
  have hall := mapM_eq_ok.1 hfound
  refine ⟨found.flatten, (pure_eq_ok.1 h).symm, ?_, ?_⟩
  · rintro alt config ⟨configs, hm, hc⟩
    obtain ⟨result, hresult, he⟩ := Forall₂.exists_of_mem_left hall hm
    obtain ⟨steps, hsteps, he⟩ := bind_eq_ok.1 he
    obtain ⟨here, hhere, hs⟩ := Forall₂.exists_of_mem_left (mapM_eq_ok.1 hsteps) hc
    refine ⟨here, hs, fun step hstep => List.mem_flatten.2 ⟨result, hresult, ?_⟩⟩
    rw [← pure_eq_ok.1 he]
    exact List.mem_map.2 ⟨step, List.mem_flatten.2 ⟨here, hhere, hstep⟩, rfl⟩
  · intro alt step hm
    obtain ⟨result, hresult, hm⟩ := List.mem_flatten.1 hm
    obtain ⟨⟨alt', configs⟩, hentry, he⟩ := Forall₂.exists_of_mem_right hall hresult
    obtain ⟨steps, hsteps, he⟩ := bind_eq_ok.1 he
    rw [← pure_eq_ok.1 he] at hm
    obtain ⟨step', hstep, heq⟩ := List.mem_map.1 hm
    cases heq
    obtain ⟨here, hhere, hstep⟩ := List.mem_flatten.1 hstep
    obtain ⟨config, hc, hs⟩ := Forall₂.exists_of_mem_right (mapM_eq_ok.1 hsteps) hhere
    exact ⟨config, here, ⟨configs, hentry, hc⟩, hs, hstep⟩

theorem partition_regionsOf (h : regionsOf la live offset = .ok regions) :
    Region.Partition regions := by
  obtain ⟨found, rfl, -, -⟩ := exists_steps_of_regionsOf h
  have empty : Region.Partition [] := ⟨List.Pairwise.nil, fun _ h => by cases h⟩
  exact empty.refineAll.sortAll

theorem inhabited_regionsOf (h : regionsOf la live offset = .ok regions) :
    ∀ r ∈ regions, r.Inhabited := by
  obtain ⟨found, rfl, -, -⟩ := exists_steps_of_regionsOf h
  intro r hr
  obtain ⟨r', hr', rfl⟩ := Region.mem_sortAll.1 hr
  have hnil : ∀ r ∈ ([] : List Region), r.Inhabited := fun _ h => by cases h
  obtain ⟨hset, hlive⟩ := Region.inhabited_refineAll hnil r' hr'
  have hperm : r'.live.sort.Perm r'.live := List.mergeSort_perm r'.live _
  exact ⟨hset, fun hsort => hlive (List.Perm.eq_nil (hsort ▸ hperm.symm))⟩

/-- Whatever can be matched next from a configuration is recorded for its terminals. -/
theorem leads_regionsOf (h : regionsOf la live offset = .ok regions) (hlive : live.Has alt config) :
    ∃ steps, la.steps config offset = .ok steps ∧ ∀ set next c, (set, next) ∈ steps →
      set.contains c = true → Region.Leads regions c alt next := by
  obtain ⟨found, rfl, hall, -⟩ := exists_steps_of_regionsOf h
  obtain ⟨steps, hs, hmem⟩ := hall alt config hlive
  exact ⟨steps, hs, fun set next c hstep hc =>
    Region.leads_sortAll.2 (Region.leads_refineAll_of_mem (hmem _ hstep) hc)⟩

/-- What a region records is left by a step from a configuration for the same choice. -/
theorem has_of_regionsOf (h : regionsOf la live offset = .ok regions) {r : Region}
    (hr : r ∈ regions) (hn : r.live.Has alt next) : ∃ config steps set, live.Has alt config ∧
      la.steps config offset = .ok steps ∧ (set, next) ∈ steps := by
  obtain ⟨found, rfl, -, horigin⟩ := exists_steps_of_regionsOf h
  obtain ⟨r', hr', rfl⟩ := Region.mem_sortAll.1 hr
  rcases Region.has_of_mem_refineAll hr' (Live.has_sort.1 hn) with ⟨_, h, -⟩ | ⟨set, hset⟩
  · cases h
  · obtain ⟨config, steps, hlive, hs, hm⟩ := horigin alt _ hset
    exact ⟨config, steps, set, hlive, hs, hm⟩

/-- **What the regions record**: exactly the steps over the terminal. -/
theorem leads_regionsOf_iff (h : regionsOf la live offset = .ok regions) {c : Int} :
    Region.Leads regions c alt next ↔ ∃ config steps set, live.Has alt config ∧
      la.steps config offset = .ok steps ∧ (set, next) ∈ steps ∧ set.contains c = true := by
  constructor
  · intro hleads
    obtain ⟨found, rfl, -, horigin⟩ := exists_steps_of_regionsOf h
    rcases Region.leads_of_refineAll (Region.leads_sortAll.1 hleads) with h | ⟨set, hset, hc⟩
    · simp [Region.Leads] at h
    · obtain ⟨config, steps, hlive, hs, hm⟩ := horigin alt _ hset
      exact ⟨config, steps, set, hlive, hs, hm, hc⟩
  · rintro ⟨config, steps, set, hlive, hs, hm, hc⟩
    obtain ⟨steps', hs', hleads⟩ := leads_regionsOf h hlive
    rw [hs] at hs'
    cases hs'
    exact hleads set next c hm hc

end

end PredictiveParser
