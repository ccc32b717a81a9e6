import Mathlib.Data.List.TakeWhile
import PredictiveParser.Analysis.Tree
import PredictiveParser.Proofs.Prediction.Select

/-!
# Ordered choice over checks

What lookahead leaves undecided is decided by checks. A choice is enabled when some configuration that
leads to it has passed only checks that hold, and open when some configuration has passed no check at
all, so that it is enabled whatever holds.

`OrderedChoice` says what `resolve` makes of this. The first enabled choice is taken, unless the exit of
a loop declared not greedy, or else a declared default arm, is open: these take the place of the first
open choice, and only the guarded choices before that one are tested. The warnings are exact: one for
each guarded choice behind the first open one, and one more where several choices are open and nothing
was declared.

`select_resolve` is what `resolve` evaluates to in all cases, and `firstOpen_cases` tells these apart by
where the first open choice stands.
-/
namespace PredictiveParser

variable {alts : Alternatives} {live before after : Live} {entry : Alt × List Config} {offset : Nat}
  {path : List CharSet} {la : Nat → Int} {holds : CheckRef → Bool}

/-! ## Enabled and open choices -/

namespace Live

/-- Whether all checks hold that some configuration of the choice has passed. -/
def isEnabled (holds : CheckRef → Bool) (entry : Alt × List Config) : Bool :=
  entry.2.any fun config => config.checks.all holds

/-- Whether some configuration of the choice has passed no check. -/
def isOpen (entry : Alt × List Config) : Bool :=
  entry.2.any fun config => config.checks.isEmpty

def firstEnabled (holds : CheckRef → Bool) (live : Live) : Option Alt :=
  (live.find? (isEnabled holds)).map Prod.fst

/-- The choice is left and open. -/
def Opens (live : Live) (alt : Alt) : Prop :=
  ∃ entry ∈ live, entry.1 = alt ∧ isOpen entry = true

theorem isEnabled_of_isOpen (h : isOpen entry = true) : isEnabled holds entry = true := by
  obtain ⟨config, hc, hchecks⟩ := List.any_eq_true.1 h
  exact List.any_eq_true.2 ⟨config, hc, by rw [List.isEmpty_iff.1 hchecks, List.all_nil]⟩

/-- A choice that is not open needs some check to hold. -/
theorem isEnabled_eq_false_of_not_isOpen (h : isOpen entry = false) :
    isEnabled (fun _ => false) entry = false := by
  refine List.any_eq_false.2 fun config hc hall => ?_
  cases hchecks : config.checks with
  | nil => exact List.any_eq_false.1 h config hc (by rw [hchecks]; rfl)
  | cons ref rest => simp [hchecks] at hall

end Live

open Live

theorem isGuarded_eq (entry : Alt × List Config) : isGuarded entry.2 = !isOpen entry := by
  simp [isGuarded, isOpen, List.all_eq_not_any_not]

theorem openChoices_eq (live : Live) : openChoices live = (live.filter isOpen).map Prod.fst := by
  simp only [openChoices, isGuarded_eq, Bool.not_not]

theorem mem_openChoices {alt : Alt} : alt ∈ openChoices live ↔ live.Opens alt := by
  simp only [openChoices_eq, List.mem_map, List.mem_filter, Opens]
  exact exists_congr fun entry => by tauto

/-! ## Where the first open choice stands -/

/-- The choice is open, and those before it are guarded. -/
structure FirstOpen (live before : Live) (entry : Alt × List Config) (after : Live) : Prop where
  split : live = before ++ entry :: after
  guarded : ∀ other ∈ before, isOpen other = false
  isOpen : isOpen entry = true

theorem firstOpen_cases (live : Live) : (∀ entry ∈ live, isOpen entry = false) ∨
    ∃ before entry after, FirstOpen live before entry after := by
  induction live with
  | nil => exact Or.inl fun entry h => absurd h List.not_mem_nil
  | cons first rest ih =>
    cases hfirst : isOpen first with
    | true => exact Or.inr ⟨[], first, rest, rfl, fun other h => absurd h List.not_mem_nil, hfirst⟩
    | false =>
      rcases ih with hnone | ⟨before, entry, after, h⟩
      · exact Or.inl (List.forall_mem_cons.2 ⟨hfirst, hnone⟩)
      · exact Or.inr ⟨first :: before, entry, after, congrArg (first :: ·) h.split,
          List.forall_mem_cons.2 ⟨hfirst, h.guarded⟩, h.isOpen⟩

section

variable (h : ∀ entry ∈ live, isOpen entry = false)
include h

theorem takeWhile_of_guarded : (live.takeWhile fun entry => isGuarded entry.2) = live := by
  simp only [isGuarded_eq, List.takeWhile_eq_self_iff]
  exact fun entry hm => by rw [h entry hm]; rfl

theorem openChoices_of_guarded : openChoices live = [] := by
  rw [openChoices_eq, List.filter_eq_nil_iff.2 fun entry hm => by simp [h entry hm], List.map_nil]

theorem shadowedChoices_of_guarded : shadowedChoices live = [] := by
  simp only [shadowedChoices, isGuarded_eq]
  rw [List.dropWhile_eq_nil_iff.2 fun entry hm => by rw [h entry hm]; rfl, List.filter_nil,
    List.map_nil]

end

section

variable (h : FirstOpen live before entry after)
include h

theorem FirstOpen.opens : live.Opens entry.1 :=
  ⟨entry, h.split ▸ List.mem_append_right _ List.mem_cons_self, rfl, h.isOpen⟩

theorem FirstOpen.takeWhile_eq : (live.takeWhile fun entry => isGuarded entry.2) = before := by
  simp only [isGuarded_eq]
  rw [h.split, List.takeWhile_append_of_pos fun other hm => by rw [h.guarded other hm]; rfl,
    List.takeWhile_cons_of_neg (by simp [h.isOpen]), List.append_nil]

theorem FirstOpen.shadowedChoices_eq :
    shadowedChoices live = (after.filter fun entry => !Live.isOpen entry).map Prod.fst := by
  have hentry : ¬(!Live.isOpen entry) = true := by simp [h.isOpen]
  simp only [shadowedChoices, isGuarded_eq]
  rw [h.split, List.dropWhile_append_of_pos fun other hm => by rw [h.guarded other hm]; rfl,
    List.dropWhile_cons, if_neg hentry,
    List.filter_cons, if_neg hentry]

theorem FirstOpen.openChoices_eq : openChoices live = entry.1 :: openChoices after := by
  have hbefore : before.filter Live.isOpen = [] :=
    List.filter_eq_nil_iff.2 fun other hm => by simp [h.guarded other hm]
  rw [PredictiveParser.openChoices_eq, PredictiveParser.openChoices_eq, h.split, List.filter_append,
    hbefore, List.nil_append, List.filter_cons_of_pos h.isOpen, List.map_cons]

/-- The first open choice is enabled, so the first enabled one is not behind it. -/
theorem FirstOpen.firstEnabled_eq :
    live.firstEnabled holds = some ((before.firstEnabled holds).getD entry.1) := by
  rw [firstEnabled, h.split, List.find?_append, List.find?_cons_of_pos (isEnabled_of_isOpen h.isOpen),
    firstEnabled]
  cases before.find? (isEnabled holds) <;> rfl

theorem FirstOpen.firstEnabled_before : before.firstEnabled (fun _ => false) = none := by
  rw [firstEnabled, Option.map_eq_none_iff, List.find?_eq_none]
  intro other hm
  simp [isEnabled_eq_false_of_not_isOpen (h.guarded other hm)]

end

/-! ## What is selected -/

/-- The test of a choice is whether it is enabled. -/
theorem accepts_checks (hconfigs : entry.2 ≠ []) (set : CharSet) :
    accepts la holds offset true set (entry.2.map (·.checks)).eraseDups = isEnabled holds entry := by
  have hne : (entry.2.map (·.checks)).eraseDups.isEmpty = false := by
    obtain ⟨config, rest, heq⟩ := List.exists_cons_of_ne_nil hconfigs
    have hm : config.checks ∈ (entry.2.map (·.checks)).eraseDups := by simp [heq]
    exact List.isEmpty_eq_false_iff.2 (List.ne_nil_of_mem hm)
  rw [accepts, if_pos rfl, hne, Bool.false_or, Bool.eq_iff_iff, isEnabled]
  simp only [List.any_eq_true, List.mem_eraseDups, List.mem_map, exists_exists_and_eq_and]

/-- Choices that are tested in their order, before a last one that is not tested. -/
theorem selectFrom_tested (hconfigs : ∀ entry ∈ before, entry.2 ≠ []) (region : CharSet) (last : Alt) :
    Decision.selectFrom la holds offset true
        ((before.map fun entry => (entry.1, (entry.2.map (·.checks)).eraseDups)).map
            (fun tested => Branch.mk region tested.2 .empty (.pick tested.1)) ++
          [⟨region, [], .empty, .pick last⟩]) =
      some ((before.firstEnabled holds).getD last) := by
  induction before with
  | nil =>
    rw [List.map_nil, List.map_nil, List.nil_append, Decision.selectFrom_cons,
      if_pos (Decision.acceptsAt_of_no_checks rfl offset), Decision.select_pick]
    rfl
  | cons entry rest ih =>
    obtain ⟨hentry, hrest⟩ := List.forall_mem_cons.1 hconfigs
    rw [List.map_cons, List.map_cons, List.cons_append, Decision.selectFrom_cons, Branch.acceptsAt,
      accepts_checks hentry, ih hrest, Decision.select_pick, firstEnabled, firstEnabled,
      List.find?_cons]
    cases isEnabled holds entry <;> rfl

theorem select_resolve (hconfigs : ∀ entry ∈ live, entry.2 ≠ []) :
    (resolve alts live offset path).select la holds =
      some ((Live.firstEnabled holds (live.takeWhile fun entry => isGuarded entry.2)).getD
        (fallbackChoice alts (openChoices live))) := by
  unfold resolve
  simp only
  split
  · rename_i htested
    rw [testedChoices, List.isEmpty_iff, List.map_eq_nil_iff] at htested
    rw [htested, Decision.select_pick]
    rfl
  · rw [Decision.select]
    exact selectFrom_tested (fun entry hm => hconfigs entry (List.takeWhile_subset _ hm)) _ _

section

variable (hconfigs : ∀ entry ∈ live, entry.2 ≠ [])
include hconfigs

theorem select_resolve_of_guarded (hguarded : ∀ entry ∈ live, isOpen entry = false) :
    (resolve alts live offset path).select la holds =
      some ((live.firstEnabled holds).getD .error) := by
  rw [select_resolve hconfigs, takeWhile_of_guarded hguarded, openChoices_of_guarded hguarded]
  rfl

theorem FirstOpen.select_resolve (h : FirstOpen live before entry after) :
    (resolve alts live offset path).select la holds =
      some ((before.firstEnabled holds).getD (fallbackChoice alts (openChoices live))) := by
  rw [PredictiveParser.select_resolve hconfigs, h.takeWhile_eq]

end

/-! ## What takes the place of the first open choice -/

theorem FirstOpen.fallbackChoice_eq (h : FirstOpen live before entry after)
    (hexit : ¬(alts.greedy = some false ∧ live.Opens .exit))
    (hdefault : ∀ arm, alts.defaultArm = some arm → ¬live.Opens (.arm arm)) :
    fallbackChoice alts (openChoices live) = entry.1 := by
  rw [← mem_openChoices] at hexit
  simp only [← mem_openChoices] at hdefault
  rw [h.openChoices_eq] at hexit hdefault ⊢
  rw [fallbackChoice, if_neg hexit]
  cases harm : alts.defaultArm with
  | none => rfl
  | some arm => exact if_neg (hdefault arm harm)

theorem fallbackChoice_exit (hgreedy : alts.greedy = some false) (hexit : live.Opens .exit) :
    fallbackChoice alts (openChoices live) = .exit := by
  rw [← mem_openChoices] at hexit
  obtain ⟨first, rest, heq⟩ := List.exists_cons_of_ne_nil (List.ne_nil_of_mem hexit)
  rw [heq] at hexit ⊢
  exact if_pos ⟨hgreedy, hexit⟩

theorem fallbackChoice_default {arm : Nat} (hexit : ¬(alts.greedy = some false ∧ live.Opens .exit))
    (harm : alts.defaultArm = some arm) (hopen : live.Opens (.arm arm)) :
    fallbackChoice alts (openChoices live) = .arm arm := by
  rw [← mem_openChoices] at hexit hopen
  obtain ⟨first, rest, heq⟩ := List.exists_cons_of_ne_nil (List.ne_nil_of_mem hopen)
  rw [heq] at hexit hopen ⊢
  rw [fallbackChoice, if_neg hexit, harm]
  exact if_pos hopen

/-! ## The whole of it -/

/-- Warns about a guarded choice behind the first open one. -/
def shadowWarning (path : List CharSet) (unguarded shadowed : Alt) : String :=
  "Branch " ++ shadowed.text ++ " is never tested for input such as «" ++ pathText path ++
    "» because branch " ++ unguarded.text ++ " has no and-predicate."

/-- Warns about open choices that nothing tells apart. -/
def ambiguityWarning (path : List CharSet) (unguarded : List Alt) (used : Alt) : String :=
  "Alternatives (" ++ ", ".intercalate (unguarded.map Alt.text) ++
    ") are ambiguous for input such as «" ++ pathText path ++ "». Using " ++ used.text ++ "."

/-- How choices are told apart that are left behind the last terminal that may be looked at. -/
structure OrderedChoice (alts : Alternatives) (live : Live) (offset : Nat) (path : List CharSet) :
    Prop where
  /-- Where nothing declared is open, the first enabled choice is taken. -/
  ordered (la : Nat → Int) (holds : CheckRef → Bool)
    (noExit : ¬(alts.greedy = some false ∧ live.Opens .exit))
    (noDefault : ∀ arm, alts.defaultArm = some arm → ¬live.Opens (.arm arm)) :
    (resolve alts live offset path).select la holds = some ((live.firstEnabled holds).getD .error)
  exits (la : Nat → Int) (holds : CheckRef → Bool) {before after : Live} {entry : Alt × List Config}
    (first : FirstOpen live before entry after) (notGreedy : alts.greedy = some false)
    (isOpen : live.Opens .exit) :
    (resolve alts live offset path).select la holds = some ((before.firstEnabled holds).getD .exit)
  defaults (la : Nat → Int) (holds : CheckRef → Bool) {before after : Live}
    {entry : Alt × List Config} {arm : Nat} (first : FirstOpen live before entry after)
    (noExit : ¬(alts.greedy = some false ∧ live.Opens .exit)) (declared : alts.defaultArm = some arm)
    (isOpen : live.Opens (.arm arm)) :
    (resolve alts live offset path).select la holds =
      some ((before.firstEnabled holds).getD (.arm arm))
  silent (guarded : ∀ entry ∈ live, isOpen entry = false) : resolveWarnings alts live path = []
  /-- The choice that the last warning names is the one taken when no check holds. -/
  warns {before after : Live} {entry : Alt × List Config} (first : FirstOpen live before entry after) :
    ∃ used, (∀ la, (resolve alts live offset path).select la (fun _ => false) = some used) ∧
      resolveWarnings alts live path =
        (after.filter fun other => !isOpen other).map (fun other => shadowWarning path entry.1 other.1) ++
          if 1 < live.countP isOpen ∧ alts.greedy = none then
            [ambiguityWarning path ((live.filter isOpen).map Prod.fst) used]
          else []

theorem FirstOpen.resolveWarnings_eq (h : FirstOpen live before entry after) :
    resolveWarnings alts live path =
      (after.filter fun other => !Live.isOpen other).map
          (fun other => shadowWarning path entry.1 other.1) ++
        if 1 < live.countP Live.isOpen ∧ alts.greedy = none then
          [ambiguityWarning path ((live.filter Live.isOpen).map Prod.fst)
            (fallbackChoice alts (openChoices live))]
        else [] := by
  have hhead : (openChoices live).head? = some entry.1 := by rw [h.openChoices_eq, List.head?_cons]
  have hlength : (openChoices live).length = live.countP Live.isOpen := by
    rw [PredictiveParser.openChoices_eq, List.length_map, List.countP_eq_length_filter]
  rw [resolveWarnings, h.shadowedChoices_eq, hhead, hlength, ← PredictiveParser.openChoices_eq]
  refine congrArg₂ (· ++ ·) ?_ ?_
  · rw [List.map_map]
    exact List.map_congr_left fun other _ => rfl
  · simp only [Bool.and_eq_true, decide_eq_true_eq, Option.isNone_iff_eq_none]
    rfl

theorem orderedChoice_resolve (hconfigs : ∀ entry ∈ live, entry.2 ≠ []) :
    OrderedChoice alts live offset path where
  ordered la holds hexit hdefault := by
    rcases firstOpen_cases live with hguarded | ⟨before, entry, after, h⟩
    · exact select_resolve_of_guarded hconfigs hguarded
    · rw [h.select_resolve hconfigs, h.fallbackChoice_eq hexit hdefault, h.firstEnabled_eq]
      rfl
  exits la holds before after entry h hgreedy hexit := by
    rw [h.select_resolve hconfigs, fallbackChoice_exit hgreedy hexit]
  defaults la holds before after entry arm h hexit harm hopen := by
    rw [h.select_resolve hconfigs, fallbackChoice_default hexit harm hopen]
  silent hguarded := by
    rw [resolveWarnings, openChoices_of_guarded hguarded, shadowedChoices_of_guarded hguarded]
    rfl
  warns h := by
    refine ⟨fallbackChoice alts (openChoices live), fun la => ?_, h.resolveWarnings_eq⟩
    rw [h.select_resolve hconfigs, h.firstEnabled_before]
    rfl

/-- Two arms that need a check, with one between them that needs none, and an exit that needs none. -/
def contested : Live :=
  let free := Config.ofStack []
  let guarded := { free with checks := [⟨7, 0⟩] }
  [(.arm 0, [guarded]), (.arm 1, [free]), (.arm 2, [guarded]), (.exit, [free])]

theorem orderedChoice_contested :
    (∀ entry ∈ contested, entry.2 ≠ []) ∧
      OrderedChoice { Alternatives.ofArms [] .star with greedy := some false } contested 1 [] :=
  ⟨by decide, orderedChoice_resolve (by decide)⟩

end PredictiveParser
