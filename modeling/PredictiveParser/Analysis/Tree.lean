import PredictiveParser.Analysis.Lookahead

/-!
# Building prediction trees

The tree of an alternative set is built level by level. The terminals that can come next are split
into regions that lead to the same choices. A region with one choice becomes a leaf. A region with
several is examined one terminal further, up to the allowed lookahead; what is then still undecided
is resolved by the checks passed on the way, in the order of the arms. Terminals that no choice
claims go to the default.
-/
namespace PredictiveParser

/-- The choices still possible, each with the configurations that lead to it. -/
abbrev Live := List (Alt × List Config)

namespace Live

/-- Records that `config` leads to `alt`. -/
def add (alt : Alt) (config : Config) : Live → Live
  | [] => [(alt, [config])]
  | entry :: rest =>
    if entry.1 = alt then
      (entry.1, if entry.2.contains config then entry.2 else entry.2 ++ [config]) :: rest
    else entry :: Live.add alt config rest

def sort (live : Live) : Live :=
  live.mergeSort fun a b => a.1.le b.1

end Live

/-- Terminals that lead to the same choices, with the configurations after matching them. -/
structure Region where
  set : CharSet
  live : Live

namespace Region

/-- Splits regions so that `set` is a union of whole regions, and records in each of these that
`next` leads to `alt`. The terminals of `set` not met so far are `remaining`. -/
def refine (alt : Alt) (set : CharSet) (next : Config) (remaining : CharSet) :
    List Region → List Region
  | [] => if remaining.isEmpty then [] else [⟨remaining, [(alt, [next])]⟩]
  | region :: rest =>
    let inside := region.set.intersection set
    if inside.isEmpty then region :: refine alt set next remaining rest
    else
      let outside := region.set.subtract set
      ⟨inside, region.live.add alt next⟩ ::
        ((if outside.isEmpty then [] else [⟨outside, region.live⟩]) ++
          refine alt set next (remaining.subtract inside) rest)

def firstAlt (region : Region) : Alt :=
  (region.live.head?.map Prod.fst).getD .error

/-- The regions in the order of their first choice, each with its choices in order. -/
def sortAll (regions : List Region) : List Region :=
  let sorted := regions.map fun region => { region with live := region.live.sort }
  sorted.mergeSort fun a b => a.firstAlt.le b.firstAlt

end Region

def pathText (path : List CharSet) : String :=
  ", ".intercalate (path.mapIdx fun i set => "la" ++ toString i ++ " " ++ set.text)

/-! ## Resolving what lookahead leaves undecided -/

/-- Whether every configuration has passed a check. -/
def isGuarded (configs : List Config) : Bool :=
  configs.all fun config => !config.checks.isEmpty

/-- The choices up to the first one that has a configuration without checks are tested in order,
each by the checks of its configurations. -/
def testedChoices (live : Live) : List (Alt × List CheckSet) :=
  (live.takeWhile fun entry => isGuarded entry.2).map fun entry =>
    (entry.1, (entry.2.map (·.checks)).eraseDups)

/-- The choices that have a configuration without checks. -/
def openChoices (live : Live) : List Alt :=
  (live.filter fun entry => !isGuarded entry.2).map Prod.fst

/-- The choices whose checks would be tested behind a choice that needs none. -/
def shadowedChoices (live : Live) : List Alt :=
  ((live.dropWhile fun entry => isGuarded entry.2).filter fun entry => isGuarded entry.2).map
    Prod.fst

/-- The choice when no check holds: among those that need none the exit of a loop declared not
greedy, else the default arm, else the first. -/
def fallbackChoice (alts : Alternatives) (unguarded : List Alt) : Alt :=
  match unguarded with
  | [] => .error
  | first :: _ =>
    if alts.greedy = some false ∧ .exit ∈ unguarded then .exit
    else match alts.defaultArm with
      | some arm => if .arm arm ∈ unguarded then .arm arm else first
      | none => first

/-- The warnings about choices that are never tested or that cannot be told apart. -/
def resolveWarnings (alts : Alternatives) (live : Live) (path : List CharSet) : List String :=
  let unguarded := openChoices live
  let shadowed := (shadowedChoices live).map fun alt =>
    "Branch " ++ alt.text ++ " is never tested for input such as «" ++ pathText path ++
      "» because branch " ++ (unguarded.head?.map Alt.text).getD "" ++ " has no and-predicate."
  let ambiguous :=
    if 1 < unguarded.length && alts.greedy.isNone then
      ["Alternatives (" ++ ", ".intercalate (unguarded.map Alt.text) ++
        ") are ambiguous for input such as «" ++ pathText path ++ "». Using " ++
        (fallbackChoice alts unguarded).text ++ "."]
    else []
  shadowed ++ ambiguous

/-- The decision between choices that lookahead leaves undecided. -/
def resolve (alts : Alternatives) (live : Live) (offset : Nat) (path : List CharSet) : Decision :=
  let tested := testedChoices live
  let fallback := Decision.pick (fallbackChoice alts (openChoices live))
  let region := path.getLast?.getD .everything
  if tested.isEmpty then fallback
  else
    let branches := tested.map fun entry => Branch.mk region entry.2 .empty (.pick entry.1)
    .level offset true (branches ++ [⟨region, [], .empty, fallback⟩]) region

/-! ## Levels -/

/-- Where terminals go that no choice claims. -/
def defaultTarget (alts : Alternatives) (live : Live) (offset : Nat) : Alt :=
  let preferred := match alts.defaultArm with
    | some arm => .arm arm
    | none => if alts.hasExit then .exit else .arm (alts.arms.length - 1)
  if alts.errorBranch then .error
  else if offset = 0 ∨ live.any (·.1 == preferred) then preferred
  else (live.getLast?.map Prod.fst).getD preferred

/-- Sends the terminals that no branch claims to the default. A branch that already leads there
takes them and becomes the last one. -/
def addDefault (target : Alt) (branches : List (Branch Decision)) : List (Branch Decision) :=
  let claimed := CharSet.unionAll (branches.map (·.set))
  let remainder := CharSet.everything.subtract claimed
  if remainder.isEmpty then branches
  else match branches.find? (·.target.isPick target) with
    | some branch =>
      branches.eraseP (·.target.isPick target) ++
        [{ branch with set := branch.set.union remainder }]
    | none => branches ++ [⟨remainder, [], .empty, .pick target⟩]

/-- Tells each branch what the branches before it cover. -/
def fillCovered (covered : CharSet) : List (Branch Decision) → List (Branch Decision)
  | [] => []
  | branch :: rest => { branch with covered } :: fillCovered (covered.union branch.set) rest

def makeLevel (offset : Nat) (branches : List (Branch Decision)) : Decision :=
  let accepted := branches.filter fun branch => !branch.target.isPick .error
  .level offset false (fillCovered .empty branches) (.unionAll (accepted.map (·.set)))

/-- A level with a single branch that is not told by checks decides nothing: its branch takes its
place. -/
def collapse : Decision → Decision
  | .level _ false [branch] _ => branch.target
  | decision => decision

/-- The regions of the terminals that can come next for the given choices. -/
def regionsOf (la : Lookahead) (live : Live) (offset : Nat) :
    Except (Failure GenerationError) (List Region) := do
  let found ← live.mapM fun entry => do
    let steps ← entry.2.mapM fun config => la.steps config offset
    return steps.flatten.map fun step => (entry.1, step)
  return Region.sortAll <| found.flatten.foldl
    (fun regions (alt, set, next) => Region.refine alt set next set regions) []

/-- How to examine what a level leaves undecided: a path and the choices left on it give a decision and
warnings. There is nothing when no further terminal may be looked at. -/
abbrev Deeper := Option (List CharSet → Live → Except (Failure GenerationError)
  (Decision × List String))

/-- The branch for a region, and the warnings met below it. A region with several choices is examined
further, or resolved where that is not allowed. -/
def regionBranch (alts : Alternatives) (offset : Nat) (path : List CharSet)
    (deeper : Deeper) (region : Region) :
    Except (Failure GenerationError) (Branch Decision × List String) :=
  let path := path ++ [region.set]
  match region.live, deeper with
  | [(alt, _)], _ => return (Branch.mk region.set [] .empty (.pick alt), [])
  | live, some deeper => do
    let (tree, warnings) ← deeper path live
    return (⟨region.set, [], .empty, collapse tree⟩, warnings)
  | live, none =>
    return (⟨region.set, [], .empty, resolve alts live offset path⟩, resolveWarnings alts live path)

/-- The level at `offset` for the given choices, and the warnings met on the way. -/
def levelOf (la : Lookahead) (alts : Alternatives) (offset : Nat) (path : List CharSet)
    (live : Live) (deeper : Deeper) : Except (Failure GenerationError) (Decision × List String) := do
  let regions ← regionsOf la live offset
  let parts ← regions.mapM (regionBranch alts offset path deeper)
  let branches := addDefault (defaultTarget alts live offset) (parts.map Prod.fst)
  return (makeLevel offset branches, (parts.map Prod.snd).flatten)

/-- Builds the level at `offset` for the given choices, which may be followed by `left` further
levels. -/
def buildLevel (la : Lookahead) (alts : Alternatives) : (left offset : Nat) → List CharSet → Live →
    Except (Failure GenerationError) (Decision × List String)
  | 0, offset, path, live => levelOf la alts offset path live none
  | left + 1, offset, path, live =>
    levelOf la alts offset path live (some (buildLevel la alts left (offset + 1)))

/-- The choices of an alternative set before any terminal was seen. -/
def initialLive (id : NodeId) (alts : Alternatives) (after : List Frame) : Live :=
  let next := if alts.mode = .star then .node id :: after else after
  let arms := alts.arms.mapIdx fun i arm => (Alt.arm i, [Config.ofStack (.node arm :: next)])
  arms ++ (if alts.hasExit then [(.exit, [Config.ofStack after])] else [])

/-- The prediction tree of an alternative set that may look at `k` terminals, and the warnings met
while building it. -/
def predictionOf (la : Lookahead) (k : Nat) (id : NodeId) (alts : Alternatives)
    (after : List Frame) : Except (Failure GenerationError) (Decision × List String) :=
  buildLevel la alts (k - 1) 0 [] (initialLive id alts after)

end PredictiveParser
