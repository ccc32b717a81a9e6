import PredictiveParser.Proofs.Method.Lowering
import PredictiveParser.Proofs.Text.Names

/-!
# Lowered code matches what its node matches

Where the code of the author does nothing to the input and called methods are given, lowered code of a
node ends normally at a place exactly if the node matches up to that place with the choices of the
prediction trees (`Realizes`). From the code to the match this needs that what is marked at the start
of the node holds, since marked terminals and checks are not tested; in the other direction nothing is
needed.

`realizes_lowerDown` is the proof for a rule as analysis leaves it, by induction on the depth of
lowering with one lemma for each kind of node. It is the same for both forms.
-/
namespace PredictiveParser

section

variable {σ : Type}

/-- The world where actions leave the input alone. -/
def World.quiet (values : CheckValues σ) (call : Form → String → σ → Bool → σ → Prop) : World σ where
  value := values
  act _ s t := t = s
  call := call

theorem ofCall_eq_normal {s t : Running σ} {ok : Bool} {source : σ} :
    .normal t = Outcome.ofCall s ok source ↔ ok = true ∧ t = s.moveTo source := by
  unfold Outcome.ofCall
  cases ok <;> simp

end

section

variable {σ : Type} [Source σ]

/-- What the methods do that a method calls. -/
def MethodPlan.callBy (m : MethodPlan) (call : Form → String → σ → Bool → σ → Prop) : Calling σ :=
  fun rule s c t => c = [] ∧ ∃ callee, m.grammar.rule? rule = some callee ∧
    call m.form (callee.methodName m.form) s true t

/-- How a node matches when each set follows its prediction and calls run methods. -/
def MethodPlan.MatchesBy (m : MethodPlan) (values : CheckValues σ)
    (call : Form → String → σ → Bool → σ → Prop) (goal : Goal) (s t : σ) : Prop :=
  ∃ c, Matches m.grammar values (m.grammar.predictedChoice values) (m.callBy call) goal s c t

/-- The code ends normally where the goal matches. -/
structure Realizes (m : MethodPlan) (values : CheckValues σ)
    (call : Form → String → σ → Bool → σ → Prop) (entered : σ → Prop) (goal : Goal)
    (code : List Stmt) : Prop where
  sound : ∀ s t, entered s.source → Runs (.quiet values call) (.all code) s (.normal t) →
    m.MatchesBy values call goal s.source t.source
  complete : ∀ s t, m.MatchesBy values call goal s.source t →
    ∃ s', Runs (.quiet values call) (.all code) s (.normal s') ∧ s'.source = t

variable {m : MethodPlan} {values : CheckValues σ} {call : Form → String → σ → Bool → σ → Prop}
  {entered : σ → Prop} {id body : NodeId} {code : List Stmt} {st st' : LowerState} {s t : Running σ}

/-! ## Actions -/

theorem runs_lowerAction_iff {action : Option Tokens} {o : Outcome σ} :
    Runs (.quiet values call) (.all (m.lowerAction action)) s o ↔ o = .normal s := by
  unfold MethodPlan.lowerAction
  split
  · exact runs_nil_iff
  · cases action with
    | none => exact runs_nil_iff
    | some tokens =>
      rw [Option.toList_some, List.map_cons, List.map_nil, runs_singleton_iff, runs_snippet_iff]
      constructor
      · rintro ⟨t, rfl, rfl⟩
        rfl
      · rintro rfl
        exact ⟨s.source, rfl, rfl⟩

/-- Actions change nothing. -/
theorem runs_actions_iff {pre post : Option Tokens} :
    Runs (.quiet values call) (.all (m.lowerAction pre ++ code ++ m.lowerAction post)) s (.normal t) ↔
      Runs (.quiet values call) (.all code) s (.normal t) := by
  rw [runs_append_iff, runs_append_iff]
  simp [runs_lowerAction_iff, runs_append_iff]

/-! ## Kinds -/

theorem matchesBy_node {kind : NodeKind} (hk : m.grammar.kindAt? id = some kind) {s t : σ} :
    m.MatchesBy values call (.node id) s t ↔ ∃ c, MatchesKind m.grammar values
      (m.grammar.predictedChoice values) (m.callBy call) id s c t kind := by
  unfold MethodPlan.MatchesBy
  simp only [matches_node_iff, hk, Option.some.injEq, exists_eq_left']

/-- A snippet that matches or gives up. -/
theorem realizes_snippet {snippet : Snippet}
    (hdoes : ∀ s t, entered s.source → snippet.Does (.quiet values call) s (.normal t) →
      m.MatchesBy values call (.node id) s.source t.source)
    (hmatches : ∀ s t, m.MatchesBy values call (.node id) s.source t →
      snippet.Does (.quiet values call) s (.normal (s.moveTo t))) :
    Realizes m values call entered (.node id) [.snippet snippet] where
  sound s t hentered hrun :=
    hdoes s t hentered (runs_snippet_iff.1 (runs_singleton_iff.1 hrun))
  complete s t hmatch :=
    ⟨s.moveTo t, runs_singleton_iff.2 (runs_snippet_iff.2 (hmatches s t hmatch)), rfl⟩

theorem set_refer (tables : Tables) (set : CharSet) : (tables.refer set).1.set = set := by
  unfold Tables.refer
  split
  · rfl
  · split <;> rfl

theorem yields_refer {set : CharSet} {ref : SetRef} (h : Yields (Lower.refer set) st ref st') :
    ref.set = set := by
  unfold Lower.refer at h
  have h := yields_get_bind.1 h
  obtain ⟨_, st₁, -, h⟩ := yields_bind.1 h
  obtain ⟨rfl, -⟩ := yields_pure.1 h
  exact set_refer _ set

/-- Matching one terminal of a set. -/
theorem does_matchTerminal_iff {set : SetRef} {saver : Option Saver} :
    (Snippet.matchTerminal set saver).Does (.quiet values call) s (.normal t) ↔
      set.set.contains (Source.lookahead s.source 0) = true ∧
        t = s.moveTo (Source.advance s.source) := by
  rw [Snippet.Does, ofCall_eq_normal]
  unfold Source.matchSet
  change _ ↔ inSet set.set.ranges (Source.lookahead s.source 0) = true ∧ _
  cases inSet set.set.ranges (Source.lookahead s.source 0) <;> simp [Except.toBool]

theorem does_recognizeTerminal_iff {set : SetRef} :
    (Snippet.recognizeTerminal set).Does (.quiet values call) s (.normal t) ↔
      set.set.contains (Source.lookahead s.source 0) = true ∧
        t = s.moveTo (Source.advance s.source) := by
  rw [Snippet.Does, ofCall_eq_normal]
  unfold Source.tryMatchSet
  change _ ↔ inSet set.set.ranges (Source.lookahead s.source 0) = true ∧ _
  cases inSet set.set.ranges (Source.lookahead s.source 0) <;> simp

theorem matchesBy_terminal {set : CharSet} {mark : Option Bool}
    (hk : m.grammar.kindAt? id = some (.terminal set mark)) {s t : σ} :
    m.MatchesBy values call (.node id) s t ↔
      set.contains (Source.lookahead s 0) = true ∧ t = Source.advance s := by
  rw [matchesBy_node hk]
  simp [MatchesKind]

theorem matchesBy_check {test : Check} (hk : m.grammar.kindAt? id = some (.check test)) {s t : σ} :
    m.MatchesBy values call (.node id) s t ↔
      m.grammar.checkHolds values s ⟨id, 0⟩ = true ∧ t = s := by
  rw [matchesBy_node hk]
  simp [MatchesKind]

/-- A check that prediction has evaluated holds where it is entered. -/
theorem realizes_proven {check : Check} (hk : m.grammar.kindAt? id = some (.check check))
    (hmark : (check.prematched == some true) = true) :
    Realizes m values call (m.grammar.Entered values · id) (.node id) [] := by
  constructor
  · intro s t hentered hrun
    cases runs_nil_iff.1 hrun
    exact (matchesBy_check hk).2 ⟨hentered id _ (.here id) hk hmark, rfl⟩
  · intro s t hmatch
    obtain ⟨-, rfl⟩ := (matchesBy_check hk).1 hmatch
    exact ⟨s, .nil, rfl⟩

theorem realizes_check {check : Check} {test : CheckTest}
    (hk : m.grammar.kindAt? id = some (.check check)) (h : m.checkTest id check 0 = .ok test) :
    Realizes m values call (m.grammar.Entered values · id) (.node id)
      [.snippet (.require m.form test)] := by
  obtain ⟨href, hnegate⟩ := checkTest_eq_ok h
  have hholds : ∀ s : σ,
      test.holds (.quiet values call) s = m.grammar.checkHolds values s ⟨id, 0⟩ := by
    intro s
    rw [CheckTest.holds, href, hnegate, Grammar.checkHolds, hk]
    rfl
  refine realizes_snippet (fun s t _ hdoes => ?_) (fun s t hmatch => ?_)
  · rw [Snippet.Does] at hdoes
    split at hdoes
    · rename_i hyes
      cases hdoes
      exact (matchesBy_check hk).2 ⟨hholds s.source ▸ hyes, rfl⟩
    · cases hdoes
  · obtain ⟨hyes, rfl⟩ := (matchesBy_check hk).1 hmatch
    rw [Snippet.Does, if_pos ((hholds s.source).trans hyes)]
    rfl

theorem matchesBy_call {rule : String} (hk : m.grammar.kindAt? id = some (.call rule)) {s t : σ} :
    m.MatchesBy values call (.node id) s t ↔ ∃ callee, m.grammar.rule? rule = some callee ∧
      call m.form (callee.methodName m.form) s true t := by
  rw [matchesBy_node hk]
  simp [MatchesKind, MethodPlan.callBy]

/-- A call runs the method of the callee in the same form. -/
theorem does_callSnippet_iff {rule : String} {saver : Option Saver} {snippet : Snippet}
    (h : m.callSnippet rule saver = .ok snippet) (values : CheckValues σ)
    (call : Form → String → σ → Bool → σ → Prop) :
    ∃ callee, m.grammar.rule? rule = some callee ∧ ∀ (s : Running σ) (o : Outcome σ),
      snippet.Does (.quiet values call) s o ↔
        ∃ ok t, call m.form (callee.methodName m.form) s.source ok t ∧ o = .ofCall s ok t := by
  obtain ⟨callee, hcallee, ⟨hform, rfl⟩ | ⟨recognizer, hform, hrecognizer, rfl⟩⟩ := callSnippet_eq_ok h
  · refine ⟨callee, hcallee, fun s o => ?_⟩
    rw [hform]
    rfl
  · refine ⟨callee, hcallee, fun s o => ?_⟩
    rw [hform, Rule.methodName, hrecognizer]
    rfl

theorem realizes_call {rule : String} {saver : Option Saver} {snippet : Snippet}
    (hk : m.grammar.kindAt? id = some (.call rule)) (h : m.callSnippet rule saver = .ok snippet) :
    Realizes m values call entered (.node id) [.snippet snippet] := by
  obtain ⟨callee, hcallee, hdoes⟩ := does_callSnippet_iff h values call
  refine realizes_snippet (fun s t _ hrun => ?_) (fun s t hmatch => ?_)
  · obtain ⟨ok, source, hcall, heq⟩ := (hdoes s _).1 hrun
    obtain ⟨rfl, rfl⟩ := ofCall_eq_normal.1 heq
    exact (matchesBy_call hk).2 ⟨callee, hcallee, hcall⟩
  · obtain ⟨callee', hcallee', hcall⟩ := (matchesBy_call hk).1 hmatch
    rw [hcallee] at hcallee'
    cases hcallee'
    exact (hdoes s _).2 ⟨true, t, hcall, rfl⟩

/-! ## Sequences -/

theorem Realizes.weaken {entered' : σ → Prop} {goal : Goal}
    (h : Realizes m values call entered goal code) (hsub : ∀ s, entered' s → entered s) :
    Realizes m values call entered' goal code where
  sound s t hentered := h.sound s t (hsub _ hentered)
  complete := h.complete

theorem matchesBy_nil {s t : σ} : m.MatchesBy values call (.all []) s t ↔ t = s := by
  constructor
  · rintro ⟨c, h⟩
    cases h
    rfl
  · rintro rfl
    exact ⟨[], .nil⟩

theorem matchesBy_cons {first : NodeId} {rest : List NodeId} {s t : σ} :
    m.MatchesBy values call (.all (first :: rest)) s t ↔
      ∃ u, m.MatchesBy values call (.node first) s u ∧ m.MatchesBy values call (.all rest) u t := by
  constructor
  · rintro ⟨c, h⟩
    cases h with
    | cons hfirst hrest => exact ⟨_, ⟨_, hfirst⟩, _, hrest⟩
  · rintro ⟨u, ⟨c₁, hfirst⟩, c₂, hrest⟩
    exact ⟨c₁ ++ c₂, .cons hfirst hrest⟩

theorem realizes_nil : Realizes m values call entered (.all []) [] where
  sound s t _ hrun := by
    cases runs_nil_iff.1 hrun
    exact matchesBy_nil.2 rfl
  complete s t hmatch := ⟨s, .nil, (matchesBy_nil.1 hmatch).symm⟩

theorem realizes_cons {first : NodeId} {rest : List NodeId} {part others : List Stmt}
    (hfirst : Realizes m values call entered (.node first) part)
    (hrest : Realizes m values call (fun _ => True) (.all rest) others) :
    Realizes m values call entered (.all (first :: rest)) (part ++ others) where
  sound s t hentered hrun := by
    rcases runs_append_iff.1 hrun with ⟨u, hpart, hothers⟩ | ⟨-, habrupt⟩
    · exact matchesBy_cons.2
        ⟨u.source, hfirst.sound s u hentered hpart, hrest.sound u t trivial hothers⟩
    · exact habrupt.elim
  complete s t hmatch := by
    obtain ⟨u, hfirst', hrest'⟩ := matchesBy_cons.1 hmatch
    obtain ⟨s₁, hrun₁, rfl⟩ := hfirst.complete s u hfirst'
    obtain ⟨s₂, hrun₂, rfl⟩ := hrest.complete s₁ t hrest'
    exact ⟨s₂, runs_append_iff.2 (Or.inl ⟨s₁, hrun₁, hrun₂⟩), rfl⟩

theorem realizes_all {items : List NodeId} {parts : List (List Stmt)}
    (h : List.Forall₂ (fun item part =>
      Realizes m values call (fun _ => True) (.node item) part) items parts) :
    Realizes m values call (fun _ => True) (.all items) parts.flatten := by
  induction h with
  | nil => exact realizes_nil
  | cons hfirst _ ih => exact realizes_cons hfirst ih

variable {lowerBelow : NodeId → Lower (List Stmt)}

/-- What is below the node is lowered as it should be. -/
def RealizesBelow (m : MethodPlan) (values : CheckValues σ)
    (call : Form → String → σ → Bool → σ → Prop) (lowerBelow : NodeId → Lower (List Stmt))
    (id : NodeId) : Prop :=
  ∀ child st code st', m.grammar.Link Node.matchedChildren id child →
    Yields (lowerBelow child) st code st' →
    Realizes m values call (m.grammar.Entered values · child) (.node child) code

theorem realizes_sequence (hg : m.grammar.Prepared body) (hid : m.grammar.MatchedBy body id)
    {items : List NodeId} {parts : List (List Stmt)}
    (hk : m.grammar.kindAt? id = some (.sequence items))
    (hbelow : RealizesBelow m values call lowerBelow id)
    (hparts : List.Forall₂ (fun item part => ∃ st st', Yields (lowerBelow item) st part st')
      items parts) :
    Realizes m values call (m.grammar.Entered values · id) (.node id) parts.flatten := by
  have hall : Realizes m values call (m.grammar.Entered values · id) (.all items) parts.flatten := by
    cases hparts with
    | nil => exact realizes_nil
    | @cons first part rest others hfirst hrest =>
      obtain ⟨st, st', hfirst⟩ := hfirst
      have hone := hbelow first st part st' (Grammar.link_of_sequence hk List.mem_cons_self) hfirst
      refine realizes_cons (hone.weaken fun s hentered => ?_) (realizes_all ?_)
      · intro lead kind hstarts
        exact hentered lead kind (.first hk hstarts)
      · refine List.forall₂_iff_zip.2 ⟨hrest.length_eq, fun {item other} hzip => ?_⟩
        obtain ⟨st, st', hitem⟩ := (List.forall₂_iff_zip.1 hrest).2 hzip
        have hmem := (List.of_mem_zip hzip).1
        have hlink := Grammar.link_of_sequence hk (List.mem_cons_of_mem _ hmem)
        exact (hbelow item st other st' hlink hitem).weaken fun s _ => hg.entered_later hid hk hmem s
  constructor
  · intro s t hentered hrun
    obtain ⟨c, hmatch⟩ := hall.sound s t hentered hrun
    exact ⟨c, .sequence hk hmatch⟩
  · intro s t hmatch
    refine hall.complete s t ?_
    obtain ⟨c, hmatch⟩ := (matchesBy_node hk).1 hmatch
    exact ⟨c, hmatch⟩

/-! ## Alternative sets -/

theorem isValidAlt_of_select {tree : Decision} {arms : Nat} {hasExit : Bool} {alt : Alt}
    {la : Nat → Int} {holds : CheckRef → Bool} (hwf : tree.WellFormed)
    (hvalid : tree.invalidAlt? arms hasExit = none) (hselect : tree.select la holds = some alt) :
    tree.uses alt = true ∧ Decision.isValidAlt arms hasExit alt = true := by
  have hleaf := Decision.mem_leaves_of_select hwf hselect
  refine ⟨List.contains_iff_mem.2 hleaf, ?_⟩
  simpa using List.find?_eq_none.1 hvalid _ hleaf

/-- The arms that the tree selects are lowered as they should be, and what is marked at their start
holds where they are selected. -/
def SelectedRealize (m : MethodPlan) (values : CheckValues σ)
    (call : Form → String → σ → Bool → σ → Prop) (alts : Alternatives) (tree : Decision)
    (arms : List (List Stmt)) : Prop :=
  ∀ s index, choiceAt (.quiet values call) m.grammar tree s = some (.arm index) →
    ∃ arm, alts.arms[index]? = some arm ∧ m.grammar.Entered values s arm ∧
      Realizes m values call (m.grammar.Entered values · arm) (.node arm) (arms.getD index [])

section

variable {alts : Alternatives} {tree : Decision} {arms : List (List Stmt)}
  {peek : Running σ → Running σ}

theorem matchesBy_of_setRuns (hk : m.grammar.kindAt? id = some (.alternatives alts))
    (htree : alts.prediction = some tree) (hwf : tree.WellFormed)
    (hvalid : tree.invalidAlt? alts.arms.length alts.hasExit = none)
    (harms : SelectedRealize m values call alts tree arms)
    (hpeek : ∀ s : Running σ, s.Peeks (peek s))
    (h : SetRuns (.quiet values call) m.grammar alts.mode tree arms peek s (.normal t)) :
    m.MatchesBy values call (.node id) s.source t.source := by
  generalize ho : Outcome.normal t = o at h
  induction h with
  | @once s index o single chosen arm =>
    subst ho
    obtain ⟨node, hnode, hentered, hrealizes⟩ := harms _ _ chosen
    rw [← (hpeek s).source] at hentered
    obtain ⟨c, hmatch⟩ := hrealizes.sound _ _ hentered arm
    rw [(hpeek s).source] at hmatch
    exact ⟨_, .arm hk single hnode ⟨tree, htree, chosen⟩ hmatch⟩
  | @again s u index o repeated chosen arm next ih =>
    obtain ⟨node, hnode, hentered, hrealizes⟩ := harms _ _ chosen
    rw [← (hpeek s).source] at hentered
    obtain ⟨c, hmatch⟩ := hrealizes.sound _ _ hentered arm
    rw [(hpeek s).source] at hmatch
    obtain ⟨c', hnext⟩ := ih ho
    exact ⟨_, .again hk repeated hnode ⟨tree, htree, chosen⟩ hmatch hnext⟩
  | stop => cases ho
  | @exit s chosen =>
    cases ho
    obtain ⟨-, hexit⟩ := isValidAlt_of_select hwf hvalid chosen
    rw [(hpeek s).source]
    exact ⟨_, .exit hk hexit ⟨tree, htree, chosen⟩⟩
  | error => cases ho

theorem setRuns_of_matches (hk : m.grammar.kindAt? id = some (.alternatives alts))
    (htree : alts.prediction = some tree) (harms : SelectedRealize m values call alts tree arms)
    (hpeek : ∀ s : Running σ, s.Peeks (peek s)) {goal : Goal} {source target : σ} {c : List Choice}
    (h : Matches m.grammar values (m.grammar.predictedChoice values) (m.callBy call) goal source c
      target) (hgoal : goal = .node id) (hs : s.source = source) :
    ∃ s', SetRuns (.quiet values call) m.grammar alts.mode tree arms peek s (.normal s') ∧
      s'.source = target := by
  -- The choice is that of the tree, and the arm is the one that the tree selects.
  have chosen : ∀ {alts' : Alternatives} {alt : Alt} {source : σ},
      m.grammar.kindAt? id = some (.alternatives alts') →
      m.grammar.predictedChoice values alts' source alt →
      alts' = alts ∧ choiceAt (.quiet values call) m.grammar tree source = some alt := by
    rintro alts' alt source hk' ⟨tree', htree', hselect⟩
    rw [hk] at hk'
    cases hk'
    rw [htree] at htree'
    cases htree'
    exact ⟨rfl, hselect⟩
  have ran : ∀ {s : Running σ} {source target : σ} {index : Nat} {arm : NodeId} {c : List Choice},
      s.source = source → alts.arms[index]? = some arm →
      choiceAt (.quiet values call) m.grammar tree source = some (.arm index) →
      Matches m.grammar values (m.grammar.predictedChoice values) (m.callBy call) (.node arm) source
        c target →
      ∃ s', Runs (.quiet values call) (.all (arms.getD index [])) (peek s) (.normal s') ∧
        s'.source = target := by
    rintro s _ target index arm c rfl hat hchoice hmatch
    obtain ⟨arm', harm', -, hrealizes⟩ := harms _ _ hchoice
    rw [hat] at harm'
    cases harm'
    refine hrealizes.complete (peek s) target ⟨c, ?_⟩
    rwa [(hpeek s).source]
  induction h generalizing s with
  | nil => cases hgoal
  | cons => cases hgoal
  | arm kind mode at_ allowed below _ =>
    cases hgoal
    obtain ⟨rfl, hchoice⟩ := chosen kind allowed
    obtain ⟨s', hrun, hs'⟩ := ran hs at_ hchoice below
    exact ⟨s', .once mode (hs ▸ hchoice) hrun, hs'⟩
  | again kind mode at_ allowed below _ _ ih =>
    cases hgoal
    obtain ⟨rfl, hchoice⟩ := chosen kind allowed
    obtain ⟨s₁, hrun, hs₁⟩ := ran hs at_ hchoice below
    obtain ⟨s', hnext, hs'⟩ := ih rfl hs₁
    exact ⟨s', .again mode (hs ▸ hchoice) hrun hnext, hs'⟩
  | exit kind hasExit allowed =>
    cases hgoal
    obtain ⟨rfl, hchoice⟩ := chosen kind allowed
    exact ⟨peek s, .exit (hs ▸ hchoice), (hpeek s).source.trans hs⟩
  | _ kind =>
    cases hgoal
    rw [hk] at kind
    cases kind

end

/-- A set whose code follows its tree, with arms that are lowered as they should be. -/
theorem realizes_set (hg : m.grammar.Prepared body) (hid : m.grammar.MatchedBy body id)
    {alts : Alternatives} {tree : Decision} {arms : List (List Stmt)}
    {peek : Running σ → Running σ} (hk : m.grammar.kindAt? id = some (.alternatives alts))
    (htree : alts.prediction = some tree)
    (hvalid : tree.invalidAlt? alts.arms.length alts.hasExit = none)
    (hbelow : RealizesBelow m values call lowerBelow id)
    (harms : LoweredArms lowerBelow alts tree arms) (hpeek : ∀ s : Running σ, s.Peeks (peek s))
    (hruns : ∀ s o, Runs (.quiet values call) (.all code) s o ↔
      SetRuns (.quiet values call) m.grammar alts.mode tree arms peek s o) :
    Realizes m values call (m.grammar.Entered values · id) (.node id) code := by
  have hwf := hg.predicted id alts tree hid hk htree
  have hselected : SelectedRealize m values call alts tree arms := by
    intro s index hchoice
    obtain ⟨huses, hindex⟩ := isValidAlt_of_select hwf hvalid hchoice
    have hindex : index < alts.arms.length := of_decide_eq_true hindex
    have harm := List.getElem?_eq_getElem hindex
    obtain ⟨st, st', hcode⟩ := harms.2 index _ harm huses
    exact ⟨_, harm, hg.entered_arm hid hk htree harm hchoice, hbelow _ _ _ _
      (Grammar.link_of_alternatives hk (List.getElem_mem hindex)) hcode⟩
  constructor
  · intro s t _ hrun
    exact matchesBy_of_setRuns hk htree hwf hvalid hselected hpeek ((hruns s _).1 hrun)
  · rintro s t ⟨c, hmatch⟩
    obtain ⟨s', hset, hs'⟩ := setRuns_of_matches hk htree hselected hpeek hmatch rfl rfl
    exact ⟨s', (hruns s _).2 hset, hs'⟩

/-! ## Terminals -/

variable [LawfulSource σ]

theorem realizes_terminal {set : CharSet} {mark : Option Bool} {saver : Option Saver}
    {snippet : Snippet} (hk : m.grammar.kindAt? id = some (.terminal set mark))
    (h : Yields (m.lowerTerminal set mark saver) st snippet st') :
    Realizes m values call (m.grammar.Entered values · id) (.node id) [.snippet snippet] := by
  obtain ⟨ref, href, rfl | rfl⟩ | ⟨hskip, rfl, -⟩ := yields_lowerTerminal h
  · refine realizes_snippet (fun s t _ hdoes => ?_) (fun s t hmatch => ?_)
    · obtain ⟨hset, rfl⟩ := does_recognizeTerminal_iff.1 hdoes
      exact (matchesBy_terminal hk).2 ⟨yields_refer href ▸ hset, rfl⟩
    · obtain ⟨hset, rfl⟩ := (matchesBy_terminal hk).1 hmatch
      exact does_recognizeTerminal_iff.2 ⟨(yields_refer href).symm ▸ hset, rfl⟩
  · refine realizes_snippet (fun s t _ hdoes => ?_) (fun s t hmatch => ?_)
    · obtain ⟨hset, rfl⟩ := does_matchTerminal_iff.1 hdoes
      exact (matchesBy_terminal hk).2 ⟨yields_refer href ▸ hset, rfl⟩
    · obtain ⟨hset, rfl⟩ := (matchesBy_terminal hk).1 hmatch
      exact does_matchTerminal_iff.2 ⟨(yields_refer href).symm ▸ hset, rfl⟩
  · refine realizes_snippet (fun s t hentered hdoes => ?_) (fun s t hmatch => ?_)
    · cases hdoes
      refine (matchesBy_terminal hk).2 ⟨?_, rfl⟩
      rcases Bool.or_eq_true_iff.1 hskip with hall | hmark
      · rw [CharSet.isEverything_iff.1 hall]
        exact CharSet.contains_everything.2 (isTerminal s.source 0)
      · exact hentered id _ (.here id) hk hmark
    · obtain ⟨-, rfl⟩ := (matchesBy_terminal hk).1 hmatch
      exact rfl

/-! ## All kinds -/

/-- **Lowered code matches what its node matches.** -/
theorem realizes_lowerDown {depth : Nat} (hg : m.grammar.Prepared body)
    (hid : m.grammar.MatchedBy body id) (h : Yields (m.lowerDown depth id) st code st')
    (values : CheckValues σ) (call : Form → String → σ → Bool → σ → Prop) :
    Realizes m values call (m.grammar.Entered values · id) (.node id) code := by
  induction depth generalizing id st code st' with
  | zero =>
    rw [MethodPlan.lowerDown] at h
    exact (not_yields_throw h).elim
  | succ depth ih =>
    obtain ⟨node, body', hnode, hbody, rfl⟩ := yields_lowerDown h
    have hk := Grammar.kindAt?_of_node hnode
    have hbelow : RealizesBelow m values call (m.lowerDown depth) id :=
      fun child st code st' hlink hcode => ih (hid.tail hlink) hcode
    have hkind : Realizes m values call (m.grammar.Entered values · id) (.node id) body' := by
      generalize node.kind = kind at hk hbody
      cases yields_lowerKind hbody with
      | sequence each => exact realizes_sequence hg hid hk hbelow (forall₂_of_yields_mapM each)
      | alternatives set =>
        obtain ⟨tree, arms, st₁, htree, hvalid, harms, hcode⟩ := yields_lowerSet set
        have hwf := hg.predicted id _ tree hid hk htree
        have hcontained : ArmsContained (.quiet values call) tree arms := by
          refine harms.contained fun arm harm st code st' hone => ?_
          refine contained_lowerDown (hg.predicted.below (hid.tail ?_)) hone _
          exact Grammar.link_of_alternatives hk harm
        obtain ⟨peek, hpeek, hruns⟩ := runs_lowerAlternatives hwf (harms.1 ▸ hvalid) hcontained hcode
        exact realizes_set hg hid hk htree hvalid hbelow harms hpeek hruns
      | gate below =>
        have hmatched := hbelow _ _ _ _ (Grammar.link_of_gate hk) below
        constructor
        · intro s t _ hrun
          obtain ⟨c, hmatch⟩ := hmatched.sound s t (hg.entered_gate hid hk s.source) hrun
          exact ⟨c, .gate hk hmatch⟩
        · intro s t hmatch
          exact hmatched.complete s t ((matchesBy_node hk).1 hmatch)
      | proven hmark => exact realizes_proven hk hmark
      | check tested => exact realizes_check hk tested
      | call called => exact realizes_call hk called
      | terminal step => exact realizes_terminal hk step
    constructor
    · intro s t hentered hrun
      exact hkind.sound s t hentered (runs_actions_iff.1 hrun)
    · intro s t hmatch
      obtain ⟨s', hrun, hs'⟩ := hkind.complete s t hmatch
      exact ⟨s', runs_actions_iff.2 hrun, hs'⟩

end

end PredictiveParser
