import Mathlib
import PredictiveParser.Proofs.Generation.Returns
import PredictiveParser.Proofs.Grammar.Built

/-!
# Generated parsers are sound

Where a generated parser succeeds, its rule derives what was consumed, though terminals and checks that
prediction has tested are not tested again (`Grammar.parser_sound`).

Each method was lowered in a grammar that has grown and was analyzed, where a success is a match with
the choices of prediction. In the grammar there was at first this is a derivation
(`matches_of_shape`). Calls are covered by induction on how deep they nest.
-/
namespace PredictiveParser

open Relation

section

variable {σ : Type} [Source σ] {values : CheckValues σ} {choose choose' : Choosing σ}
  {call call' : Calling σ} {g g' : Grammar} {body : NodeId}

/-- The goal consists of nodes that the body matches. -/
def Goal.Within (g : Grammar) (body : NodeId) : Goal → Prop
  | .node id => g.MatchedBy body id
  | .all ids => ∀ id ∈ ids, g.MatchedBy body id

/-- What matches in one grammar matches in another of the same shape, where the choices are allowed and
the calls lead to the same places. -/
theorem matches_of_shape
    (hkind : ∀ id kind, g'.MatchedBy body id → g'.kindAt? id = some kind →
      ∃ kind', g.kindAt? id = some kind' ∧ kind'.bare = kind.bare)
    (hchoose : ∀ id alts alts' s alt, g'.kindAt? id = some (.alternatives alts) →
      g.kindAt? id = some (.alternatives alts') → choose alts s alt → choose' alts' s alt)
    (hcall : ∀ id rule s c t, g'.MatchedBy body id → g'.kindAt? id = some (.call rule) →
      call rule s c t → ∃ c', call' rule s c' t)
    {goal : Goal} {s t : σ} {c : List Choice} (h : Matches g' values choose call goal s c t)
    (hgoal : goal.Within g' body) : ∃ c', Matches g values choose' call' goal s c' t := by
  induction h with
  | nil => exact ⟨_, .nil⟩
  | cons first others ih₁ ih₂ =>
    obtain ⟨c₁, h₁⟩ := ih₁ (hgoal _ List.mem_cons_self)
    obtain ⟨c₂, h₂⟩ := ih₂ fun id hid => hgoal id (List.mem_cons_of_mem _ hid)
    exact ⟨_, .cons h₁ h₂⟩
  | sequence kind below ih =>
    obtain ⟨kind', hk, hbare⟩ := hkind _ _ hgoal kind
    rw [NodeKind.of_bare_sequence hbare] at hk
    obtain ⟨c', h⟩ := ih fun item hitem =>
      ReflTransGen.tail hgoal (Grammar.link_of_sequence kind hitem)
    exact ⟨_, .sequence hk h⟩
  | arm kind mode at_ allowed below ih =>
    obtain ⟨kind', hk, hbare⟩ := hkind _ _ hgoal kind
    obtain ⟨prediction, rfl⟩ := NodeKind.of_bare_alternatives hbare
    obtain ⟨c', h⟩ := ih (ReflTransGen.tail hgoal
      (Grammar.link_of_alternatives kind (List.mem_of_getElem? at_)))
    exact ⟨_, .arm hk mode at_ (hchoose _ _ _ _ _ kind hk allowed) h⟩
  | again kind mode at_ allowed below next ih₁ ih₂ =>
    obtain ⟨kind', hk, hbare⟩ := hkind _ _ hgoal kind
    obtain ⟨prediction, rfl⟩ := NodeKind.of_bare_alternatives hbare
    obtain ⟨c₁, h₁⟩ := ih₁ (ReflTransGen.tail hgoal
      (Grammar.link_of_alternatives kind (List.mem_of_getElem? at_)))
    obtain ⟨c₂, h₂⟩ := ih₂ hgoal
    exact ⟨_, .again hk mode at_ (hchoose _ _ _ _ _ kind hk allowed) h₁ h₂⟩
  | exit kind hasExit allowed =>
    obtain ⟨kind', hk, hbare⟩ := hkind _ _ hgoal kind
    obtain ⟨prediction, rfl⟩ := NodeKind.of_bare_alternatives hbare
    exact ⟨_, .exit hk hasExit (hchoose _ _ _ _ _ kind hk allowed)⟩
  | gate kind below ih =>
    obtain ⟨kind', hk, hbare⟩ := hkind _ _ hgoal kind
    rw [NodeKind.of_bare_gate hbare] at hk
    obtain ⟨c', h⟩ := ih (ReflTransGen.tail hgoal (Grammar.link_of_gate kind))
    exact ⟨_, .gate hk h⟩
  | check kind holds =>
    obtain ⟨kind', hk, hbare⟩ := hkind _ _ hgoal kind
    obtain ⟨test, rfl, hnegate⟩ := NodeKind.of_bare_check hbare
    refine ⟨_, .check hk ?_⟩
    unfold Grammar.checkHolds at holds ⊢
    rw [kind] at holds
    rw [hk]
    simpa only [hnegate] using holds
  | call kind called =>
    obtain ⟨kind', hk, hbare⟩ := hkind _ _ hgoal kind
    rw [NodeKind.of_bare_call hbare] at hk
    obtain ⟨c', h⟩ := hcall _ _ _ _ _ hgoal kind called
    exact ⟨_, .call hk h⟩
  | terminal kind accepted =>
    obtain ⟨kind', hk, hbare⟩ := hkind _ _ hgoal kind
    obtain ⟨mark, rfl⟩ := NodeKind.of_bare_terminal hbare
    exact ⟨_, .terminal hk accepted⟩

end

section

variable {σ : Type} [Source σ] [LawfulSource σ] {values : CheckValues σ} {g : Grammar}
  {methods : List Method} {method : Method} {s t : σ}

theorem matchesRule_of_returnsWithin {rules : List (String × Rule)} {names : List String}
    (hforest : g.Forest) (hgenerated : Generated g rules names methods) {depth : Nat}
    (hm : method ∈ methods) (hform : method.form = .parser)
    (h : ReturnsWithin methods values depth method s true t) :
    ∃ c, g.MatchesRule values anyChoice depth method.rule.name s c t := by
  induction depth generalizing method s t with
  | zero => exact h.elim
  | succ depth ih =>
    obtain ⟨g', hrules, hmade, hhas, hlowered⟩ := hgenerated.of_mem hm
    rw [hform] at hhas
    obtain ⟨old, hold, hbody⟩ | ⟨-, hnone⟩ := hmade.keeps.rules _ _ hmade.found
    · obtain ⟨c, hmatch⟩ := (returnsWithin_iff_matchesBy (hmade.prepared hhas) hlowered).1 h
      rw [hbody] at hmatch
      have hcalls : ∀ rule s c t, (method.planIn g').callBy (callsWithin methods values depth)
          rule s c t → ∃ c', g.MatchesRule values anyChoice depth rule s c' t := by
        rintro rule s c t ⟨-, callee, hcallee, callee', hm', hform', hname, hreturns⟩
        have hform' : callee'.form = .parser := hform'.trans hform
        -- Parsers are called by the names of their rules.
        have hrule : callee'.rule.name = rule := by
          rw [Method.name, hform'] at hname
          rw [Method.planIn, hform] at hname
          exact hname.trans (hmade.keeps.keyed.name_of_rule? hcallee)
        exact hrule ▸ ih hm' hform' hreturns
      have hderives : ∃ c', Matches g values anyChoice (g.MatchesRule values anyChoice depth)
          (.node old.body) s c' t :=
        matches_of_shape (fun id kind => hmade.keeps.kind_of_matched hforest hold)
          (fun _ _ _ _ _ _ _ _ => trivial) (fun _ rule s c t _ _ => hcalls rule s c t) hmatch
          ReflTransGen.refl
      obtain ⟨c', hderives⟩ := hderives
      exact ⟨c', old, hold, hderives⟩
    · rw [Rule.hasForm, hnone] at hhas
      cases hhas

/-- **Generated parsers are sound.** Methods were generated from a grammar that was made with the
builders, and no rule was left out. Whenever a parser succeeds, on any input and for any values of the
checks, its rule derives what was consumed. -/
theorem Grammar.parser_sound {options : Options} {state : Generation} (hbuilt : g.Built)
    (hmethods : g.methods options = (.ok methods, state))
    (hskip : ∀ name cause, .skipped name cause ∉ state.events) (hm : method ∈ methods)
    (hform : method.form = .parser) (h : Returns methods values method s true t) :
    ∃ c, g.Derives values method.rule.name s c t := by
  obtain ⟨hforest, g₂, -, -, hgenerated⟩ :=
    generated_of_methods hbuilt.fresh.keyed hbuilt.fresh.clean hmethods hskip
  obtain ⟨depth, h⟩ := h
  obtain ⟨c, hmatch⟩ := matchesRule_of_returnsWithin hforest hgenerated hm hform h
  exact ⟨c, depth, hmatch⟩

end

/-! ## An instance -/

/-- The rule `w` has letters and then a semicolon, and calls the rule `l` for each letter. -/
def words : Grammar where
  nodes := #[.ofKind (.terminal (.ofRanges [(97, 97)]) none),
    .ofKind (.terminal (.ofRanges [(98, 98)]) none), .ofKind (.alternatives (.ofArms [0, 1] .once)),
    .ofKind (.call "l"), .ofKind (.alternatives (.ofArms [3] .star)),
    .ofKind (.terminal (.ofRanges [(59, 59)]) none), .ofKind (.sequence [4, 5])]
  rules := [("w", { Rule.ofBody "w" 6 with recognizer := some "s" }),
    ("l", { Rule.ofBody "l" 2 with recognizer := some "t", isPrivate := true })]

theorem words_built : words.Built := by
  have hcall := (((Grammar.Built.empty.terminal (.ofRanges [(97, 97)])).terminal
    (.ofRanges [(98, 98)])).alternatives [0, 1]).call "l"
  have hloop := hcall.loopOf (show Grammar.loopOf _ 3 .star = .ok (_, 4) from rfl)
  have hbody := (hloop.terminal (.ofRanges [(59, 59)])).sequence [4, 5]
  have hword := hbody.addRule
    (show Grammar.addRule _ { Rule.ofBody "w" 6 with recognizer := some "s" } = .ok _ from rfl)
  exact hword.addRule
    (show Grammar.addRule _ { Rule.ofBody "l" 2 with recognizer := some "t", isPrivate := true } =
      .ok _ from rfl)

/-- What the parser of `w` does with the terminal ahead. -/
def wordRound : List Stmt :=
  [.ifElse (.inSet 0 (.ofRanges [(97, 97)])) [.snippet (.callRule "l" none)]
    [.ifElse (.inSet 0 (.ofRanges [(98, 98)])) [.snippet (.callRule "l" none)] [.breakTo none]]]

def wordCode : List Stmt := [.snippet (.declareLookahead 0),
  .loop none (.snippet (.readLookahead 0) :: wordRound),
  .snippet (.matchTerminal ⟨.ofRanges [(59, 59)], none⟩ none)]

def letterCode : List Stmt := [.snippet (.declareLookahead 0), .snippet (.readLookahead 0),
  .ifElse (.inSet 0 (.ofRanges [(97, 97)])) [.snippet (.skipTerminal none)]
    [.snippet (.matchTerminal ⟨.ofRanges [(98, 98)], none⟩ none)]]

/-- The code of the recognizer of `w`, which is laid out in another way. -/
def scanWordCode : List Stmt := [.snippet (.declareLookahead 0),
  .loop (some "stop") [.labeled "match1" [.snippet (.readLookahead 0),
    .ifElse (.inSet 0 (.ofRanges [(97, 97)])) [.breakTo (some "match1")]
      [.ifElse (.inSet 0 (.ofRanges [(98, 98)])) [.breakTo (some "match1")]
        [.breakTo (some "stop")]]], .snippet (.callRecognizer "t")],
  .snippet (.recognizeTerminal ⟨.ofRanges [(59, 59)], none⟩)]

def scanLetterCode : List Stmt := [.snippet (.declareLookahead 0), .snippet (.readLookahead 0),
  .ifElse (.inSet 0 (.ofRanges [(97, 97)])) [.snippet (.recognizeTerminal ⟨.ofRanges [(97, 97)], none⟩)]
    [.snippet (.recognizeTerminal ⟨.ofRanges [(98, 98)], none⟩)]]

/-- The methods of `words`, when there is nothing to say about them. -/
def wordsMethods : Option (List Method) :=
  match words.methods .default with
  | (.ok methods, state) => if state.events.isEmpty then some methods else none
  | _ => none

/-- What a method is called, for which rule it is, and its statements. -/
def Method.outline (method : Method) : (Form × String × String) × List Stmt :=
  ((method.form, method.rule.name, method.name), method.body)

set_option maxRecDepth 20000 in
theorem words_outline : wordsMethods.map (List.map Method.outline) =
    some [((.parser, "w", "w"), wordCode), ((.recognizer, "w", "s"), scanWordCode),
      ((.parser, "l", "l"), letterCode), ((.recognizer, "l", "t"), scanLetterCode)] := by cbv

theorem words_methods : ∃ word scanWord letter scanLetter state,
    words.methods .default = (.ok [word, scanWord, letter, scanLetter], state) ∧ state.events = [] ∧
      word.outline = ((.parser, "w", "w"), wordCode) ∧
      scanWord.outline = ((.recognizer, "w", "s"), scanWordCode) ∧
      letter.outline = ((.parser, "l", "l"), letterCode) ∧
      scanLetter.outline = ((.recognizer, "l", "t"), scanLetterCode) := by
  obtain ⟨methods, hmethods, houtline⟩ := Option.map_eq_some_iff.1 words_outline
  unfold wordsMethods at hmethods
  split at hmethods
  · rename_i methods' state heq
    split at hmethods
    · rename_i hempty
      cases hmethods
      obtain ⟨word, _, rfl, hword, houtline⟩ := List.map_eq_cons_iff.1 houtline
      obtain ⟨scanWord, _, rfl, hscanWord, houtline⟩ := List.map_eq_cons_iff.1 houtline
      obtain ⟨letter, _, rfl, hletter, houtline⟩ := List.map_eq_cons_iff.1 houtline
      obtain ⟨scanLetter, _, rfl, hscanLetter, houtline⟩ := List.map_eq_cons_iff.1 houtline
      cases List.map_eq_nil_iff.1 houtline
      exact ⟨word, scanWord, letter, scanLetter, state, heq, List.isEmpty_iff.1 hempty, hword,
        hscanWord, hletter, hscanLetter⟩
    · cases hmethods
  · cases hmethods

/-- The places in the text `b;`. -/
def wordsAt : Nat → TextSource
  | 0 => .ofString "b;"
  | n + 1 => Source.advance (wordsAt n)

def wordStart : Running TextSource := ⟨wordsAt 0, fun _ => none⟩

/-- The terminal ahead is read into the first variable. -/
def Running.look (s : Running TextSource) : Running TextSource :=
  s.assign 0 (some (Source.lookahead s.source 0))

def allHold : CheckValues TextSource := fun _ _ => true

section

variable {call : Form → String → TextSource → Bool → TextSource → Prop}

theorem letter_runs : Runs (.quiet allHold call) (.all letterCode) wordStart
    (.normal ((wordStart.assign 0 none).look.moveTo (wordsAt 1))) := by
  have hno : Test.value? (.quiet allHold call) (wordStart.assign 0 none).look
      (.inSet 0 (.ofRanges [(97, 97)])) = some false := by cbv
  have hmatch : Runs (.quiet allHold call)
      (.stmt (.snippet (.matchTerminal ⟨.ofRanges [(98, 98)], none⟩ none)))
      (wordStart.assign 0 none).look (.normal ((wordStart.assign 0 none).look.moveTo (wordsAt 1))) :=
    .snippet (does_matchTerminal_iff.2 ⟨by cbv, rfl⟩)
  exact .cons (.snippet rfl) (.cons (.snippet rfl) (.cons (.ifElse hno (.cons hmatch .nil)) .nil))

/-- The parser of `w` calls that of `l` once, and then meets the semicolon. -/
theorem word_runs (hcall : call .parser "l" (wordsAt 0) true (wordsAt 1)) :
    ∃ s, s.source = wordsAt 2 ∧
      Runs (.quiet allHold call) (.all wordCode) wordStart (.normal s) := by
  let s₁ := (wordStart.assign 0 none).look
  let s₂ := (s₁.moveTo (wordsAt 1)).look
  have tested : Test.value? (.quiet allHold call) s₁ (.inSet 0 (.ofRanges [(97, 97)])) = some false ∧
      Test.value? (.quiet allHold call) s₁ (.inSet 0 (.ofRanges [(98, 98)])) = some true ∧
      Test.value? (.quiet allHold call) s₂ (.inSet 0 (.ofRanges [(97, 97)])) = some false ∧
      Test.value? (.quiet allHold call) s₂ (.inSet 0 (.ofRanges [(98, 98)])) = some false :=
    ⟨by cbv, by cbv, by cbv, by cbv⟩
  obtain ⟨hno, hyes, hno', hno''⟩ := tested
  have hletter : Runs (.quiet allHold call) (.stmt (.snippet (.callRule "l" none))) s₁
      (.normal (s₁.moveTo (wordsAt 1))) :=
    .snippet ⟨true, wordsAt 1, hcall, rfl⟩
  have hend : Runs (.quiet allHold call)
      (.stmt (.snippet (.matchTerminal ⟨.ofRanges [(59, 59)], none⟩ none))) s₂
      (.normal (s₂.moveTo (wordsAt 2))) :=
    .snippet (does_matchTerminal_iff.2 ⟨by cbv, rfl⟩)
  refine ⟨s₂.moveTo (wordsAt 2), rfl, .cons (.snippet rfl) (.cons (m := s₂) ?_ (.cons hend .nil))⟩
  have hbreak : Runs (.quiet allHold call) (.all [.breakTo none]) s₂ (.broke none s₂) :=
    .stop .breakTo trivial
  -- The first round calls the parser of `l`, the second one leaves the loop.
  have hfirst : Runs (.quiet allHold call) (.all wordRound) s₁ (.normal (s₁.moveTo (wordsAt 1))) :=
    .cons (.ifElse hno (.cons (.ifElse hyes (.cons hletter .nil)) .nil)) .nil
  have hsecond : Runs (.quiet allHold call) (.all wordRound) s₂ (.broke none s₂) :=
    .stop (.ifElse hno' (.stop (.ifElse hno'' hbreak) trivial)) trivial
  exact .again (.cons (.snippet rfl) hfirst) rfl (.leave (.cons (.snippet rfl) hsecond) rfl)

end

theorem outline_eq_iff {method : Method} {form : Form} {rule name : String} {body : List Stmt} :
    method.outline = ((form, rule, name), body) ↔
      (method.form = form ∧ method.rule.name = rule ∧ method.name = name) ∧ method.body = body := by
  simp only [Method.outline, Prod.mk.injEq]

theorem word_returns {methods : List Method} {word letter : Method} (hletter : letter ∈ methods)
    (hw : word.outline = ((.parser, "w", "w"), wordCode))
    (hl : letter.outline = ((.parser, "l", "l"), letterCode)) :
    Returns methods allHold word (wordsAt 0) true (wordsAt 2) := by
  obtain ⟨-, hwbody⟩ := outline_eq_iff.1 hw
  obtain ⟨⟨hform, -, hname⟩, hlbody⟩ := outline_eq_iff.1 hl
  have hcall : callsWithin methods allHold 1 .parser "l" (wordsAt 0) true (wordsAt 1) := by
    refine ⟨letter, hletter, hform, hname, returnsWithin_true_iff.2 ⟨_, ?_, hlbody ▸ letter_runs⟩⟩
    rfl
  obtain ⟨s, hs, hrun⟩ := word_runs hcall
  exact ⟨2, returnsWithin_true_iff.2 ⟨s, hs, hwbody ▸ hrun⟩⟩

/-- The parser of `w` succeeds on `b;`, so `w` derives it. -/
theorem words_parser_sound : ∃ methods state word, words.methods .default = (.ok methods, state) ∧
    word ∈ methods ∧ Returns methods allHold word (wordsAt 0) true (wordsAt 2) ∧
    ∃ c, words.Derives allHold word.rule.name (wordsAt 0) c (wordsAt 2) := by
  obtain ⟨word, scanWord, letter, scanLetter, state, hmethods, hevents, hword, -, hletter, -⟩ :=
    words_methods
  have hreturns : Returns [word, scanWord, letter, scanLetter] allHold word (wordsAt 0) true
      (wordsAt 2) := word_returns (by simp) hword hletter
  have hskip : ∀ name cause, .skipped name cause ∉ state.events := by simp [hevents]
  exact ⟨_, state, word, hmethods, List.mem_cons_self, hreturns, Grammar.parser_sound words_built
    hmethods hskip List.mem_cons_self (outline_eq_iff.1 hword).1.1 hreturns⟩

end PredictiveParser
