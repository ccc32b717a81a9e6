import PredictiveParser.Proofs.Code.Apart

/-!
# Finding and replacing in lockstep

`References.find` and `References.replaceM` go over code in the same steps. So replacing is asking about the
references that are found, in their order, and putting the answers in their places (`replaceM_eq_fill`).
`References.Filled` says what that comes to: where there is an answer it stands for the two tokens of the
reference, and nothing else is changed.
-/
namespace PredictiveParser

namespace References

mutual

/-- Puts answers in the places of the references inside one token. -/
def fillIn : Token → List (Option Tokens) → Token
  | .group delimiter body, answers => .group delimiter (fill body answers)
  | token, _ => token

/-- Puts answers in the places of the references, one after the other. -/
def fill : Tokens → List (Option Tokens) → Tokens
  | [], _ => []
  | [token], answers => [fillIn token answers]
  | token :: next :: rest, answers =>
    match at? token next with
    | some _ => (answers.headD none).getD [token, next] ++ fill rest answers.tail
    | none => fillIn token (answers.take (findIn token).length) ::
        fill (next :: rest) (answers.drop (findIn token).length)

end

/-- The code, the references in it with their answers, and the code with the answers in their places. -/
inductive Filled : Tokens → List (Reference × Option Tokens) → Tokens → Prop where
  | nil : Filled [] [] []
  | replaced {token next : Token} {rest result new : Tokens} {reference : Reference}
      {answers : List (Reference × Option Tokens)} (front : at? token next = some reference)
      (others : Filled rest answers result) :
      Filled (token :: next :: rest) ((reference, some new) :: answers) (new ++ result)
  | kept {token next : Token} {rest result : Tokens} {reference : Reference}
      {answers : List (Reference × Option Tokens)} (front : at? token next = some reference)
      (others : Filled rest answers result) :
      Filled (token :: next :: rest) ((reference, none) :: answers) (token :: next :: result)
  | group {delimiter : Delimiter} {body body' rest result : Tokens}
      {inside answers : List (Reference × Option Tokens)} (below : Filled body inside body')
      (others : Filled rest answers result) :
      Filled (.group delimiter body :: rest) (inside ++ answers) (.group delimiter body' :: result)
  | plain {token : Token} {rest result : Tokens} {answers : List (Reference × Option Tokens)}
      (single : ∀ delimiter body, token ≠ .group delimiter body)
      (front : ∀ next, rest.head? = some next → at? token next = none)
      (others : Filled rest answers result) : Filled (token :: rest) answers (token :: result)

/-! ## Asking one after the other -/

section

variable {m : Type → Type} [Monad m] [LawfulMonad m] {α β γ : Type}

/-- What follows a list of questions needs to know of their answers only that there is one to each, and what
is known of each. -/
theorem mapM_bind_congr {f : α → m β} {P : β → Prop} {as : List α} {k k' : List β → m γ}
    (hf : ∀ a ∈ as, ∀ j j' : β → m γ, (∀ b, P b → j b = j' b) → (f a >>= j) = f a >>= j')
    (h : ∀ bs : List β, bs.length = as.length → (∀ b ∈ bs, P b) → k bs = k' bs) :
    (as.mapM f >>= k) = as.mapM f >>= k' := by
  induction as generalizing k k' with
  | nil => simpa using h [] rfl nofun
  | cons a rest ih =>
    obtain ⟨hfirst, hrest⟩ := List.forall_mem_cons.1 hf
    simp only [List.mapM_cons, bind_assoc, pure_bind]
    refine hfirst _ _ fun b hb => ih hrest fun bs hlength hbs => ?_
    exact h (b :: bs) (congrArg Nat.succ hlength) (List.forall_mem_cons.2 ⟨hb, hbs⟩)

variable {f : Reference → m (Option Tokens)}

mutual

theorem replaceInM_eq_fillIn : ∀ token : Token,
    replaceInM f token = fillIn token <$> (findIn token).mapM f
  | .group delimiter body => by
    rw [replaceInM, replaceM_eq_fill body, findIn]
    simp only [fillIn, map_eq_pure_bind, bind_assoc, pure_bind]
  | .ident _ => by simp [replaceInM, findIn, fillIn]
  | .punct .. => by simp [replaceInM, findIn, fillIn]
  | .literal _ => by simp [replaceInM, findIn, fillIn]

/-- **Replacing asks about the references that are found**, in their order. -/
theorem replaceM_eq_fill : ∀ code : Tokens, replaceM f code = fill code <$> (find code).mapM f
  | [] => by simp [replaceM, find, fill]
  | [token] => by
    rw [replaceM, replaceInM_eq_fillIn token, find]
    simp only [fill, map_eq_pure_bind, bind_assoc, pure_bind]
  | token :: next :: rest => by
    cases hat : at? token next with
    | some reference =>
      rw [replaceM, hat, find_reference hat, replaceM_eq_fill rest]
      simp only [fill, hat, List.mapM_cons, map_eq_pure_bind, bind_assoc, pure_bind]
      rfl
    | none =>
      rw [replaceM, hat, find_cons_of_at? hat, replaceInM_eq_fillIn token, replaceM_eq_fill (next :: rest)]
      simp only [List.mapM_append, map_eq_pure_bind, bind_assoc, pure_bind]
      refine mapM_bind_congr (P := fun _ => True) (fun _ _ _ _ h => bind_congr fun b => h b trivial)
        fun inside hinside _ => bind_congr fun behind => ?_
      simp only [fill, hat]
      rw [← hinside, List.take_left, List.drop_left]

end

/-- Asking what is never answered changes nothing. -/
theorem mapM_bind_of_declines (h : ∀ r, f r = (fun _ => none) <$> f r) {rs : List Reference}
    {k k' : List (Option Tokens) → m γ} (hk : ∀ answers, (∀ answer ∈ answers, answer = none) →
      k answers = k' answers) : (rs.mapM f >>= k) = rs.mapM f >>= k' := by
  refine mapM_bind_congr (P := (· = none)) (fun r _ j j' hj => ?_) fun answers _ => hk answers
  rw [h r, bind_map_left, bind_map_left, hj none rfl]

end

/-! ## Answers in their places -/

mutual

theorem fillIn_eq_self : ∀ (token : Token) {answers : List (Option Tokens)},
    (∀ answer ∈ answers, answer = none) → fillIn token answers = token
  | .group _ body, _, h => by rw [fillIn, fill_eq_self body h]
  | .ident _, _, _ => by simp [fillIn]
  | .punct .., _, _ => by simp [fillIn]
  | .literal _, _, _ => by simp [fillIn]

/-- Code without an answer is what it was. -/
theorem fill_eq_self : ∀ (code : Tokens) {answers : List (Option Tokens)},
    (∀ answer ∈ answers, answer = none) → fill code answers = code
  | [], _, _ => by rw [fill]
  | [token], _, h => by rw [fill, fillIn_eq_self token h]
  | token :: next :: rest, answers, h => by
    cases hat : at? token next with
    | some reference =>
      have hhead : answers.headD none = none := by
        cases answers with
        | nil => rfl
        | cons answer _ => exact h answer List.mem_cons_self
      simp only [fill, hat, hhead]
      rw [fill_eq_self rest fun answer hanswer => h answer (List.mem_of_mem_tail hanswer)]
      rfl
    | none =>
      simp only [fill, hat]
      rw [fillIn_eq_self token fun answer hanswer => h answer (List.mem_of_mem_take hanswer),
        fill_eq_self (next :: rest) fun answer hanswer => h answer (List.mem_of_mem_drop hanswer)]

end

mutual

theorem replaceIn_eq_fillIn (f : Reference → Option Tokens) : ∀ token : Token,
    replaceIn f token = fillIn token ((findIn token).map f)
  | .group _ body => by rw [replaceIn, fillIn, findIn, replace_eq_fill f body]
  | .ident _ => by simp [replaceIn, fillIn]
  | .punct .. => by simp [replaceIn, fillIn]
  | .literal _ => by simp [replaceIn, fillIn]

theorem replace_eq_fill (f : Reference → Option Tokens) : ∀ code : Tokens,
    replace f code = fill code ((find code).map f)
  | [] => by rw [replace, fill]
  | [token] => by rw [replace, fill, find, replaceIn_eq_fillIn f token]
  | token :: next :: rest => by
    cases hat : at? token next with
    | some reference =>
      simp only [replace_reference hat, find_reference hat, fill, hat, replace_eq_fill f rest]
      rfl
    | none =>
      simp only [replace_cons_of_at? hat, find_cons_of_at? hat, fill, hat, List.map_append,
        replaceIn_eq_fillIn f token, replace_eq_fill f (next :: rest)]
      rw [List.take_left' (List.length_map f), List.drop_left' (List.length_map f)]

end

mutual

theorem filled_fillIn : ∀ (token : Token) {answers : List (Option Tokens)} {rest result : Tokens}
    {others : List (Reference × Option Tokens)}, answers.length = (findIn token).length →
    (∀ next, rest.head? = some next → at? token next = none) → Filled rest others result →
    Filled (token :: rest) ((findIn token).zip answers ++ others) (fillIn token answers :: result)
  | .group _ body, _, _, _, _, hlength, _, hothers => by
    rw [findIn] at hlength ⊢
    rw [fillIn]
    exact .group (filled_fill body hlength) hothers
  | .ident _, _, _, _, _, _, hfront, hothers => by
    simp only [findIn, fillIn, List.zip_nil_left, List.nil_append]
    exact .plain (fun _ _ => nofun) hfront hothers
  | .punct .., _, _, _, _, _, hfront, hothers => by
    simp only [findIn, fillIn, List.zip_nil_left, List.nil_append]
    exact .plain (fun _ _ => nofun) hfront hothers
  | .literal _, _, _, _, _, _, hfront, hothers => by
    simp only [findIn, fillIn, List.zip_nil_left, List.nil_append]
    exact .plain (fun _ _ => nofun) hfront hothers

/-- Each answer gets to its place. -/
theorem filled_fill : ∀ (code : Tokens) {answers : List (Option Tokens)},
    answers.length = (find code).length → Filled code ((find code).zip answers) (fill code answers)
  | [], _, _ => by
    rw [find, fill]
    exact .nil
  | [token], answers, hlength => by
    rw [find] at hlength ⊢
    have htoken : Filled [token] ((findIn token).zip answers ++ []) [fillIn token answers] :=
      filled_fillIn token hlength (fun _ => nofun) .nil
    rwa [List.append_nil] at htoken
  | token :: next :: rest, answers, hlength => by
    cases hat : at? token next with
    | some reference =>
      rw [find_reference hat] at hlength ⊢
      obtain ⟨answer, others, rfl⟩ := List.exists_cons_of_length_eq_add_one hlength
      have hrest := filled_fill rest (Nat.succ.inj hlength)
      simp only [fill, hat]
      cases answer with
      | none => exact .kept hat hrest
      | some new => exact .replaced hat hrest
    | none =>
      rw [find_cons_of_at? hat, List.length_append] at hlength
      have hinside : (answers.take (findIn token).length).length = (findIn token).length :=
        List.length_take_of_le (hlength ▸ Nat.le_add_right _ _)
      have hbehind : (answers.drop (findIn token).length).length = (find (next :: rest)).length := by
        rw [List.length_drop, hlength, Nat.add_sub_cancel_left]
      have hzip : (find (token :: next :: rest)).zip answers =
          (findIn token).zip (answers.take (findIn token).length) ++
            (find (next :: rest)).zip (answers.drop (findIn token).length) := by
        rw [find_cons_of_at? hat, ← List.zip_append hinside.symm, List.take_append_drop]
      rw [hzip]
      simp only [fill, hat]
      refine filled_fillIn token hinside ?_ (filled_fill (next :: rest) hbehind)
      rintro _ ⟨⟩
      exact hat

end

/-- **Finding and replacing see the same references.** Replacing asks about what is found, in its order; the
answers get to their places, and code about which nothing is answered stays as it is. -/
theorem replaceM_lockstep (code : Tokens) :
    (∀ {m : Type → Type} [Monad m] [LawfulMonad m] (f : Reference → m (Option Tokens)),
      replaceM f code = fill code <$> (find code).mapM f) ∧
    (∀ answers : List (Option Tokens), answers.length = (find code).length →
      Filled code ((find code).zip answers) (fill code answers)) ∧
    (∀ {m : Type → Type} [Monad m] [LawfulMonad m] (f : Reference → m (Option Tokens)),
      (∀ r, f r = (fun _ => none) <$> f r) →
        replaceM f code = (fun _ => code) <$> (find code).mapM f) ∧
    ∀ f : Reference → Option Tokens, replace f code = fill code ((find code).map f) := by
  refine ⟨fun f => replaceM_eq_fill code, fun answers => filled_fill code, fun f hf => ?_,
    fun f => replace_eq_fill f code⟩
  rw [replaceM_eq_fill code, map_eq_pure_bind, map_eq_pure_bind]
  exact mapM_bind_of_declines hf fun answers hanswers => by rw [fill_eq_self code hanswers]

/-- The code `f($x, { $$y }) $`: a group in a group, a doubled dollar sign, and one at the end. -/
def dollars : Tokens :=
  [.ident "f", .group .parenthesis [.punct '$' .alone, .ident "x", .punct ',' .alone,
    .group .brace [.punct '$' .alone, .punct '$' .alone, .ident "y"]], .punct '$' .alone]

/-- Notes the key of a reference, and puts nothing in its place. -/
def noteKey (reference : Reference) : StateM (List String) (Option Tokens) := do
  modify (· ++ [reference.key])
  return none

theorem dollars_lockstep : StateT.run (replaceM noteKey dollars) [] = (dollars, ["x", "y"]) ∧
    Filled dollars [(.name "x", some [.ident "a"]), (.name "y", none)]
      [.ident "f", .group .parenthesis [.ident "a", .punct ',' .alone,
        .group .brace [.punct '$' .alone, .punct '$' .alone, .ident "y"]], .punct '$' .alone] := by
  constructor
  · rw [(replaceM_lockstep dollars).2.2.1 noteKey fun r => rfl]
    rfl
  · exact (replaceM_lockstep dollars).2.1 [some [.ident "a"], none] rfl

end References

end PredictiveParser
