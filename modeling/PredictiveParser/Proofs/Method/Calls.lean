import PredictiveParser.Proofs.Method.Matching

/-!
# Called methods

`Stmt.callees` lists the methods that statements call. A run depends on no others
(`Runs.congr_callees`).
-/
namespace PredictiveParser

def Snippet.callee? : Snippet → Option (Form × String)
  | .callRule method _ => some (.parser, method)
  | .callRecognizer method => some (.recognizer, method)
  | _ => none

namespace Stmt

mutual

def callees : Stmt → List (Form × String)
  | .snippet s => s.callee?.toList
  | .ifElse _ thenBody elseBody => calleesOf thenBody ++ calleesOf elseBody
  | .loop _ body => calleesOf body
  | .labeled _ body => calleesOf body
  | .breakTo _ => []
  | .continueTo _ => []
  | .switch _ cases fallback => calleesOfCases cases ++ calleesOf fallback

def calleesOf : List Stmt → List (Form × String)
  | [] => []
  | stmt :: rest => stmt.callees ++ calleesOf rest

def calleesOfCases : List (CharSet × List Stmt) → List (Form × String)
  | [] => []
  | (_, body) :: rest => calleesOf body ++ calleesOfCases rest

end

end Stmt

def Block.callees : Block → List (Form × String)
  | .stmt one => one.callees
  | .all stmts => Stmt.calleesOf stmts

section

variable {σ : Type} [Source σ] {values : CheckValues σ}
  {call call' : Form → String → σ → Bool → σ → Prop} {s : Running σ} {o : Outcome σ}

theorem calleesOf_chosenCase (c : Int) (fallback : List Stmt) (cases : List (CharSet × List Stmt)) :
    Stmt.calleesOf (chosenCase c fallback cases) ⊆
      Stmt.calleesOfCases cases ++ Stmt.calleesOf fallback := by
  induction cases with
  | nil => exact List.Subset.refl _
  | cons first rest ih =>
    obtain ⟨set, body⟩ := first
    rw [chosenCase, Stmt.calleesOfCases, List.append_assoc]
    split
    · exact List.subset_append_left _ _
    · exact List.subset_append_of_subset_right _ ih

theorem Snippet.Does.congr_callees {snippet : Snippet} (h : snippet.Does (.quiet values call) s o)
    (hcall : ∀ form name, (form, name) ∈ snippet.callee?.toList → ∀ s ok t,
      call form name s ok t → call' form name s ok t) :
    snippet.Does (.quiet values call') s o := by
  cases snippet with
  | callRule method saver =>
    obtain ⟨ok, t, ht, ho⟩ := h
    exact ⟨ok, t, hcall _ _ List.mem_cons_self _ _ _ ht, ho⟩
  | callRecognizer method =>
    obtain ⟨ok, t, ht, ho⟩ := h
    exact ⟨ok, t, hcall _ _ List.mem_cons_self _ _ _ ht, ho⟩
  | _ => exact h

/-- **A run depends on the methods that are called**, and on no others. -/
theorem Runs.congr_callees {block : Block} (h : Runs (.quiet values call) block s o)
    (hcall : ∀ form name, (form, name) ∈ block.callees → ∀ s ok t,
      call form name s ok t → call' form name s ok t) :
    Runs (.quiet values call') block s o := by
  induction h with
  | nil => exact .nil
  | cons first others ih₁ ih₂ =>
    refine .cons (ih₁ fun form name hc => ?_) (ih₂ fun form name hc => ?_)
    · exact hcall form name (List.mem_append_left _ hc)
    · exact hcall form name (List.mem_append_right _ hc)
  | stop first abrupt ih =>
    exact .stop (ih fun form name hc => hcall form name (List.mem_append_left _ hc)) abrupt
  | snippet does => exact .snippet (does.congr_callees hcall)
  | @ifElse test thenBody elseBody value s o tested body ih =>
    have hvalue : test.value? (.quiet values call') s = some value := by
      rw [← tested]
      cases test <;> rfl
    refine .ifElse hvalue (ih fun form name hc => hcall form name ?_)
    cases value with
    | true => exact List.mem_append_left _ hc
    | false => exact List.mem_append_right _ hc
  | again once goesOn next ih₁ ih₂ => exact .again (ih₁ hcall) goesOn (ih₂ hcall)
  | leave once left ih => exact .leave (ih hcall) left
  | labeled inside left ih => exact .labeled (ih hcall) left
  | breakTo => exact .breakTo
  | continueTo => exact .continueTo
  | @switch subject cases fallback c s o looked body ih =>
    refine .switch looked (ih fun form name hc => hcall form name ?_)
    exact calleesOf_chosenCase c fallback cases hc

end

end PredictiveParser
