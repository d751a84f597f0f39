import Mathlib.Data.List.Infix
import Mathlib.Tactic.Common

/-!
# Runs of a step function

A system that takes one step after another, each for an action that may not be possible where it is.

## Main definitions

* `runs` — the state after some actions
* `Always` — what holds of each action where it is taken

## Main results

* `runs_append` — one run after another
* `runs_invariant` — what each step keeps, a run keeps
* `runs_trace` — what each step appends to, a run appends to
* `Always.of_invariant` — a property of each action from a condition on each action
-/

namespace Jffi

universe u v w

variable {α : Type u} {σ : Type v} {step : α → σ → Option σ} {as as' : List α} {s s' s'' : σ}

/-- The state after some actions, if all of them were possible. -/
def runs (step : α → σ → Option σ) : List α → σ → Option σ
  | [], s => some s
  | a :: as, s => (step a s).bind (runs step as)

@[simp] theorem runs_nil (step : α → σ → Option σ) (s : σ) : runs step [] s = some s := rfl

theorem runs_cons (step : α → σ → Option σ) (a : α) (as : List α) (s : σ) :
    runs step (a :: as) s = (step a s).bind (runs step as) := rfl

/-- A run of one list of actions and then another is the run of both from where the first has ended.
-/
theorem runs_append (as as' : List α) (s : σ) :
    runs step (as ++ as') s = (runs step as s).bind (runs step as') := by
  induction as generalizing s with
  | nil => rfl
  | cons a as ih =>
    rw [List.cons_append, runs_cons, runs_cons, Option.bind_assoc]
    exact congrArg (step a s).bind (funext ih)

theorem runs_append_of_eq (h : runs step as s = some s') :
    runs step (as ++ as') s = runs step as' s' := by
  rw [runs_append, h, Option.bind_some]

/-- What each step keeps holds when a run has ended. -/
theorem runs_invariant {I : σ → Prop} (hstep : ∀ a s s', I s → step a s = some s' → I s') (hI : I s)
    (h : runs step as s = some s') : I s' := by
  induction as generalizing s with
  | nil =>
    cases h
    exact hI
  | cons a as ih =>
    obtain ⟨s₁, hhead, htail⟩ := Option.bind_eq_some_iff.mp h
    exact ih (hstep a s s₁ hI hhead) htail

/-- If each step only appends to a trace, a run only appends to it. -/
theorem runs_trace {ε : Type w} {trace : σ → List ε}
    (hstep : ∀ a s s', step a s = some s' → trace s <+: trace s') (h : runs step as s = some s') :
    trace s <+: trace s' := by
  induction as generalizing s with
  | nil =>
    cases h
    exact List.prefix_rfl
  | cons a as ih =>
    obtain ⟨s₁, hhead, htail⟩ := Option.bind_eq_some_iff.mp h
    exact (hstep a s s₁ hhead).trans (ih htail)

/-- Each action of a run is as it should be where it is taken. -/
def Always (step : α → σ → Option σ) (P : α → σ → Prop) : List α → σ → Prop
  | [], _ => True
  | a :: as, s => P a s ∧ ∀ s', step a s = some s' → Always step P as s'

instance Always.decidable {P : α → σ → Prop} [∀ a s, Decidable (P a s)] :
    ∀ as s, Decidable (Always step P as s)
  | [], _ => .isTrue trivial
  | a :: as, s =>
    match hs : step a s with
    | none => decidable_of_iff (P a s)
        ⟨fun h => ⟨h, fun s' hs' => by cases hs.symm.trans hs'⟩, And.left⟩
    | some s' =>
      have : Decidable (Always step P as s') := Always.decidable as s'
      decidable_of_iff (P a s ∧ Always step P as s')
        ⟨fun h => ⟨h.1, fun u hu => by cases hs.symm.trans hu; exact h.2⟩,
          fun h => ⟨h.1, h.2 s' hs⟩⟩

/-- **What an invariant gives**, when the condition on each action keeps it. -/
theorem Always.of_invariant {I : σ → Prop} {C P : α → σ → Prop}
    (hP : ∀ a s, I s → C a s → P a s)
    (hstep : ∀ a s s', I s → C a s → step a s = some s' → I s') (hI : I s)
    (h : Always step C as s) : Always step P as s := by
  induction as generalizing s with
  | nil => trivial
  | cons a as ih =>
    obtain ⟨hC, hrest⟩ := h
    exact ⟨hP a s hI hC, fun s' hs' => ih (hstep a s s' hI hC hs') (hrest s' hs')⟩

theorem Always.of_runs {P : α → σ → Prop} {a : α} (h : Always step P (as ++ a :: as') s)
    (hruns : runs step as s = some s') : P a s' := by
  induction as generalizing s with
  | nil =>
    cases hruns
    exact h.1
  | cons b as ih =>
    obtain ⟨s₁, hhead, htail⟩ := Option.bind_eq_some_iff.mp hruns
    exact ih (h.2 s₁ hhead) htail

theorem Always.and_of_mem {P : α → σ → Prop} {Q : α → Prop} (hQ : ∀ a ∈ as, Q a)
    (h : Always step P as s) : Always step (fun a s => P a s ∧ Q a) as s := by
  induction as generalizing s with
  | nil => trivial
  | cons a as ih =>
    obtain ⟨hP, hrest⟩ := h
    exact ⟨⟨hP, hQ a List.mem_cons_self⟩, fun s' hs' =>
      ih (fun a' ha' => hQ a' (List.mem_cons_of_mem a ha')) (hrest s' hs')⟩

end Jffi
