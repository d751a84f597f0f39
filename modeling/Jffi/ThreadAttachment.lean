import Jffi.ClosureThread

/-!
# Attaching and detaching

Over the whole life of a thread each attachment that jffi makes is undone once, by `closure_end` or
by the destructor of the thread; and no other. But `closure_begin` goes on when it could not attach
the thread, and asks the virtual machine for a pending exception.

## Main definitions

* `Thread.Balanced` — attachments are undone, and the virtual machine is called on attached threads
* `Thread.Refuses` — an attempt to attach a thread fails

## Main results

* `Thread.balanced_iff` — a thread is balanced just when no attempt fails
-/

namespace Jffi

namespace Thread

variable {windows : Bool} {t t' : Thread} {acts : List Act}

/-- Each attachment that jffi makes is undone once, before or when the thread exits; jffi detaches
no thread that it has not attached, and calls the virtual machine on no thread that is not attached.
-/
structure Balanced (t : Thread) : Prop where
  never_ahead : ∀ pre, pre <+: t.log → ∀ r,
    (attachLedger.closed pre).count r ≤ (attachLedger.opened pre).count r
  settled : t.status = .exited → attachLedger.Settled t.log
  owned : ∀ attached pending, .detach attached pending ∈ t.log → attached = some .jffi
  attached : ∀ attached, .jni attached ∈ t.log → attached = true

/-- A closure is called on a thread that is not attached, and cannot be. -/
def Refuses (windows : Bool) (t : Thread) (acts : List Act) : Prop :=
  ∃ before after u, acts = before ++ .invoke false :: after ∧
    runs (step windows) before t = some u ∧ u.attached = none

theorem Turns.owned {held : Bool} {tr : List ThreadEvent} (h : Turns held tr)
    {attached : Option Attacher} {pending : Bool} (hmem : .detach attached pending ∈ tr) :
    attached = some .jffi ∧ pending = false := by
  rcases h.mem _ hmem with h | h | h
  · cases h
  · cases h
    exact ⟨rfl, rfl⟩
  · exact h.elim

theorem Turns.jni {held attached : Bool} {tr : List ThreadEvent} (h : Turns held tr)
    (hmem : .jni attached ∈ tr) : attached = true := by
  rcases h.mem _ hmem with h | h | h
  · cases h
  · cases h
  · exact h

theorem Turns.balanced {held : Bool} (h : Turns held t.log)
    (hexited : t.status = .exited → held = false) :
    t.Balanced where
  never_ahead _ hpre r := h.never_ahead hpre r
  settled hstatus := (hexited hstatus ▸ h).settled
  owned _ _ hmem := (h.owned hmem).1
  attached _ hmem := h.jni hmem

theorem Live.balanced (h : t.Live windows) : t.Balanced :=
  h.turns.balanced fun hexited => by cases h.status.symm.trans hexited

theorem Exited.balanced (h : t.Exited) : t.Balanced := h.turns.balanced fun _ => rfl

theorem Crashed.not_balanced (h : t.Crashed) : ¬t.Balanced := by
  intro hbalanced
  obtain ⟨tr, -, hlog⟩ := h.log
  have hmem : ThreadEvent.jni false ∈ t.log := by
    rw [hlog]
    simp
  exact Bool.false_ne_true (hbalanced.attached _ hmem)

/-- A run in which no thread is refused its attachment ends in no crash. -/
theorem not_crashed_of_runs (h : t.Live windows) (hruns : runs (step windows) acts t = some t')
    (hrefuses : ¬Refuses windows t acts) : t'.Live windows ∨ t'.Exited := by
  induction acts generalizing t with
  | nil =>
    cases hruns
    exact .inl h
  | cons a acts ih =>
    obtain ⟨u, hstep, hrest⟩ := Option.bind_eq_some_iff.mp hruns
    rcases h.step_cases hstep with hlive | hexited | ⟨-, rfl, hattached⟩
    · refine ih hlive hrest fun hrefuses' => hrefuses ?_
      obtain ⟨before, after, v, rfl, hbefore, hattached⟩ := hrefuses'
      refine ⟨a :: before, after, v, rfl, ?_, hattached⟩
      rw [runs_cons, hstep]
      exact hbefore
    · cases acts with
      | nil =>
        cases hrest
        exact .inr hexited
      | cons a' acts =>
        obtain ⟨v, hstep', -⟩ := Option.bind_eq_some_iff.mp hrest
        cases hexited.status.symm.trans (status_of_step hstep')
    · exact absurd ⟨[], acts, t, rfl, rfl, hattached⟩ hrefuses

/-- In a run in which a thread is refused its attachment, the process crashes there, and stays so.
-/
theorem crashed_of_refuses (h : t.Live windows) (hruns : runs (step windows) acts t = some t')
    (hrefuses : Refuses windows t acts) : t'.Crashed := by
  obtain ⟨before, after, u, rfl, hbefore, hattached⟩ := hrefuses
  rw [runs_append_of_eq hbefore] at hruns
  obtain ⟨v, hstep, hrest⟩ := Option.bind_eq_some_iff.mp hruns
  have hcrashed : v.Crashed := by
    rw [step_invoke hstep]
    exact ((h.sound_of_runs hbefore).live hstep).invoke_refused hattached
  cases after with
  | nil =>
    cases hrest
    exact hcrashed
  | cons a after =>
    obtain ⟨w, hstep', -⟩ := Option.bind_eq_some_iff.mp hrest
    cases hcrashed.status.symm.trans (status_of_step hstep')

/-- **Attachments are balanced** in every run in which no attempt to attach the thread fails, and in
no other. -/
theorem balanced_iff (windows : Bool) (ht : t.Fresh)
    (hruns : runs (step windows) acts t = some t') :
    t'.Balanced ↔ ¬Refuses windows t acts := by
  constructor
  · intro hbalanced hrefuses
    exact (crashed_of_refuses (ht.live windows) hruns hrefuses).not_balanced hbalanced
  · intro hrefuses
    rcases not_crashed_of_runs (ht.live windows) hruns hrefuses with h | h
    · exact h.balanced
    · exact h.balanced

/-- A closure on a thread of native code, called back again from its body, and the end of the
thread. -/
theorem balanced_nested :
    ∃ t', runs (step false)
    [.invoke true, .call, .invoke true, .finish true, .ret, .finish false, .exit]
        nativeThread = some t' ∧
      (t'.Balanced ↔ ¬Refuses false nativeThread
        [.invoke true, .call, .invoke true, .finish true, .ret, .finish false, .exit]) :=
  ⟨_, rfl, balanced_iff false (.inr rfl) rfl⟩

/-- A closure on a thread of native code that cannot be attached. -/
theorem not_balanced_refused :
    ∃ t', runs (step false) [.invoke false] nativeThread = some t' ∧ ¬t'.Balanced := by
  refine ⟨_, rfl, fun h => ?_⟩
  exact Bool.false_ne_true (h.attached false (by decide))

end Thread

end Jffi
