import Jffi.ClosureThread

/-!
# Exceptions of closures

When the body of a closure throws, the exception is to stay pending if Java code is below the
closure, which will get it when control returns there; and else to be cleared, since nobody is there
to get it. `closure_end` does not look at the stack: it clears the exception if it detaches the
thread, or if the thread stays attached until it exits.

## Main definitions

* `Thread.InBody` — the body of a closure runs
* `Thread.Kept`, `Thread.Cleared` — what becomes of an exception
* `Thread.HandledAlike` — after two histories it is what it should be
* `Thread.Loses`, `Thread.Leaves` — the exception disappears, or does not

## Main results

* `Thread.kept_iff`, `Thread.cleared_iff` — one history
* `Thread.handledAlike_iff` — two histories
-/

namespace Jffi

namespace Thread

variable {windows : Bool} {t t' : Thread} {acts : List Act} {below : List StackFrame}

/-- The body of a closure runs, on top of the frames `below`. -/
def InBody (t : Thread) (below : List StackFrame) : Prop :=
  t.status = .running ∧ ∃ detach, t.stack = .java :: .closure detach :: .native :: below

/-- If the body throws and its closure then returns to native code, which returns to Java, the
exception is still pending there. -/
def Kept (windows : Bool) (t : Thread) : Prop :=
  ∀ e r, t.step windows (.finish true) = some e → e.step windows .ret = some r →
    r.log = e.log ++ [.returns true]

/-- The moments at which an exception must be over, and whether one is pending then: the thread is
detached, or the body of a closure starts. -/
def gate : ThreadEvent → Option Bool
  | .detach _ pending | .otherDetached pending | .body pending => some pending
  | _ => none

/-- If the body throws, then whatever happens, the exception is not pending any more when the thread
is next detached or the next closure starts. -/
def Cleared (windows : Bool) (t : Thread) : Prop :=
  ∀ e acts r tr, t.step windows (.finish true) = some e →
    runs (Thread.step windows) acts e = some r → r.log = t.log ++ tr → tr.findSome? gate ≠ some true

/-- After both histories the exception of a closure is kept if Java code is below, and cleared if
not. -/
def HandledAlike (windows : Bool) (t₁ t₂ : Thread) (below₁ below₂ : List StackFrame) : Prop :=
  (.java ∈ below₁ → .java ∈ below₂ → Kept windows t₁ ∧ Kept windows t₂) ∧
    (.java ∉ below₁ → .java ∉ below₂ → Cleared windows t₁ ∧ Cleared windows t₂)

/-- Java code is below the closure on a thread that jffi has attached so often that it stays
attached. -/
def Loses (windows : Bool) (t : Thread) (below : List StackFrame) : Prop :=
  windows = false ∧ .java ∈ below ∧ THREAD_ATTACH_THRESHOLD < t.attaches

/-- No Java code is below the closure on a thread that other native code has attached. -/
def Leaves (t : Thread) (below : List StackFrame) : Prop :=
  .java ∉ below ∧ t.attached = some .other

/-! ### The end of a closure -/

theorem Live.of_inBody (h : t.Sound windows) (hbody : t.InBody below) : t.Live windows := by
  rcases h with h | h | h
  · exact h
  · cases h.status.symm.trans hbody.1
  · cases h.status.symm.trans hbody.1

theorem step_finish {detach : Bool} {stack : List StackFrame} (hrunning : t.status = .running)
    (hstack : t.stack = .java :: .closure detach :: stack) (throws : Bool) :
    t.step windows (.finish throws) = some (t.finish windows detach throws stack) := by
  simp only [step]
  rw [hrunning, hstack]

theorem step_ret (hrunning : t.status = .running) {stack : List StackFrame}
    (hstack : t.stack = .native :: .java :: stack) :
    t.step windows .ret =
      some { t.logged (.returns t.pending) with stack := .java :: stack, pending := false } := by
  simp only [step]
  rw [hrunning, hstack]

/-- What is left of an exception when a closure returns that does not detach its thread. -/
theorem finish_stays (stack : List StackFrame) :
    (t.finish windows false true stack).pending = !(!windows && t.data.attachedVm) ∧
      (t.finish windows false true stack).stack = stack ∧
      (t.finish windows false true stack).status = t.status := by
  obtain ⟨-, -, hpending, hstack, hstatus, -⟩ := clearException_spec (t.atEnd true stack)
  rw [finish_eq, closureEnd_stays, show (t.atEnd true stack).data = t.data from rfl]
  cases hkept : !windows && t.data.attachedVm with
  | true =>
    rw [if_pos rfl]
    exact ⟨hpending, hstack, hstatus⟩
  | false =>
    rw [if_neg Bool.false_ne_true]
    exact ⟨rfl, rfl, rfl⟩

/-- Who has attached the thread when the outermost closure has returned. -/
theorem finish_attached (detach throws : Bool) :
    (t.finish windows detach throws [.native]).attached = if detach then none else t.attached := by
  obtain ⟨hattached, -, -, hstack, -⟩ := clearException_spec (t.atEnd throws [.native])
  rw [finish_eq]
  cases detach with
  | true =>
    rw [closureEnd_detaches, detachCurrentThread, hstack]
    rfl
  | false =>
    rw [closureEnd_stays]
    split
    · exact hattached
    · rfl

/-- **With Java code below** the exception is kept unless the thread stays attached by jffi. -/
theorem kept_iff (h : t.Live windows) (hbody : t.InBody below) (hjava : .java ∈ below) :
    Kept windows t ↔ ¬Loses windows t below := by
  obtain ⟨hrunning, detach, hstack⟩ := hbody
  have hshaped := h.shaped
  rw [hstack] at hshaped
  cases hshaped with
  | @invoke _ _ hdetach hnative =>
    cases hnative with
    | native => exact absurd hjava List.not_mem_nil
    | @call stack _ =>
      have hstays : detach = false := by
        cases detach with
        | false => rfl
        | true => cases hdetach rfl
      obtain rfl := hstays
      obtain ⟨hpending, hstack', hstatus⟩ :=
        @finish_stays windows t (.native :: .java :: stack)
      have hfinish := @step_finish windows t _ _ hrunning hstack true
      have hret := @step_ret windows _ (hstatus.trans hrunning) _ hstack'
      have hkept : Kept windows t ↔ (!(!windows && t.data.attachedVm)) = true := by
        rw [← hpending]
        constructor
        · intro hkept
          have hlog := List.append_cancel_left (hkept _ _ hfinish hret)
          exact ThreadEvent.returns.inj (List.cons.inj hlog).1
        · intro hstill e r he hr
          rw [hfinish] at he
          cases he
          rw [hret] at hr
          cases hr
          rw [hstill]
          rfl
      rw [hkept]
      cases hw : windows with
      | true => exact iff_of_true rfl fun hloses => nomatch hloses.1
      | false =>
        rw [Loses, ← h.threshold hw]
        cases t.data.attachedVm with
        | true => exact iff_of_false nofun fun hnot => hnot ⟨rfl, hjava, rfl⟩
        | false => exact iff_of_true rfl fun hloses => nomatch hloses.2.2

/-! ### The log -/

/-- From one state to a later one the log has grown, and the first moment in it at which an
exception must be over is `g`. -/
def Gates (t t' : Thread) (g : Option Bool) : Prop :=
  ∃ tr, t'.log = t.log ++ tr ∧ tr.findSome? gate = g

namespace Gates

variable {u v : Thread} {g g' : Option Bool}

theorem same (h : u.log = t.log) : Gates t u none := ⟨[], by rw [h, List.append_nil], rfl⟩

theorem logged (t : Thread) (e : ThreadEvent) : Gates t (t.logged e) (gate e) := by
  refine ⟨[e], rfl, ?_⟩
  cases h : gate e with
  | none => simp [h]
  | some pending => simp [h]

theorem trans (h : Gates t u g) (h' : Gates u v g') : Gates t v (g.or g') := by
  obtain ⟨tr, hlog, hfirst⟩ := h
  obtain ⟨tr', hlog', hfirst'⟩ := h'
  refine ⟨tr ++ tr', ?_, ?_⟩
  · rw [hlog', hlog, List.append_assoc]
  · rw [List.findSome?_append, hfirst, hfirst']

theorem unique (h : Gates t u g) {tr : List ThreadEvent} (hlog : u.log = t.log ++ tr) :
    tr.findSome? gate = g := by
  obtain ⟨tr', hlog', hfirst⟩ := h
  rw [List.append_cancel_left (hlog.symm.trans hlog')]
  exact hfirst

theorem jniCall (t : Thread) : Gates t t.jniCall none := logged t _

theorem clearException (t : Thread) : Gates t t.clearException none := by
  rw [Thread.clearException]
  split
  · exact (logged t _).trans (logged t.jniCall _)
  · exact logged t _

theorem detachCurrentThread (t : Thread) : Gates t t.detachCurrentThread (some t.pending) := by
  simp only [Thread.detachCurrentThread]
  split
  · exact logged t _
  · exact logged t _

theorem closureEnd (detach : Bool) (t : Thread) :
    Gates t (t.closureEnd windows detach) (if detach then some false else none) := by
  cases detach with
  | true =>
    have hpending := (clearException_spec t).2.2.1
    rw [closureEnd_detaches]
    exact hpending ▸ (clearException t).trans (detachCurrentThread t.clearException)
  | false =>
    rw [closureEnd_stays]
    split
    · exact clearException t
    · exact same rfl

theorem finish (detach throws : Bool) (stack : List StackFrame) (t : Thread) :
    Gates t (t.finish windows detach throws stack) (if detach then some false else none) :=
  (logged t _).trans (closureEnd detach (t.atEnd throws stack))

theorem dataFree (t : Thread) :
    Gates t t.dataFree (if t.data.attachedVm then some t.pending else none) := by
  rw [Thread.dataFree]
  cases t.data.attachedVm with
  | true => exact detachCurrentThread t
  | false => exact same rfl

/-- A closure that begins runs its body with nothing pending, or crashes. -/
theorem invoke (answers : Bool) (t : Thread) (hrunning : t.status = .running) :
    Gates t (t.invoke windows answers) (some false) ∨
      Gates t (t.invoke windows answers) none ∧ (t.invoke windows answers).status = .crashed := by
  by_cases hattached : t.attached = none
  · cases answers with
    | true =>
      have hattach : Gates t (t.newlyAttached.countAttach windows true).2 none := by
        refine ⟨[.attach], ?_, rfl⟩
        rw [countAttach]
        split
        · dsimp only
          split <;> rfl
        · rfl
      obtain ⟨-, -, hpending, -, hstatus, -⟩ :=
        clearException_spec (t.newlyAttached.countAttach windows true).2
      refine .inl ?_
      rw [invoke_running (Thread.closureBegin_attaches hattached) (hstatus.trans ?_)]
      · have hbody := (hattach.trans (clearException _)).trans (jniCall _)
        exact hpending ▸ hbody.trans (logged _ (.body _))
      · rw [countAttach]
        split
        · dsimp only
          split <;> exact hrunning
        · exact hrunning
    | false =>
      refine .inr ?_
      rw [Thread.invoke, closureBegin_refused hattached]
      exact ⟨(logged t .attachFails).trans (jniCall _), rfl⟩
  · obtain ⟨-, -, hpending, -, hstatus, -⟩ := clearException_spec t
    refine .inl ?_
    rw [invoke_running (closureBegin_attached answers hattached) (hstatus.trans hrunning)]
    have hbody := (clearException t).trans (jniCall _)
    exact hpending ▸ hbody.trans (logged _ (.body _))

/-- Whatever happens to a thread, its log only grows; what is added has a first moment at which an
exception must be over, or none. -/
theorem step {a : Act} (hstep : t.step windows a = some t') : ∃ g, Gates t t' g := by
  unfold Thread.step at hstep
  split at hstep
  · rename_i hrunning
    split at hstep
    · cases hstep
      exact ⟨none, same rfl⟩
    · cases hstep
      exact ⟨none, logged t _⟩
    · cases hstep
      rcases invoke _ t hrunning with h | ⟨h, -⟩
      · exact ⟨_, h⟩
      · exact ⟨_, h⟩
    · cases hstep
      exact ⟨_, finish _ _ _ t⟩
    · split at hstep
      · cases hstep
        exact ⟨none, same rfl⟩
      · cases hstep
    · split at hstep
      · cases hstep
        exact ⟨_, logged t (.otherDetached _)⟩
      · cases hstep
    · cases hstep
      unfold Thread.exit
      dsimp only
      split
      · exact ⟨_, dataFree _⟩
      · exact ⟨_, dataFree _⟩
    · cases hstep
  · cases hstep

theorem runs {acts : List Act} (h : Jffi.runs (Thread.step windows) acts t = some t') :
    t.log <+: t'.log :=
  runs_trace (fun _ _ _ hstep => by
    obtain ⟨_, tr, hlog, -⟩ := Gates.step hstep
    exact ⟨tr, hlog.symm⟩) h

end Gates

/-- Nothing is pending, on a thread whose closures are over; or the thread has ended. -/
def Calm (t : Thread) : Prop :=
  t.status ≠ .running ∨ t.stack = [.native] ∧ (t.pending = false ∨ t.attached = some .jvm)

/-- A calm thread stays so, until it is detached or a closure starts, with nothing pending. -/
theorem Calm.step (h : t.Calm) {a : Act} (hstep : t.step windows a = some t') :
    Gates t t' (some false) ∨ Gates t t' none ∧ t'.Calm := by
  rcases h with hended | ⟨hstack, hpending⟩
  · exact absurd (status_of_step hstep) hended
  unfold Thread.step at hstep
  rw [hstack] at hstep
  split at hstep
  · rename_i hrunning
    cases a with
    | call => cases hstep
    | ret => cases hstep
    | finish => cases hstep
    | invoke answers =>
      cases hstep
      rcases Gates.invoke answers t hrunning with h | ⟨h, hcrashed⟩
      · exact .inl h
      · exact .inr ⟨h, .inl (by rw [hcrashed]; nofun)⟩
    | otherAttach =>
      dsimp only at hstep
      split at hstep
      · rename_i hattached
        cases hstep
        have hcalm := hpending.resolve_right (by rw [hattached]; nofun)
        exact .inr ⟨.same rfl, .inr ⟨rfl, .inl hcalm⟩⟩
      · cases hstep
    | otherDetach =>
      dsimp only at hstep
      split at hstep
      · rename_i hattached
        cases hstep
        refine .inl ?_
        have hcalm := hpending.resolve_right (by rw [hattached]; nofun)
        exact hcalm ▸ Gates.logged t (.otherDetached t.pending)
      · cases hstep
    | exit =>
      cases hstep
      have hended : t.exit.Calm := .inl nofun
      have hquiet : ∀ {u : Thread}, u.pending = false →
          Gates u u.dataFree (some false) ∨ Gates u u.dataFree none := by
        intro u hu
        have hfree := Gates.dataFree u
        rw [hu] at hfree
        cases hvm : u.data.attachedVm with
        | true =>
          rw [hvm] at hfree
          exact .inl hfree
        | false =>
          rw [hvm] at hfree
          exact .inr hfree
      suffices Gates t t.exit (some false) ∨ Gates t t.exit none from
        this.imp_right fun h => ⟨h, hended⟩
      unfold Thread.exit
      dsimp only
      split
      · exact hquiet rfl
      · rename_i hjvm
        exact hquiet (hpending.resolve_right hjvm)
  · cases hstep

/-- **A calm thread** has nothing pending when it is next detached or the next closure starts. -/
theorem Calm.of_runs {acts : List Act} (h : t.Calm)
    (hruns : runs (Thread.step windows) acts t = some t') :
    Gates t t' (some false) ∨ Gates t t' none := by
  induction acts generalizing t with
  | nil =>
    cases hruns
    exact .inr (.same rfl)
  | cons a acts ih =>
    obtain ⟨u, hstep, hrest⟩ := Option.bind_eq_some_iff.mp hruns
    rcases h.step hstep with hgate | ⟨hgate, hcalm⟩
    · obtain ⟨tr, hlog⟩ := Gates.runs hrest
      exact .inl (hgate.trans ⟨tr, hlog.symm, rfl⟩)
    · rcases ih hcalm hrest with hrest | hrest
      · exact .inl (hgate.trans hrest)
      · exact .inr (hgate.trans hrest)

/-- A closure without Java code below it is the only one on the stack of its thread. -/
theorem Live.alone (h : t.Live windows) {detach : Bool}
    (hstack : t.stack = .java :: .closure detach :: .native :: below) (hjava : .java ∉ below) :
    below = [] := by
  have hshaped := h.shaped
  rw [hstack] at hshaped
  cases hshaped with
  | invoke _ hnative =>
    cases hnative with
    | native => rfl
    | call => exact absurd (List.mem_cons_self ..) hjava

/-- **Without Java code below** the exception is cleared unless other native code has attached the
thread. -/
theorem cleared_iff (h : t.Live windows) (hbody : t.InBody below) (hjava : .java ∉ below) :
    Cleared windows t ↔ ¬Leaves t below := by
  obtain ⟨hrunning, detach, hstack⟩ := hbody
  obtain rfl := h.alone hstack hjava
  have hfinish := @step_finish windows t detach [.native] hrunning hstack true
  have hattached : t.attached ≠ none := h.attached (by rw [hstack]; simp)
  have houter := h.outermost
  rw [hstack] at houter
  constructor
  · rintro hcleared ⟨-, hother⟩
    -- the native code detaches the thread again, and the exception is still pending
    have hstays : detach = false := by
      cases detach with
      | false => rfl
      | true => cases hother.symm.trans (houter.mp (by simp)).1
    obtain rfl := hstays
    have hvm : t.data.attachedVm = false := by
      by_contra hvm
      cases hother.symm.trans (h.cached (by simpa using hvm))
    have hend : t.finish windows false true [.native] = t.atEnd true [.native] := by
      rw [finish_eq, closureEnd_stays, show (t.atEnd true [.native]).data = t.data from rfl, hvm]
      simp
    rw [hend] at hfinish
    have hdetach : runs (Thread.step windows) [.otherDetach] (t.atEnd true [.native]) =
        some { (t.atEnd true [.native]).logged (.otherDetached true) with
          attached := none, pending := false } := by
      have hstep : (t.atEnd true [.native]).step windows .otherDetach =
          some { (t.atEnd true [.native]).logged (.otherDetached true) with
            attached := none, pending := false } := by
        rw [Thread.step, show (t.atEnd true [.native]).status = .running from hrunning]
        · exact if_pos hother
        · rfl
      rw [runs_cons, hstep]
      rfl
    exact hcleared _ _ _ [.jni t.attached.isSome, .otherDetached true] hfinish hdetach
      (List.append_assoc ..) rfl
  · intro hleaves e acts r tr he hr hlog
    rw [hfinish] at he
    cases he
    have hgate := @Gates.finish windows detach true [.native] t
    cases detach with
    | true =>
      obtain ⟨tr', hlog'⟩ := Gates.runs hr
      rw [(hgate.trans ⟨tr', hlog'.symm, rfl⟩).unique hlog]
      intro hgates
      cases hgates
    | false =>
      obtain ⟨hpending, hstack', -⟩ := @finish_stays windows t [.native]
      have hcalm : (t.finish windows false true [.native]).Calm := by
        refine .inr ⟨hstack', ?_⟩
        rw [hpending, finish_attached, if_neg Bool.false_ne_true]
        cases hwho : t.attached with
        | none => exact absurd hwho hattached
        | some who =>
          cases who with
          | jvm => exact .inr rfl
          | other => exact absurd ⟨hjava, hwho⟩ hleaves
          | jffi =>
            -- no closure is to detach the thread, so it stays attached
            have hvm : t.data.attachedVm = true := by
              by_contra hvm
              have hdetaches := houter.mpr ⟨hwho, by simpa using hvm⟩
              revert hdetaches
              decide
            cases hw : windows with
            | true => cases hvm.symm.trans (h.windows hw)
            | false =>
              rw [hvm]
              exact .inl rfl
      rcases hcalm.of_runs hr with hrest | hrest
      · rw [(hgate.trans hrest).unique hlog]
        intro hgates
        cases hgates
      · rw [(hgate.trans hrest).unique hlog]
        intro hgates
        cases hgates

/-- **After two histories** the exception of a closure is handled alike, as it should be, if and
only if neither of them makes it disappear, or leaves it. -/
theorem handledAlike_iff {t₁ t₂ u₁ u₂ : Thread} {acts₁ acts₂ : List Act}
    {below₁ below₂ : List StackFrame} (ht₁ : t₁.Fresh) (ht₂ : t₂.Fresh)
    (h₁ : runs (step windows) acts₁ t₁ = some u₁) (h₂ : runs (step windows) acts₂ t₂ = some u₂)
    (hbody₁ : u₁.InBody below₁) (hbody₂ : u₂.InBody below₂)
    (hjava : .java ∈ below₁ ↔ .java ∈ below₂) :
    HandledAlike windows u₁ u₂ below₁ below₂ ↔
      (¬Loses windows u₁ below₁ ∧ ¬Loses windows u₂ below₂) ∧ ¬Leaves u₁ below₁ ∧
      ¬Leaves u₂ below₂ := by
  have hlive₁ := Live.of_inBody ((ht₁.live windows).sound_of_runs h₁) hbody₁
  have hlive₂ := Live.of_inBody ((ht₂.live windows).sound_of_runs h₂) hbody₂
  by_cases hbelow : .java ∈ below₁
  · have hbelow₂ := hjava.mp hbelow
    rw [← kept_iff hlive₁ hbody₁ hbelow, ← kept_iff hlive₂ hbody₂ hbelow₂]
    constructor
    · intro h
      exact ⟨h.1 hbelow hbelow₂, fun hleaves => hleaves.1 hbelow, fun hleaves => hleaves.1 hbelow₂⟩
    · rintro ⟨hkept, -⟩
      exact ⟨fun _ _ => hkept, fun hnot => absurd hbelow hnot⟩
  · have hbelow₂ := mt hjava.mpr hbelow
    rw [← cleared_iff hlive₁ hbody₁ hbelow, ← cleared_iff hlive₂ hbody₂ hbelow₂]
    constructor
    · intro h
      exact ⟨⟨fun hloses => hbelow hloses.2.1, fun hloses => hbelow₂ hloses.2.1⟩,
        h.2 hbelow hbelow₂⟩
    · rintro ⟨-, hcleared⟩
      exact ⟨fun hmem => absurd hmem hbelow, fun _ _ => hcleared⟩

/-- On a thread of Java, and on one of native code that calls a closure whose body calls another. -/
theorem handledAlike_nested :
    ∃ u₁ u₂, runs (step false) [.call, .invoke true] javaThread = some u₁ ∧
      runs (step false) [.invoke true, .call, .invoke true] nativeThread = some u₂ ∧
      (HandledAlike false u₁ u₂ [.java] [.java, .closure true, .native] ↔
        (¬Loses false u₁ [.java] ∧ ¬Loses false u₂ [.java, .closure true, .native]) ∧
          ¬Leaves u₁ [.java] ∧ ¬Leaves u₂ [.java, .closure true, .native]) := by
  refine ⟨_, _, rfl, rfl, ?_⟩
  have h₁ : runs (step false) [.call, .invoke true] javaThread = _ := rfl
  have h₂ : runs (step false) [.invoke true, .call, .invoke true] nativeThread = _ := rfl
  exact handledAlike_iff (.inl rfl) (.inr rfl) h₁ h₂ ⟨rfl, false, rfl⟩ ⟨rfl, false, rfl⟩ (by decide)

/-! ### A long history -/

theorem attaches_mono {acts : List Act} (h : runs (step windows) acts t = some t') :
    t.attaches ≤ t'.attaches := by
  obtain ⟨tr, hlog⟩ := Gates.runs h
  rw [attaches, attaches, ← hlog, Ledger.opened_append, List.length_append]
  exact Nat.le_add_right ..

/-- The end of a closure leaves the stack to its caller, and attaches nothing. -/
theorem finish_spec (detach throws : Bool) (stack : List StackFrame) :
    (t.finish windows detach throws stack).stack = stack ∧
      (t.finish windows detach throws stack).attaches = t.attaches := by
  obtain ⟨-, -, -, hstack, -, hattaches⟩ := clearException_spec (t.atEnd throws stack)
  have hend : (t.atEnd throws stack).attaches = t.attaches := attaches_logged rfl
  rw [finish_eq]
  cases detach with
  | true =>
    rw [closureEnd_detaches, detachCurrentThread]
    have hsame := @attaches_logged (t.atEnd throws stack).clearException
      (.detach (t.atEnd throws stack).clearException.attached
        (t.atEnd throws stack).clearException.pending) rfl
    split
    · exact ⟨hstack, hsame.trans (hattaches.trans hend)⟩
    · exact ⟨hstack, hsame.trans (hattaches.trans hend)⟩
  | false =>
    rw [closureEnd_stays]
    split
    · exact ⟨hstack, hattaches.trans hend⟩
    · exact ⟨rfl, hend⟩

/-- A closure is called on a thread of native code that is not attached, and returns. -/
theorem Live.exists_round (h : t.Live false) (hstack : t.stack = [.native])
    (hattached : t.attached = none) :
    ∃ u : Thread, runs (Thread.step false) [.invoke true, .finish false] t = some u ∧ u.Live false ∧
      u.stack = [.native] ∧ u.attaches = t.attaches + 1 ∧
      (u.attached = none ∨ u.attached = some .jffi) := by
  obtain ⟨u, hbegin, hu, -, hrunning, -, hattaches, -⟩ := h.closureBegin_attaches hattached
  have hlive := h.invoke_attaches hattached
  have hinvoke := invoke_running hbegin hrunning
  have hbody : (t.invoke false true).stack = [.java, .closure (!u.data.attachedVm), .native] := by
    rw [hinvoke, hstack]
  have hcount : (t.invoke false true).attaches = t.attaches + 1 := by
    rw [hinvoke]
    exact (@attaches_logged u.jniCall _ rfl).trans ((attaches_logged rfl).trans hattaches)
  have hjffi : (t.invoke false true).attached = some .jffi := by
    rw [hinvoke]
    exact hu
  obtain ⟨hstack', hattaches'⟩ :=
    @finish_spec false (t.invoke false true) (!u.data.attachedVm) false [.native]
  refine ⟨_, ?_, hlive.finish hbody false, hstack', hattaches'.trans hcount, ?_⟩
  · have hstep : t.step false (.invoke true) = some (t.invoke false true) := by
      simp only [Thread.step]
      rw [h.status, hstack]
    rw [runs_cons, hstep, Option.bind_some, runs_cons, step_finish hlive.status hbody]
    rfl
  · rw [finish_attached, hjffi]
    cases !u.data.attachedVm with
    | true => exact .inl rfl
    | false => exact .inr rfl

/-- A thread of native code, after closures have been called on it so often. -/
theorem exists_rounds (n : ℕ) :
    ∃ acts, ∃ u : Thread, runs (step false) acts nativeThread = some u ∧ u.Live false ∧
      u.stack = [.native] ∧ (u.attached = none ∨ u.attached = some .jffi) ∧
      (n ≤ u.attaches ∨ THREAD_ATTACH_THRESHOLD < u.attaches) := by
  induction n with
  | zero =>
    exact ⟨[], nativeThread, rfl, live_nativeThread false, rfl, .inl rfl, .inl (Nat.zero_le _)⟩
  | succ n ih =>
    obtain ⟨acts, u, hruns, hlive, hstack, hattached | hjffi, hmany⟩ := ih
    · obtain ⟨v, hround, hlive', hstack', hcount, hattached'⟩ := hlive.exists_round hstack hattached
      refine ⟨acts ++ [.invoke true, .finish false], v, ?_, hlive', hstack', hattached', ?_⟩
      · rw [runs_append_of_eq hruns, hround]
      · omega
    · -- a thread that no closure will detach is attached for good
      have hvm : u.data.attachedVm = true := by
        by_contra hvm
        have hdetaches := hlive.outermost.mpr ⟨hjffi, by simpa using hvm⟩
        rw [hstack] at hdetaches
        revert hdetaches
        decide
      exact ⟨acts, u, hruns, hlive, hstack, .inr hjffi, .inr ((hlive.threshold rfl).mp hvm)⟩

/-- A closure starts on a thread that is attached, or can be. -/
theorem Live.exists_invoke {stack : List StackFrame} (h : t.Live windows)
    (hstack : t.stack = .native :: stack) :
    ∃ (u : Thread) (detach : Bool), t.step windows (.invoke true) = some u ∧ u.Live windows ∧
      u.stack = .java :: .closure detach :: .native :: stack := by
  have hstep : t.step windows (.invoke true) = some (t.invoke windows true) := by
    simp only [Thread.step]
    rw [h.status, hstack]
  by_cases hattached : t.attached = none
  · obtain ⟨u, hbegin, -, -, hrunning, -⟩ := h.closureBegin_attaches hattached
    refine ⟨_, !u.data.attachedVm, hstep, h.invoke_attaches hattached, ?_⟩
    rw [invoke_running hbegin hrunning, hstack]
  · have hrunning := (clearException_spec t).2.2.2.2.1.trans h.status
    refine ⟨_, false, hstep, h.invoke_attached hstack hattached true, ?_⟩
    rw [invoke_running (closureBegin_attached true hattached) hrunning, hstack]

/-- Closures have been called on a thread of native code more than a thousand times, or never: the
exception of a closure called back from Java code disappears, or is still there. -/
theorem not_handledAlike_rounds :
    ∃ acts₁ acts₂ u₁ u₂ below₁ below₂, runs (step false) acts₁ nativeThread = some u₁ ∧
      runs (step false) acts₂ nativeThread = some u₂ ∧ u₁.InBody below₁ ∧ u₂.InBody below₂ ∧
      StackFrame.java ∈ below₁ ∧ StackFrame.java ∈ below₂ ∧
      ¬HandledAlike false u₁ u₂ below₁ below₂ := by
  obtain ⟨acts, t, hruns, hlive, hstack, -, hmany⟩ := exists_rounds (THREAD_ATTACH_THRESHOLD + 1)
  obtain ⟨u, d, hinvoke, hlive', hstack'⟩ := hlive.exists_invoke hstack
  have hcall := hlive'.call hstack'
  obtain ⟨v, d', hinvoke', hlive'', hstack''⟩ := hcall.exists_invoke rfl
  have hrest : runs (step false) [.invoke true, .call, .invoke true] t = some v := by
    have hstep : u.step false .call = some { u with stack := .native :: u.stack } := by
      simp only [step]
      rw [hlive'.status, hstack']
    rw [runs_cons, hinvoke, Option.bind_some, runs_cons, hstep, Option.bind_some,
      runs_cons, hstack', hinvoke']
    rfl
  have hbody : v.InBody _ := ⟨hlive''.status, d', hstack''⟩
  have hjava : StackFrame.java ∈ StackFrame.java :: .closure d :: [.native] := List.mem_cons_self ..
  refine ⟨acts ++ [.invoke true, .call, .invoke true], [.invoke true, .call, .invoke true], v, _, _,
    _, ?_, rfl, hbody, ⟨rfl, false, rfl⟩, hjava, List.mem_cons_self .., fun halike => ?_⟩
  · rw [runs_append_of_eq hruns, hrest]
  · refine (kept_iff hlive'' hbody hjava).mp (halike.1 hjava (List.mem_cons_self ..)).1
      ⟨rfl, hjava, ?_⟩
    have hmono := attaches_mono hrest
    omega

end Thread

end Jffi
