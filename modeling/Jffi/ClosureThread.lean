import Jffi.Lib.Ledger
import Jffi.Lib.Runs

/-!
# Closures on a thread

Native code calls a closure on any thread. `closure_begin` attaches a thread the virtual machine
does not know, and `closure_end` detaches it again; a thread that has been attached a thousand times
stays attached, until its destructor `thread_data_free` runs.

The model is of one thread: the frames on its stack, what jffi keeps for it, and what the virtual
machine does. Native code other than jffi may attach a thread that is not attached, and detach what
it has attached. A process has one virtual machine.

## Main definitions

* `Thread` — a thread
* `Thread.closureBegin`, `Thread.closureEnd`, `Thread.dataFree` — the functions of jffi
* `Thread.step` — what can happen next
* `Thread.Sound` — what holds of a thread at any time

## Main results

* `Thread.Live.step`, `Thread.Live.sound_of_runs` — one step, and a run
-/

namespace Jffi

/-- `THREAD_ATTACH_THRESHOLD`. -/
def THREAD_ATTACH_THRESHOLD : ℕ := 1000

/-- Who has attached a thread to the virtual machine. -/
inductive Attacher
  | jvm
  | other
  | jffi
  deriving DecidableEq, Repr

/-- What closures use of `ThreadData`. -/
structure ThreadData where
  /-- `attach_count`. -/
  attachCount : ℕ
  /-- `attached_vm` is not `NULL`. -/
  attachedVm : Bool
  deriving DecidableEq, Repr

/-- A frame on the stack of a thread: native code, Java code, or `closure_invoke` with its
`detach`. -/
inductive StackFrame
  | native
  | java
  | closure (detach : Bool)
  deriving DecidableEq, Repr

/-- What jffi does on a thread. -/
inductive ThreadEvent
  /-- `AttachCurrentThreadAsDaemon`. -/
  | attach
  | attachFails
  /-- `DetachCurrentThread`, of a thread that is or is not attached, and with or without an
  exception pending. -/
  | detach (attached : Option Attacher) (pending : Bool)
  /-- Native code other than jffi detaches the thread, with or without an exception pending. -/
  | otherDetached (pending : Bool)
  /-- A call through the `JNIEnv`, of a thread that is or is not attached. -/
  | jni (attached : Bool)
  /-- The body of a closure starts. -/
  | body (pending : Bool)
  /-- A native function returns to Java. -/
  | returns (pending : Bool)
  deriving DecidableEq, Repr

inductive ThreadStatus
  | running
  /-- A null pointer was followed. -/
  | crashed
  | exited
  deriving DecidableEq, Repr

structure Thread where
  attached : Option Attacher
  data : ThreadData
  /-- An exception is pending. -/
  pending : Bool
  /-- The innermost frame first. -/
  stack : List StackFrame
  status : ThreadStatus
  log : List ThreadEvent
  deriving DecidableEq, Repr

namespace Thread

/-- A thread that Java has started. -/
def javaThread : Thread := ⟨some .jvm, ⟨0, false⟩, false, [.java], .running, []⟩

/-- A thread that native code has started. -/
def nativeThread : Thread := ⟨none, ⟨0, false⟩, false, [.native], .running, []⟩

def logged (t : Thread) (e : ThreadEvent) : Thread := { t with log := t.log ++ [e] }

/-- A call through the `JNIEnv`. -/
def jniCall (t : Thread) : Thread := t.logged (.jni t.attached.isSome)

/-- `if (ExceptionCheck()) ExceptionClear();` -/
def clearException (t : Thread) : Thread :=
  if t.pending then { t.jniCall.jniCall with pending := false } else t.jniCall

/-- `AttachCurrentThreadAsDaemon`. -/
def attachCurrentThread (answers : Bool) (t : Thread) : Bool × Thread :=
  if answers then (true, { t.logged .attach with attached := some .jffi })
  else (false, t.logged .attachFails)

/-- `DetachCurrentThread`, which a thread with Java frames refuses. -/
def detachCurrentThread (t : Thread) : Thread :=
  let t' := t.logged (.detach t.attached t.pending)
  if .java ∈ t.stack then t' else { t' with attached := none, pending := false }

/-! ### The functions of jffi -/

variable (windows : Bool)

/-- `GetEnv`, and `AttachCurrentThreadAsDaemon` where it answers no `JNIEnv`. -/
def getEnv (answers : Bool) (t : Thread) : Bool × Thread :=
  match t.attached with
  | some _ => (false, t)
  | none => t.attachCurrentThread answers

/-- `*detach && thread_data_get()->attach_count++ >= THREAD_ATTACH_THRESHOLD`, and what follows. -/
def countAttach (detach : Bool) (t : Thread) : Bool × Thread :=
  if detach = true ∧ windows = false then
    let count := t.data.attachCount
    if THREAD_ATTACH_THRESHOLD ≤ count then (false, { t with data := ⟨count + 1, true⟩ })
    else (true, { t with data := ⟨count + 1, t.data.attachedVm⟩ })
  else (detach, t)

/-- `closure_begin`: where there is no `JNIEnv` the null pointer is followed all the same. -/
def closureBegin (answers : Bool) (t : Thread) : Bool × Thread :=
  let (detach, t) := t.getEnv answers
  let (detach, t) := t.countAttach windows detach
  match t.attached with
  | some _ => (detach, t.clearException)
  | none => (detach, { t.jniCall with status := .crashed })

/-- `closure_end`. -/
def closureEnd (detach : Bool) (t : Thread) : Thread :=
  let clearException := detach || (!windows && t.data.attachedVm)
  let t := if clearException then t.clearException else t
  if detach then t.detachCurrentThread else t

/-- `thread_data_free`. -/
def dataFree (t : Thread) : Thread :=
  let t := if t.data.attachedVm then t.detachCurrentThread else t
  { t with data := ⟨0, false⟩ }

/-! ### What can happen -/

inductive Act
  /-- Java calls a native function. -/
  | call
  /-- A native function returns to Java. -/
  | ret
  /-- Native code calls a closure; `AttachCurrentThreadAsDaemon` would answer. -/
  | invoke (answers : Bool)
  /-- The body of a closure ends. -/
  | finish (throws : Bool)
  /-- Native code other than jffi attaches the thread, or detaches it again. -/
  | otherAttach
  | otherDetach
  | exit
  deriving DecidableEq, Repr

/-- `closure_invoke` up to the body of the closure. -/
def invoke (answers : Bool) (t : Thread) : Thread :=
  let (detach, t') := t.closureBegin windows answers
  match t'.status with
  | .running =>
    { t'.jniCall.logged (.body t'.pending) with stack := .java :: .closure detach :: t.stack }
  | _ => t'

/-- What is left of a call of `closure_invoke` when the body of the closure has returned. -/
def finish (detach throws : Bool) (stack : List StackFrame) (t : Thread) : Thread :=
  let t := { t with pending := throws, stack := stack }
  t.jniCall.closureEnd windows detach

/-- The end of the thread: the virtual machine detaches those it has started, and then the
destructor runs. -/
def exit (t : Thread) : Thread :=
  let t := { t with stack := [] }
  let t := if t.attached = some .jvm then { t with attached := none, pending := false } else t
  { t.dataFree with status := .exited }

def step (a : Act) (t : Thread) : Option Thread :=
  match t.status with
  | .running =>
    match a, t.stack with
    | .call, .java :: stack => some { t with stack := .native :: .java :: stack }
    | .ret, .native :: .java :: stack =>
      some { t.logged (.returns t.pending) with stack := .java :: stack, pending := false }
    | .invoke answers, .native :: _ => some (t.invoke windows answers)
    | .finish throws, .java :: .closure detach :: stack =>
      some (t.finish windows detach throws stack)
    | .otherAttach, [.native] =>
      if t.attached = none then some { t with attached := some .other } else none
    | .otherDetach, [.native] =>
      if t.attached = some .other then
        some { t.logged (.otherDetached t.pending) with attached := none, pending := false }
      else none
    | .exit, [_] => some t.exit
    | _, _ => none
  | _ => none

/-! ### The log -/

/-- The ledger of attachments: a thread is attached, and detached again. -/
def attachLedger : Ledger ThreadEvent Unit where
  opens
    | .attach => some ()
    | _ => none
  closes
    | .detach _ _ => some ()
    | _ => none

/-- An event that neither attaches nor detaches, and does no harm. -/
def Harmless : ThreadEvent → Prop
  | .jni attached => attached = true
  | .body pending => pending = false
  | .returns _ | .otherDetached _ => True
  | _ => False

/-- A log of attachments and detachments in turns, each of a thread with nothing pending; the thread
is attached by jffi in the end, or not. -/
inductive Turns : Bool → List ThreadEvent → Prop
  | nil : Turns false []
  | attach {tr : List ThreadEvent} : Turns false tr → Turns true (tr ++ [.attach])
  | detach {tr : List ThreadEvent} :
    Turns true tr → Turns false (tr ++ [.detach (some .jffi) false])
  | harmless {held : Bool} {tr : List ThreadEvent} {e : ThreadEvent} (he : Harmless e) :
    Turns held tr → Turns held (tr ++ [e])

namespace Turns

variable {held : Bool} {tr pre : List ThreadEvent}

theorem mem (h : Turns held tr) :
    ∀ e ∈ tr, e = .attach ∨ e = .detach (some .jffi) false ∨ Harmless e := by
  induction h with
  | nil => exact fun e he => absurd he List.not_mem_nil
  | attach _ ih =>
    intro e he
    rcases List.mem_append.mp he with he | he
    · exact ih e he
    · exact .inl (List.mem_singleton.mp he)
  | detach _ ih =>
    intro e he
    rcases List.mem_append.mp he with he | he
    · exact ih e he
    · exact .inr (.inl (List.mem_singleton.mp he))
  | harmless hharmless _ ih =>
    intro e he
    rcases List.mem_append.mp he with he | he
    · exact ih e he
    · exact .inr (.inr (List.mem_singleton.mp he ▸ hharmless))

theorem opens_harmless {e : ThreadEvent} (he : Harmless e) :
    attachLedger.opens e = none ∧ attachLedger.closes e = none := by
  cases e with
  | attach => exact he.elim
  | detach => exact he.elim
  | _ => exact ⟨rfl, rfl⟩

/-- At any time there is at most one attachment that is not over. -/
theorem held_eq (h : Turns held tr) :
    (attachLedger.opened tr).count () =
      (attachLedger.closed tr).count () + if held = true then 1 else 0 := by
  induction h with
  | nil => rfl
  | attach _ ih =>
    rw [Ledger.opened_append, Ledger.closed_append, List.count_append, List.count_append, ih]
    rfl
  | detach _ ih =>
    rw [Ledger.opened_append, Ledger.closed_append, List.count_append, List.count_append, ih]
    rfl
  | harmless he _ ih =>
    obtain ⟨hopens, hcloses⟩ := opens_harmless he
    have hopened := @Ledger.opened_eq_nil _ _ attachLedger [_] fun e' he' => by
      rw [List.mem_singleton.mp he']
      exact hopens
    have hclosed := @Ledger.closed_eq_nil _ _ attachLedger [_] fun e' he' => by
      rw [List.mem_singleton.mp he']
      exact hcloses
    rw [Ledger.opened_append, Ledger.closed_append, hopened, hclosed, List.append_nil,
      List.append_nil, ih]

/-- A log up to some moment is one in which attaching and detaching take turns, too. -/
theorem exists_prefix (h : Turns held tr) (hpre : pre <+: tr) : ∃ held', Turns held' pre := by
  have hlast : ∀ {tr : List ThreadEvent} {e : ThreadEvent} {pre : List ThreadEvent},
      pre <+: tr ++ [e] → pre = tr ++ [e] ∨ pre <+: tr := by
    intro tr e pre hpre
    rcases List.prefix_concat_iff.mp hpre with h | h
    · exact .inl h
    · exact .inr h
  induction h with
  | nil =>
    rw [List.prefix_nil.mp hpre]
    exact ⟨false, .nil⟩
  | attach h ih =>
    rcases hlast hpre with rfl | hpre
    · exact ⟨true, .attach h⟩
    · exact ih hpre
  | detach h ih =>
    rcases hlast hpre with rfl | hpre
    · exact ⟨false, .detach h⟩
    · exact ih hpre
  | harmless he h ih =>
    rcases hlast hpre with rfl | hpre
    · exact ⟨_, .harmless he h⟩
    · exact ih hpre

theorem never_ahead (h : Turns held tr) (hpre : pre <+: tr) (r : Unit) :
    (attachLedger.closed pre).count r ≤ (attachLedger.opened pre).count r := by
  obtain ⟨held', hpre'⟩ := h.exists_prefix hpre
  rw [hpre'.held_eq]
  exact Nat.le_add_right ..

/-- A log whose turns end detached has as many detachments as attachments, with no detachment too
early. -/
theorem settled (h : Turns false tr) : attachLedger.Settled tr where
  count_eq _ := h.held_eq.symm
  never_ahead _ hpre r := h.never_ahead hpre r

end Turns

/-! ### A thread at any time -/

/-- How often jffi has attached the thread. -/
def attaches (t : Thread) : ℕ := (attachLedger.opened t.log).length

/-- The stacks a thread can have: native and Java code call each other in turns, and only the
outermost closure detaches the thread, which nothing but native code is below. -/
inductive Shaped : List StackFrame → Prop
  | native : Shaped [.native]
  | java : Shaped [.java]
  | call {stack : List StackFrame} : Shaped (.java :: stack) → Shaped (.native :: .java :: stack)
  | invoke {detach : Bool} {stack : List StackFrame} (hdetach : detach = true → stack = []) :
    Shaped (.native :: stack) → Shaped (.java :: .closure detach :: .native :: stack)

/-- A thread on which every attempt to attach it succeeded, as long as it runs. -/
structure Live (windows : Bool) (t : Thread) : Prop where
  status : t.status = .running
  turns : Turns (decide (t.attached = some .jffi)) t.log
  shaped : Shaped t.stack
  /-- Java code runs on attached threads. -/
  attached : t.stack ≠ [.native] → t.attached ≠ none
  /-- A thread that stays attached has been attached by jffi. -/
  cached : t.data.attachedVm = true → t.attached = some .jffi
  /-- A closure will detach the thread, if jffi has attached it and it does not stay so. -/
  outermost : .closure true ∈ t.stack ↔ t.attached = some .jffi ∧ t.data.attachedVm = false
  count : windows = false → t.data.attachCount = t.attaches
  threshold : windows = false → (t.data.attachedVm = true ↔ THREAD_ATTACH_THRESHOLD < t.attaches)
  windows : windows = true → t.data.attachedVm = false
  /-- Nothing is pending on a thread that jffi has attached, once all closures are over. -/
  clear : ∀ f, t.attached = some .jffi → t.stack = [f] → t.pending = false

/-- A thread that has ended. -/
structure Exited (t : Thread) : Prop where
  status : t.status = .exited
  turns : Turns false t.log

/-- A thread that ended when it could not be attached. -/
structure Crashed (t : Thread) : Prop where
  status : t.status = .crashed
  log : ∃ tr, Turns false tr ∧ t.log = tr ++ [.attachFails, .jni false]

/-- What holds of a thread at any time. -/
def Sound (windows : Bool) (t : Thread) : Prop := t.Live windows ∨ t.Exited ∨ t.Crashed

section Steps

variable {windows : Bool} {t t' : Thread} {held : Bool} {tr : List ThreadEvent}

theorem Turns.jniCall (h : Turns held t.log) (ha : t.attached ≠ none) : Turns held t.jniCall.log :=
  .harmless (Option.isSome_iff_ne_none.mpr ha) h

theorem Turns.clearException (h : Turns held t.log) (ha : t.attached ≠ none) :
    Turns held t.clearException.log := by
  rw [Thread.clearException]
  split
  · exact @Turns.jniCall t.jniCall held (h.jniCall ha) ha
  · exact h.jniCall ha

theorem attaches_logged {e : ThreadEvent} (he : attachLedger.opens e = none) :
    (t.logged e).attaches = t.attaches := by
  have hopened := @Ledger.opened_eq_nil _ _ attachLedger [e] fun e' he' => by
    rw [List.mem_singleton.mp he']
    exact he
  rw [attaches, logged, Ledger.opened_append, hopened, List.append_nil]
  rfl

/-- Clearing an exception changes nothing of a thread but the exception and the log. -/
theorem clearException_spec (t : Thread) :
    t.clearException.attached = t.attached ∧ t.clearException.data = t.data ∧
      t.clearException.pending = false ∧ t.clearException.stack = t.stack ∧
      t.clearException.status = t.status ∧ t.clearException.attaches = t.attaches := by
  rw [clearException]
  split
  · refine ⟨rfl, rfl, rfl, rfl, rfl, ?_⟩
    exact (@attaches_logged t.jniCall _ rfl).trans (attaches_logged rfl)
  · rename_i hpending
    exact ⟨rfl, rfl, Bool.eq_false_iff.mpr hpending, rfl, rfl, attaches_logged rfl⟩

/-- A step that leaves the attachment of the thread and its counter alone keeps the invariant, if
the stack stays one that closures can lead to. -/
theorem Live.keep (h : t.Live windows) (hattached : t'.attached = t.attached)
    (hdata : t'.data = t.data) (hstatus : t'.status = t.status)
    (hattaches : t'.attaches = t.attaches)
    (hturns : Turns (decide (t.attached = some .jffi)) t'.log) (hshaped : Shaped t'.stack)
    (hjava : t'.stack ≠ [.native] → t.attached ≠ none)
    (houter : .closure true ∈ t'.stack ↔ .closure true ∈ t.stack)
    (hclear : ∀ f, t.attached = some .jffi → t'.stack = [f] → t'.pending = false) :
    t'.Live windows where
  status := hstatus.trans h.status
  turns := hattached ▸ hturns
  shaped := hshaped
  attached hne := hattached ▸ hjava hne
  cached hvm := hattached.trans (h.cached (hdata ▸ hvm))
  outermost := by rw [houter, hattached, hdata, h.outermost]
  count hw := by rw [hdata, hattaches, h.count hw]
  threshold hw := by rw [hdata, hattaches, h.threshold hw]
  windows hw := by rw [hdata, h.windows hw]
  clear f hjffi := hclear f (hattached ▸ hjffi)

theorem Live.call {stack : List StackFrame} (h : t.Live windows)
    (hstack : t.stack = .java :: stack) :
    Live windows { t with stack := .native :: .java :: stack } := by
  refine h.keep rfl rfl rfl rfl h.turns (.call (hstack ▸ h.shaped))
    (fun _ => h.attached (by rw [hstack]; nofun)) ?_ nofun
  rw [hstack]
  simp

theorem Live.ret {stack : List StackFrame} (h : t.Live windows)
    (hstack : t.stack = .native :: .java :: stack) :
    Live windows
      { t.logged (.returns t.pending) with stack := .java :: stack, pending := false } := by
  have hshaped := h.shaped
  rw [hstack] at hshaped
  cases hshaped with
  | call hbelow =>
    refine h.keep rfl rfl rfl (attaches_logged rfl) (.harmless trivial h.turns) hbelow
      (fun _ => h.attached (by rw [hstack]; nofun)) ?_ (fun _ _ _ => rfl)
    rw [hstack]
    simp

/-! ### A closure begins -/

/-- On a thread that is attached already, `closure_begin` has nothing to detach later and clears the
exception. -/
theorem closureBegin_attached (answers : Bool) (h : t.attached ≠ none) :
    t.closureBegin windows answers = (false, t.clearException) := by
  obtain ⟨a, ha⟩ := Option.ne_none_iff_exists'.mp h
  simp [closureBegin, getEnv, ha, countAttach]

/-- On a thread that the virtual machine refuses to attach, `closure_begin` goes on to use an
environment that is not there. -/
theorem closureBegin_refused (h : t.attached = none) :
    t.closureBegin windows false =
      (false, { (t.logged .attachFails).jniCall with status := .crashed }) := by
  simp [closureBegin, getEnv, h, attachCurrentThread, countAttach, logged]

/-- The thread after `AttachCurrentThreadAsDaemon`. -/
def newlyAttached (t : Thread) : Thread := { t.logged .attach with attached := some .jffi }

/-- On a thread that it attaches, `closure_begin` counts the attachment in the thread's data and
clears the exception. -/
theorem closureBegin_attaches (h : t.attached = none) :
    t.closureBegin windows true =
      ((t.newlyAttached.countAttach windows true).1,
        (t.newlyAttached.countAttach windows true).2.clearException) := by
  have hattached : (t.newlyAttached.countAttach windows true).2.attached = some .jffi := by
    rw [countAttach]
    split
    · dsimp only
      split <;> rfl
    · rfl
  simp only [closureBegin, getEnv, h, attachCurrentThread, if_true]
  change (match (t.newlyAttached.countAttach windows true).2.attached with
    | some _ => _
    | none => _) = _
  rw [hattached]
  rfl

theorem Live.invoke_attached {stack : List StackFrame} (h : t.Live windows)
    (hstack : t.stack = .native :: stack) (hattached : t.attached ≠ none) (answers : Bool) :
    Live windows (t.invoke windows answers) := by
  obtain ⟨hattached', hdata, hpending, -, hstatus, hattaches⟩ := clearException_spec t
  rw [invoke, closureBegin_attached answers hattached]
  dsimp only
  rw [hstatus, h.status]
  refine h.keep hattached' hdata hstatus ?_ ?_ ?_ (fun _ => hattached) ?_ nofun
  · exact (@attaches_logged t.clearException.jniCall _ rfl).trans
      ((attaches_logged rfl).trans hattaches)
  · refine .harmless hpending ?_
    exact @Turns.jniCall t.clearException _ (h.turns.clearException hattached)
      (hattached' ▸ hattached)
  · rw [hstack]
    exact .invoke nofun (hstack ▸ h.shaped)
  · simp

/-- What is counted of an attachment: the closure is to detach the thread unless it is to stay
so. -/
theorem countAttach_spec (hvm : t.data.attachedVm = false) :
    ∃ data : ThreadData, t.newlyAttached.countAttach windows true =
        (!data.attachedVm, { t.newlyAttached with data := data }) ∧
      (windows = false → data.attachCount = t.data.attachCount + 1 ∧
        (data.attachedVm = true ↔ THREAD_ATTACH_THRESHOLD ≤ t.data.attachCount)) ∧
      (windows = true → data.attachedVm = false) := by
  rw [countAttach]
  cases windows with
  | true =>
    refine ⟨t.data, ?_, nofun, fun _ => hvm⟩
    rw [if_neg fun h => nomatch h.2]
    change (true, t.newlyAttached) = (!t.data.attachedVm, t.newlyAttached)
    rw [hvm]
    rfl
  | false =>
    rw [if_pos ⟨rfl, rfl⟩]
    by_cases hcount : THREAD_ATTACH_THRESHOLD ≤ t.data.attachCount
    · refine ⟨⟨t.data.attachCount + 1, true⟩, ?_, fun _ => ⟨rfl, iff_of_true rfl hcount⟩, nofun⟩
      exact if_pos hcount
    · refine ⟨⟨t.data.attachCount + 1, false⟩, ?_,
        fun _ => ⟨rfl, iff_of_false Bool.false_ne_true hcount⟩, nofun⟩
      refine (if_neg hcount).trans ?_
      change
        (true, { t.newlyAttached with data := ⟨t.data.attachCount + 1, t.data.attachedVm⟩ }) = _
      rw [hvm]
      rfl

theorem invoke_running {answers detach : Bool} {u : Thread}
    (hbegin : t.closureBegin windows answers = (detach, u)) (hrunning : u.status = .running) :
    t.invoke windows answers =
      { u.jniCall.logged (.body u.pending) with stack := .java :: .closure detach :: t.stack } := by
  rw [invoke, hbegin]
  dsimp only
  rw [hrunning]

/-- After `closure_begin` has attached a thread, it is attached by the library, with no exception
pending, and what is to be detached at the end is known from its data. -/
theorem Live.closureBegin_attaches (h : t.Live windows) (hattached : t.attached = none) :
    ∃ u : Thread, t.closureBegin windows true = (!u.data.attachedVm, u) ∧
      u.attached = some .jffi ∧ u.pending = false ∧ u.status = .running ∧ Turns true u.log ∧
      u.attaches = t.attaches + 1 ∧
      (windows = false → u.data.attachCount = t.data.attachCount + 1 ∧
        (u.data.attachedVm = true ↔ THREAD_ATTACH_THRESHOLD ≤ t.data.attachCount)) ∧
      (windows = true → u.data.attachedVm = false) := by
  have hvm : t.data.attachedVm = false := by
    by_contra hvm
    have := h.cached (by simpa using hvm)
    rw [hattached] at this
    cases this
  have hturns := h.turns
  rw [hattached] at hturns
  obtain ⟨data, hcount, hunix, hwindows⟩ := @countAttach_spec windows t hvm
  obtain ⟨hattached', hdata, hpending, -, hstatus, hattaches⟩ :=
    clearException_spec { t.newlyAttached with data := data }
  have hone : attaches { t.newlyAttached with data := data } = t.attaches + 1 := by
    change (attachLedger.opened (t.log ++ [.attach])).length = _
    rw [Ledger.opened_append, List.length_append]
    rfl
  refine ⟨_, ?_, hattached', hpending, hstatus.trans h.status,
    Turns.clearException (.attach hturns) nofun, hattaches.trans hone, ?_, ?_⟩
  · rw [Thread.closureBegin_attaches hattached, hcount, hdata]
  · rw [hdata]
    exact hunix
  · rw [hdata]
    exact hwindows

/-- A closure that attaches its thread leaves a thread that runs soundly. -/
theorem Live.invoke_attaches (h : t.Live windows) (hattached : t.attached = none) :
    Live windows (t.invoke windows true) := by
  have hbottom : t.stack = [.native] := by
    by_contra hne
    exact h.attached hne hattached
  obtain ⟨u, hbegin, hu, hpending, hstatus, hturns, hattaches, hunix, hwindows⟩ :=
    h.closureBegin_attaches hattached
  have hall : (u.jniCall.logged (.body u.pending)).attaches = t.attaches + 1 :=
    (@attaches_logged u.jniCall _ rfl).trans ((attaches_logged rfl).trans hattaches)
  have hsome : u.attached ≠ none := hu ▸ Option.some_ne_none _
  rw [invoke_running hbegin hstatus]
  refine ⟨hstatus, ?_, ?_, fun _ => hsome, fun _ => hu, ?_, fun hw => ?_, fun hw => ?_, hwindows,
    nofun⟩
  · refine .harmless hpending ?_
    change Turns (decide (u.attached = some .jffi)) u.jniCall.log
    rw [decide_eq_true hu]
    exact hturns.jniCall hsome
  · rw [hbottom]
    exact .invoke (fun _ => rfl) .native
  · change _ ↔ u.attached = some .jffi ∧ u.data.attachedVm = false
    rw [hu, hbottom]
    cases u.data.attachedVm <;> simp
  · refine (hunix hw).1.trans ?_
    rw [h.count hw]
    exact hall.symm
  · change u.data.attachedVm = true ↔
      THREAD_ATTACH_THRESHOLD < (u.jniCall.logged (.body u.pending)).attaches
    rw [hall, Nat.lt_succ_iff, ← h.count hw]
    exact (hunix hw).2

/-- A closure whose thread is refused leaves the thread crashed. -/
theorem Live.invoke_refused (h : t.Live windows) (hattached : t.attached = none) :
    (t.invoke windows false).Crashed := by
  rw [invoke, closureBegin_refused hattached]
  refine ⟨rfl, t.log, ?_, ?_⟩
  · have hturns := h.turns
    rw [hattached] at hturns
    exact hturns
  · change (t.log ++ [.attachFails]) ++ [.jni t.attached.isSome] = _
    rw [hattached, List.append_assoc]
    rfl

/-! ### A closure ends -/

/-- The thread when `closure_end` is reached. -/
def atEnd (throws : Bool) (stack : List StackFrame) (t : Thread) : Thread :=
  jniCall { t with pending := throws, stack := stack }

theorem finish_eq (detach throws : Bool) (stack : List StackFrame) (t : Thread) :
    t.finish windows detach throws stack = (t.atEnd throws stack).closureEnd windows detach := rfl

/-- Where the closure has not to detach its thread, `closure_end` clears the exception if the thread
was attached by the library, and does nothing else. -/
theorem closureEnd_stays (t : Thread) :
    t.closureEnd windows false =
      if (!windows && t.data.attachedVm) = true then t.clearException else t := by
  rw [closureEnd]
  simp

/-- Where the closure has to detach its thread, `closure_end` clears the exception and does so. -/
theorem closureEnd_detaches (t : Thread) :
    t.closureEnd windows true = t.clearException.detachCurrentThread := by
  rw [closureEnd]
  simp

theorem Live.finish {detach : Bool} {stack : List StackFrame} (h : t.Live windows)
    (hstack : t.stack = .java :: .closure detach :: stack) (throws : Bool) :
    Live windows (t.finish windows detach throws stack) := by
  have hattached : t.attached ≠ none := h.attached (by rw [hstack]; nofun)
  have hshaped := h.shaped
  have houter := h.outermost
  rw [hstack] at hshaped houter
  have hturns : Turns (decide (t.attached = some .jffi)) (t.atEnd throws stack).log :=
    @Turns.jniCall { t with pending := throws, stack := stack } _ h.turns hattached
  have hattaches : (t.atEnd throws stack).attaches = t.attaches := attaches_logged rfl
  obtain ⟨hattached', hdata, hpending, hstack', hstatus, hattaches'⟩ :=
    clearException_spec (t.atEnd throws stack)
  have hclear := hturns.clearException hattached
  rw [finish_eq]
  cases hshaped with
  | @invoke _ below hdetach hbelow =>
    cases detach with
    | false =>
      have hmem : StackFrame.closure true ∈ StackFrame.native :: below ↔
          .closure true ∈ t.stack := by
        rw [hstack]
        simp
      rw [closureEnd_stays, show (t.atEnd throws (.native :: below)).data = t.data from rfl]
      by_cases hkept : (!windows && t.data.attachedVm) = true
      · rw [if_pos hkept]
        exact h.keep hattached' hdata hstatus (hattaches'.trans hattaches) hclear
          (hstack' ▸ hbelow) (fun _ => hattached) (hstack' ▸ hmem) (fun _ _ _ => hpending)
      · rw [if_neg hkept]
        refine h.keep rfl rfl rfl hattaches hturns hbelow (fun _ => hattached) hmem
          fun f hjffi hbottom => ?_
        -- the only closure on the stack would detach the thread
        obtain rfl : below = [] := (List.cons.inj hbottom).2
        have hvm : t.data.attachedVm = true := by
          by_contra hvm
          have hdetaches := houter.mpr ⟨hjffi, by simpa using hvm⟩
          revert hdetaches
          decide
        cases hw : windows with
        | true =>
          cases hvm.symm.trans (h.windows hw)
        | false =>
          rw [hw, hvm] at hkept
          exact absurd rfl hkept
    | true =>
      obtain ⟨hjffi, hvm⟩ := houter.mp (by simp)
      obtain rfl := hdetach rfl
      rw [decide_eq_true hjffi] at hclear
      rw [closureEnd_detaches, detachCurrentThread, hstack']
      change Live windows (if StackFrame.java ∈ [StackFrame.native] then _ else _)
      rw [if_neg (by decide)]
      have hjffi' : (t.atEnd throws [.native]).clearException.attached = some .jffi :=
        hattached'.trans hjffi
      have hsame : ((t.atEnd throws [.native]).clearException.logged
          (.detach (t.atEnd throws [.native]).clearException.attached
            (t.atEnd throws [.native]).clearException.pending)).attaches = t.attaches :=
        (attaches_logged rfl).trans (hattaches'.trans hattaches)
      refine ⟨hstatus.trans h.status, ?_, ?_, fun hne => ?_, fun hvm' => ?_, ?_, fun hw => ?_,
        fun hw => ?_, fun hw => ?_, fun _ _ _ => rfl⟩
      · rw [hjffi', hpending]
        exact .detach hclear
      · change Shaped (t.atEnd throws [.native]).clearException.stack
        rw [hstack']
        exact .native
      · exact absurd hstack' hne
      · change (t.atEnd throws [.native]).clearException.data.attachedVm = true at hvm'
        rw [hdata] at hvm'
        cases hvm.symm.trans hvm'
      · change .closure true ∈ (t.atEnd throws [.native]).clearException.stack ↔ _
        rw [hstack']
        change StackFrame.closure true ∈ [StackFrame.native] ↔ _
        exact iff_of_false (by decide) nofun
      · change (t.atEnd throws [.native]).clearException.data.attachCount = _
        rw [hdata]
        exact (h.count hw).trans hsame.symm
      · change (t.atEnd throws [.native]).clearException.data.attachedVm = true ↔
          THREAD_ATTACH_THRESHOLD < attaches ((t.atEnd throws [.native]).clearException.logged _)
        rw [hsame, hdata]
        exact h.threshold hw
      · change (t.atEnd throws [.native]).clearException.data.attachedVm = false
        rw [hdata]
        exact hvm

/-! ### The rest -/

theorem Live.otherAttach (h : t.Live windows) (hstack : t.stack = [.native])
    (hattached : t.attached = none) : Live windows { t with attached := some .other } := by
  have hvm : t.data.attachedVm ≠ true := by
    intro hvm
    cases hattached.symm.trans (h.cached hvm)
  have hturns := h.turns
  rw [hattached] at hturns
  refine ⟨h.status, hturns, h.shaped, fun hne => absurd hstack hne,
    fun h => absurd h hvm, ?_, h.count, h.threshold, h.windows, nofun⟩
  rw [hstack]
  exact iff_of_false (by decide) nofun

theorem Live.otherDetach (h : t.Live windows) (hstack : t.stack = [.native])
    (hattached : t.attached = some .other) :
    Live windows
      { t.logged (.otherDetached t.pending) with attached := none, pending := false } := by
  have hvm : t.data.attachedVm ≠ true := by
    intro hvm
    cases hattached.symm.trans (h.cached hvm)
  have hturns := h.turns
  rw [hattached] at hturns
  have hsame : (t.logged (.otherDetached t.pending)).attaches = t.attaches := attaches_logged rfl
  refine ⟨h.status, .harmless trivial hturns, h.shaped, fun hne => absurd hstack hne,
    fun h => absurd h hvm, ?_, fun hw => (h.count hw).trans hsame.symm, fun hw => ?_,
    h.windows, nofun⟩
  · change .closure true ∈ t.stack ↔ _
    rw [hstack]
    exact iff_of_false (by decide) nofun
  · change t.data.attachedVm = true ↔
      THREAD_ATTACH_THRESHOLD < (t.logged (.otherDetached t.pending)).attaches
    rw [hsame]
    exact h.threshold hw

/-- When the destructor of its data has run, a thread has ended, and is detached if it was attached
by the library. -/
theorem exited_dataFree (hstack : t.stack = [])
    (hpending : t.data.attachedVm = true → t.pending = false)
    (hcached : t.data.attachedVm = true ↔ t.attached = some .jffi)
    (hturns : Turns (decide (t.attached = some .jffi)) t.log) :
    Exited { t.dataFree with status := .exited } := by
  refine ⟨rfl, ?_⟩
  change Turns false (if t.data.attachedVm then t.detachCurrentThread else t).log
  by_cases hvm : t.data.attachedVm = true
  · rw [if_pos hvm, detachCurrentThread, hstack, if_neg List.not_mem_nil]
    have hjffi := hcached.mp hvm
    rw [decide_eq_true hjffi] at hturns
    change Turns false (t.log ++ [.detach t.attached t.pending])
    rw [hjffi, hpending hvm]
    exact .detach hturns
  · rw [if_neg hvm]
    rw [decide_eq_false (mt hcached.mpr hvm)] at hturns
    exact hturns

theorem Live.exit {f : StackFrame} (h : t.Live windows) (hstack : t.stack = [f]) :
    t.exit.Exited := by
  have hcached : t.data.attachedVm = true ↔ t.attached = some .jffi := by
    refine ⟨h.cached, fun hjffi => ?_⟩
    by_contra hvm
    have hmem := h.outermost.mpr ⟨hjffi, by simpa using hvm⟩
    have hshaped := h.shaped
    rw [hstack] at hmem hshaped
    obtain rfl := List.mem_singleton.mp hmem
    cases hshaped
  have hpending : t.data.attachedVm = true → t.pending = false := fun hvm =>
    h.clear f (h.cached hvm) hstack
  rw [Thread.exit]
  dsimp only
  by_cases hjvm : t.attached = some .jvm
  · rw [if_pos hjvm]
    have hturns := h.turns
    rw [hjvm] at hturns
    refine exited_dataFree rfl (fun _ => rfl) (iff_of_false (fun hvm => ?_) nofun) hturns
    cases hjvm.symm.trans (hcached.mp hvm)
  · rw [if_neg hjvm]
    exact exited_dataFree rfl hpending hcached h.turns

/-- **A step of a thread that runs** leads to one that runs, to one that has ended, or to a crash,
which needs a closure that the virtual machine refuses to attach. -/
theorem Live.step_cases (h : t.Live windows) {a : Act} (hstep : t.step windows a = some t') :
    t'.Live windows ∨ t'.Exited ∨ (t'.Crashed ∧ a = .invoke false ∧ t.attached = none) := by
  unfold Thread.step at hstep
  split at hstep
  · split at hstep
    · rename_i stack hstack
      cases hstep
      exact .inl (h.call hstack)
    · rename_i stack hstack
      cases hstep
      exact .inl (h.ret hstack)
    · rename_i answers stack hstack
      cases hstep
      by_cases hattached : t.attached = none
      · cases answers with
        | true => exact .inl (h.invoke_attaches hattached)
        | false => exact .inr (.inr ⟨h.invoke_refused hattached, rfl, hattached⟩)
      · exact .inl (h.invoke_attached hstack hattached answers)
    · rename_i throws detach stack hstack
      cases hstep
      exact .inl (h.finish hstack throws)
    · rename_i hstack
      split at hstep
      · cases hstep
        exact .inl (h.otherAttach hstack (by assumption))
      · cases hstep
    · rename_i hstack
      split at hstep
      · cases hstep
        exact .inl (h.otherDetach hstack (by assumption))
      · cases hstep
    · rename_i f hstack
      cases hstep
      exact .inr (.inl (h.exit hstack))
    · cases hstep
  · cases hstep

theorem Live.step (h : t.Live windows) {a : Act} (hstep : t.step windows a = some t') :
    t'.Sound windows := by
  rcases h.step_cases hstep with h | h | ⟨h, -⟩
  · exact .inl h
  · exact .inr (.inl h)
  · exact .inr (.inr h)

theorem step_invoke {answers : Bool} (hstep : t.step windows (.invoke answers) = some t') :
    t' = t.invoke windows answers := by
  unfold Thread.step at hstep
  split at hstep
  · cases hstack : t.stack with
    | nil =>
      rw [hstack] at hstep
      cases hstep
    | cons f stack =>
      rw [hstack] at hstep
      cases f with
      | native =>
        cases hstep
        rfl
      | java => cases hstep
      | closure detach => cases hstep
  · cases hstep

/-- A thread that has ended, or has crashed, does nothing more. -/
theorem status_of_step {a : Act} (hstep : t.step windows a = some t') : t.status = .running := by
  unfold Thread.step at hstep
  split at hstep
  · assumption
  · cases hstep

theorem live_javaThread (windows : Bool) : javaThread.Live windows where
  status := rfl
  turns := .nil
  shaped := .java
  attached _ := nofun
  cached := nofun
  outermost := iff_of_false (by decide) nofun
  count _ := rfl
  threshold _ := iff_of_false nofun (by decide)
  windows _ := rfl
  clear _ := nofun

theorem live_nativeThread (windows : Bool) : nativeThread.Live windows where
  status := rfl
  turns := .nil
  shaped := .native
  attached hne := absurd rfl hne
  cached := nofun
  outermost := iff_of_false (by decide) nofun
  count _ := rfl
  threshold _ := iff_of_false nofun (by decide)
  windows _ := rfl
  clear _ := nofun

/-- A thread before anything happens on it. -/
def Fresh (t : Thread) : Prop := t = javaThread ∨ t = nativeThread

theorem Fresh.live (h : t.Fresh) (windows : Bool) : t.Live windows := by
  rcases h with rfl | rfl
  · exact live_javaThread windows
  · exact live_nativeThread windows

/-- **At any time** of a run that starts soundly, the thread is sound: attaching and detaching have
taken turns. -/
theorem Live.sound_of_runs {acts : List Act} (ht : t.Live windows)
    (h : runs (Thread.step windows) acts t = some t') : t'.Sound windows := by
  refine runs_invariant (fun a s s' hs hstep => ?_) (.inl ht) h
  rcases hs with hs | hs | hs
  · exact hs.step hstep
  · cases hs.status.symm.trans (status_of_step hstep)
  · cases hs.status.symm.trans (status_of_step hstep)

/-- A sound thread that takes another step is one that runs. -/
theorem Sound.live {a : Act} (h : t.Sound windows) (hstep : t.step windows a = some t') :
    t.Live windows := by
  rcases h with h | h | h
  · exact h
  · cases h.status.symm.trans (status_of_step hstep)
  · cases h.status.symm.trans (status_of_step hstep)

end Steps

end Thread

end Jffi
