import Jffi.ArrayResources
import Jffi.InvokeDynamicSupport

/-!
# The saved error

After a call `SAVE_ERRNO` copies `errno` to the thread, if the context was made to; under Windows it
is `GetLastError()` that is copied. The entry points expand it each in its own way:
`invokeI…NoErrno` leaves it out, `invokeL…NoErrno` does not, and `invokePointerParameterArray` calls
libffi without it.

What a thread does between two invocations is arbitrary, but for the saved error. A native function
may call back Java code, which makes invocations of its own on the same thread. What they save stays
saved when the function returns, so that an invocation that should leave the saved error alone only
does so when none of them saves.

## Main definitions

* `EntryPoint` — the native entry points and what they are given
* `Turn` — an invocation that was made
* `Run` — the invocations on a thread, one after the other
* `Turn.Lawful` — what the saved error should be after an invocation
* `Turn.Regular` — the invocations that save as they should

## Main results

* `lastError_perform` — which error each entry point saves
* `lawful_of_run` — the saved error along a run
-/

namespace Jffi

open ObjectBuffer

/-! ### The other entry points -/

section EntryPoints

variable (pf : Platform) (jvm : Jvm)

/-- The entry points `invokeL…NoErrno`, which are those of `invokeL…` over again. -/
def fastLongInvokeNoErrno (ctx : NativeCallContext) (callee : Callee) (ns : List (List Cell))
    (s : Native) : Option NumericCall :=
  (invokeL pf ctx.cif callee ns s).map (Invoked.finish pf ctx (longResult pf ctx.cif.rtype))

/-- `SetByteArrayRegion`, from a local variable. -/
def Native.setByteArrayRegion (o : Option Obj) (offset : ℤ) (xs : List Cell) (s : Native) :
    Option Native := do
  let (r, a) ← s.arrayOf .byte o
  let s := s.logged (.jni .setArrayRegion)
  if Native.inRange offset xs.length a.length then do
    let cells ← splice a.cells offset.toNat xs
    some { s with arrays := s.arrays.set r { a with cells := cells } }
  else some { s with pending := some .arrayIndexOutOfBounds }

/-- `invokeArrayWithObjectsReturnStruct`, and without objects `invokeArrayReturnStruct`. -/
def invokeArrayReturnStruct (ctx : NativeCallContext) (callee : Callee) (paramBuffer : List Byte)
    (objects : List ObjectEntry) (returnBuffer : Option Obj) (offset : BitVec 32) (s : Native) :
    Option Outcome := do
  let retval := List.replicate (ctx.cif.rtype.size pf) Cell.undef
  let o ← invokeArrayWithObjects_ pf jvm ctx callee paramBuffer objects retval s
  let s ← o.native.setByteArrayRegion returnBuffer offset.toInt o.retval
  some { o with native := s }

/-- `j2p`. -/
def j2p (j : BitVec 64) : Ptr := .addr (j.toNat % 2 ^ (8 * pf.ptrSize))

/-- `invokePointerParameterArray`: libffi finds the arguments where `parameterArray` says, and
stores the result itself. -/
def invokePointerParameterArray (ctx : Option NativeCallContext) (callee : Callee)
    (returnBuffer : BitVec 64) (parameterArray : Option (List (BitVec 64))) (s : Native) :
    Option (Option Call × Native) :=
  match ctx, parameterArray with
  | none, _ => some (none, s.throw .nullContext)
  | some ctx, parameterArray =>
    if returnBuffer = 0 then some (none, s.throw .nullResultBuffer)
    else
      match parameterArray with
      | none => some (none, s.throw .nullParameterArray)
      | some params => do
        let s := if 0 < params.length then s.logged (.jni .getArrayRegion) else s
        let frame : Frame := ⟨[], params.map fun p => .mem (j2p pf p)⟩
        if ctx.cif.argTypes.length ≤ params.length then do
          let args ← readArgs pf frame s.toMemory ctx.cif.argTypes
          let r := callee args s.toMemory
          let s' ← (s.returned r).store (j2p pf returnBuffer)
            (pf.nativeOrder.arrange (returnDigits pf ctx.cif.rtype r.result))
          some (some ⟨frame, args, s.toMemory⟩, s')
        else none

/-! ### An invocation -/

/-- An entry point, and what it is given besides the context and the function. -/
inductive EntryPoint
  | invokeI (ns : List (BitVec 32))
  | invokeINoErrno (ns : List (BitVec 32))
  | invokeL (ns : List (BitVec 64))
  | invokeLNoErrno (ns : List (BitVec 64))
  | invokeN (ns : List (BitVec 64))
  | invokeNO (ns : List (BitVec 64)) (objects : List ObjectEntry)
  | invokeArray (paramBuffer : List Byte) (objects : List ObjectEntry) (retval : List Cell)
  | invokeArrayReturnStruct (paramBuffer : List Byte) (objects : List ObjectEntry)
      (returnBuffer : Option Obj) (offset : BitVec 32)
  | invokePointerParameterArray (returnBuffer : BitVec 64) (params : Option (List (BitVec 64)))

/-- What the native function answered, if it was called, and the state in the end. -/
structure Performed where
  answer : Option CallResult
  native : Native

namespace EntryPoint

/-- The bytes of a `jint`. -/
def jintCells (n : BitVec 32) : List Cell := (leBytes 4 n).map .byte

/-- Make the invocation. -/
def perform (ctx : NativeCallContext) (callee : Callee) (s : Native) :
    EntryPoint → Option Performed
  | .invokeI ns =>
    (fastIntInvoke pf ctx callee (ns.map jintCells) s).map fun c =>
      ⟨some (c.answer callee), c.native⟩
  | .invokeINoErrno ns =>
    (fastIntInvokeNoErrno pf ctx callee (ns.map jintCells) s).map fun c =>
      ⟨some (c.answer callee), c.native⟩
  | .invokeL ns =>
    (fastLongInvoke pf ctx callee (ns.map jlongCells) s).map fun c =>
      ⟨some (c.answer callee), c.native⟩
  | .invokeLNoErrno ns =>
    (fastLongInvokeNoErrno pf ctx callee (ns.map jlongCells) s).map fun c =>
      ⟨some (c.answer callee), c.native⟩
  | .invokeN ns =>
    (callN pf ctx callee (ns.map jlongCells) s).map fun c => ⟨some (c.answer callee), c.native⟩
  | .invokeNO ns objects =>
    (Jffi.invokeNO pf jvm ctx callee ns objects s).map fun o =>
      ⟨o.called.map (NumericCall.answer callee), o.native⟩
  | .invokeArray paramBuffer objects retval =>
    (invokeArrayWithObjects_ pf jvm ctx callee paramBuffer objects retval s).map fun o =>
      ⟨o.called.map (Call.answer callee), o.native⟩
  | .invokeArrayReturnStruct paramBuffer objects returnBuffer offset =>
    (Jffi.invokeArrayReturnStruct pf jvm ctx callee paramBuffer objects returnBuffer offset s).map
      fun o => ⟨o.called.map (Call.answer callee), o.native⟩
  | .invokePointerParameterArray returnBuffer params =>
    (Jffi.invokePointerParameterArray pf (some ctx) callee returnBuffer params s).map fun o =>
      ⟨o.1.map (Call.answer callee), o.2⟩

/-- The parameter buffer has a slot for each parameter. -/
def Fits (ctx : NativeCallContext) : EntryPoint → Prop
  | .invokeArray paramBuffer _ _ | .invokeArrayReturnStruct paramBuffer _ _ _ =>
    paramBuffer.length = ctx.cif.argTypes.length * slotSize
  | _ => True

/-- The `NoErrno` variants. -/
def isNoErrno : EntryPoint → Bool
  | .invokeINoErrno _ | .invokeLNoErrno _ => true
  | _ => false

/-- The entry points that expand `SAVE_ERRNO`. -/
def expandsSaveErrno : EntryPoint → Bool
  | .invokeINoErrno _ | .invokePointerParameterArray _ _ => false
  | _ => true

end EntryPoint

end EntryPoints

/-! ### Which error is saved -/

/-- The saved error after `SAVE_ERRNO`, where it is expanded, or without it: then it is what Java
code has saved that the function called back, or what it was before. -/
def errorAfter (pf : Platform) (ctx : NativeCallContext) (expanded : Bool) (before : ℤ) :
    Option CallResult → ℤ
  | some r =>
    if expanded = true ∧ ctx.flags &&& CALL_CTX_SAVE_ERRNO ≠ 0 then
      ctx.errorFn.getD (r.memory.errors.code pf)
    else r.saved.getD before
  | none => before

theorem errorAfter_unexpanded (pf : Platform) (ctx : NativeCallContext) (before : ℤ)
    (answer : Option CallResult) :
    errorAfter pf ctx false before answer = (answer.bind CallResult.saved).getD before := by
  cases answer with
  | none => rfl
  | some r =>
    rw [errorAfter, if_neg fun h => Bool.false_ne_true h.1]
    rfl

section Saved

variable {pf : Platform} {jvm : Jvm} {ctx : NativeCallContext} {callee : Callee} {s s' : Native}
  {objects : List ObjectEntry}

theorem lastError_saveErrno (pf : Platform) (ctx : NativeCallContext) (s : Native)
    (r : CallResult) :
    (saveErrno pf ctx (s.returned r)).lastError =
      errorAfter pf ctx true s.lastError (some r) := by
  unfold saveErrno errorAfter
  dsimp only
  by_cases hsaves : ctx.flags &&& CALL_CTX_SAVE_ERRNO ≠ 0
  · rw [if_pos hsaves, if_pos ⟨rfl, hsaves⟩]
    rfl
  · rw [if_neg hsaves, if_neg fun h => hsaves h.2]
    rfl

/-- A call of a function of numbers, after which only `SAVE_ERRNO` is left, saves what this saves.
-/
theorem NumericCall.CalledIn.lastError {c : NumericCall} (h : c.CalledIn pf ctx callee s) :
    c.native.lastError = errorAfter pf ctx true s.lastError (some (c.answer callee)) := by
  rw [h.native_eq]
  exact lastError_saveErrno pf ctx s _

theorem lastError_copyOut {a : NativeArray} (h : copyOut a s = some s') :
    s'.lastError = s.lastError := by
  unfold copyOut at h
  split at h
  · split at h
    · dsimp only [Native.exceptionCheck] at h
      split at h
      · cases h
        rfl
      · obtain ⟨⟨r, x⟩, -, h⟩ := Option.bind_eq_some_iff.mp h
        dsimp only at h
        split at h
        · obtain ⟨xs, -, h⟩ := Option.bind_eq_some_iff.mp h
          obtain ⟨cells, -, h⟩ := Option.bind_eq_some_iff.mp h
          cases h
          rfl
        · cases h
          rfl
    · cases h
      rfl
  · cases h
    rfl

theorem lastError_releaseElems {a : NativeArray} (h : releaseElems a s = some s') :
    s'.lastError = s.lastError := by
  unfold releaseElems at h
  split at h
  · unfold Native.free at h
    split at h
    · cases h
      rfl
    · obtain ⟨blk, -, h⟩ := Option.bind_eq_some_iff.mp h
      split at h
      · cases h
        rfl
      · cases h
    · cases h
  · unfold Native.releasePrimitiveArrayCritical at h
    split at h
    · cases h
      rfl
    · cases h
  · cases h
    rfl

theorem lastError_releaseArrays {arrays : List NativeArray} (h : releaseArrays arrays s = some s') :
    s'.lastError = s.lastError := by
  induction arrays generalizing s' with
  | nil =>
    cases h
    rfl
  | cons a arrays ih =>
    obtain ⟨s₁, hrest, h⟩ := Option.bind_eq_some_iff.mp h
    obtain ⟨s₂, hout, helems⟩ := Option.bind_eq_some_iff.mp h
    exact (lastError_releaseElems helems).trans ((lastError_copyOut hout).trans (ih hrest))

theorem Holdings.Prepared.lastError {h : Holdings} {copies pinned : List NativeArray}
    {lost : List ℕ} {tail : List Event} (hp : h.Prepared s objects copies pinned lost tail) :
    h.native.lastError = s.lastError := by
  obtain ⟨h₁, -, hacq, -, hpins⟩ := hp
  exact hpins.lastError_eq.trans hacq.lastError_eq

/-- Whatever the fate of a call, nothing is saved before it. -/
theorem FollowsCall.lastError {β : Type} {view : β → Holdings} {I : β → Prop} {d : Decisions}
    {o : Option (Flow β)} {f : Fate} (h : FollowsCall view I d jvm s objects o f) {flow : Flow β}
    (ho : o = some flow) : (view flow.state).native.lastError = s.lastError := by
  cases f with
  | passes =>
    obtain ⟨l, copies, pinned, rfl, -, hp, -⟩ := h
    cases ho
    exact hp.lastError
  | throws =>
    obtain ⟨l, copies, pinned, tail, rfl, hp, -⟩ := h
    cases ho
    exact hp.lastError
  | leaks =>
    obtain ⟨l, copies, b, rfl, hp, -⟩ := h
    cases ho
    exact hp.lastError
  | undefined =>
    have hnone : o = none := h
    cases hnone.symm.trans ho

theorem lastError_invokeNO {ns : List (BitVec 64)} {o : FastOutcome} (hpending : s.pending = none)
    (h : invokeNO pf jvm ctx callee ns objects s = some o) :
    o.native.lastError =
      errorAfter pf ctx true s.lastError (o.called.map (NumericCall.answer callee)) := by
  obtain ⟨flow, hflow, hfinish⟩ := Option.bind_eq_some_iff.mp h
  have hbefore := (resolveFast_follows pf ns.length _ hpending).lastError hflow
  cases flow with
  | next l =>
    obtain ⟨c, hcall, ho⟩ := Option.bind_eq_some_iff.mp hfinish
    obtain ⟨s', hs, ho⟩ := Option.bind_eq_some_iff.mp ho
    cases ho
    rw [← hbefore]
    exact (lastError_releaseArrays hs).trans (calledIn_callN hcall).lastError
  | cleanup l =>
    obtain ⟨s', hs, ho⟩ := Option.bind_eq_some_iff.mp hfinish
    cases ho
    exact (lastError_releaseArrays hs).trans hbefore

theorem lastError_invokeArrayWithObjects {bs : List Byte} {retval : List Cell} {o : Outcome}
    (hbs : bs.length = ctx.cif.argTypes.length * slotSize) (hpending : s.pending = none)
    (h : invokeArrayWithObjects_ pf jvm ctx callee bs objects retval s = some o) :
    o.native.lastError =
      errorAfter pf ctx true s.lastError (o.called.map (Call.answer callee)) := by
  obtain ⟨flow, hflow, hfinish⟩ := Option.bind_eq_some_iff.mp h
  have hbefore := (prepareCall_follows pf ctx hbs hpending).lastError hflow
  cases flow with
  | next l =>
    obtain ⟨⟨call, retval', u⟩, hcall, ho⟩ := Option.bind_eq_some_iff.mp hfinish
    obtain ⟨args, -, hcall⟩ := Option.bind_eq_some_iff.mp hcall
    obtain ⟨retval'', -, hcall⟩ := Option.bind_eq_some_iff.mp hcall
    cases hcall
    obtain ⟨s', hs, ho⟩ := Option.bind_eq_some_iff.mp ho
    cases ho
    rw [← hbefore]
    exact (lastError_releaseArrays hs).trans (lastError_saveErrno pf ctx l.native _)
  | cleanup l =>
    obtain ⟨s', hs, ho⟩ := Option.bind_eq_some_iff.mp hfinish
    cases ho
    exact (lastError_releaseArrays hs).trans hbefore

theorem lastError_invokeArrayReturnStruct {bs : List Byte} {returnBuffer : Option Obj}
    {offset : BitVec 32} {o : Outcome} (hbs : bs.length = ctx.cif.argTypes.length * slotSize)
    (hpending : s.pending = none)
    (h : invokeArrayReturnStruct pf jvm ctx callee bs objects returnBuffer offset s = some o) :
    o.native.lastError =
      errorAfter pf ctx true s.lastError (o.called.map (Call.answer callee)) := by
  obtain ⟨o', ho', h⟩ := Option.bind_eq_some_iff.mp h
  obtain ⟨s', hs, h⟩ := Option.bind_eq_some_iff.mp h
  cases h
  rw [← lastError_invokeArrayWithObjects hbs hpending ho']
  obtain ⟨⟨r, a⟩, -, hs⟩ := Option.bind_eq_some_iff.mp hs
  dsimp only at hs
  split at hs
  · obtain ⟨cells, -, hs⟩ := Option.bind_eq_some_iff.mp hs
    cases hs
    rfl
  · cases hs
    rfl

theorem lastError_invokePointerParameterArray {returnBuffer : BitVec 64}
    {params : Option (List (BitVec 64))} {o : Option Call × Native}
    (h : invokePointerParameterArray pf (some ctx) callee returnBuffer params s = some o) :
    o.2.lastError =
      errorAfter pf ctx false s.lastError (o.1.map (Call.answer callee)) := by
  rw [errorAfter_unexpanded]
  unfold invokePointerParameterArray at h
  dsimp only at h
  split at h
  · cases h
    rfl
  · split at h
    · cases h
      rfl
    · split at h
      · obtain ⟨args, -, h⟩ := Option.bind_eq_some_iff.mp h
        obtain ⟨s', hs, h⟩ := Option.bind_eq_some_iff.mp h
        obtain ⟨m, -, rfl⟩ := Option.map_eq_some_iff.mp hs
        cases h
        split <;> rfl
      · cases h

/-- After an invocation the saved error is the one of `errorAfter`, for an entry point that expands
`SAVE_ERRNO` or does not. -/
theorem lastError_perform {entry : EntryPoint} {p : Performed} (hfits : entry.Fits ctx)
    (hpending : s.pending = none) (h : entry.perform pf jvm ctx callee s = some p) :
    p.native.lastError = errorAfter pf ctx entry.expandsSaveErrno s.lastError p.answer := by
  cases entry with
  | invokeI ns =>
    obtain ⟨c, hc, rfl⟩ := Option.map_eq_some_iff.mp h
    obtain ⟨i, hi, rfl⟩ := Option.map_eq_some_iff.mp hc
    exact ((calledIn_invokeI hi).finish _).lastError
  | invokeINoErrno ns =>
    obtain ⟨c, hc, rfl⟩ := Option.map_eq_some_iff.mp h
    obtain ⟨i, hi, rfl⟩ := Option.map_eq_some_iff.mp hc
    rw [EntryPoint.expandsSaveErrno, errorAfter_unexpanded]
    dsimp only
    rw [(calledIn_invokeI hi).native_eq]
    rfl
  | invokeL ns =>
    obtain ⟨c, hc, rfl⟩ := Option.map_eq_some_iff.mp h
    obtain ⟨i, hi, rfl⟩ := Option.map_eq_some_iff.mp hc
    exact ((calledIn_invokeL hi).finish _).lastError
  | invokeLNoErrno ns =>
    obtain ⟨c, hc, rfl⟩ := Option.map_eq_some_iff.mp h
    obtain ⟨i, hi, rfl⟩ := Option.map_eq_some_iff.mp hc
    exact ((calledIn_invokeL hi).finish _).lastError
  | invokeN ns =>
    obtain ⟨c, hc, rfl⟩ := Option.map_eq_some_iff.mp h
    exact (calledIn_callN hc).lastError
  | invokeNO ns objects =>
    obtain ⟨o, ho, rfl⟩ := Option.map_eq_some_iff.mp h
    exact lastError_invokeNO hpending ho
  | invokeArray paramBuffer objects retval =>
    obtain ⟨o, ho, rfl⟩ := Option.map_eq_some_iff.mp h
    exact lastError_invokeArrayWithObjects hfits hpending ho
  | invokeArrayReturnStruct paramBuffer objects returnBuffer offset =>
    obtain ⟨o, ho, rfl⟩ := Option.map_eq_some_iff.mp h
    exact lastError_invokeArrayReturnStruct hfits hpending ho
  | invokePointerParameterArray returnBuffer params =>
    obtain ⟨o, ho, rfl⟩ := Option.map_eq_some_iff.mp h
    exact lastError_invokePointerParameterArray ho

end Saved

/-! ### A thread -/

/-- An invocation that was made: what it was made with, and the states before and after it. -/
structure Turn (pf : Platform) where
  ctx : CallContext pf
  callee : Callee
  entry : EntryPoint
  fits : entry.Fits ctx.native
  before : Native
  answer : Option CallResult
  after : Native

namespace Turn

variable {pf : Platform} (t : Turn pf)

/-- The context was created with `saveErrno`. -/
def createdToSave : Prop := t.ctx.flags &&& F_NOERRNO = 0

instance : Decidable t.createdToSave := by
  unfold createdToSave
  infer_instance

/-- The invocation has to save the error: the context was created with `saveErrno`, and the entry
point is no `NoErrno` variant. -/
def Saves : Prop := t.createdToSave ∧ t.entry.isNoErrno = false

instance : Decidable t.Saves := by
  unfold Saves
  infer_instance

/-- No invocation made by Java code that the native function called back has saved an error. -/
def Undisturbed : Prop := ∀ r, t.answer = some r → r.saved = none

/-- What the saved error should be: `errno` when the native function returned, if it did and the
invocation has to save it; else as before. -/
def dueFrom (before : ℤ) : ℤ :=
  match t.answer with
  | some r => if t.Saves then r.memory.errors.errno else before
  | none => before

def due : ℤ := t.dueFrom t.before.lastError

/-- The saved error is what it should be. -/
def Lawful : Prop := t.after.lastError = t.due

/-- An invocation that saves as it should. If it has to save, the entry point does, the context
knows no error but `errno`, and the platform is not Windows. If it does not have to, the entry point
does not save what the context would, and nothing is saved meanwhile. -/
def Regular : Prop :=
  if t.Saves then
    t.entry.expandsSaveErrno = true ∧ t.ctx.native.errorFn = none ∧ pf.windows = false
  else (t.createdToSave → t.entry.expandsSaveErrno = false) ∧ t.Undisturbed

/-- The native function was called, and it can be told from the saved error which of the errors was
saved: `errno` and the saved error from before differ, and the others differ from both. -/
def Telling : Prop :=
  ∃ r, t.answer = some r ∧ r.memory.errors.errno ≠ t.before.lastError ∧
    (∀ e, t.ctx.native.errorFn = some e ∨ r.saved = some e ∨
        pf.windows = true ∧ e = r.memory.errors.getLastError →
      e ≠ r.memory.errors.errno ∧ e ≠ t.before.lastError)

end Turn

/-- What happens on a thread: invocations, each made with no exception pending, and between them
anything that leaves the saved error alone. -/
inductive Run (pf : Platform) (jvm : Jvm) : Native → List (Turn pf) → Native → Prop
  | nil (s : Native) : Run pf jvm s [] s
  | between {s s' s'' : Native} {ts : List (Turn pf)} (h : s'.lastError = s.lastError) :
    Run pf jvm s' ts s'' → Run pf jvm s ts s''
  | invoke {t : Turn pf} {ts : List (Turn pf)} {s : Native} (hpending : t.before.pending = none)
    (h : t.entry.perform pf jvm t.ctx.native t.callee t.before = some ⟨t.answer, t.after⟩) :
    Run pf jvm t.after ts s → Run pf jvm t.before (t :: ts) s

section Lawful

variable {pf : Platform} {jvm : Jvm}

/-- A context saves the error if and only if it was created to. -/
theorem saves_iff (ctx : CallContext pf) :
    ctx.native.flags &&& CALL_CTX_SAVE_ERRNO ≠ 0 ↔ ctx.flags &&& F_NOERRNO = 0 := by
  have hflags : (ctx.flags ||| ctx.fixedParamCount <<< 16) &&& F_NOERRNO =
      ctx.flags &&& F_NOERRNO := by
    rw [BitVec.and_or_distrib_right, shiftLeft_and_noErrno, BitVec.or_zero]
  rw [ctx.flags_eq, contextFlags, hflags]
  generalize fastFlags pf _ _ _ = fast
  generalize (ctx.flags ||| ctx.fixedParamCount <<< 16) &&& F_PROTECT = protect
  obtain ⟨int, long⟩ := fast
  by_cases hsaves : ctx.flags &&& F_NOERRNO = 0
  · rw [if_pos hsaves]
    refine iff_of_true ?_ hsaves
    by_cases hprotect : protect ≠ 0
    · rw [if_pos hprotect]
      revert int long
      decide
    · rw [if_neg hprotect]
      revert int long
      decide
  · rw [if_neg hsaves]
    refine iff_of_false ?_ hsaves
    by_cases hprotect : protect ≠ 0
    · rw [if_pos hprotect]
      revert int long
      decide
    · rw [if_neg hprotect]
      revert int long
      decide

variable {t : Turn pf} {ts : List (Turn pf)} {s s' : Native}

/-- What was saved in a turn. -/
def Turn.Saved (t : Turn pf) : Prop :=
  t.after.lastError =
    errorAfter pf t.ctx.native t.entry.expandsSaveErrno t.before.lastError t.answer

/-- Where `SAVE_ERRNO` is expanded for a context that was created to save, the error of the context
is saved. -/
theorem Turn.Saved.of_expanded (h : t.Saved) {r : CallResult} (hanswer : t.answer = some r)
    (hsaves : t.createdToSave) (hexpands : t.entry.expandsSaveErrno = true) :
    t.after.lastError = t.ctx.native.errorFn.getD (r.memory.errors.code pf) := by
  rw [h, hanswer, errorAfter, if_pos ⟨hexpands, (saves_iff t.ctx).mpr hsaves⟩]

/-- Elsewhere only the Java code that was called back can have saved something. -/
theorem Turn.Saved.of_unexpanded (h : t.Saved) {r : CallResult} (hanswer : t.answer = some r)
    (hexpands : t.createdToSave → t.entry.expandsSaveErrno = false) :
    t.after.lastError = r.saved.getD t.before.lastError := by
  rw [h, hanswer, errorAfter, if_neg]
  intro hboth
  have hfalse := hexpands ((saves_iff t.ctx).mp hboth.2)
  exact Bool.false_ne_true (hfalse.symm.trans hboth.1)

/-- **A regular invocation is lawful**: afterwards the saved error is the one that is due. -/
theorem Turn.Saved.lawful (h : t.Saved) (hregular : t.Regular) : t.Lawful := by
  rw [Turn.Lawful, Turn.due, Turn.dueFrom]
  cases hanswer : t.answer with
  | none => rw [h, hanswer, errorAfter]
  | some r =>
    dsimp only
    rw [Turn.Regular] at hregular
    by_cases hsaves : t.Saves
    · rw [if_pos hsaves] at hregular ⊢
      obtain ⟨hexpands, herror, hwindows⟩ := hregular
      rw [h.of_expanded hanswer hsaves.1 hexpands, herror, Option.getD_none, ErrorCodes.code,
        hwindows, if_neg Bool.false_ne_true]
    · rw [if_neg hsaves] at hregular ⊢
      obtain ⟨hexpands, hundisturbed⟩ := hregular
      rw [h.of_unexpanded hanswer hexpands, hundisturbed r hanswer, Option.getD_none]

/-- **Only a regular invocation is lawful**, where it can be told which error was saved. -/
theorem Turn.Saved.regular (h : t.Saved) (htelling : t.Telling) (hlawful : t.Lawful) :
    t.Regular := by
  obtain ⟨r, hanswer, herrno, hothers⟩ := htelling
  rw [Turn.Lawful, Turn.due, Turn.dueFrom, hanswer] at hlawful
  dsimp only at hlawful
  rw [Turn.Regular]
  by_cases hsaves : t.Saves
  · rw [if_pos hsaves] at hlawful ⊢
    have hexpands : t.entry.expandsSaveErrno = true := by
      by_contra hunexpanded
      rw [h.of_unexpanded hanswer fun _ => eq_false_of_ne_true hunexpanded] at hlawful
      cases hsaved : r.saved with
      | none =>
        rw [hsaved] at hlawful
        exact herrno hlawful.symm
      | some e =>
        rw [hsaved] at hlawful
        exact (hothers e (.inr (.inl hsaved))).1 hlawful
    rw [h.of_expanded hanswer hsaves.1 hexpands] at hlawful
    have herror : t.ctx.native.errorFn = none := by
      cases herror : t.ctx.native.errorFn with
      | none => rfl
      | some e =>
        rw [herror] at hlawful
        exact absurd hlawful (hothers e (.inl herror)).1
    refine ⟨hexpands, herror, ?_⟩
    by_contra hwindows
    have htrue : pf.windows = true := eq_true_of_ne_false hwindows
    rw [herror, Option.getD_none, ErrorCodes.code, if_pos htrue] at hlawful
    exact (hothers _ (.inr (.inr ⟨htrue, rfl⟩))).1 hlawful
  · rw [if_neg hsaves] at hlawful ⊢
    have hexpands : t.createdToSave → t.entry.expandsSaveErrno = false := by
      intro hcreated
      by_contra hexpanded
      rw [h.of_expanded hanswer hcreated (eq_true_of_ne_false hexpanded)] at hlawful
      cases herror : t.ctx.native.errorFn with
      | some e =>
        rw [herror] at hlawful
        exact (hothers e (.inl herror)).2 hlawful
      | none =>
        rw [herror, Option.getD_none, ErrorCodes.code] at hlawful
        split at hlawful
        case isTrue hwindows => exact (hothers _ (.inr (.inr ⟨hwindows, rfl⟩))).2 hlawful
        case isFalse => exact herrno hlawful
    refine ⟨hexpands, fun r' hr' => ?_⟩
    obtain rfl : r = r' := Option.some.inj (hanswer.symm.trans hr')
    rw [h.of_unexpanded hanswer hexpands] at hlawful
    cases hsaved : r.saved with
    | none => rfl
    | some e =>
      rw [hsaved] at hlawful
      exact absurd hlawful (hothers e (.inr (.inl hsaved))).2

/-- Every turn of a run saved what its entry point saves. -/
theorem Run.saved (h : Run pf jvm s ts s') : ∀ t ∈ ts, t.Saved := by
  induction h with
  | nil s => exact fun t ht => absurd ht List.not_mem_nil
  | between _ _ ih => exact ih
  | invoke hpending h _ ih =>
    intro t ht
    rcases List.mem_cons.mp ht with rfl | ht
    · exact lastError_perform t.fits hpending h
    · exact ih t ht

/-- The error that is due to be saved after some invocations. -/
def lastDue (before : ℤ) (ts : List (Turn pf)) : ℤ := ts.foldl (fun e t => t.dueFrom e) before

theorem Run.lastError (h : Run pf jvm s ts s') (hlawful : ∀ t ∈ ts, t.Lawful) :
    s'.lastError = lastDue s.lastError ts := by
  induction h with
  | nil s => rfl
  | between hkept _ ih =>
    rw [← hkept]
    exact ih hlawful
  | @invoke t ts s _ _ _ ih =>
    have hhead : t.after.lastError = t.dueFrom t.before.lastError :=
      hlawful t (List.mem_cons_self ..)
    rw [ih fun u hu => hlawful u (List.mem_cons_of_mem t hu), hhead]
    rfl

/-- **The saved error along a run**: each regular invocation saves what it should, and one that is
not regular does not, if it can be told. So in a run of regular invocations the saved error is at
the end what it is due to be. -/
theorem lawful_of_run (h : Run pf jvm s ts s') :
    (∀ t ∈ ts, t.Regular → t.Lawful) ∧ (∀ t ∈ ts, t.Telling → (t.Lawful ↔ t.Regular)) ∧
      ((∀ t ∈ ts, t.Regular) → s'.lastError = lastDue s.lastError ts) := by
  have hlawful : ∀ t ∈ ts, t.Regular → t.Lawful := fun t ht => (h.saved t ht).lawful
  refine ⟨hlawful, fun t ht htelling => ⟨(h.saved t ht).regular htelling, hlawful t ht⟩, ?_⟩
  intro hregular
  exact h.lastError fun t ht => hlawful t ht (hregular t ht)

/-- A native function that sets `errno`. -/
def failing (e : ℤ) : Callee := fun _ m => ⟨{ m with errors := ⟨e, 0⟩ }, [], none, none⟩

/-- A thread with the given `errno` and saved error. -/
def threadWith (errno lastError : ℤ) : Native :=
  ⟨⟨[], [], fun _ => Cell.undef, ⟨errno, 0⟩⟩, none, 0, 0, lastError, []⟩

/-- An invocation of a function that sets `errno` to `e`, on a thread with the saved error `before`,
which then has the saved error `after`. -/
def failingTurn (ctx : CallContext .linuxX64) (entry : EntryPoint) (h : entry.Fits ctx.native)
    (e before after : ℤ) : Turn .linuxX64 :=
  ⟨ctx, failing e, entry, h, threadWith 0 before,
    some ⟨⟨[], [], fun _ => Cell.undef, ⟨e, 0⟩⟩, [], none, none⟩, threadWith e after⟩

/-- A context of one `int`, made to save the error or not. -/
def oneInt (saveErrno : Bool) : CallContext .linuxX64 :=
  (CallContext.create .linuxX64 .accepting (.builtin .void) 1 [.builtin .sint32] .default saveErrno
    false).get (by cases saveErrno <;> decide)

/-- The error 2 is saved. The `NoErrno` variant does not save the error 3, and a context that was
not made to does not save the error 4. -/
def threeTurns : List (Turn .linuxX64) :=
  [failingTurn (oneInt true) (.invokeN [0]) trivial 2 0 2,
    failingTurn (oneInt true) (.invokeINoErrno [0]) trivial 3 2 2,
    failingTurn (oneInt false) (.invokeI [0]) trivial 4 2 2]

theorem run_threeTurns :
    Run .linuxX64 .reliable (threadWith 0 0) threeTurns (threadWith 4 2) := by
  refine .invoke (t := failingTurn (oneInt true) (.invokeN [0]) trivial 2 0 2) rfl rfl ?_
  refine .between (show (threadWith 0 2).lastError = (threadWith 2 2).lastError from rfl) ?_
  refine .invoke (t := failingTurn (oneInt true) (.invokeINoErrno [0]) trivial 3 2 2) rfl rfl ?_
  refine .between (show (threadWith 0 2).lastError = (threadWith 3 2).lastError from rfl) ?_
  exact .invoke (t := failingTurn (oneInt false) (.invokeI [0]) trivial 4 2 2) rfl rfl (.nil _)

theorem lawful_threeTurns :
    (∀ t ∈ threeTurns, t.Regular → t.Lawful) ∧
      (∀ t ∈ threeTurns, t.Telling → (t.Lawful ↔ t.Regular)) ∧
      ((∀ t ∈ threeTurns, t.Regular) →
        (threadWith 4 2).lastError = lastDue (threadWith 0 0).lastError threeTurns) :=
  lawful_of_run run_threeTurns

/-- In a run of one invocation `invokeL1NoErrno` saves the error all the same. -/
theorem not_lawful_invokeLNoErrno :
    ∃ ts s', Run .linuxX64 .reliable (threadWith 0 0) ts s' ∧ ¬∀ t ∈ ts, t.Lawful := by
  refine ⟨[failingTurn onePointer (.invokeLNoErrno [0]) trivial 2 0 2], threadWith 2 2, ?_,
    fun h => ?_⟩
  · exact .invoke (t := failingTurn onePointer (.invokeLNoErrno [0]) trivial 2 0 2) rfl rfl (.nil _)
  · have hlawful := h _ (List.mem_cons_self ..)
    revert hlawful
    rw [Turn.Lawful]
    decide

end Lawful

end Jffi
