import Jffi.CallContext
import Jffi.Lib.Loop
import Jffi.NativeArray

/-!
# `invokeArrayWithObjects_`

The generic entry point: the parameters arrive as a byte array with a slot of `PARAM_SIZE` bytes
each, the objects as descriptors. The function points libffi at the slots, resolves the objects one
by one, pins what is to be pinned, calls, and releases.

The native function is any function of its arguments and of memory. `ffi_call` reads from each
argument pointer the bytes of a value of the argument's type.

## Main definitions

* `ffiCall` — what libffi reads, passes and stores
* `objectStep`, `pinStep` — one round of the two loops
* `invokeArrayWithObjects_` — the whole function, with the call it made
-/

namespace Jffi

open ObjectBuffer

variable (pf : Platform) (jvm : Jvm)

/-! ### The native function -/

/-- What a native function leaves: memory, its result, least significant byte first, and, when it
has called back Java code, the exception that was thrown there and the error that the last saving
invocation made there has saved. -/
structure CallResult where
  memory : Memory
  result : List Cell
  thrown : Option Exn
  saved : Option ℤ

/-- A native function, of the bytes of its arguments, least significant first, and of memory. -/
abbrev Callee := List (List Cell) → Memory → CallResult

/-! ### `ffi_call` -/

/-- An element of `ffiArgs`: into the frame of the invoker, or anywhere else. -/
inductive ArgPtr
  | slot (offset : ℕ)
  | mem (p : Ptr)
  deriving DecidableEq, Repr

/-- The local variables `tmpBuffer` and `ffiArgs`. -/
structure Frame where
  tmpBuffer : List Cell
  ffiArgs : List ArgPtr
  deriving DecidableEq, Repr

/-- Read `n` bytes at an argument pointer. -/
def Frame.load (f : Frame) (m : Memory) (p : ArgPtr) (n : ℕ) : Option (List Cell) :=
  match p with
  | .slot off => slice f.tmpBuffer off n
  | .mem p => m.load p n

/-- The argument values libffi reads, each least significant byte first. -/
def readArgs (f : Frame) (m : Memory) (types : List FFIType) : Option (List (List Cell)) :=
  (types.zip f.ffiArgs).mapM fun (t, p) =>
    (f.load m p (t.valueSize pf)).map pf.nativeOrder.arrange

/-- Exactly `n` bytes of a result; those the function did not supply are unspecified. -/
def fitResult (n : ℕ) (result : List Cell) : List Cell :=
  (result ++ List.replicate (n - result.length) Cell.undef).take n

/-- The byte that fills up a widened integer. -/
def extension (signed : Bool) (ds : List Cell) : Cell :=
  if signed then
    match ds.getLast? with
    | some (.byte b) => .byte (if b.msb then 0xff else 0)
    | _ => .undef
  else .byte 0

/-- The bytes `ffi_call` stores for a result: an integer narrower than `ffi_arg` is widened. -/
def returnDigits (rtype : FFIType) (result : List Cell) : List Cell :=
  let ds := fitResult (rtype.valueSize pf) result
  if rtype.isIntegral then
    ds ++ List.replicate (pf.ptrSize - ds.length) (extension rtype.isSigned ds)
  else ds

/-- The result in the return buffer, which must have room for it. -/
def storeResult (rtype : FFIType) (result retval : List Cell) : Option (List Cell) :=
  splice retval 0 (pf.nativeOrder.arrange (returnDigits pf rtype result))

/-- The moment of a call: the frame, the argument values and memory. -/
structure Call where
  frame : Frame
  args : List (List Cell)
  memory : Memory

/-- What the callee answers to a call. -/
def Call.answer (callee : Callee) (c : Call) : CallResult := callee c.args c.memory

/-- The state of the thread when a native function has returned. -/
def Native.returned (s : Native) (r : CallResult) : Native :=
  { s with
    toMemory := r.memory
    pending := r.thrown.or s.pending
    lastError := r.saved.getD s.lastError }

/-- `ffi_call`. -/
def ffiCall (cif : Cif) (callee : Callee) (f : Frame) (retval : List Cell) (s : Native) :
    Option (Call × List Cell × Native) := do
  let args ← readArgs pf f s.toMemory cif.argTypes
  let r := callee args s.toMemory
  let retval ← storeResult pf cif.rtype r.result retval
  some (⟨f, args, s.toMemory⟩, retval, s.returned r)

/-- The error code that is saved: `GetLastError()` under Windows, else `errno`. -/
def ErrorCodes.code (e : ErrorCodes) : ℤ := if pf.windows then e.getLastError else e.errno

/-- `jffi_save_errno_ctx`. -/
def saveErrnoCtx (ctx : NativeCallContext) (s : Native) : Native :=
  { s with lastError := ctx.errorFn.getD (s.errors.code pf) }

/-- `SAVE_ERRNO`, all that is left of `FAULTPROT_CTX` after the call. -/
def saveErrno (ctx : NativeCallContext) (s : Native) : Native :=
  if ctx.flags &&& CALL_CTX_SAVE_ERRNO ≠ 0 then saveErrnoCtx pf ctx s else s

theorem toMemory_saveErrno (ctx : NativeCallContext) (s : Native) :
    (saveErrno pf ctx s).toMemory = s.toMemory := by
  rw [saveErrno]
  split <;> rfl

theorem pending_saveErrno (ctx : NativeCallContext) (s : Native) :
    (saveErrno pf ctx s).pending = s.pending := by
  rw [saveErrno]
  split <;> rfl

/-- States that agree on the heap still do after a call of the same outcome. -/
theorem Native.KeepsHeap.saveErrno_returned {s s' : Native} (h : s.KeepsHeap s')
    (ctx : NativeCallContext) (r : CallResult) :
    (saveErrno pf ctx (s.returned r)).KeepsHeap (saveErrno pf ctx (s'.returned r)) := by
  have hpending : r.thrown.or s'.pending = r.thrown.or s.pending := by rw [h.pending_eq]
  have hlast : r.saved.getD s'.lastError = r.saved.getD s.lastError := by rw [h.lastError_eq]
  simp only [saveErrno]
  split
  · exact ⟨rfl, rfl, rfl, hpending, rfl⟩
  · exact ⟨rfl, rfl, rfl, hpending, hlast⟩

/-! ### The frame -/

def MAX_STACK_ARRAY : ℤ := 1024

/-- `sizeof` a parameter slot, `PARAM_SIZE` of the C sources. -/
def slotSize : ℕ := 8

/-- `COPY_ARGS`: a struct is passed by the pointer in its slot. -/
def copyArgs (tmpBuffer : List Cell) : ℕ → List FFIType → Option (List ArgPtr)
  | _, [] => some []
  | idx, t :: types => do
    let arg ←
      if t.code pf = .struct then do
        let image ← slice tmpBuffer (idx * slotSize) pf.ptrSize
        let p ← Ptr.ofDigits pf (pf.nativeOrder.arrange image)
        some (.mem p)
      else some (.slot (idx * slotSize))
    let args ← copyArgs tmpBuffer (idx + 1) types
    some (arg :: args)

/-- The frame before any object is looked at. -/
def newFrame (ctx : NativeCallContext) (paramBuffer : List Byte) (s : Native) :
    Option (Frame × Native) :=
  let size := ctx.cif.argTypes.length * slotSize
  if 0 < ctx.cif.argTypes.length then do
    let s := s.logged (.jni .getArrayRegion)
    let (tmpBuffer, s) :=
      if size ≤ paramBuffer.length then ((paramBuffer.take size).map .byte, s)
      else (List.replicate size .undef, { s with pending := some .arrayIndexOutOfBounds })
    let ffiArgs ← copyArgs pf tmpBuffer 0 ctx.cif.argTypes
    some (⟨tmpBuffer, ffiArgs⟩, s)
  else some (⟨[], []⟩, s)

/-! ### The loops -/

/-- `Pinned`: an array that is pinned later. -/
structure Pinned where
  object : Option Obj
  offset : ℤ
  length : ℤ
  type : BitVec 32
  deriving DecidableEq, Repr

/-- The local variables of the loops. -/
structure ObjectLoop where
  frame : Frame
  arrays : List NativeArray
  pinned : List Pinned
  native : Native

/-- Pass `ptr` as parameter `idx`: into the slot of a pointer, else in the place of the slot. -/
def setArg (ctx : NativeCallContext) (idx : ℕ) (ptr : Ptr) (l : ObjectLoop) :
    Option (Flow ObjectLoop) := do
  let type ← ctx.cif.argTypes[idx]?
  if type.code pf = .pointer then
    match l.frame.ffiArgs[idx]? with
    | some (.slot off) => do
      let tmpBuffer ← splice l.frame.tmpBuffer off (ptr.image pf)
      some (.next { l with frame := { l.frame with tmpBuffer := tmpBuffer } })
    | some (.mem p) => do
      let s ← l.native.store p (ptr.image pf)
      some (.next { l with native := s })
    | none => none
  else
    some (.next { l with frame := { l.frame with ffiArgs := l.frame.ffiArgs.set idx (.mem ptr) } })

/-- An exception is thrown, and the loop goes to the clean-up. -/
def ObjectLoop.throw (l : ObjectLoop) (e : Exn) : Option (Flow ObjectLoop) :=
  some (.cleanup { l with native := l.native.throw e })

/-- A copied array joins the arrays to release, and its elements are passed. -/
def addArray (ctx : NativeCallContext) (idx : ℕ) (l : ObjectLoop)
    (acquired : Option NativeArray × Native) : Option (Flow ObjectLoop) :=
  match acquired with
  | (some a, s) => setArg pf ctx idx a.elems { l with arrays := l.arrays ++ [a], native := s }
  | (none, s) => some (.cleanup { l with native := s })

/-- The cases of the two nested `switch`es on the type of an object. -/
inductive ObjectKind
  | array
  | buffer
  | jniEnvironment
  | jniObject
  | unsupported
  deriving DecidableEq, Repr

/-- The outer `switch` looks at the type bits outside `PRIM_MASK`, the inner one, on a JNI
parameter, at all of them. -/
def decodeKind (type : BitVec 32) : ObjectKind :=
  let kind := type &&& TYPE_MASK &&& ~~~PRIM_MASK
  if kind = ARRAY then .array
  else if kind = BUFFER then .buffer
  else if kind = JNI then
    if type &&& TYPE_MASK = JNIENV then .jniEnvironment
    else if type &&& TYPE_MASK = JNIOBJECT then .jniObject
    else .unsupported
  else .unsupported

/-- The branch of an array. -/
def arrayStep (ctx : NativeCallContext) (e : ObjectEntry) (l : ObjectLoop) :
    Option (Flow ObjectLoop) :=
  let idx := descriptorIndex e.flags
  let offset := e.offset.toInt
  let length := e.length.toInt
  match e.object with
  | none => l.throw (.nullObject idx)
  | some _ =>
    if isPinned e.flags then
      -- only recorded here: the pinning is done just before the call
      setArg pf ctx idx (.addr 0)
        { l with pinned := l.pinned ++ [⟨e.object, offset, length, e.flags⟩] }
    else if length < MAX_STACK_ARRAY then do
      let (ptr, s) ← l.native.alloca (arraySize (length + 1) e.flags)
      let acquired ← getArrayBuffer pf e.object offset length e.flags ptr s
      addArray pf ctx idx l acquired
    else do
      let acquired ← getArrayHeap pf jvm e.object offset length e.flags l.native
      addArray pf ctx idx l acquired

/-- The branch of an `nio` buffer. -/
def bufferStep (ctx : NativeCallContext) (e : ObjectEntry) (l : ObjectLoop) :
    Option (Flow ObjectLoop) :=
  let idx := descriptorIndex e.flags
  match e.object with
  | none => l.throw (.nullObject idx)
  | some _ => do
    let (ptr, s) ← l.native.getDirectBufferAddress e.object
    let l := { l with native := s }
    if ptr = .addr 0 then l.throw (.nullDirectBuffer idx)
    else setArg pf ctx idx (ptr.add pf e.offset.toInt) l

/-- The handle the native code has of an object. -/
def handleOf : Option Obj → Ptr
  | some o => .handle o
  | none => .addr 0

/-- One round of the object loop. -/
def objectStep (ctx : NativeCallContext) (e : ObjectEntry) (l : ObjectLoop) :
    Option (Flow ObjectLoop) :=
  match decodeKind e.flags with
  | .array => arrayStep pf jvm ctx e l
  | .buffer => bufferStep pf ctx e l
  | .jniEnvironment => setArg pf ctx (descriptorIndex e.flags) .env l
  | .jniObject => setArg pf ctx (descriptorIndex e.flags) (handleOf e.object) l
  | .unsupported => l.throw (.unsupportedObjectType (e.flags &&& TYPE_MASK))

/-- One round of the pinning loop. -/
def pinStep (ctx : NativeCallContext) (p : Pinned) (l : ObjectLoop) : Option (Flow ObjectLoop) := do
  match ← getArrayCritical pf jvm p.object p.offset p.length p.type l.native with
  | (some (ptr, a), s) => do
    match ← setArg pf ctx (descriptorIndex p.type) ptr { l with native := s } with
    | .next l => some (.next { l with arrays := l.arrays ++ [a] })
    | .cleanup l => some (.cleanup l)
  | (none, s) => some (.cleanup { l with native := s })

/-! ### The whole function -/

/-- The end of an invocation: the call, if one was made, the return buffer and the state. -/
structure Outcome where
  called : Option Call
  retval : List Cell
  native : Native

/-- The objects resolved, the call and its clean-up. -/
def finishCall (ctx : NativeCallContext) (callee : Callee) (retval : List Cell)
    (flow : Flow ObjectLoop) : Option Outcome :=
  match flow with
  | .next l => do
    let (call, retval, s) ← ffiCall pf ctx.cif callee l.frame retval l.native
    let s ← releaseArrays l.arrays (saveErrno pf ctx s)
    some ⟨some call, retval, s⟩
  | .cleanup l => do
    let s ← releaseArrays l.arrays l.native
    some ⟨none, retval, s⟩

/-- Both loops: the objects one after the other, and then the arrays that are to be pinned. -/
def resolveObjects (ctx : NativeCallContext) (objects : List ObjectEntry) (l : ObjectLoop) :
    Option (Flow ObjectLoop) := do
  match ← loopM (objectStep pf jvm ctx) objects l with
  | .next l => loopM (pinStep pf jvm ctx) l.pinned l
  | .cleanup l => some (.cleanup l)

/-- Everything that is done before the call. -/
def prepareCall (ctx : NativeCallContext) (paramBuffer : List Byte) (objects : List ObjectEntry)
    (s : Native) : Option (Flow ObjectLoop) := do
  let (frame, s) ← newFrame pf ctx paramBuffer s
  resolveObjects pf jvm ctx objects ⟨frame, [], [], s⟩

def invokeArrayWithObjects_ (ctx : NativeCallContext) (callee : Callee) (paramBuffer : List Byte)
    (objects : List ObjectEntry) (retval : List Cell) (s : Native) : Option Outcome := do
  let flow ← prepareCall pf jvm ctx paramBuffer objects s
  finishCall pf ctx callee retval flow

/-- The `n` descriptors and objects of an `ObjectBuffer`, put side by side. -/
def readEntries : ℕ → List (BitVec 32) → List (Option Obj) → Option (List ObjectEntry)
  | 0, _, _ => some []
  | n + 1, flags :: offset :: length :: info, o :: objects =>
    (readEntries n info objects).map (⟨o, flags, offset, length⟩ :: ·)
  | _, _, _ => none

/-- `invokeArrayWithObjects` on what a `HeapInvocationBuffer` holds. -/
def invokeArrayWithObjects (ctx : NativeCallContext) (callee : Callee) (paramBuffer : List Byte)
    (objectCount : ℕ) (objectInfo : List (BitVec 32)) (objectArray : List (Option Obj))
    (retval : List Cell) (s : Native) : Option Outcome := do
  let objects ← readEntries objectCount objectInfo objectArray
  invokeArrayWithObjects_ pf jvm ctx callee paramBuffer objects retval s

end Jffi
