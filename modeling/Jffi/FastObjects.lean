import Jffi.FastNumeric

/-!
# The fast entry points with objects

`invokeN1O1`, …, `invokeN6O6` take their numbers as arguments and with them up to as many objects,
each with its descriptor, offset and length. The numbers are the initial values of `v[]`; an object
overwrites the element of its parameter with a pointer. What an array needs is acquired by the
functions of `Array.c`, as on the generic path, but the decisions are taken by macros of this file's
own.

## Main definitions

* `FastLoop` — the local variables
* `objectToPtr`, `addObj`, `pinArrays` — the steps
* `invokeNO` — the whole function
-/

namespace Jffi

open ObjectBuffer

/-! ### Reading a descriptor -/

/-- `IS_PINNED_ARRAY`. -/
def isPinnedArray (flags : BitVec 32) : Bool := flags &&& (ARRAY ||| PINNED) == (ARRAY ||| PINNED)

/-- `IS_UNPINNED_ARRAY`. -/
def isUnpinnedArray (flags : BitVec 32) : Bool := flags &&& (ARRAY ||| PINNED) == ARRAY

/-- `IS_ARRAY`. -/
def isArray (flags : BitVec 32) : Bool := flags &&& TYPE_MASK &&& ~~~PRIM_MASK == ARRAY

/-- `IS_BUFFER`. -/
def isBuffer (flags : BitVec 32) : Bool := flags &&& TYPE_MASK &&& ~~~PRIM_MASK == BUFFER

variable (pf : Platform) (jvm : Jvm)

/-! ### The local variables -/

/-- `p2j`, by its bytes. -/
def p2j (p : Ptr) : List Cell := p.digits pf ++ List.replicate (8 - pf.ptrSize) (.byte 0)

/-- The local variables of `invoke1`, …, `invoke6`. -/
structure FastLoop where
  /-- `v[]`, each element by its bytes. -/
  v : List (List Cell)
  arrays : List NativeArray
  pinned : List Pinned
  native : Native

namespace FastLoop

/-- `v[idx] = p2j(ptr)`. -/
def pass (idx : ℕ) (ptr : Ptr) (l : FastLoop) : FastLoop := { l with v := l.v.set idx (p2j pf ptr) }

/-- An exception is thrown, and the loop goes to the clean-up. -/
def throw (l : FastLoop) (e : Exn) : Option (Flow FastLoop) :=
  some (.cleanup { l with native := l.native.throw e })

/-- A copied array joins the arrays to release, and its elements are passed. -/
def addArray (idx : ℕ) (l : FastLoop) (acquired : Option NativeArray × Native) : Flow FastLoop :=
  match acquired with
  | (some a, s) => .next { l.pass pf idx a.elems with arrays := l.arrays ++ [a], native := s }
  | (none, s) => .cleanup { l with native := s }

end FastLoop

/-! ### The steps -/

/-- `object_to_ptr`. -/
def objectToPtr (e : ObjectEntry) (l : FastLoop) : Option (Flow FastLoop) :=
  let idx := descriptorIndex e.flags
  let offset := e.offset.toInt
  let length := e.length.toInt
  match e.object with
  | none => l.throw (.nullObject idx)
  | some _ =>
    if isPinnedArray e.flags then
      some (.next { l.pass pf idx (.addr 0) with
        pinned := l.pinned ++ [⟨e.object, offset, length, e.flags⟩] })
    else if isArray e.flags then do
      let acquired ← getArrayHeap pf jvm e.object offset length e.flags l.native
      some (l.addArray pf idx acquired)
    else if isBuffer e.flags then do
      let (ptr, s) ← l.native.getDirectBufferAddress e.object
      let l := { l with native := s }
      if ptr = .addr 0 then l.throw (.noDirectBufferAddress idx)
      else some (.next (l.pass pf idx (ptr.add pf offset)))
    else l.throw (.unsupportedObjectTypeFor idx e.flags)

/-- `ADDOBJ`, in a function of `n` numbers. -/
def addObj (n : ℕ) (e : ObjectEntry) (l : FastLoop) : Option (Flow FastLoop) :=
  let idx := descriptorIndex e.flags
  let offset := e.offset.toInt
  let length := e.length.toInt
  if n - 1 < idx then l.throw (.invalidParameterIndex idx (n - 1))
  else if isUnpinnedArray e.flags = true ∧ length < MAX_STACK_ARRAY then do
    let (ptr, s) ← l.native.alloca (arraySize (length + 1) e.flags)
    let acquired ← getArrayBuffer pf e.object offset length e.flags ptr s
    some (l.addArray pf idx acquired)
  else objectToPtr pf jvm e l

/-- One round of `pin_arrays`. -/
def pinArray (p : Pinned) (l : FastLoop) : Option (Flow FastLoop) := do
  match ← getArrayCritical pf jvm p.object p.offset p.length p.type l.native with
  | (some (addr, a), s) =>
    some (.next { l.pass pf (descriptorIndex p.type) addr with
      arrays := l.arrays ++ [a], native := s })
  | (none, s) => some (.cleanup { l with native := s })

/-! ### The whole function -/

/-- `INIT`, the objects one by one, and `PIN_ARRAYS`. -/
def resolveFast (n : ℕ) (objects : List ObjectEntry) (l : FastLoop) : Option (Flow FastLoop) := do
  match ← loopM (addObj pf jvm n) objects l with
  | .next l => loopM (pinArray pf jvm) l.pinned l
  | .cleanup l => some (.cleanup l)

/-- The end of an entry point: the call, if one was made, the result by its bytes and the state. -/
structure FastOutcome where
  called : Option NumericCall
  result : List Cell
  native : Native

/-- The call and `END`. -/
def finishFast (ctx : NativeCallContext) (callee : Callee) (flow : Flow FastLoop) :
    Option FastOutcome :=
  match flow with
  | .next l => do
    let c ← callN pf ctx callee l.v l.native
    let s ← releaseArrays l.arrays c.native
    some ⟨some c, c.result, s⟩
  | .cleanup l => do
    let s ← releaseArrays l.arrays l.native
    some ⟨none, List.replicate 8 (.byte 0), s⟩

/-- `invokeN1O1`, …, `invokeN6O6` with the numbers `ns`. -/
def invokeNO (ctx : NativeCallContext) (callee : Callee) (ns : List (BitVec 64))
    (objects : List ObjectEntry) (s : Native) : Option FastOutcome := do
  let flow ← resolveFast pf jvm ns.length objects
    ⟨ns.map fun n => (leBytes 8 n).map .byte, [], [], s⟩
  finishFast pf ctx callee flow

end Jffi
