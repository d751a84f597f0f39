import Jffi.Invoke

/-!
# The trace is never read

What a call has done so far decides nothing of what it does next: the functions that acquire and
give back arrays do the same in two states that differ by what is recorded of the past.

## Main definitions

* `Native.onLog` — a state with a past before its own

## Main results

* `getArrayBuffer_onLog`, `getArrayHeap_onLog`, `getArrayCritical_onLog` — acquiring an array
* `releaseArrays_onLog` — giving the arrays back
-/

namespace Jffi

variable {pf : Platform} {jvm : Jvm} {α : Type}

namespace Native

/-- The state, with the events `L` before those of its own trace. -/
def onLog (L : List Event) (s : Native) : Native := { s with log := L ++ s.log }

/-- … with what a function answers besides. -/
def withLog (L : List Event) (r : α × Native) : α × Native := (r.1, r.2.onLog L)

variable (L : List Event) (s : Native)

/-- A state is the one without a past that has its trace put in front again. -/
theorem onLog_self : { s with log := [] }.onLog s.log = s := by
  rw [onLog]
  simp

theorem logged_onLog (e : Event) : (s.onLog L).logged e = (s.logged e).onLog L := by
  rw [logged, logged, onLog, onLog, List.append_assoc]

theorem throw_onLog (e : Exn) : (s.onLog L).throw e = (s.throw e).onLog L := by
  rw [throw, throw, logged_onLog]
  rfl

theorem store_onLog (p : Ptr) (xs : List Cell) :
    (s.onLog L).store p xs = (s.store p xs).map (onLog L) := by
  rw [store, store, Option.map_map]
  rfl

theorem alloca_onLog (size : ℤ) : (s.onLog L).alloca size = (s.alloca size).map (withLog L) := by
  simp only [alloca]
  split
  · rfl
  · rfl

theorem malloc_onLog (size : ℤ) :
    (s.onLog L).malloc jvm size = withLog L (s.malloc jvm size) := by
  by_cases h : size < 0 ∨ jvm.mallocFails s.mallocs = true
  · rw [malloc, malloc, if_pos h]
    exact if_pos h
  · rw [malloc, malloc, if_neg h]
    refine (if_neg h).trans ?_
    change (_, { ((s.newBlock .heap size.toNat).onLog L).logged (.malloc s.blocks.length) with
      mallocs := s.mallocs + 1 }) = _
    rw [logged_onLog]
    rfl

theorem free_onLog (p : Ptr) : (s.onLog L).free p = (s.free p).map (onLog L) := by
  simp only [free]
  split
  · rfl
  · rename_i b
    change Option.bind s.blocks[b]? _ = Option.map _ (Option.bind s.blocks[b]? _)
    cases s.blocks[b]? with
    | none => rfl
    | some blk =>
      dsimp only [Option.bind_some]
      split
      · exact congrArg some
          (logged_onLog L { s with blocks := s.blocks.set b { blk with live := false } } _)
      · rfl
  · rfl

theorem memset_onLog (p : Ptr) (size : ℤ) :
    (s.onLog L).memset p size = (s.memset p size).map (onLog L) := by
  simp only [memset]
  split
  · exact store_onLog L s p _
  · rfl

theorem getArrayRegion_onLog (t : ComponentType) (o : Option Obj) (offset length : ℤ) (dst : Ptr) :
    (s.onLog L).getArrayRegion t o offset length dst =
      (s.getArrayRegion t o offset length dst).map (onLog L) := by
  simp only [getArrayRegion]
  rw [show (s.onLog L).arrayOf t o = s.arrayOf t o from rfl, logged_onLog]
  cases s.arrayOf t o with
  | none => rfl
  | some a =>
    dsimp only [Option.bind_eq_bind, Option.bind_some]
    split
    · cases slice a.2.cells (offset.toNat * t.size) (length.toNat * t.size) with
      | none => rfl
      | some xs => exact store_onLog L _ dst xs
    · rfl

theorem setArrayRegion_onLog (t : ComponentType) (o : Option Obj) (offset length : ℤ) (src : Ptr) :
    (s.onLog L).setArrayRegion t o offset length src =
      (s.setArrayRegion t o offset length src).map (onLog L) := by
  simp only [setArrayRegion]
  rw [show (s.onLog L).arrayOf t o = s.arrayOf t o from rfl, logged_onLog]
  cases s.arrayOf t o with
  | none => rfl
  | some a =>
    dsimp only [Option.bind_eq_bind, Option.bind_some]
    split
    · change Option.bind (s.load src (length.toNat * t.size)) _ =
        Option.map _ (Option.bind (s.load src (length.toNat * t.size)) _)
      cases s.load src (length.toNat * t.size) with
      | none => rfl
      | some xs =>
        dsimp only [Option.bind_some]
        cases splice a.2.cells (offset.toNat * t.size) xs <;> rfl
    · rfl

theorem getPrimitiveArrayCritical_onLog (o : Option Obj) :
    (s.onLog L).getPrimitiveArrayCritical jvm o =
      (s.getPrimitiveArrayCritical jvm o).map (withLog L) := by
  simp only [getPrimitiveArrayCritical]
  split
  · rename_i r
    rw [logged_onLog, logged_onLog]
    change Option.bind s.arrays[r]? _ = Option.map _ (Option.bind s.arrays[r]? _)
    cases s.arrays[r]? with
    | none => rfl
    | some a =>
      dsimp only [Option.bind_some]
      by_cases h : jvm.pinFails s.pins = true
      · rw [if_pos h]
        exact if_pos h
      · rw [if_neg h]
        exact if_neg h
  · rfl

theorem releasePrimitiveArrayCritical_onLog (o : Option Obj) :
    (s.onLog L).releasePrimitiveArrayCritical o =
      (s.releasePrimitiveArrayCritical o).map (onLog L) := by
  simp only [releasePrimitiveArrayCritical]
  split
  · exact congrArg some (logged_onLog L s _)
  · rfl

theorem getDirectBufferAddress_onLog (o : Option Obj) :
    (s.onLog L).getDirectBufferAddress o = (s.getDirectBufferAddress o).map (withLog L) := by
  simp only [getDirectBufferAddress]
  split
  · exact congrArg (fun u => some (_, u)) (logged_onLog L s _)
  · exact congrArg (fun u => some (_, u)) (logged_onLog L s _)
  · rfl

end Native

open Native

variable (L : List Event) (s : Native)

/-! ### Acquiring an array -/

theorem copyData_onLog (t : ComponentType) (flags : BitVec 32) (obj : Option Obj)
    (offset length : ℤ)
    (elems : Ptr) :
    copyData t flags obj offset length elems (s.onLog L) =
      (copyData t flags obj offset length elems s).map (withLog L) := by
  simp only [copyData]
  split
  · rw [getArrayRegion_onLog]
    cases s.getArrayRegion t obj offset length elems with
    | none => rfl
    | some s' => exact congrArg (fun u => some (_, u)) (logged_onLog L s' _)
  · split
    · rw [memset_onLog]
      cases s.memset elems (length * t.size) <;> rfl
    · rfl

theorem terminate_onLog (t : ComponentType) (type : BitVec 32) (elems : Ptr) (length : ℤ) :
    terminate pf t type elems length (s.onLog L) =
      (terminate pf t type elems length s).map (onLog L) := by
  simp only [terminate]
  split
  · exact store_onLog L s _ _
  · rfl

theorem fillArray_onLog (t : ComponentType) (buf : Option Obj) (offset length : ℤ)
    (type : BitVec 32)
    (elems : Ptr) (release : Option Release) :
    fillArray pf t buf offset length type elems release (s.onLog L) =
      (fillArray pf t buf offset length type elems release s).map (withLog L) := by
  simp only [fillArray]
  rw [copyData_onLog]
  cases copyData t type buf offset length elems s with
  | none => rfl
  | some r =>
    obtain ⟨copied, s'⟩ := r
    cases copied with
    | false => rfl
    | true =>
      change Option.bind (terminate pf t type elems length (s'.onLog L)) _ =
        Option.map _ (Option.bind (terminate pf t type elems length s') _)
      rw [terminate_onLog]
      cases terminate pf t type elems length s' <;> rfl

theorem getArrayBuffer_onLog (buf : Option Obj) (offset length : ℤ) (type : BitVec 32)
    (buffer : Ptr) :
    getArrayBuffer pf buf offset length type buffer (s.onLog L) =
      (getArrayBuffer pf buf offset length type buffer s).map (withLog L) := by
  simp only [getArrayBuffer]
  split
  · exact fillArray_onLog L s _ buf offset length type buffer none
  · exact congrArg (fun u => some (none, u)) (throw_onLog L s _)

theorem getArrayHeap_onLog (buf : Option Obj) (offset length : ℤ) (type : BitVec 32) :
    getArrayHeap pf jvm buf offset length type (s.onLog L) =
      (getArrayHeap pf jvm buf offset length type s).map (withLog L) := by
  unfold getArrayHeap
  split
  · rename_i t _
    split
    · dsimp only
      rw [malloc_onLog]
      cases s.malloc jvm (toJint (t.size * (length + 1))) with
      | mk ptr s' =>
        cases ptr with
        | none => exact congrArg (fun u => some (none, u)) (throw_onLog L s' _)
        | some p => exact fillArray_onLog L s' t buf offset length type p (some .heapArray)
    · rfl
  · exact congrArg (fun u => some (none, u)) (throw_onLog L s _)

theorem getArrayCritical_onLog (buf : Option Obj) (offset length : ℤ) (type : BitVec 32) :
    getArrayCritical pf jvm buf offset length type (s.onLog L) =
      (getArrayCritical pf jvm buf offset length type s).map (withLog L) := by
  unfold getArrayCritical
  rw [getPrimitiveArrayCritical_onLog]
  cases s.getPrimitiveArrayCritical jvm buf with
  | none => rfl
  | some r =>
    obtain ⟨elems, s'⟩ := r
    cases elems with
    | some elems => rfl
    | none =>
      dsimp only [Option.map_some, withLog, Option.bind_eq_bind, Option.bind_some,
        Native.exceptionCheck]
      rw [logged_onLog, throw_onLog]
      change some (none, if s'.pending.isSome = true then _ else _) = _
      split <;> rfl

/-! ### Giving it back -/

theorem copyOut_onLog (a : NativeArray) :
    copyOut a (s.onLog L) = (copyOut a s).map (onLog L) := by
  unfold copyOut
  split
  · split
    · dsimp only [Native.exceptionCheck]
      rw [logged_onLog, setArrayRegion_onLog]
      change (if s.pending.isSome = true then _ else _) = _
      split <;> rfl
    · rfl
  · rfl

theorem releaseElems_onLog (a : NativeArray) :
    releaseElems a (s.onLog L) = (releaseElems a s).map (onLog L) := by
  simp only [releaseElems]
  split
  · exact free_onLog L s _
  · exact releasePrimitiveArrayCritical_onLog L s _
  · rfl

/-- Giving arrays back does the same after any past, since nothing looks at the log. -/
theorem releaseArrays_onLog (arrays : List NativeArray) :
    releaseArrays arrays (s.onLog L) = (releaseArrays arrays s).map (onLog L) := by
  induction arrays with
  | nil => rfl
  | cons a arrays ih =>
    rw [releaseArrays, releaseArrays, ih]
    cases releaseArrays arrays s with
    | none => rfl
    | some s' =>
      change Option.bind (copyOut a (s'.onLog L)) _ = Option.map _ (Option.bind (copyOut a s') _)
      rw [copyOut_onLog]
      cases copyOut a s' with
      | none => rfl
      | some s'' => exact releaseElems_onLog L s'' a

/-! ### The call -/

theorem saveErrno_onLog (ctx : NativeCallContext) :
    saveErrno pf ctx (s.onLog L) = (saveErrno pf ctx s).onLog L := by
  simp only [saveErrno]
  split <;> rfl

end Jffi
