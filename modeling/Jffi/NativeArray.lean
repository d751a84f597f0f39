import Jffi.ObjectBuffer

/-!
# Primitive arrays as arguments

The functions of `Array.c`: a Java array reaches the callee either as a copy, in memory from
`alloca` or `malloc`, or pinned in place. Whatever was acquired is given back in reverse order by
`jffi_releaseArrays`, which also copies the `OUT` arrays back.

The functions answer `none` where they return `NULL`. What they leave in the `Array` structure
then is not read by anyone.

## Main definitions

* `NativeArray` — the C structure `Array`
* `getArrayBuffer`, `getArrayHeap`, `getArrayCritical` — acquiring an array
* `releaseArrays` — giving the arrays back

## Main results

* `fillArray_copied` — a copy of an array in range holds the elements asked for
-/

namespace Jffi

open ObjectBuffer

/-! ### Reading a descriptor -/

/-- `IS_OUT_ARRAY`: also true of an array with neither flag. -/
def isOutArray (flags : BitVec 32) : Bool := flags &&& (ARRAY ||| IN ||| OUT) != (ARRAY ||| IN)

/-- `IS_IN_ARRAY`: also true of an array with neither flag. -/
def isInArray (flags : BitVec 32) : Bool := flags &&& (ARRAY ||| IN ||| OUT) != (ARRAY ||| OUT)

def isPinned (type : BitVec 32) : Bool := type &&& PINNED != 0

/-- The elements of an array that are not copied in are cleared first. -/
def isCleared (flags : BitVec 32) : Bool := flags &&& CLEAR != 0

/-- A `NUL` follows the elements of a byte array, unless it is passed `OUT` only. -/
def isTerminated (type : BitVec 32) : Bool := type &&& (ZERO_TERMINATE ||| IN ||| OUT) != OUT

/-- The `switch` on `type & ARGPRIM_MASK`. -/
def componentOf (type : BitVec 32) : Option ComponentType :=
  match type &&& PRIM_MASK with
  | 0x01000000#32 => some .byte
  | 0x02000000#32 => some .short
  | 0x03000000#32 => some .int
  | 0x04000000#32 => some .long
  | 0x05000000#32 => some .float
  | 0x06000000#32 => some .double
  | 0x07000000#32 => some .boolean
  | 0x08000000#32 => some .char
  | _ => none

/-- The type bits of the descriptor of an array of `t`. -/
theorem componentOf_makeObjectFlags (ioflags index : BitVec 32) (t : ComponentType) :
    componentOf (makeObjectFlags ioflags (primType t ||| ARRAY) index) = some t := by
  rw [componentOf, makeObjectFlags_and_type _ _ (by decide) (by decide)]
  cases t <;> rfl

/-! ### `Array` -/

inductive Release
  | heapArray
  | criticalArray
  deriving DecidableEq, Repr

/-- The C structure `Array`. -/
structure NativeArray where
  array : Option Obj
  elems : Ptr
  offset : ℤ
  length : ℤ
  type : BitVec 32
  /-- The `Set<Type>ArrayRegion` that copies the elements back, when one does. -/
  copyout : Option ComponentType
  release : Option Release
  deriving DecidableEq, Repr

variable (pf : Platform) (jvm : Jvm)

/-! ### Copies -/

/-- `COPY_DATA`: `false` when it makes the function return. -/
def copyData (t : ComponentType) (flags : BitVec 32) (obj : Option Obj) (offset length : ℤ)
    (elems : Ptr) (s : Native) : Option (Bool × Native) :=
  if isInArray flags then do
    let s ← s.getArrayRegion t obj offset length elems
    let (thrown, s) := s.exceptionCheck
    some (!thrown, s)
  else if isCleared flags then do
    let s ← s.memset elems (length * t.size)
    some (true, s)
  else some (true, s)

/-- "If the array was really a string, nul terminate it": only byte arrays are. -/
def terminate (t : ComponentType) (type : BitVec 32) (elems : Ptr) (length : ℤ) (s : Native) :
    Option Native :=
  if t = .byte ∧ isTerminated type = true then s.store (elems.add pf length) [.byte 0] else some s

/-- `GET_ARRAY_BUFFER`, which is also the second half of `GET_ARRAY_HEAP`, and the `NUL`. -/
def fillArray (t : ComponentType) (buf : Option Obj) (offset length : ℤ) (type : BitVec 32)
    (elems : Ptr) (release : Option Release) (s : Native) : Option (Option NativeArray × Native) :=
  do
    let (copied, s) ← copyData t type buf offset length elems s
    if copied then do
      let s ← terminate pf t type elems length s
      let copyout := if isOutArray type then some t else none
      some (some ⟨buf, elems, offset, length, type, copyout, release⟩, s)
    else some (none, s)

def getArrayBuffer (buf : Option Obj) (offset length : ℤ) (type : BitVec 32) (buffer : Ptr)
    (s : Native) : Option (Option NativeArray × Native) :=
  match componentOf type with
  | some t => fillArray pf t buf offset length type buffer none s
  | none => some (none, s.throw (.invalidBufferArrayType type))

/-- The addition `length + 1` is the C one: it must not overflow. -/
def getArrayHeap (buf : Option Obj) (offset length : ℤ) (type : BitVec 32) (s : Native) :
    Option (Option NativeArray × Native) :=
  match componentOf type with
  | some t =>
    if length + 1 < 2 ^ 31 then
      let allocSize := toJint (t.size * (length + 1))
      match s.malloc jvm allocSize with
      | (some elems, s) => fillArray pf t buf offset length type elems (some .heapArray) s
      | (none, s) => some (none, s.throw (.outOfMemory allocSize))
    else none
  | none => some (none, s.throw (.invalidHeapArrayType type))

def arraySize (length : ℤ) (type : BitVec 32) : ℤ :=
  match componentOf type with
  | some t => toJint (length * t.size)
  | none => toJint (length * 8)

/-! ### Copies of elements that are there -/

section Copied

variable {s : Native} {blocks : List Block} {blk : Block} {r : ℕ} {a : JavaArray}
  {offset length : ℤ} (type : BitVec 32)

theorem copyData_copied (htop : s.blocks = blocks ++ [blk]) (hlive : blk.live = true)
    (ha : s.arrays[r]? = some a) (hrange : Native.inRange offset length a.length)
    (hroom : length.toNat * a.component.size ≤ blk.cells.length) (hpending : s.pending = none) :
    ∃ s' cells,
      copyData a.component type (some (.array r)) offset length (.block blocks.length 0) s =
        some (true, s') ∧
      s'.blocks = blocks ++ [{ blk with cells := cells }] ∧ cells.length = blk.cells.length ∧
      (isInArray type = true → slice cells 0 (length.toNat * a.component.size) =
        slice a.cells (offset.toNat * a.component.size) (length.toNat * a.component.size)) ∧
      s.KeepsHeap s' := by
  rw [copyData]
  split
  · obtain ⟨s', xs, cells, hget, hxs, hsplice, hblocks, hkeep⟩ :=
      Native.getArrayRegion_top htop hlive ha hrange hroom
    refine ⟨s'.logged (.jni .exceptionCheck), cells, ?_, hblocks, length_of_splice hsplice,
      fun _ => ?_, hkeep.trans (Native.keepsHeap_logged s' _)⟩
    · simp only [hget, Option.bind_eq_bind, Option.bind_some, Native.exceptionCheck,
        hkeep.pending_eq, hpending]
      rfl
    · have hself := slice_splice_self hsplice
      rw [length_of_slice hxs] at hself
      rw [hself, hxs]
  · rename_i hin
    split
    · have hsize : (length * a.component.size).toNat = length.toNat * a.component.size := by
        obtain ⟨-, h1, -⟩ := hrange
        obtain ⟨n, rfl⟩ := Int.eq_ofNat_of_zero_le h1
        rfl
      have hzeros : 0 ≤ length * (a.component.size : ℤ) := by
        obtain ⟨-, h1, -⟩ := hrange
        exact Int.mul_nonneg h1 (Int.natCast_nonneg _)
      obtain ⟨cells, hsplice⟩ : ∃ cells, splice blk.cells 0
          (List.replicate (length * a.component.size).toNat (.byte 0)) = some cells :=
        exists_splice (by rw [List.length_replicate]; omega)
      obtain ⟨s', hstore, hblocks, hkeep⟩ := Native.store_top htop hlive hsplice
      refine ⟨s', cells, ?_, hblocks, length_of_splice hsplice, fun h => absurd h hin, hkeep⟩
      simp only [Native.memset, if_pos hzeros]
      rw [show (0 : ℤ) = ((0 : ℕ) : ℤ) from rfl, hstore]
      rfl
    · exact ⟨s, blk.cells, rfl, htop, rfl, fun h => absurd h hin, .refl s⟩

/-- **A copy of elements that are there** holds them when the array is passed `IN`. -/
theorem fillArray_copied (htop : s.blocks = blocks ++ [blk]) (hlive : blk.live = true)
    (ha : s.arrays[r]? = some a) (hrange : Native.inRange offset length a.length)
    (hroom : blk.cells.length = (length.toNat + 1) * a.component.size)
    (hpending : s.pending = none) (release : Option Release) :
    ∃ s' cells,
      fillArray pf a.component (some (.array r)) offset length type (.block blocks.length 0) release
          s =
        some (some ⟨some (.array r), .block blocks.length 0, offset, length, type,
          if isOutArray type then some a.component else none, release⟩, s') ∧
      s'.blocks = blocks ++ [{ blk with cells := cells }] ∧ cells.length = blk.cells.length ∧
      (isInArray type = true → slice cells 0 (length.toNat * a.component.size) =
        slice a.cells (offset.toNat * a.component.size) (length.toNat * a.component.size)) ∧
      s.KeepsHeap s' := by
  rw [Nat.succ_mul] at hroom
  obtain ⟨s₁, cells, hcopy, hblocks, hlen, hin, hkeep⟩ :=
    copyData_copied type htop hlive ha hrange (by omega) hpending
  simp only [fillArray, terminate]
  simp only [hcopy, Option.bind_eq_bind, Option.bind_some, if_true]
  split
  · rename_i hbyte
    have h1 : a.component.size = 1 := by rw [hbyte.1]; rfl
    have hlength : (0 : ℤ) + length = (length.toNat : ℤ) := by
      have := hrange.2.1
      omega
    obtain ⟨cells', hsplice⟩ : ∃ cells', splice cells length.toNat [.byte 0] = some cells' :=
      exists_splice (by rw [hlen, hroom, h1, List.length_singleton]; omega)
    obtain ⟨s', hstore, hblocks', hkeep'⟩ := Native.store_top hblocks hlive hsplice
    refine ⟨s', cells', ?_, hblocks', (length_of_splice hsplice).trans hlen, fun h => ?_,
      hkeep.trans hkeep'⟩
    · simp only [Ptr.add, hlength, hstore, Option.bind_some]
    · rw [← hin h, slice_splice_disjoint hsplice (by rw [h1]; omega)]
  · exact ⟨s₁, cells, rfl, hblocks, hlen, hin, hkeep⟩

omit type in
/-- The size of the copy of `length` elements, in bytes, is computed without overflow when it is
less than `2 ^ 31`. -/
theorem toJint_copySize {t : ComponentType} (h0 : 0 ≤ length)
    (h : (length + 1) * t.size < 2 ^ 31) :
    toJint ((length + 1) * t.size) = ((length.toNat + 1) * t.size : ℕ) := by
  obtain ⟨n, rfl⟩ := Int.eq_ofNat_of_zero_le h0
  have hnonneg : 0 ≤ ((n : ℤ) + 1) * t.size := Int.mul_nonneg (by omega) (Int.natCast_nonneg _)
  rw [toJint_of_bounds (by omega) h]
  rfl

/-- A copy on the stack holds the elements that were asked for, in a block of its own, when the
array has them. -/
theorem getArrayBuffer_copied (htop : s.blocks = blocks ++ [blk]) (hlive : blk.live = true)
    (ha : s.arrays[r]? = some a) (hrange : Native.inRange offset length a.length)
    (hroom : blk.cells.length = (length.toNat + 1) * a.component.size)
    (hpending : s.pending = none) (htype : componentOf type = some a.component) :
    ∃ s' cells,
      getArrayBuffer pf (some (.array r)) offset length type (.block blocks.length 0) s =
        some (some ⟨some (.array r), .block blocks.length 0, offset, length, type,
          if isOutArray type then some a.component else none, none⟩, s') ∧
      s'.blocks = blocks ++ [{ blk with cells := cells }] ∧ cells.length = blk.cells.length ∧
      (isInArray type = true → slice cells 0 (length.toNat * a.component.size) =
        slice a.cells (offset.toNat * a.component.size) (length.toNat * a.component.size)) ∧
      s.KeepsHeap s' := by
  simp only [getArrayBuffer, htype]
  exact fillArray_copied pf type htop hlive ha hrange hroom hpending none

/-- A copy in a block from `malloc` holds the elements that were asked for, when there is memory and
the array has them. -/
theorem getArrayHeap_copied (ha : s.arrays[r]? = some a)
    (hrange : Native.inRange offset length a.length)
    (hsize : (length + 1) * a.component.size < 2 ^ 31)
    (hmalloc : jvm.mallocFails s.mallocs = false)
    (hpending : s.pending = none) (htype : componentOf type = some a.component) :
    ∃ s' cells,
      getArrayHeap pf jvm (some (.array r)) offset length type s =
        some (some ⟨some (.array r), .block s.blocks.length 0, offset, length, type,
          if isOutArray type then some a.component else none, some .heapArray⟩, s') ∧
      s'.blocks = s.blocks ++ [⟨.heap, true, cells⟩] ∧
      cells.length = (length.toNat + 1) * a.component.size ∧
      (isInArray type = true → slice cells 0 (length.toNat * a.component.size) =
        slice a.cells (offset.toNat * a.component.size) (length.toNat * a.component.size)) ∧
      s.KeepsHeap s' := by
  have h0 := hrange.2.1
  have hpos : (1 : ℤ) ≤ a.component.size := by
    have := a.component.size_pos
    omega
  have hlt : length + 1 < 2 ^ 31 := by
    have := Int.mul_le_mul_of_nonneg_left hpos (show 0 ≤ length + 1 by omega)
    omega
  have hcopy := toJint_copySize h0 hsize
  rw [Int.mul_comm] at hcopy
  let size := (length.toNat + 1) * a.component.size
  let u : Native := { (s.newBlock .heap size).logged (.malloc s.blocks.length) with
    mallocs := s.mallocs + 1 }
  have htop : u.blocks = s.blocks ++ [⟨.heap, true, List.replicate size .undef⟩] := rfl
  have hu : s.KeepsHeap u := ⟨rfl, rfl, rfl, rfl, rfl⟩
  obtain ⟨s', cells, hfill, hblocks, hlen, hin, hkeep⟩ :=
    fillArray_copied pf type htop rfl ha hrange (by simp [size]) hpending (some .heapArray)
  refine ⟨s', cells, ?_, hblocks, by simpa using hlen, hin, hu.trans hkeep⟩
  have hnonneg : ¬ ((((length.toNat + 1) * a.component.size : ℕ) : ℤ) < 0 ∨
      jvm.mallocFails s.mallocs = true) := by
    rw [hmalloc, not_or]
    exact ⟨by omega, by decide⟩
  simp only [getArrayHeap, htype, if_pos hlt, hcopy, Native.malloc, if_neg hnonneg]
  exact hfill

end Copied

/-! ### Pinned arrays -/

/-- The pointer for the callee is the start of the array plus `offset` bytes. -/
def getArrayCritical (buf : Option Obj) (offset length : ℤ) (type : BitVec 32) (s : Native) :
    Option (Option (Ptr × NativeArray) × Native) := do
  let (elems, s) ← s.getPrimitiveArrayCritical jvm buf
  match elems with
  | none =>
    let (thrown, s) := s.exceptionCheck
    some (none, if thrown then s else s.throw .pinFailed)
  | some elems =>
    some (some (elems.add pf offset,
      ⟨buf, elems, offset, length, type, none, some .criticalArray⟩), s)

/-! ### Release -/

/-- `array->copyout`, unless an exception is pending. -/
def copyOut (a : NativeArray) (s : Native) : Option Native :=
  match a.copyout with
  | some t =>
    if isOutArray a.type then
      let (thrown, s) := s.exceptionCheck
      if thrown then some s else s.setArrayRegion t a.array a.offset a.length a.elems
    else some s
  | none => some s

/-- `array->release`. -/
def releaseElems (a : NativeArray) (s : Native) : Option Native :=
  match a.release with
  | some .heapArray => s.free a.elems
  | some .criticalArray => s.releasePrimitiveArrayCritical a.array
  | none => some s

/-- One round of the loop of `jffi_releaseArrays`. -/
def releaseArray (a : NativeArray) (s : Native) : Option Native := do
  let s ← copyOut a s
  releaseElems a s

/-- `jffi_releaseArrays`: the last array first. -/
def releaseArrays : List NativeArray → Native → Option Native
  | [], s => some s
  | a :: arrays, s => do
    let s ← releaseArrays arrays s
    releaseArray a s

end Jffi
