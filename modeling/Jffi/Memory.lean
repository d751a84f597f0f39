import Jffi.Platform

/-!
# The memory of one native call

The memory a call can see: the primitive arrays of the Java heap, the temporary copies the native
code makes on its stack or with `malloc`, and the rest of the address space. A pointer is a number
only where the program got it as a number; a pointer to a temporary copy or into a Java array names
its block, so two allocations never overlap and no arithmetic on addresses is needed to say so. A
cell holds a byte, one byte of a pointer, or nothing that C lets a program read.

Functions that model C code return `none` where C leaves the behaviour undefined: a load or store
outside a block, a `NULL` object handed to JNI, a stack allocation of negative size.

What `malloc` and the virtual machine answer is not decided by the sources. `Jvm` records the
answers, one for each call in order.

## Main definitions

* `Ptr`, `Cell` — pointers and the bytes of memory
* `Memory`, `Memory.load`, `Memory.store` — what native code works on
* `Native` — memory together with the state of the thread and the trace of the calls that matter
* `Native.alloca`, `Native.malloc`, `Native.free`
* `Native.getArrayRegion`, `Native.setArrayRegion`, … — the JNI functions that touch memory
-/

namespace Jffi

/-! ### `int` -/

/-- What an `int` is left with when a result is wrapped around to fit. -/
def toJint (x : ℤ) : ℤ := x.bmod (2 ^ 32)

theorem toJint_of_bounds {x : ℤ} (hl : -2 ^ 31 ≤ x) (hu : x < 2 ^ 31) : toJint x = x :=
  Int.bmod_eq_of_le_mul_two (by omega) (by omega)

/-! ### Java objects -/

/-- The component type of a primitive array. -/
inductive ComponentType
  | byte | short | int | long | float | double | boolean | char
  deriving DecidableEq, Repr

/-- `sizeof(jbyte)`, `sizeof(jshort)`, … -/
def ComponentType.size : ComponentType → ℕ
  | .byte | .boolean => 1
  | .short | .char => 2
  | .int | .float => 4
  | .long | .double => 8

theorem ComponentType.size_pos (t : ComponentType) : 0 < t.size := by
  cases t <;> decide

/-- A Java object as the native code can tell it apart: a primitive array, an `nio` buffer with the
address `GetDirectBufferAddress` answers for it (`0` when it is not direct), or anything else. -/
inductive Obj
  | array (ref : ℕ)
  | buffer (address : ℕ)
  | other (ref : ℕ)
  deriving DecidableEq, Repr

/-! ### Pointers and cells -/

/-- A C pointer. -/
inductive Ptr
  /-- An address the program knows as a number; `addr 0` is `NULL`. -/
  | addr (a : ℕ)
  /-- Into the temporary copy `b`. -/
  | block (b : ℕ) (offset : ℤ)
  /-- Into the elements of a Java array. -/
  | array (ref : ℕ) (offset : ℤ)
  /-- The `JNIEnv *` of the call. -/
  | env
  /-- The handle of an object. -/
  | handle (o : Obj)
  deriving DecidableEq, Repr

/-- One byte of memory. -/
inductive Cell
  | byte (b : Byte)
  /-- Byte `k` of the pointer `p`, least significant first. -/
  | frag (p : Ptr) (k : ℕ)
  /-- Nothing was stored here. -/
  | undef
  deriving DecidableEq, Repr

/-- The byte a cell holds. -/
def Cell.toByte? : Cell → Option Byte
  | .byte b => some b
  | _ => none

namespace Ptr

/-- `(char *) p + n`. -/
def add (pf : Platform) : Ptr → ℤ → Ptr
  | .addr a, n => .addr ((a + n) % 256 ^ pf.ptrSize).toNat
  | .block b off, n => .block b (off + n)
  | .array r off, n => .array r (off + n)
  | p, _ => p

/-- The bytes of a pointer, least significant first. -/
def digits (pf : Platform) : Ptr → List Cell
  | .addr a => (leBytes pf.ptrSize (BitVec.ofNat 64 a)).map .byte
  | p => (List.range pf.ptrSize).map (.frag p)

@[simp] theorem length_digits (pf : Platform) (p : Ptr) : (p.digits pf).length = pf.ptrSize := by
  cases p <;> simp [digits]

/-- A pointer as it lies in memory. -/
def image (pf : Platform) (p : Ptr) : List Cell := pf.nativeOrder.arrange (p.digits pf)

@[simp] theorem length_image (pf : Platform) (p : Ptr) : (p.image pf).length = pf.ptrSize := by
  simp [image]

/-- The pointer with the given digits, if they are those of a pointer. -/
def ofDigits (pf : Platform) (ds : List Cell) : Option Ptr :=
  match ds with
  | .frag p _ :: _ => if ds = p.digits pf then some p else none
  | _ => (ds.mapM Cell.toByte?).map fun bs => .addr (leNat bs)

/-- `j2p`: a Java `long` as a pointer. -/
def ofLong (pf : Platform) (j : BitVec 64) : Ptr := .addr (j.toNat % 256 ^ pf.ptrSize)

theorem mapM_toByte? (bs : List Byte) : (bs.map Cell.byte).mapM Cell.toByte? = some bs := by
  induction bs with
  | nil => rfl
  | cons b bs ih => simp [List.mapM_cons, ih, Cell.toByte?]

/-- The pointer read back from the bytes of a Java `long`. -/
theorem ofDigits_leBytes (pf : Platform) (j : BitVec 64) :
    ofDigits pf ((leBytes pf.ptrSize j).map .byte) = some (ofLong pf j) := by
  obtain ⟨n, hn⟩ := Nat.exists_eq_succ_of_ne_zero (Nat.ne_of_gt pf.ptrSize_pos)
  have h := mapM_toByte? (leBytes pf.ptrSize j)
  rw [ofLong, ← leNat_leBytes]
  rw [hn, leBytes_succ, List.map_cons] at h ⊢
  simp only [ofDigits, h, Option.map_some]

end Ptr

/-! ### Exceptions -/

/-- The exceptions a call can end with, one constructor for each place that throws. -/
inductive Exn
  | nullObject (index : ℕ)
  | nullDirectBuffer (index : ℕ)
  | noDirectBufferAddress (index : ℕ)
  | unsupportedObjectType (type : BitVec 32)
  | unsupportedObjectTypeFor (index : ℕ) (flags : BitVec 32)
  /-- From `jffi_getArrayHeap`. -/
  | invalidHeapArrayType (type : BitVec 32)
  /-- From `jffi_getArrayBuffer`. -/
  | invalidBufferArrayType (type : BitVec 32)
  | invalidParameterIndex (index max : ℕ)
  | outOfMemory (bytes : ℤ)
  | pinFailed
  | nullContext
  | nullResultBuffer
  | nullParameterArray
  /-- From `jffi_encodeLongDouble` and `jffi_decodeLongDouble`. -/
  | longDoubleSize
  /-- Thrown by a `Get<Type>ArrayRegion` or `Set<Type>ArrayRegion` of the virtual machine. -/
  | arrayIndexOutOfBounds
  /-- Thrown by a `GetPrimitiveArrayCritical` that fails. -/
  | virtualMachine
  /-- Left pending by Java code that the native function called back. -/
  | callback
  deriving DecidableEq, Repr

/-- The number in base 16, as `%#x` prints it. -/
def hex (n : ℕ) : String :=
  if n = 0 then "0" else "0x" ++ String.ofList (Nat.toDigits 16 n)

/-- The class of the exception. -/
def Exn.className : Exn → String
  | .nullObject _ | .nullDirectBuffer _ | .noDirectBufferAddress _ | .pinFailed | .nullContext
  | .nullResultBuffer | .nullParameterArray => "java/lang/NullPointerException"
  | .unsupportedObjectType _ | .unsupportedObjectTypeFor _ _ | .invalidHeapArrayType _
  | .invalidBufferArrayType _ => "java/lang/IllegalArgumentException"
  | .invalidParameterIndex _ _ => "java/lang/IndexOutOfBoundsException"
  | .outOfMemory _ | .virtualMachine => "java/lang/OutOfMemoryError"
  | .arrayIndexOutOfBounds => "java/lang/ArrayIndexOutOfBoundsException"
  | .longDoubleSize => "java/lang/RuntimeException"
  | .callback => "java/lang/Throwable"

/-- The message of the exceptions thrown by the library itself. -/
def Exn.message : Exn → Option String
  | .nullObject i => some ("null object for parameter " ++ toString i)
  | .nullDirectBuffer i => some ("null direct buffer address for parameter " ++ toString i)
  | .noDirectBufferAddress i =>
    some ("could not get direct buffer address for parameter " ++ toString i)
  | .unsupportedObjectType t => some ("Unsupported object type: " ++ hex t.toNat)
  | .unsupportedObjectTypeFor i f =>
    some ("unsupported object type for parameter " ++ toString i ++ ": " ++ hex f.toNat)
  | .invalidHeapArrayType t => some ("invalid array type: " ++ hex t.toNat ++ "\n")
  | .invalidBufferArrayType t => some ("Invalid array type: " ++ hex t.toNat ++ "\n")
  | .invalidParameterIndex i m =>
    some ("invalid object parameter index " ++ toString i ++ " (expected 0.." ++ toString m ++ ")")
  | .outOfMemory n => some ("failed to allocate native array of " ++ toString n ++ " bytes")
  | .pinFailed => some "failed to pin native array"
  | .nullContext => some "context address is null"
  | .nullResultBuffer => some "result buffer is null"
  | .nullParameterArray => some "parameter array is null"
  | .longDoubleSize => some "array size != sizeof(long double)"
  | .arrayIndexOutOfBounds | .virtualMachine | .callback => none

/-! ### The state -/

/-- A primitive array of the Java heap, its elements laid out as in memory. -/
structure JavaArray where
  component : ComponentType
  cells : List Cell
  deriving DecidableEq, Repr

/-- `GetArrayLength`. -/
def JavaArray.length (a : JavaArray) : ℕ := a.cells.length / a.component.size

inductive Storage
  | stack
  | heap
  deriving DecidableEq, Repr

/-- A temporary copy. -/
structure Block where
  storage : Storage
  live : Bool
  cells : List Cell
  deriving DecidableEq, Repr

/-- The JNI functions whose calls are traced. -/
inductive JniCall
  | getArrayRegion | setArrayRegion | exceptionCheck | getDirectBufferAddress | throwNew
  | getPrimitiveArrayCritical
  deriving DecidableEq, Repr

/-- What a call does besides computing: calls into the virtual machine, and the resources it
acquires and gives back. -/
inductive Event
  | jni (c : JniCall)
  | malloc (b : ℕ)
  | free (b : ℕ)
  | pin (ref : ℕ)
  | unpin (ref : ℕ)
  deriving DecidableEq, Repr

/-- What the C library and the virtual machine answer, call by call. -/
structure Jvm where
  /-- The `n`-th call of `malloc` returns `NULL`. -/
  mallocFails : ℕ → Bool
  /-- The `n`-th `GetPrimitiveArrayCritical` returns `NULL`. -/
  pinFails : ℕ → Bool
  /-- … and leaves an exception pending. -/
  pinThrows : ℕ → Bool

/-- A machine that meets every request. -/
def Jvm.reliable : Jvm := ⟨fun _ => false, fun _ => false, fun _ => false⟩

/-- The error codes of a thread: `errno`, and what `GetLastError` answers under Windows. -/
structure ErrorCodes where
  errno : ℤ
  getLastError : ℤ
  deriving DecidableEq, Repr

/-- What native code can read and write. -/
structure Memory where
  arrays : List JavaArray
  blocks : List Block
  /-- The memory at the addresses the program knows as numbers. -/
  ext : ℕ → Cell
  errors : ErrorCodes

namespace Memory

/-- Read `n` bytes at `p`. -/
def load (m : Memory) (p : Ptr) (n : ℕ) : Option (List Cell) :=
  match p with
  | .addr a => if a = 0 then none else some ((List.range n).map fun i => m.ext (a + i))
  | .block b off => do
    let blk ← m.blocks[b]?
    if blk.live = true ∧ 0 ≤ off then slice blk.cells off.toNat n else none
  | .array r off => do
    let a ← m.arrays[r]?
    if 0 ≤ off then slice a.cells off.toNat n else none
  | .env | .handle _ => none

/-- Write the cells at `p`. -/
def store (m : Memory) (p : Ptr) (xs : List Cell) : Option Memory :=
  match p with
  | .addr a =>
    if a = 0 then none
    else some { m with
      ext := fun i => if a ≤ i ∧ i < a + xs.length then (xs[i - a]?).getD .undef else m.ext i }
  | .block b off => do
    let blk ← m.blocks[b]?
    if blk.live = true ∧ 0 ≤ off then do
      let cells ← splice blk.cells off.toNat xs
      some { m with blocks := m.blocks.set b { blk with cells := cells } }
    else none
  | .array r off => do
    let a ← m.arrays[r]?
    if 0 ≤ off then do
      let cells ← splice a.cells off.toNat xs
      some { m with arrays := m.arrays.set r { a with cells := cells } }
    else none
  | .env | .handle _ => none

/-- A fresh block of `n` bytes, at the end of the blocks so that it keeps its number. -/
def newBlock (m : Memory) (st : Storage) (n : ℕ) : Memory :=
  { m with blocks := m.blocks ++ [⟨st, true, List.replicate n .undef⟩] }

theorem load_block {m : Memory} {b : ℕ} {blk : Block} (hb : m.blocks[b]? = some blk)
    (hlive : blk.live = true) (off n : ℕ) : m.load (.block b off) n = slice blk.cells off n := by
  simp [load, hb, hlive]

theorem store_block {m : Memory} {b : ℕ} {blk : Block} (hb : m.blocks[b]? = some blk)
    (hlive : blk.live = true) (off : ℕ) (xs : List Cell) :
    m.store (.block b off) xs =
      (splice blk.cells off xs).map fun cells =>
        { m with blocks := m.blocks.set b { blk with cells := cells } } := by
  simp only [store, hb, hlive, Option.bind_eq_bind, Option.bind_some, Int.toNat_natCast,
    Int.natCast_nonneg, and_self, if_true]
  cases splice blk.cells off xs <;> rfl

end Memory

/-- The state of a native call: memory, and what the thread and the virtual machine keep. -/
structure Native extends Memory where
  /-- The pending exception of the thread. -/
  pending : Option Exn
  /-- How many calls of `malloc` were made. -/
  mallocs : ℕ
  /-- How many calls of `GetPrimitiveArrayCritical` were made. -/
  pins : ℕ
  /-- The saved error of the thread: `ThreadData.error`, or the variable `last_error`. -/
  lastError : ℤ
  log : List Event

namespace Native

variable (jvm : Jvm)

def logged (s : Native) (e : Event) : Native := { s with log := s.log ++ [e] }

/-- `throwException`. -/
def throw (s : Native) (e : Exn) : Native := { s.logged (.jni .throwNew) with pending := some e }

/-- `ExceptionCheck`. -/
def exceptionCheck (s : Native) : Bool × Native :=
  (s.pending.isSome, s.logged (.jni .exceptionCheck))

def load (s : Native) (p : Ptr) (n : ℕ) : Option (List Cell) := s.toMemory.load p n

def store (s : Native) (p : Ptr) (xs : List Cell) : Option Native :=
  (s.toMemory.store p xs).map fun m => { s with toMemory := m }

def newBlock (s : Native) (st : Storage) (n : ℕ) : Native :=
  { s with toMemory := s.toMemory.newBlock st n }

/-- `alloca(size)`, the size an `int` widened to `size_t`: no stack has room for a negative one. -/
def alloca (s : Native) (size : ℤ) : Option (Ptr × Native) :=
  if 0 ≤ size then some (.block s.blocks.length 0, s.newBlock .stack size.toNat) else none

/-- `malloc(size)`, the size an `int` widened to `size_t`: a negative one cannot be met. -/
def malloc (s : Native) (size : ℤ) : Option Ptr × Native :=
  if size < 0 ∨ jvm.mallocFails s.mallocs = true then (none, { s with mallocs := s.mallocs + 1 })
  else
    (some (.block s.blocks.length 0),
      { (s.newBlock .heap size.toNat).logged (.malloc s.blocks.length) with
        mallocs := s.mallocs + 1 })

/-- `free(p)`. -/
def free (s : Native) (p : Ptr) : Option Native :=
  match p with
  | .addr 0 => some s
  | .block b 0 => do
    let blk ← s.blocks[b]?
    if blk.live = true ∧ blk.storage = .heap then
      some ({ s with blocks := s.blocks.set b { blk with live := false } }.logged (.free b))
    else none
  | _ => none

/-- `memset(p, 0, size)`, the size an `int` widened to `size_t`. -/
def memset (s : Native) (p : Ptr) (size : ℤ) : Option Native :=
  if 0 ≤ size then s.store p (List.replicate size.toNat (.byte 0)) else none

/-! ### The JNI functions -/

/-- The elements `offset .. offset + length` lie inside an array of `n` elements. -/
def inRange (offset length : ℤ) (n : ℕ) : Prop := 0 ≤ offset ∧ 0 ≤ length ∧ offset + length ≤ n

instance (offset length : ℤ) (n : ℕ) : Decidable (inRange offset length n) := by
  unfold inRange; infer_instance

/-- The array behind an object that JNI is told to be an array of `t`. -/
def arrayOf (s : Native) (t : ComponentType) (o : Option Obj) : Option (ℕ × JavaArray) :=
  match o with
  | some (.array r) => do
    let a ← s.arrays[r]?
    if a.component = t then some (r, a) else none
  | _ => none

/-- `Get<Type>ArrayRegion`. -/
def getArrayRegion (t : ComponentType) (o : Option Obj) (offset length : ℤ) (dst : Ptr)
    (s : Native) : Option Native := do
  let (_, a) ← s.arrayOf t o
  let s := s.logged (.jni .getArrayRegion)
  if inRange offset length a.length then do
    let xs ← slice a.cells (offset.toNat * t.size) (length.toNat * t.size)
    s.store dst xs
  else some { s with pending := some .arrayIndexOutOfBounds }

/-- `Set<Type>ArrayRegion`. -/
def setArrayRegion (t : ComponentType) (o : Option Obj) (offset length : ℤ) (src : Ptr)
    (s : Native) : Option Native := do
  let (r, a) ← s.arrayOf t o
  let s := s.logged (.jni .setArrayRegion)
  if inRange offset length a.length then do
    let xs ← s.load src (length.toNat * t.size)
    let cells ← splice a.cells (offset.toNat * t.size) xs
    some { s with arrays := s.arrays.set r { a with cells := cells } }
  else some { s with pending := some .arrayIndexOutOfBounds }

/-- `GetPrimitiveArrayCritical`: a pointer to the elements of the array. -/
def getPrimitiveArrayCritical (o : Option Obj) (s : Native) : Option (Option Ptr × Native) :=
  match o with
  | some (.array r) => do
    let _ ← s.arrays[r]?
    if jvm.pinFails s.pins = true then
      let pending := if jvm.pinThrows s.pins = true then some .virtualMachine else s.pending
      some (none, { s.logged (.jni .getPrimitiveArrayCritical) with
        pins := s.pins + 1, pending := pending })
    else some (some (.array r 0), { s.logged (.pin r) with pins := s.pins + 1 })
  | _ => none

/-- `ReleasePrimitiveArrayCritical`: the elements are in place already. -/
def releasePrimitiveArrayCritical (o : Option Obj) (s : Native) : Option Native :=
  match o with
  | some (.array r) => some (s.logged (.unpin r))
  | _ => none

/-- `GetDirectBufferAddress`. -/
def getDirectBufferAddress (o : Option Obj) (s : Native) : Option (Ptr × Native) :=
  match o with
  | some (.buffer a) => some (.addr a, s.logged (.jni .getDirectBufferAddress))
  | some _ => some (.addr 0, s.logged (.jni .getDirectBufferAddress))
  | none => none

/-! ### Working on the newest block -/

/-- All but the blocks, the counters and the trace is as it was. -/
structure KeepsHeap (s s' : Native) : Prop where
  arrays_eq : s'.arrays = s.arrays
  ext_eq : s'.ext = s.ext
  errors_eq : s'.errors = s.errors
  pending_eq : s'.pending = s.pending
  lastError_eq : s'.lastError = s.lastError

theorem KeepsHeap.refl (s : Native) : KeepsHeap s s := ⟨rfl, rfl, rfl, rfl, rfl⟩

theorem keepsHeap_logged (s : Native) (e : Event) : KeepsHeap s (s.logged e) :=
  ⟨rfl, rfl, rfl, rfl, rfl⟩

theorem KeepsHeap.trans {s t u : Native} (h : KeepsHeap s t) (h' : KeepsHeap t u) :
    KeepsHeap s u :=
  ⟨h'.arrays_eq.trans h.arrays_eq, h'.ext_eq.trans h.ext_eq, h'.errors_eq.trans h.errors_eq,
    h'.pending_eq.trans h.pending_eq, h'.lastError_eq.trans h.lastError_eq⟩

/-- When the heap and the blocks are the same, so is the whole memory. -/
theorem toMemory_eq {s s' : Native} (h : KeepsHeap s s') (hblocks : s'.blocks = s.blocks) :
    s'.toMemory = s.toMemory := by
  obtain ⟨⟨arrays, blocks, ext, errors⟩, _, _, _, _, _⟩ := s
  obtain ⟨⟨arrays', blocks', ext', errors'⟩, _, _, _, _, _⟩ := s'
  cases h.arrays_eq
  cases h.ext_eq
  cases h.errors_eq
  cases hblocks
  rfl


/-- A store into the newest block, at a place that it has, changes the cells of this block and
nothing else. -/
theorem store_top {s : Native} {blocks : List Block} {blk : Block}
    (htop : s.blocks = blocks ++ [blk]) (hlive : blk.live = true) {off : ℕ} {xs cells : List Cell}
    (hsplice : splice blk.cells off xs = some cells) :
    ∃ s', s.store (.block blocks.length off) xs = some s' ∧
      s'.blocks = blocks ++ [{ blk with cells := cells }] ∧ KeepsHeap s s' := by
  have hget : s.toMemory.blocks[blocks.length]? = some blk := by
    rw [htop, List.getElem?_append_right (Nat.le_refl _), Nat.sub_self]
    rfl
  rw [store, Memory.store_block hget hlive, hsplice]
  refine ⟨_, rfl, ?_, ⟨rfl, rfl, rfl, rfl, rfl⟩⟩
  simp [htop]

/-- `Get<Type>ArrayRegion` of elements that are there fills the start of the newest block with them,
if it has the room. -/
theorem getArrayRegion_top {s : Native} {blocks : List Block} {blk : Block}
    (htop : s.blocks = blocks ++ [blk]) (hlive : blk.live = true) {r : ℕ} {a : JavaArray}
    (ha : s.arrays[r]? = some a) {offset length : ℤ} (hrange : inRange offset length a.length)
    (hroom : length.toNat * a.component.size ≤ blk.cells.length) :
    ∃ s' xs cells,
      s.getArrayRegion a.component (some (.array r)) offset length (.block blocks.length 0) =
        some s' ∧
      slice a.cells (offset.toNat * a.component.size) (length.toNat * a.component.size) = some xs ∧
      splice blk.cells 0 xs = some cells ∧
      s'.blocks = blocks ++ [{ blk with cells := cells }] ∧ KeepsHeap s s' := by
  have hcells : (offset.toNat + length.toNat) * a.component.size ≤ a.cells.length := by
    obtain ⟨h0, h1, h2⟩ := hrange
    have : offset.toNat + length.toNat ≤ a.length := by omega
    exact Nat.le_trans (Nat.mul_le_mul_right _ this) (Nat.div_mul_le_self _ _)
  rw [Nat.add_mul] at hcells
  obtain ⟨xs, hxs⟩ := exists_slice hcells
  have hlen := length_of_slice hxs
  obtain ⟨cells, hsplice⟩ : ∃ cells, splice blk.cells 0 xs = some cells :=
    exists_splice (by omega)
  obtain ⟨s', hstore, hblocks, hkeep⟩ := store_top (s := s.logged (.jni .getArrayRegion)) htop hlive
    hsplice
  refine ⟨s', xs, cells, ?_, hxs, hsplice, hblocks, (keepsHeap_logged s _).trans hkeep⟩
  rw [getArrayRegion, arrayOf, ha]
  simp only [Option.bind_eq_bind, Option.bind_some, if_true, if_pos hrange, hxs]
  exact hstore

end Native

end Jffi
