import Jffi.Lib.Pieces
import Jffi.ZeroTerminated
import Mathlib.Tactic.Ring

/-!
# Registered native methods

`NativeMethods.register` lays out one block of memory for the virtual machine: a structure of three
pointers for each method, and behind the structures the names and signatures they point to. It
counts the bytes it needs, and then writes with two running offsets. Counts and offsets are `int`s.

A name is given by what `getBytes` answers for it.

## Main definitions

* `NativeMethods.table` — `register` up to the call of `RegisterNatives`
* `readTable` — the block as an array of `JNINativeMethod`
* `Decodes`, `RegistersTable` — reading it gives back the methods

## Main results

* `fill_eq` — what the loop writes
* `decodes_of_ext` — a block with these pieces decodes
* `registersTable_iff` — for which methods there is room
-/

namespace Jffi

variable (pf : Platform)

/-- What `getBytes` answers. An array of Java has fewer than `2 ^ 31` elements. -/
structure StringBytes where
  bytes : List Byte
  length_lt : bytes.length < 2 ^ 31

structure NativeMethod where
  function : BitVec 64
  name : StringBytes
  signature : StringBytes

/-- `malloc`, from a `size_t` to an address. No object has more than `PTRDIFF_MAX` bytes. -/
structure Allocator where
  malloc : ℕ → ℕ
  malloc_lt : ∀ n, malloc n < 256 ^ pf.ptrSize
  malloc_fits : ∀ n, malloc n ≠ 0 →
    n < 2 ^ (8 * pf.ptrSize - 1) ∧ malloc n + n ≤ 256 ^ pf.ptrSize

variable {pf} in
/-- `Foreign.allocateMemory`. -/
def Foreign.allocateMemory (alloc : Allocator pf) (size : ℤ) (clear : Bool) (s : Native) :
    Option (BitVec 64 × Native) := do
  let memory := alloc.malloc (sizeT pf size)
  let s ← if memory ≠ 0 ∧ clear = true then
      s.store (.addr memory) (List.replicate (sizeT pf size) (.byte 0))
    else some s
  return (BitVec.ofNat 64 memory, s)

namespace MemoryIO

variable {pf} in
def allocateMemory (alloc : Allocator pf) (size : ℤ) (clear : Bool) (s : Native) :
    Option (BitVec 64 × Native) := do
  let (memory, s) ← Foreign.allocateMemory alloc size clear s
  return (memory &&& pf.addressMask, s)

/-- `putAddress`, which is a `putInt` or a `putLong` unless it is checked. -/
def putAddress : MemoryIO → BitVec 64 → BitVec 64 → Native → Option Native
  | unchecked, address, value, s =>
    if pf.ptrSize = 4 then
      s.store (.ofLong pf address)
        (pf.nativeOrder.arrange ((leBytes 4 (value.setWidth 32)).map .byte))
    else s.store (.ofLong pf address) (pf.nativeOrder.arrange ((leBytes 8 value).map .byte))
  | checked, address, value, s => s.store (.ofLong pf address) ((Ptr.ofLong pf value).image pf)

end MemoryIO

/-- `getBytes()`. -/
def StringBytes.getBytes (str : StringBytes) (s : Native) : Obj × Native :=
  (.array s.arrays.length, withByteArray s (str.bytes.map .byte))

/-- The exceptions of `register`. -/
inductive RegisterError
  | outOfMemory
  | notRegistered
  deriving DecidableEq, Repr

namespace RegisterError

def className : RegisterError → String
  | .outOfMemory => "java.lang.OutOfMemoryError"
  | .notRegistered => "java.lang.RuntimeException"

def message : RegisterError → String
  | .outOfMemory => "could not allocate native memory"
  | .notRegistered => "failed to register native methods"

end RegisterError

namespace NativeMethods

/-- A round of the first loop. -/
def countStrings (stringSize : ℤ) (m : NativeMethod) : ℤ :=
  let stringSize := toJint (stringSize + toJint (m.name.bytes.length + 1))
  toJint (stringSize + toJint (m.signature.bytes.length + 1))

def stringSize (methods : List NativeMethod) : ℤ := methods.foldl countStrings 0

/-- `methods.size()`, which a longer list answers with the greatest `int`. -/
def methodCount (methods : List NativeMethod) : ℤ := min methods.length (2 ^ 31 - 1)

def structSize (methods : List NativeMethod) : ℤ :=
  toJint (toJint (methodCount methods * 3) * pf.ptrSize)

/-- What is asked of `allocateMemory`. -/
def tableSize (methods : List NativeMethod) : ℤ :=
  toJint (structSize pf methods + stringSize methods)

/-- The second loop of `register`, which writes the structures and the strings. -/
def fill (mm : MemoryIO) (memory : BitVec 64) :
    List NativeMethod → ℤ → ℤ → Native → Option Native
  | [], _, _, s => some s
  | m :: methods, off, stringOff, s => do
    let (name, s) := m.name.getBytes s
    let nameAddress := memory + BitVec.ofInt 64 stringOff
    let stringOff := toJint (stringOff + toJint (m.name.bytes.length + 1))
    let s ← mm.putZeroTerminatedByteArray pf nameAddress (some name) 0 m.name.bytes.length s
    let (sig, s) := m.signature.getBytes s
    let sigAddress := memory + BitVec.ofInt 64 stringOff
    let stringOff := toJint (stringOff + toJint (m.signature.bytes.length + 1))
    let s ← mm.putZeroTerminatedByteArray pf sigAddress (some sig) 0 m.signature.bytes.length s
    let s ← mm.putAddress pf (memory + BitVec.ofInt 64 off) nameAddress s
    let off := toJint (off + pf.ptrSize)
    let s ← mm.putAddress pf (memory + BitVec.ofInt 64 off) sigAddress s
    let off := toJint (off + pf.ptrSize)
    let s ← mm.putAddress pf (memory + BitVec.ofInt 64 off) m.function s
    let off := toJint (off + pf.ptrSize)
    fill mm memory methods off stringOff s

/-- The block, and how many bytes of it were asked for. -/
structure Table where
  memory : BitVec 64
  size : ℤ
  s : Native

variable {pf}

/-- `register` up to the call of `RegisterNatives`. -/
def table (mm : MemoryIO) (alloc : Allocator pf) (methods : List NativeMethod) (s : Native) :
    Option (Except RegisterError Table) := do
  let (memory, s) ← MemoryIO.allocateMemory alloc (tableSize pf methods) true s
  if memory = 0 then some (.error .outOfMemory) else
    let s ← fill pf mm memory methods 0 (structSize pf methods) s
    some (.ok ⟨memory, tableSize pf methods, s⟩)

/-- The classes with registered methods, and the memory that is kept for each. -/
structure Registry (Class : Type) where
  registeredMethods : Class → Option (BitVec 64)
  s : Native

/-- `register`. What `RegisterNatives` answers is up to the virtual machine, and `0` is `JNI_OK`. -/
def register {Class : Type} [DecidableEq Class] (mm : MemoryIO) (alloc : Allocator pf)
    (registerNatives : Class → BitVec 64 → ℤ → Native → ℤ) (clazz : Class)
    (methods : List NativeMethod) (registry : Registry Class) :
    Option (Except RegisterError (Registry Class)) := do
  match ← table mm alloc methods registry.s with
  | .error e => return .error e
  | .ok t =>
    if registerNatives clazz t.memory (methodCount methods) t.s ≠ 0 then
      return .error .notRegistered
    else
      return .ok ⟨Function.update registry.registeredMethods clazz (some t.memory), t.s⟩

end NativeMethods

/-! ### Reading the block -/

/-- `JNINativeMethod`. -/
structure JNINativeMethod where
  name : ℕ
  signature : ℕ
  fnPtr : ℕ
  deriving DecidableEq, Repr

/-- A pointer that lies at `a`. -/
def readPointer (s : Native) (a : ℕ) : Option ℕ := do
  let cells ← s.load (.addr a) pf.ptrSize
  match Ptr.ofDigits pf (pf.nativeOrder.arrange cells) with
  | some (.addr p) => some p
  | _ => none

/-- The `n` structures that lie in memory from `a` on, one behind the other. -/
def readTable (s : Native) : ℕ → ℕ → Option (List JNINativeMethod)
  | _, 0 => some []
  | a, n + 1 => do
    let name ← readPointer pf s a
    let signature ← readPointer pf s (a + pf.ptrSize)
    let fnPtr ← readPointer pf s (a + 2 * pf.ptrSize)
    let entries ← readTable s (a + 3 * pf.ptrSize) n
    return ⟨name, signature, fnPtr⟩ :: entries

/-- A string and a zero byte. -/
def StringBytes.cells (str : StringBytes) : List Cell := (str.bytes ++ [0]).map .byte

/-- The entry is that of the method. -/
structure JNINativeMethod.Describes (s : Native) (e : JNINativeMethod) (m : NativeMethod) :
    Prop where
  name : extCells s.ext e.name m.name.cells.length = m.name.cells
  signature : extCells s.ext e.signature m.signature.cells.length = m.signature.cells
  fnPtr : e.fnPtr = nativeAddress pf m.function

/-- The regions of the structures from `a` on, and of the strings they point to. -/
def regions : ℕ → List JNINativeMethod → List NativeMethod → List Stretch
  | a, e :: entries, m :: methods =>
    ⟨a, 3 * pf.ptrSize⟩ :: ⟨e.name, m.name.cells.length⟩ ::
      ⟨e.signature, m.signature.cells.length⟩ :: regions (a + 3 * pf.ptrSize) entries methods
  | _, _, _ => []

/-- **The block decodes**: every method is there, in order, and no two regions overlap. -/
def Decodes (t : NativeMethods.Table) (methods : List NativeMethod) : Prop :=
  ∃ entries, readTable pf t.s (nativeAddress pf t.memory) methods.length = some entries ∧
    List.Forall₂ (JNINativeMethod.Describes pf t.s) entries methods ∧
    (regions pf (nativeAddress pf t.memory) entries methods).Pairwise Stretch.Apart ∧
    ∀ x ∈ regions pf (nativeAddress pf t.memory) entries methods,
      x.Within ⟨nativeAddress pf t.memory, t.size.toNat⟩

/-- Whatever `malloc` answers, the block that is filled decodes. -/
def RegistersTable (methods : List NativeMethod) : Prop :=
  ∀ (mm : MemoryIO) (alloc : Allocator pf) (s : Native),
    ∃ r, NativeMethods.table mm alloc methods s = some r ∧ ∀ t, r = .ok t → Decodes pf t methods

variable {pf}

/-! ### What is counted -/

/-- The bytes of a method: its structure and its strings. -/
def methodSize (pf : Platform) (m : NativeMethod) : ℕ :=
  3 * pf.ptrSize + (m.name.cells.length + m.signature.cells.length)

/-- The bytes that the methods need. -/
def totalSize (pf : Platform) (methods : List NativeMethod) : ℕ :=
  (methods.map (methodSize pf)).sum

/-- The bytes of the strings. -/
def stringBytes (methods : List NativeMethod) : ℕ :=
  (methods.map fun m => m.name.cells.length + m.signature.cells.length).sum

/-- The bytes that are counted: a list does not admit to more than `2 ^ 31 - 1` methods. -/
def countedSize (pf : Platform) (methods : List NativeMethod) : ℕ :=
  min methods.length (2 ^ 31 - 1) * (3 * pf.ptrSize) + stringBytes methods

@[simp] theorem StringBytes.length_cells (str : StringBytes) :
    str.cells.length = str.bytes.length + 1 := by
  simp [cells]

theorem totalSize_eq (pf : Platform) (methods : List NativeMethod) :
    totalSize pf methods = methods.length * (3 * pf.ptrSize) + stringBytes methods := by
  induction methods with
  | nil => simp [totalSize, stringBytes]
  | cons m methods ih =>
    rw [totalSize] at ih
    rw [stringBytes] at ih ⊢
    rw [totalSize, List.map_cons, List.sum_cons, ih, List.map_cons, List.sum_cons,
      List.length_cons, methodSize]
    ring

theorem toJint_add (x y : ℤ) : toJint (toJint x + toJint y) = toJint (x + y) := by
  rw [toJint, toJint, toJint, toJint, Int.add_bmod_bmod, Int.bmod_add_bmod]

theorem toJint_mul (x y : ℤ) : toJint (toJint x * y) = toJint (x * y) :=
  Int.bmod_mul_bmod

namespace NativeMethods

theorem foldl_countStrings (methods : List NativeMethod) (x : ℤ) :
    methods.foldl countStrings (toJint x) = toJint (x + stringBytes methods) := by
  induction methods generalizing x with
  | nil => simp [stringBytes]
  | cons m methods ih =>
    have hround : countStrings (toJint x) m =
        toJint (x + (m.name.cells.length + m.signature.cells.length : ℕ)) := by
      rw [countStrings, toJint_add x, toJint_add, StringBytes.length_cells,
        StringBytes.length_cells]
      push_cast
      congr 1
      omega
    rw [List.foldl_cons, hround, ih, stringBytes, stringBytes, List.map_cons, List.sum_cons]
    push_cast
    congr 1
    omega

/-- **What is asked for** is what is counted, as an `int`. -/
theorem tableSize_eq (pf : Platform) (methods : List NativeMethod) :
    tableSize pf methods = toJint (countedSize pf methods) := by
  have hcount : methodCount methods = (min methods.length (2 ^ 31 - 1) : ℕ) := by
    rw [methodCount]
    omega
  have hstrings : stringSize methods = toJint (0 + stringBytes methods) :=
    foldl_countStrings methods 0
  rw [tableSize, structSize, hcount, toJint_mul, hstrings, toJint_add, countedSize]
  push_cast
  congr 1
  ring

end NativeMethods

/-! ### What is written -/

section Room

variable {memory : BitVec 64} {n k : ℕ} {mm : MemoryIO} {s : Native}

theorem HasRoom.nativeAddress_add (h : HasRoom pf memory n) (hk : k < n) :
    nativeAddress pf (memory + BitVec.ofInt 64 k) = nativeAddress pf memory + k :=
  Ptr.addr.inj (h.ofLong_add hk)

/-- There is room behind the first bytes of a block, as much as the block has left. -/
theorem HasRoom.add {l : ℕ} (h : HasRoom pf memory n) (hk : k < n) (hl : k + l ≤ n) :
    HasRoom pf (memory + BitVec.ofInt 64 k) l := by
  have haddr := h.nativeAddress_add hk
  have hfits := h.fits
  have hpos := h.pos
  rw [nativeAddress] at haddr
  change nativeAddress pf memory + n ≤ _ at hfits
  constructor <;> omega

/-- A string that is put lies in the block at its offset, with its zero byte, and nothing else has
changed. -/
theorem putString_eq (mm : MemoryIO) (s : Native) (h : HasRoom pf memory n) (str : StringBytes)
    (hk : k + str.cells.length ≤ n) :
    ∃ s', mm.putZeroTerminatedByteArray pf (memory + BitVec.ofInt 64 k) (some (str.getBytes s).1) 0
        str.bytes.length (str.getBytes s).2 = some s' ∧
      s'.ext = overlay s.ext (nativeAddress pf memory + k) str.cells := by
  rw [StringBytes.length_cells] at hk
  have hget : (str.getBytes s).2.arrays[s.arrays.length]? = some ⟨.byte, str.bytes.map .byte⟩ := by
    rw [StringBytes.getBytes, withByteArray, List.getElem?_append_right (Nat.le_refl _),
      Nat.sub_self]
    rfl
  have hrange : Native.inRange 0 str.bytes.length str.bytes.length :=
    ⟨Int.le_refl 0, Int.natCast_nonneg _, by omega⟩
  obtain ⟨s', hput, hkeep⟩ := putZeroTerminatedByteArray_eq mm hget hrange
    (h.add (by omega) (show k + (((str.bytes.length : ℕ) : ℤ).toNat + 1) ≤ n by omega))
  refine ⟨s', hput, ?_⟩
  rw [hkeep.ext_eq, h.nativeAddress_add (by omega), region, Int.toNat_zero, List.drop_zero,
    Int.toNat_natCast, List.take_length]
  rfl

/-- The bytes of a pointer are the low bytes of the `long`, as many as an address has. -/
theorem digits_ofLong (pf : Platform) (value : BitVec 64) :
    (Ptr.ofLong pf value).digits pf = (leBytes pf.ptrSize value).map .byte := by
  rw [Ptr.ofLong, Ptr.digits]
  rcases pf.ptrSize_eq with hp | hp
  · have hnarrow : BitVec.ofNat 64 (value.toNat % 2 ^ 32) = (value.setWidth 32).setWidth 64 := by
      apply BitVec.eq_of_toNat_eq
      rw [BitVec.toNat_ofNat, BitVec.toNat_setWidth, BitVec.toNat_setWidth]
    rw [hp, show 256 ^ 4 = 2 ^ 32 from rfl, hnarrow, leBytes_setWidth _ (by omega),
      leBytes_setWidth _ (by omega)]
  · rw [hp, show 256 ^ 8 = 2 ^ 64 from rfl, Nat.mod_eq_of_lt value.isLt, BitVec.ofNat_toNat,
      BitVec.setWidth_eq]

theorem putAddress_eq_store (mm : MemoryIO) (address value : BitVec 64) (s : Native) :
    mm.putAddress pf address value s =
      s.store (.ofLong pf address) ((Ptr.ofLong pf value).image pf) := by
  cases mm with
  | checked => rfl
  | unchecked =>
    rw [Ptr.image, digits_ofLong, MemoryIO.putAddress]
    rcases pf.ptrSize_eq with hp | hp
    · rw [hp, if_pos rfl, leBytes_setWidth _ (by omega)]
    · rw [hp, if_neg (by omega)]

/-- A pointer that is put lies in the block at its offset, and nothing else has changed. -/
theorem putAddress_eq (mm : MemoryIO) (s : Native) (h : HasRoom pf memory n)
    (hk : k + pf.ptrSize ≤ n) (value : BitVec 64) :
    mm.putAddress pf (memory + BitVec.ofInt 64 k) value s =
      some { s with
        ext := overlay s.ext (nativeAddress pf memory + k) ((Ptr.ofLong pf value).image pf) } := by
  have hpos := pf.ptrSize_pos
  have hne := h.pos
  rw [putAddress_eq_store, h.ofLong_add (by omega), Native.store_addr (by omega)]

end Room

/-- What is written for the methods, with the structures from `a` on and the strings from `c` on. -/
def pieces (pf : Platform) : ℕ → ℕ → List NativeMethod → List (ℕ × List Cell)
  | _, _, [] => []
  | a, c, m :: methods =>
    [(c, m.name.cells), (c + m.name.cells.length, m.signature.cells),
      (a, (Ptr.addr c).image pf),
      (a + pf.ptrSize, (Ptr.addr (c + m.name.cells.length)).image pf),
      (a + 2 * pf.ptrSize, (Ptr.ofLong pf m.function).image pf)] ++
      pieces pf (a + 3 * pf.ptrSize)
        (c + (m.name.cells.length + m.signature.cells.length)) methods

/-- The offset behind a string does not overflow, as long as the block is smaller than `2 ^ 31`. -/
theorem toJint_stringOff {k : ℕ} (str : StringBytes) (h : k + str.cells.length < 2 ^ 31) :
    toJint (k + toJint (str.bytes.length + 1)) = (k + str.cells.length : ℕ) := by
  rw [StringBytes.length_cells] at h ⊢
  have hlen : toJint (str.bytes.length + 1) = (str.bytes.length + 1 : ℕ) :=
    toJint_natCast (k := str.bytes.length + 1) (by omega)
  rw [hlen, ← Int.natCast_add, toJint_natCast h]

/-- The offset behind a pointer does not overflow, as long as the block is smaller than `2 ^ 31`. -/
theorem toJint_off {k : ℕ} (h : k + pf.ptrSize < 2 ^ 31) :
    toJint (k + pf.ptrSize) = (k + pf.ptrSize : ℕ) := by
  rw [← Int.natCast_add, toJint_natCast h]

/-- **What the loop writes**, as long as the offsets are `int`s and inside of the block. -/
theorem fill_eq (mm : MemoryIO) {memory : BitVec 64} {n : ℕ} (hroom : HasRoom pf memory n)
    (hint : n < 2 ^ 31) (methods : List NativeMethod) (off stringOff : ℕ) (s : Native)
    (hoff : off + methods.length * (3 * pf.ptrSize) ≤ n)
    (hstring : stringOff + stringBytes methods ≤ n) :
    ∃ s', NativeMethods.fill pf mm memory methods off stringOff s = some s' ∧
      s'.ext = overlays s.ext (pieces pf (nativeAddress pf memory + off)
        (nativeAddress pf memory + stringOff) methods) := by
  induction methods generalizing off stringOff s with
  | nil => exact ⟨s, rfl, rfl⟩
  | cons m methods ih =>
    rw [stringBytes, List.map_cons, List.sum_cons, ← stringBytes] at hstring
    rw [List.length_cons, Nat.add_one_mul] at hoff
    obtain ⟨s₁, hname, hext₁⟩ := putString_eq mm s hroom m.name (k := stringOff) (by omega)
    obtain ⟨s₂, hsig, hext₂⟩ := putString_eq mm s₁ hroom m.signature
      (k := stringOff + m.name.cells.length) (by omega)
    obtain ⟨s', hfill, hext⟩ := ih (off + pf.ptrSize + pf.ptrSize + pf.ptrSize)
      (stringOff + m.name.cells.length + m.signature.cells.length)
      { s₂ with
        ext := overlays s₂.ext
          [(nativeAddress pf memory + off,
              (Ptr.ofLong pf (memory + BitVec.ofInt 64 stringOff)).image pf),
            (nativeAddress pf memory + (off + pf.ptrSize), (Ptr.ofLong pf
              (memory + BitVec.ofInt 64 (stringOff + m.name.cells.length : ℕ))).image pf),
            (nativeAddress pf memory + (off + pf.ptrSize + pf.ptrSize),
              (Ptr.ofLong pf m.function).image pf)] } (by omega) (by omega)
    have hpos := pf.ptrSize_pos
    have hnameLen := m.name.length_cells
    have hsigLen := m.signature.length_cells
    refine ⟨s', ?_, ?_⟩
    · rw [NativeMethods.fill]
      dsimp only
      rw [hname, Option.bind_eq_bind, Option.bind_some, toJint_stringOff m.name (by omega), hsig,
        Option.bind_some, toJint_stringOff m.signature (by omega),
        putAddress_eq mm s₂ hroom (by omega), Option.bind_some, toJint_off (by omega),
        putAddress_eq mm _ hroom (by omega), Option.bind_some, toJint_off (by omega),
        putAddress_eq mm _ hroom (by omega), Option.bind_some, toJint_off (by omega)]
      exact hfill
    · rw [hext, pieces, overlays_append, hroom.ofLong_add (by omega), hroom.ofLong_add (by omega),
        hext₂, hext₁]
      simp only [overlays_cons, overlays_nil, Nat.add_assoc, Nat.succ_mul, Nat.zero_mul,
        Nat.zero_add]

/-! ### Where it lies -/

/-- Among the structures from `a` on, or among the strings from `c` on. -/
def InTable (pf : Platform) (a c : ℕ) (methods : List NativeMethod) (x : Stretch) : Prop :=
  x.Within ⟨a, methods.length * (3 * pf.ptrSize)⟩ ∨ x.Within ⟨c, stringBytes methods⟩

/-- What is written, or what is read, for one method is apart from what is for the later ones. -/
theorem InTable.apart {a c k : ℕ} {m : NativeMethod} {methods : List NativeMethod} {x y : Stretch}
    (hx : x.Within ⟨a, 3 * pf.ptrSize⟩ ∨ x.Within ⟨c, k⟩)
    (hy : InTable pf (a + 3 * pf.ptrSize) (c + k) methods y)
    (hac : a + (m :: methods).length * (3 * pf.ptrSize) ≤ c) : x.Apart y := by
  rw [List.length_cons, Nat.add_one_mul] at hac
  unfold InTable at hy
  unfold Stretch.Within at hx hy
  unfold Stretch.Apart
  dsimp only at hx hy
  omega

/-- What lies in the part of the table for the later methods lies in the table for all of them. -/
theorem InTable.cons {a c : ℕ} {m : NativeMethod} {methods : List NativeMethod} {x : Stretch}
    (h : InTable pf (a + 3 * pf.ptrSize) (c + (m.name.cells.length + m.signature.cells.length))
      methods x) : InTable pf a c (m :: methods) x := by
  unfold InTable Stretch.Within at h ⊢
  rw [List.length_cons, Nat.add_one_mul, stringBytes, List.map_cons, List.sum_cons, ← stringBytes]
  dsimp only at h ⊢
  omega

/-- What lies in the structure or the strings of the first method lies in the table. -/
theorem InTable.head {a c : ℕ} {m : NativeMethod} {methods : List NativeMethod} {x : Stretch}
    (h : x.Within ⟨a, 3 * pf.ptrSize⟩ ∨
      x.Within ⟨c, m.name.cells.length + m.signature.cells.length⟩) :
    InTable pf a c (m :: methods) x := by
  unfold InTable Stretch.Within at *
  rw [List.length_cons, Nat.add_one_mul, stringBytes, List.map_cons, List.sum_cons, ← stringBytes]
  dsimp only at h ⊢
  omega

/-- What is written for the first method lies in its structure or among its strings. -/
theorem within_of_mem_pieces {a c : ℕ} {m : NativeMethod} {piece : ℕ × List Cell}
    (h : piece ∈ pieces pf a c [m]) : (stretch piece).Within ⟨a, 3 * pf.ptrSize⟩ ∨
      (stretch piece).Within ⟨c, m.name.cells.length + m.signature.cells.length⟩ := by
  simp only [pieces, List.append_nil, List.mem_cons, List.not_mem_nil, or_false] at h
  simp only [Stretch.Within, stretch]
  rcases h with rfl | rfl | rfl | rfl | rfl <;> simp only [Ptr.length_image] <;> omega

theorem pieces_cons (a c : ℕ) (m : NativeMethod) (methods : List NativeMethod) :
    pieces pf a c (m :: methods) = pieces pf a c [m] ++ pieces pf (a + 3 * pf.ptrSize)
      (c + (m.name.cells.length + m.signature.cells.length)) methods := by
  simp [pieces]

theorem inTable_of_mem_pieces {a c : ℕ} {methods : List NativeMethod} {piece : ℕ × List Cell}
    (h : piece ∈ pieces pf a c methods) : InTable pf a c methods (stretch piece) := by
  induction methods generalizing a c with
  | nil => cases h
  | cons m methods ih =>
    rw [pieces_cons, List.mem_append] at h
    rcases h with h | h
    · exact InTable.head (within_of_mem_pieces h)
    · exact (ih h).cons

/-- Each piece that is written is apart from all the others, if the strings lie behind the
structures. -/
theorem pairwise_pieces {a c : ℕ} {methods : List NativeMethod}
    (hac : a + methods.length * (3 * pf.ptrSize) ≤ c) :
    (pieces pf a c methods).Pairwise fun p q => (stretch p).Apart (stretch q) := by
  induction methods generalizing a c with
  | nil => exact List.Pairwise.nil
  | cons m methods ih =>
    rw [pieces_cons, List.pairwise_append]
    refine ⟨?_, ih ?_, fun p hp q hq =>
      InTable.apart (m := m) (within_of_mem_pieces hp) (inTable_of_mem_pieces hq) hac⟩
    · rw [List.length_cons, Nat.add_one_mul] at hac
      simp only [pieces, List.append_nil, List.pairwise_cons, List.mem_cons, List.not_mem_nil,
        or_false, forall_eq_or_imp, forall_eq, Stretch.Apart, stretch, Ptr.length_image,
        IsEmpty.forall_iff, implies_true, List.Pairwise.nil, and_true]
      omega
    · rw [List.length_cons, Nat.add_one_mul] at hac
      omega

/-! ### What is read -/

/-- The entries, with the strings from `c` on. -/
def entriesOf (pf : Platform) : ℕ → List NativeMethod → List JNINativeMethod
  | _, [] => []
  | c, m :: methods =>
    ⟨c, c + m.name.cells.length, nativeAddress pf m.function⟩ ::
      entriesOf pf (c + (m.name.cells.length + m.signature.cells.length)) methods

/-- The bytes of all the pieces are in memory, each at its address. -/
def HoldsPieces (s : Native) (pieces : List (ℕ × List Cell)) : Prop :=
  ∀ piece ∈ pieces, extCells s.ext piece.1 piece.2.length = piece.2

variable {s : Native}

theorem HoldsPieces.of_append {xs ys : List (ℕ × List Cell)} (h : HoldsPieces s (xs ++ ys)) :
    HoldsPieces s xs ∧ HoldsPieces s ys :=
  ⟨fun p hp => h p (List.mem_append_left _ hp), fun p hp => h p (List.mem_append_right _ hp)⟩

theorem nativeAddress_lt (pf : Platform) (address : BitVec 64) :
    nativeAddress pf address < 256 ^ pf.ptrSize :=
  Nat.mod_lt _ (Nat.pow_pos (by omega))

/-- A number that fits the bytes of an address fits a `long`. -/
theorem lt_of_address {p : ℕ} (hp : p < 256 ^ pf.ptrSize) : p < 2 ^ 64 :=
  Nat.lt_of_lt_of_le hp (Nat.pow_le_pow_right (n := 256) (by omega) pf.ptrSize_le)

theorem nativeAddress_ofNat {p : ℕ} (hp : p < 256 ^ pf.ptrSize) :
    nativeAddress pf (BitVec.ofNat 64 p) = p := by
  rw [nativeAddress, BitVec.toNat_ofNat, Nat.mod_eq_of_lt (lt_of_address hp), Nat.mod_eq_of_lt hp]

/-- Where the bytes of a pointer lie, this pointer is read. -/
theorem readPointer_eq {a p : ℕ} (ha : a ≠ 0) (hp : p < 256 ^ pf.ptrSize)
    (h : extCells s.ext a ((Ptr.addr p).image pf).length = (Ptr.addr p).image pf) :
    readPointer pf s a = some p := by
  have hlong : Ptr.ofLong pf (BitVec.ofNat 64 p) = .addr p :=
    congrArg Ptr.addr (nativeAddress_ofNat hp)
  have hdigits : Ptr.ofDigits pf ((Ptr.addr p).digits pf) = some (.addr p) := by
    rw [← hlong, digits_ofLong]
    exact Ptr.ofDigits_leBytes pf _
  rw [Ptr.length_image] at h
  rw [readPointer, Native.load_addr ha, h, Option.bind_eq_bind, Option.bind_some, Ptr.image,
    ByteOrder.arrange_arrange, hdigits]

/-- When the pieces are in memory, the structures are read as those whose pointers lead to the
strings. -/
theorem readTable_eq {a c : ℕ} {methods : List NativeMethod} (ha : a ≠ 0)
    (hc : c + stringBytes methods ≤ 256 ^ pf.ptrSize) (h : HoldsPieces s (pieces pf a c methods)) :
    readTable pf s a methods.length = some (entriesOf pf c methods) := by
  induction methods generalizing a c with
  | nil => rfl
  | cons m methods ih =>
    rw [stringBytes, List.map_cons, List.sum_cons, ← stringBytes] at hc
    have hnameLen := m.name.length_cells
    have hsigLen := m.signature.length_cells
    obtain ⟨hm, hmethods⟩ := h.of_append
    have hname : readPointer pf s a = some c :=
      readPointer_eq ha (by omega) (hm (a, (Ptr.addr c).image pf) (by simp))
    have hsig : readPointer pf s (a + pf.ptrSize) = some (c + m.name.cells.length) :=
      readPointer_eq (by omega) (by omega)
        (hm (a + pf.ptrSize, (Ptr.addr (c + m.name.cells.length)).image pf) (by simp))
    have hfn : readPointer pf s (a + 2 * pf.ptrSize) = some (nativeAddress pf m.function) :=
      readPointer_eq (by omega) (nativeAddress_lt pf m.function)
        (hm (a + 2 * pf.ptrSize, (Ptr.ofLong pf m.function).image pf) (by simp))
    rw [List.length_cons, readTable, hname, hsig, hfn, ih (by omega) (by omega) hmethods]
    rfl

/-- When the pieces are in memory, the strings behind each entry are the name and the signature of
its method. -/
theorem describes_entriesOf {a c : ℕ} {methods : List NativeMethod}
    (h : HoldsPieces s (pieces pf a c methods)) :
    List.Forall₂ (JNINativeMethod.Describes pf s) (entriesOf pf c methods) methods := by
  induction methods generalizing a c with
  | nil => exact .nil
  | cons m methods ih =>
    obtain ⟨hm, hmethods⟩ := h.of_append
    refine .cons ⟨?_, ?_, rfl⟩ (ih hmethods)
    · exact hm (c, m.name.cells) (by simp)
    · exact hm (c + m.name.cells.length, m.signature.cells) (by simp)

theorem inTable_of_mem_regions {a c : ℕ} {methods : List NativeMethod} {x : Stretch}
    (h : x ∈ regions pf a (entriesOf pf c methods) methods) : InTable pf a c methods x := by
  induction methods generalizing a c with
  | nil => cases h
  | cons m methods ih =>
    simp only [entriesOf, regions, List.mem_cons] at h
    rcases h with rfl | rfl | rfl | h
    · exact InTable.head (.inl ⟨Nat.le_refl _, Nat.le_refl _⟩)
    · exact InTable.head (.inr ⟨Nat.le_refl _, by dsimp only; omega⟩)
    · exact InTable.head (.inr ⟨Nat.le_add_right _ _, by dsimp only; omega⟩)
    · exact (ih h).cons

/-- The structures, names and signatures that the entries lead to are pairwise apart. -/
theorem pairwise_regions {a c : ℕ} {methods : List NativeMethod}
    (hac : a + methods.length * (3 * pf.ptrSize) ≤ c) :
    (regions pf a (entriesOf pf c methods) methods).Pairwise Stretch.Apart := by
  induction methods generalizing a c with
  | nil => exact List.Pairwise.nil
  | cons m methods ih =>
    have htail := ih (a := a + 3 * pf.ptrSize)
      (c := c + (m.name.cells.length + m.signature.cells.length))
      (by rw [List.length_cons, Nat.add_one_mul] at hac; omega)
    have hlater : ∀ x y : Stretch, (x.Within ⟨a, 3 * pf.ptrSize⟩ ∨
        x.Within ⟨c, m.name.cells.length + m.signature.cells.length⟩) →
        y ∈ regions pf (a + 3 * pf.ptrSize) (entriesOf pf
          (c + (m.name.cells.length + m.signature.cells.length)) methods) methods → x.Apart y :=
      fun x y hx hy => InTable.apart (m := m) hx (inTable_of_mem_regions hy) hac
    rw [List.length_cons, Nat.add_one_mul] at hac
    rw [entriesOf, regions]
    refine .cons ?_ (.cons ?_ (.cons ?_ htail))
    · simp only [List.mem_cons]
      rintro y (rfl | rfl | hy)
      · exact .inl (by dsimp only; omega)
      · exact .inl (by dsimp only; omega)
      · exact hlater _ y (.inl ⟨Nat.le_refl _, Nat.le_refl _⟩) hy
    · simp only [List.mem_cons]
      rintro y (rfl | hy)
      · exact .inl (Nat.le_refl _)
      · exact hlater _ y (.inr ⟨Nat.le_refl _, by dsimp only; omega⟩) hy
    · exact fun y hy => hlater _ y (.inr ⟨Nat.le_add_right _ _, by dsimp only; omega⟩) hy

/-! ### The block -/

/-- Pieces that are pairwise apart are all there after the last one was written. -/
theorem holdsPieces_overlays {ext : ℕ → Cell} {pieces : List (ℕ × List Cell)}
    (h : pieces.Pairwise fun p q => (stretch p).Apart (stretch q))
    (hext : s.ext = overlays ext pieces) : HoldsPieces s pieces := by
  intro piece hpiece
  refine List.ext_getElem (length_extCells _ _ _) fun k hk hk' => ?_
  simp only [extCells, List.getElem_map, List.getElem_range]
  rw [hext, overlays_of_mem h hpiece hk']

/-- A block of the right size, whose memory holds the pieces, is a table that decodes to the
methods. -/
theorem decodes_of_ext {memory : BitVec 64} {n : ℕ} {methods : List NativeMethod} {ext : ℕ → Cell}
    (hroom : HasRoom pf memory n) (hn : n = totalSize pf methods)
    (hext : s.ext = overlays ext (pieces pf (nativeAddress pf memory)
      (nativeAddress pf memory + methods.length * (3 * pf.ptrSize)) methods)) :
    Decodes pf ⟨memory, n, s⟩ methods := by
  have hfits := hroom.fits
  change nativeAddress pf memory + n ≤ _ at hfits
  rw [totalSize_eq] at hn
  have hholds := holdsPieces_overlays (pairwise_pieces (Nat.le_refl _)) hext
  refine ⟨_, readTable_eq hroom.pos (by omega) hholds, describes_entriesOf hholds,
    pairwise_regions (Nat.le_refl _), fun x hx => ?_⟩
  have hin := inTable_of_mem_regions hx
  unfold InTable Stretch.Within at hin
  unfold Stretch.Within
  dsimp only at hin ⊢
  omega

/-- The regions of a table together have as many bytes as `totalSize` counts. -/
theorem sum_regions {a : ℕ} {entries : List JNINativeMethod} {methods : List NativeMethod}
    (h : entries.length = methods.length) :
    ((regions pf a entries methods).map Stretch.size).sum = totalSize pf methods := by
  induction methods generalizing a entries with
  | nil => cases entries <;> rfl
  | cons m methods ih =>
    cases entries with
    | nil => cases h
    | cons e entries =>
      have htail := ih (a := a + 3 * pf.ptrSize) (Nat.succ.inj h)
      simp only [regions, List.map_cons, List.sum_cons, htail, totalSize, methodSize, Nat.add_assoc]

/-- A block that decodes is large enough, since its regions are apart and lie in it. -/
theorem Decodes.totalSize_le {t : NativeMethods.Table} {methods : List NativeMethod}
    (h : Decodes pf t methods) : totalSize pf methods ≤ t.size.toNat := by
  obtain ⟨entries, -, hdescribes, hapart, hwithin⟩ := h
  have hle := Stretch.sum_size_le hapart hwithin
  rwa [sum_regions hdescribes.length_eq] at hle

/-! ### Allocation -/

/-- The mask takes nothing from an address that the platform has. -/
theorem and_addressMask {p : ℕ} (hp : p < 256 ^ pf.ptrSize) :
    BitVec.ofNat 64 p &&& pf.addressMask = BitVec.ofNat 64 p := by
  rw [Platform.addressMask_eq]
  rcases pf.ptrSize_eq with hs | hs
  · rw [hs] at hp
    rw [if_pos hs]
    apply BitVec.eq_of_toNat_eq
    rw [BitVec.toNat_and, BitVec.toNat_ofNat, Nat.mod_eq_of_lt (by omega)]
    exact (Nat.and_two_pow_sub_one_eq_mod p 32).trans (Nat.mod_eq_of_lt hp)
  · rw [if_neg (by omega)]
    exact BitVec.and_allOnes

section Allocator

variable {alloc : Allocator pf} {size : ℤ}

/-- When `malloc` has answered `NULL`, there is no memory, and `allocateMemory` answers zero. -/
theorem allocateMemory_null (s : Native) (h : alloc.malloc (sizeT pf size) = 0) :
    MemoryIO.allocateMemory alloc size true s = some (0, s) := by
  unfold MemoryIO.allocateMemory Foreign.allocateMemory
  rw [h]
  simp

/-- When `malloc` has answered a block, `allocateMemory` answers an address with room for the size
that was asked for. -/
theorem allocateMemory_eq (s : Native) (h : alloc.malloc (sizeT pf size) ≠ 0) :
    ∃ memory s', MemoryIO.allocateMemory alloc size true s = some (memory, s') ∧ memory ≠ 0 ∧
      HasRoom pf memory (sizeT pf size) := by
  have hlt := alloc.malloc_lt (sizeT pf size)
  have hfits := (alloc.malloc_fits (sizeT pf size) h).2
  have hstore := Native.store_addr (s := s) h (List.replicate (sizeT pf size) (.byte 0))
  have haddr := nativeAddress_ofNat hlt
  have hmask := and_addressMask hlt
  refine ⟨BitVec.ofNat 64 (alloc.malloc (sizeT pf size)), { s with
    ext := overlay s.ext (alloc.malloc (sizeT pf size))
      (List.replicate (sizeT pf size) (.byte 0)) }, ?_, ?_, ?_, ?_⟩
  · unfold MemoryIO.allocateMemory Foreign.allocateMemory
    dsimp only
    rw [if_pos ⟨h, rfl⟩, hstore]
    exact congrArg (fun memory => some (memory, _)) hmask
  · intro hzero
    rw [hzero, nativeAddress] at haddr
    exact h (haddr.symm.trans (Nat.zero_mod _))
  · rw [← nativeAddress, haddr]
    exact h
  · rw [← nativeAddress, haddr]
    exact hfits

/-- A negative `int` is converted to a `size_t` that is larger than any block, so that there is
none. -/
theorem malloc_of_neg (hneg : size < 0) (hlow : -2 ^ 31 ≤ size) :
    alloc.malloc (sizeT pf size) = 0 := by
  by_contra h
  have hfits := (alloc.malloc_fits (sizeT pf size) h).1
  have hwrap : size % 256 ^ pf.ptrSize = size + 256 ^ pf.ptrSize := by
    rw [← Int.add_emod_right]
    apply Int.emod_eq_of_lt
    all_goals rcases pf.ptrSize_eq with hs | hs <;> rw [hs] <;> omega
  rw [sizeT, hwrap] at hfits
  rcases pf.ptrSize_eq with hs | hs <;> rw [hs] at hfits <;> omega

theorem sizeT_natCast {n : ℕ} (hn : n < 2 ^ 31) : sizeT pf n = n := by
  rw [sizeT, Int.emod_eq_of_lt (Int.natCast_nonneg n) ?_, Int.toNat_natCast]
  rcases pf.ptrSize_eq with hs | hs <;> rw [hs] <;> omega

end Allocator

/-! ### For which methods there is room -/

/-- An allocator that answers the same address as long as there can be room. -/
def Allocator.generous (pf : Platform) : Allocator pf where
  malloc n := if n < 2 ^ 31 then 8 else 0
  malloc_lt n := by
    rcases pf.ptrSize_eq with hs | hs <;> rw [hs] <;> split <;> omega
  malloc_fits n h := by
    have hn : n < 2 ^ 31 := by
      by_contra hn
      exact h (if_neg hn)
    rw [if_pos hn]
    rcases pf.ptrSize_eq with hs | hs <;> rw [hs] <;> omega

variable {methods : List NativeMethod}

theorem toJint_of_mod_ge {n : ℕ} (h : 2 ^ 31 ≤ n % 2 ^ 32) : toJint n < 0 := by
  rw [toJint, Int.bmod_def, if_neg (by omega)]
  omega

theorem toJint_of_mod_lt {n : ℕ} (h : n % 2 ^ 32 < 2 ^ 31) : toJint n = (n % 2 ^ 32 : ℕ) := by
  rw [toJint, Int.bmod_def, if_pos (by omega)]
  omega

/-- When the total size is below `2 ^ 31`, it is computed without overflow and the block decodes. -/
theorem registersTable_of_totalSize_lt (h : totalSize pf methods < 2 ^ 31) :
    RegistersTable pf methods := by
  intro mm alloc s
  have hsizes := totalSize_eq pf methods
  have hpos := pf.ptrSize_pos
  have hlength : methods.length ≤ methods.length * (3 * pf.ptrSize) :=
    Nat.le_mul_of_pos_right _ (by omega)
  have hcount : countedSize pf methods = totalSize pf methods := by
    rw [countedSize, hsizes, Nat.min_eq_left (by omega)]
  have hsize : NativeMethods.tableSize pf methods = totalSize pf methods := by
    rw [NativeMethods.tableSize_eq, hcount, toJint_natCast h]
  have hstruct : NativeMethods.structSize pf methods = (methods.length * (3 * pf.ptrSize) : ℕ) := by
    have hmin : NativeMethods.methodCount methods = methods.length := by
      rw [NativeMethods.methodCount]
      omega
    have hfits : toJint (methods.length * (3 * pf.ptrSize) : ℕ) =
        (methods.length * (3 * pf.ptrSize) : ℕ) := toJint_natCast (by omega)
    rw [NativeMethods.structSize, hmin, toJint_mul, ← hfits, Int.mul_assoc]
    rfl
  rw [NativeMethods.table, hsize, hstruct]
  by_cases hnull : alloc.malloc (sizeT pf (totalSize pf methods)) = 0
  · rw [allocateMemory_null s hnull]
    exact ⟨.error .outOfMemory, rfl, fun t ht => nomatch ht⟩
  · obtain ⟨memory, s₁, halloc, hne, hroom⟩ := allocateMemory_eq s hnull
    rw [sizeT_natCast h] at hroom
    obtain ⟨s', hfill, hext⟩ := fill_eq mm hroom h methods 0
      (methods.length * (3 * pf.ptrSize)) s₁ (by omega) (by omega)
    refine ⟨.ok ⟨memory, totalSize pf methods, s'⟩, ?_, ?_⟩
    · rw [halloc, Option.bind_eq_bind, Option.bind_some]
      dsimp only
      rw [if_neg hne]
      exact congrArg (Option.bind · _) hfill
    · intro t ht
      cases ht
      exact decodes_of_ext hroom rfl hext

/-- When the size overflows to a negative one, no block is allocated, and nothing is registered. -/
theorem registersTable_of_refused (h : 2 ^ 31 ≤ countedSize pf methods % 2 ^ 32) :
    RegistersTable pf methods := by
  intro mm alloc s
  have hnull : alloc.malloc (sizeT pf (NativeMethods.tableSize pf methods)) = 0 := by
    rw [NativeMethods.tableSize_eq]
    exact malloc_of_neg (toJint_of_mod_ge h) (Int.le_bmod (by omega))
  rw [NativeMethods.table, allocateMemory_null s hnull]
  exact ⟨.error .outOfMemory, rfl, fun t ht => nomatch ht⟩

/-- **A size that has wrapped around**: what is written does not fit the block. -/
theorem not_registersTable (h : countedSize pf methods % 2 ^ 32 < 2 ^ 31)
    (htotal : 2 ^ 31 ≤ totalSize pf methods) : ¬RegistersTable pf methods := by
  intro hreg
  obtain ⟨r, hr, hdecodes⟩ := hreg .unchecked (Allocator.generous pf)
    ⟨⟨[], [], fun _ => .undef, ⟨0, 0⟩⟩, none, 0, 0, 0, []⟩
  have hsize := NativeMethods.tableSize_eq pf methods
  rw [toJint_of_mod_lt h] at hsize
  have hmalloc :
      (Allocator.generous pf).malloc (sizeT pf (NativeMethods.tableSize pf methods)) ≠ 0 := by
    rw [hsize, sizeT_natCast h]
    exact fun hzero => absurd ((if_pos h).symm.trans hzero) (by decide)
  obtain ⟨memory, s₁, halloc, hne, -⟩ := allocateMemory_eq _ hmalloc
  rw [NativeMethods.table, halloc, Option.bind_eq_bind, Option.bind_some] at hr
  dsimp only at hr
  rw [if_neg hne] at hr
  obtain ⟨s', -, hok⟩ := Option.bind_eq_some_iff.mp hr
  have hle := (hdecodes _ (Option.some.inj hok).symm).totalSize_le
  dsimp only at hle
  omega

/-- **The table decodes** as long as it needs fewer than `2 ^ 31` bytes, or is never allocated. -/
theorem registersTable_iff :
    RegistersTable pf methods ↔
      totalSize pf methods < 2 ^ 31 ∨ 2 ^ 31 ≤ countedSize pf methods % 2 ^ 32 := by
  constructor
  · intro h
    by_contra hnot
    rw [not_or, Nat.not_lt, Nat.not_le] at hnot
    exact not_registersTable hnot.2 hnot.1 h
  · rintro (h | h)
    · exact registersTable_of_totalSize_lt h
    · exact registersTable_of_refused h

/-- A method whose name has `n` letters. -/
def longName (n : ℕ) (h : n < 2 ^ 31) : NativeMethod where
  function := 4096
  name := ⟨List.replicate n 97, by rwa [List.length_replicate]⟩
  signature := ⟨[], by decide⟩

theorem stringBytes_longNames (k n : ℕ) (h : n < 2 ^ 31) :
    stringBytes (List.replicate k (longName n h)) = k * (n + 2) := by
  have hname : (longName n h).name.cells.length = n + 1 := by
    rw [StringBytes.length_cells, longName, List.length_replicate]
  have hsig : (longName n h).signature.cells.length = 1 := rfl
  rw [stringBytes, List.map_replicate, List.sum_replicate_nat, hname, hsig]

/-- Four methods with names of `2 ^ 30` letters are given a block of 104 bytes. -/
theorem not_registersTable_longNames :
    NativeMethods.tableSize .linuxX64 (List.replicate 4 (longName (2 ^ 30) (by decide))) = 104 ∧
      ¬RegistersTable .linuxX64 (List.replicate 4 (longName (2 ^ 30) (by decide))) := by
  have hstrings := stringBytes_longNames 4 (2 ^ 30) (by decide)
  have hptr : Platform.linuxX64.ptrSize = 8 := rfl
  have hcount : countedSize .linuxX64 (List.replicate 4 (longName (2 ^ 30) (by decide))) =
      2 ^ 32 + 104 := by
    rw [countedSize, hstrings, List.length_replicate, hptr, Nat.min_eq_left (by omega)]
    norm_num
  have htotal : totalSize .linuxX64 (List.replicate 4 (longName (2 ^ 30) (by decide))) =
      2 ^ 32 + 104 := by
    rw [totalSize_eq, hstrings, List.length_replicate, hptr]
    norm_num
  refine ⟨?_, not_registersTable (by rw [hcount]; omega) (by rw [htotal]; omega)⟩
  rw [NativeMethods.tableSize_eq, hcount]
  exact toJint_of_mod_lt (by omega)

end Jffi
