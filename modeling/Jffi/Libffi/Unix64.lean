import Jffi.Invoke
import Jffi.Libffi.Classify

/-!
# Calls on x86-64

The code of libffi between `ffi_call` and a native function on Unix, and between a closure's
trampoline and the function behind it: `ffi64.c` and the assembly of `unix64.S`. A call gathers the
values of the arguments into an image of the registers and an area on the stack; the trampoline
saves the registers, and works out again where each argument went.

A register is the list of its eight, or sixteen, bytes. What was not loaded into a register is
undefined, and there is no result where the code would leave its arrays, write past the area on the
stack, or abort.

## Main definitions

* `prepCifMachdep` — the flags and the size of the area
* `ffiCallInt`, `NativeEntry` — the registers and the stack a native function starts with
* `closureInner`, `ArgSource` — where a closure finds its arguments
* `storeTable`, `loadTable` — the two tables of the assembly, for results
-/

namespace Jffi

def MAX_GPR_REGS : ℕ := 6

def MAX_SSE_REGS : ℕ := 8

/-! ### Flags -/

def UNIX64_RET_VOID : BitVec 32 := 0
def UNIX64_RET_UINT8 : BitVec 32 := 1
def UNIX64_RET_UINT16 : BitVec 32 := 2
def UNIX64_RET_UINT32 : BitVec 32 := 3
def UNIX64_RET_SINT8 : BitVec 32 := 4
def UNIX64_RET_SINT16 : BitVec 32 := 5
def UNIX64_RET_SINT32 : BitVec 32 := 6
def UNIX64_RET_INT64 : BitVec 32 := 7
def UNIX64_RET_XMM32 : BitVec 32 := 8
def UNIX64_RET_XMM64 : BitVec 32 := 9
def UNIX64_RET_X87 : BitVec 32 := 10
def UNIX64_RET_ST_XMM0_RAX : BitVec 32 := 12
def UNIX64_RET_ST_RAX_XMM0 : BitVec 32 := 13
def UNIX64_RET_ST_XMM0_XMM1 : BitVec 32 := 14
def UNIX64_RET_ST_RAX_RDX : BitVec 32 := 15

def UNIX64_FLAG_RET_IN_MEM : BitVec 32 := 1 <<< 10
def UNIX64_FLAG_XMM_ARGS : BitVec 32 := 1 <<< 11
def UNIX64_SIZE_SHIFT : ℕ := 12

/-! ### `ffi_prep_cif_machdep` -/

/-- The flags for a struct that is returned in registers. -/
def structFlags (e : Examined) (rtypeSize : SizeT .linuxX64) : BitVec 32 :=
  let sse0 := (e.classes.head?.map RegClass.isSse).getD false
  if rtypeSize = 4 ∧ sse0 = true then UNIX64_RET_XMM32
  else if rtypeSize = 8 then (if sse0 then UNIX64_RET_XMM64 else UNIX64_RET_INT64)
  else
    let sse1 := e.n == 2 && (e.classes[1]?.map RegClass.isSse).getD false
    (if sse0 && sse1 then UNIX64_RET_ST_XMM0_XMM1
      else if sse0 then UNIX64_RET_ST_XMM0_RAX
      else if sse1 then UNIX64_RET_ST_RAX_XMM0
      else UNIX64_RET_ST_RAX_RDX) ||| (rtypeSize <<< UNIX64_SIZE_SHIFT).setWidth 32

/-- The `switch` on the return type. -/
def returnFlags (rtype : FfiType .linuxX64) : Option (BitVec 32) :=
  match rtype.type with
  | .void => some UNIX64_RET_VOID
  | .uint8 => some UNIX64_RET_UINT8
  | .sint8 => some UNIX64_RET_SINT8
  | .uint16 => some UNIX64_RET_UINT16
  | .sint16 => some UNIX64_RET_SINT16
  | .uint32 => some UNIX64_RET_UINT32
  | .int | .sint32 => some UNIX64_RET_SINT32
  | .uint64 | .sint64 | .pointer => some UNIX64_RET_INT64
  | .float => some UNIX64_RET_XMM32
  | .double => some UNIX64_RET_XMM64
  | .longdouble => some UNIX64_RET_X87
  | .struct => (examineArgument rtype true).map fun e =>
      if e.n = 0 then UNIX64_RET_VOID ||| UNIX64_FLAG_RET_IN_MEM else structFlags e rtype.size

/-- The registers in use. -/
structure RegCounts where
  gprcount : ℕ
  ssecount : ℕ
  deriving DecidableEq, Repr

/-- The condition under which each of the three loops over the arguments passes one in memory. -/
def RegCounts.inMemory (r : RegCounts) (e : Examined) : Bool :=
  e.n == 0 || decide (MAX_GPR_REGS < r.gprcount + e.ngpr) ||
    decide (MAX_SSE_REGS < r.ssecount + e.nsse)

/-- The registers of an argument that is not passed in memory. -/
def RegCounts.add (r : RegCounts) (e : Examined) : RegCounts :=
  ⟨r.gprcount + e.ngpr, r.ssecount + e.nsse⟩

/-- Stack arguments are *always* at least 8 byte aligned. -/
def stackAlign (t : FfiType .linuxX64) : BitVec 16 :=
  if t.alignment < 8 then 8 else t.alignment

/-- A round of the loop over the arguments. -/
def prepStep (l : RegCounts × SizeT .linuxX64) (t : FfiType .linuxX64) :
    Option (RegCounts × SizeT .linuxX64) := do
  let e ← examineArgument t false
  if l.1.inMemory e then some (l.1, FFI_ALIGN l.2 (stackAlign t) + t.size)
  else some (l.1.add e, l.2)

/-- The register the address of a result in memory takes. -/
def firstCounts (flags : BitVec 32) : RegCounts :=
  ⟨if flags &&& UNIX64_FLAG_RET_IN_MEM ≠ 0 then 1 else 0, 0⟩

/-- `ffi_cif`, as `ffi_prep_cif_machdep` leaves it. -/
structure Cif64 where
  rtype : FfiType .linuxX64
  argTypes : List (FfiType .linuxX64)
  flags : BitVec 32
  /-- An `unsigned`. -/
  bytes : BitVec 32

/-- `ffi_prep_cif_machdep`. -/
def prepCifMachdep (rtype : FfiType .linuxX64) (argTypes : List (FfiType .linuxX64)) :
    Option Cif64 := do
  let flags ← returnFlags rtype
  let l ← argTypes.foldlM prepStep (firstCounts flags, 0)
  some
    { rtype := rtype
      argTypes := argTypes
      flags := if l.1.ssecount ≠ 0 then flags ||| UNIX64_FLAG_XMM_ARGS else flags
      bytes := (FFI_ALIGN l.2 8).setWidth 32 }

/-! ### The arguments of a call -/

/-- What a native function finds when it starts: the general registers for arguments, one behind
the other, the vector registers, and the stack from the address `argp` on. -/
structure NativeEntry where
  gpr : List Cell
  xmm : List Cell
  argp : SizeT .linuxX64
  stack : List Cell
  deriving DecidableEq, Repr

/-- The variables of the loop of `ffi_call_int`: `reg_args`, of which `sse` has the layout of the
vector registers, the two counts, `argp` and the area it runs through. -/
structure PassLoop where
  gpr : List Cell
  sse : List Cell
  counts : RegCounts
  argp : SizeT .linuxX64
  stack : List Cell
  deriving DecidableEq, Repr

/-- What is stored into a general register for the bytes from `a` on: signed integers are
extended, anything else is filled up with zeros. -/
def gprImage (type : FFICode) (a : List Cell) (size : ℕ) : Option (List Cell) :=
  let signExtend (n : ℕ) : Option (List Cell) := (slice a 0 n).map fun ds =>
    ds ++ List.replicate (8 - n) (extension true ds)
  match type with
  | .sint8 => signExtend 1
  | .sint16 => signExtend 2
  | .sint32 => signExtend 4
  | _ =>
    let n := if size ≤ 8 then size else 8
    (slice a 0 n).map fun ds => ds ++ List.replicate (8 - n) (.byte 0)

/-- The loop over the classes of an argument in registers. -/
def passClasses (type : FFICode) :
    List RegClass → List Cell → ℕ → PassLoop → Option PassLoop
  | [], _, _, l => some l
  | c :: cs, a, size, l => do
    let l ← (match c with
      | .no | .sseup => some l
      | .integer | .integersi => do
        let ds ← gprImage type a size
        let gpr ← splice l.gpr (8 * l.counts.gprcount) ds
        some { l with gpr := gpr, counts := { l.counts with gprcount := l.counts.gprcount + 1 } }
      | .sse | .ssedf => do
        let ds ← slice a 0 8
        let sse ← splice l.sse (16 * l.counts.ssecount) ds
        some { l with sse := sse, counts := { l.counts with ssecount := l.counts.ssecount + 1 } }
      | .ssesf => do
        let ds ← slice a 0 4
        let sse ← splice l.sse (16 * l.counts.ssecount) ds
        some { l with sse := sse, counts := { l.counts with ssecount := l.counts.ssecount + 1 } }
      | .x87 | .x87up | .complexX87 | .memory => none)
    passClasses type cs (a.drop 8) (size - 8) l

/-- A round of the loop of `ffi_call_int`, for an argument of type `p.1` at whose address lies
`p.2`. The area begins at `area`. -/
def passStep (area : SizeT .linuxX64) (l : PassLoop) (p : FfiType .linuxX64 × List Cell) :
    Option PassLoop := do
  let e ← examineArgument p.1 false
  if l.counts.inMemory e then do
    let argp := FFI_ALIGN l.argp (stackAlign p.1)
    let ds ← slice p.2 0 p.1.size.toNat
    let stack ← splice l.stack (argp - area).toNat ds
    some { l with stack := stack, argp := argp + p.1.size }
  else passClasses p.1.type (e.classes.take e.n) p.2 p.1.size.toNat l

/-- Nothing was stored in the registers and the area yet, but for the address of a result in memory.
That is `raddr`: `rvalue` or, when that is `NULL`, the space that `alloca` has made for the result.
-/
def PassLoop.start (cif : Cif64) (raddr : Ptr) (area : SizeT .linuxX64) : PassLoop where
  gpr :=
    if cif.flags &&& UNIX64_FLAG_RET_IN_MEM ≠ 0 then
      raddr.image .linuxX64 ++ List.replicate (8 * (MAX_GPR_REGS - 1)) .undef
    else List.replicate (8 * MAX_GPR_REGS) .undef
  sse := List.replicate (16 * MAX_SSE_REGS) .undef
  counts := firstCounts cif.flags
  stack := List.replicate cif.bytes.toNat .undef
  argp := area

/-- `ffi_call_int`, up to the call in `ffi_call_unix64`, which loads the vector registers only when
some are in use. It begins after the test of `rvalue` for `NULL`, whose `alloca` has the address
`raddr` already; flags that the test has cleared say nothing about the arguments. -/
def ffiCallInt (cif : Cif64) (raddr : Ptr) (area : SizeT .linuxX64) (avalue : List (List Cell)) :
    Option NativeEntry := do
  let l ← (cif.argTypes.zip avalue).foldlM (passStep area) (PassLoop.start cif raddr area)
  some
    { gpr := l.gpr
      xmm := if l.counts.ssecount ≠ 0 then l.sse else List.replicate (16 * MAX_SSE_REGS) .undef
      argp := area
      stack := l.stack }

/-! ### The arguments of a closure -/

/-- An element of `avalue`: into the saved registers, onto the stack, or to a copy. -/
inductive ArgSource
  | gpr (i : ℕ)
  | sse (i : ℕ)
  | stack (address : SizeT .linuxX64)
  | copy (cells : List Cell)
  deriving DecidableEq, Repr

/-- The registers a trampoline saves: the vector registers only for a closure that has arguments
there. -/
def savedSse (flags : BitVec 32) (entry : NativeEntry) : List Cell :=
  if flags &&& UNIX64_FLAG_XMM_ARGS ≠ 0 then entry.xmm
  else (List.replicate (16 * MAX_SSE_REGS) .undef : List Cell)

/-- Read `n` bytes at an element of `avalue`. -/
def ArgSource.read (flags : BitVec 32) (entry : NativeEntry) (n : ℕ) :
    ArgSource → Option (List Cell)
  | .gpr i => slice entry.gpr (8 * i) n
  | .sse i => slice (savedSse flags entry) (16 * i) n
  | .stack address => slice entry.stack (address - entry.argp).toNat n
  | .copy cells => slice cells 0 n

/-- The loop that makes the parts of an argument consecutive. -/
def gatherClasses (flags : BitVec 32) (entry : NativeEntry) :
    List RegClass → RegCounts → Option (List Cell × RegCounts)
  | [], r => some ([], r)
  | c :: cs, r =>
    if c.isSse then do
      let ds ← slice (savedSse flags entry) (16 * r.ssecount) 8
      let (rest, r) ← gatherClasses flags entry cs { r with ssecount := r.ssecount + 1 }
      some (ds ++ rest, r)
    else do
      let ds ← slice entry.gpr (8 * r.gprcount) 8
      let (rest, r) ← gatherClasses flags entry cs { r with gprcount := r.gprcount + 1 }
      some (ds ++ rest, r)

/-- The variables of the loop of `ffi_closure_unix64_inner`. -/
structure InnerLoop where
  avalue : List ArgSource
  counts : RegCounts
  argp : SizeT .linuxX64
  deriving DecidableEq, Repr

/-- A round of that loop. -/
def innerStep (flags : BitVec 32) (entry : NativeEntry) (l : InnerLoop) (t : FfiType .linuxX64) :
    Option InnerLoop := do
  let e ← examineArgument t false
  let sse (k : ℕ) : Bool := (e.classes[k]?.map RegClass.isSse).getD false
  if l.counts.inMemory e then
    let argp := FFI_ALIGN l.argp (stackAlign t)
    some { l with avalue := l.avalue ++ [.stack argp], argp := argp + t.size }
  -- in a single register, or two consecutive integer registers
  else if e.n = 1 ∨ (e.n = 2 ∧ ¬(sse 0 || sse 1) = true) then
    if sse 0 then
      some { l with
        avalue := l.avalue ++ [.sse l.counts.ssecount]
        counts := { l.counts with ssecount := l.counts.ssecount + e.n } }
    else
      some { l with
        avalue := l.avalue ++ [.gpr l.counts.gprcount]
        counts := { l.counts with gprcount := l.counts.gprcount + e.n } }
  else do
    -- the copy has room for two registers
    if 2 < e.n then none
    let (cells, counts) ← gatherClasses flags entry (e.classes.take e.n) l.counts
    some { l with
      avalue := l.avalue ++ [.copy (cells ++ List.replicate (16 - cells.length) .undef)]
      counts := counts }

/-- `ffi_closure_unix64_inner` up to the call of the closure's function: where that stores its
result, when the address came with the arguments, and `avalue`. -/
def closureInner (cif : Cif64) (entry : NativeEntry) : Option (Option Ptr × List ArgSource) := do
  let rvalue ←
    if cif.flags &&& UNIX64_FLAG_RET_IN_MEM ≠ 0 then do
      let ds ← slice entry.gpr 0 8
      let r ← Ptr.ofDigits .linuxX64 ds
      some (some r)
    else some none
  let l ← cif.argTypes.foldlM (innerStep cif.flags entry)
    ⟨[], firstCounts cif.flags, entry.argp⟩
  some (rvalue, l.avalue)

/-- What the closure's function reads at `avalue`. -/
def closureValues (cif : Cif64) (entry : NativeEntry) (avalue : List ArgSource) :
    Option (List (List Cell)) :=
  (cif.argTypes.zip avalue).mapM fun p => p.2.read cif.flags entry p.1.size.toNat

/-! ### Results -/

/-- The registers a native function returns in. -/
structure Returned64 where
  rax : List Cell
  rdx : List Cell
  xmm0 : List Cell
  xmm1 : List Cell
  /-- The ten bytes on top of the floating point stack. -/
  st0 : List Cell
  deriving DecidableEq, Repr

/-- Nothing was returned. -/
def Returned64.undef : Returned64 where
  rax := List.replicate 8 .undef
  rdx := List.replicate 8 .undef
  xmm0 := List.replicate 8 .undef
  xmm1 := List.replicate 8 .undef
  st0 := (List.replicate 10 .undef : List Cell)

/-- The `n` low bytes of a register, extended to eight. -/
def extendLow (signed : Bool) (n : ℕ) (register : List Cell) : List Cell :=
  register.take n ++ List.replicate (8 - n) (extension signed (register.take n))

/-- The table of `ffi_call_unix64`: what is stored at `raddr`. The low byte of the flags selects the
entry, the bits from `UNIX64_SIZE_SHIFT` on are the size of a struct. -/
def storeTable (flags : BitVec 32) (regs : Returned64) : Option (List Cell) :=
  let size := (flags >>> UNIX64_SIZE_SHIFT).toNat
  let kind := flags &&& 0xff
  if kind = UNIX64_RET_VOID then some []
  else if kind = UNIX64_RET_UINT8 then some (extendLow false 1 regs.rax)
  else if kind = UNIX64_RET_UINT16 then some (extendLow false 2 regs.rax)
  else if kind = UNIX64_RET_UINT32 then some (extendLow false 4 regs.rax)
  else if kind = UNIX64_RET_SINT8 then some (extendLow true 1 regs.rax)
  else if kind = UNIX64_RET_SINT16 then some (extendLow true 2 regs.rax)
  else if kind = UNIX64_RET_SINT32 then some (extendLow true 4 regs.rax)
  else if kind = UNIX64_RET_INT64 then some regs.rax
  else if kind = UNIX64_RET_XMM32 then some (regs.xmm0.take 4)
  else if kind = UNIX64_RET_XMM64 then some regs.xmm0
  else if kind = UNIX64_RET_X87 then some regs.st0
  -- `rep movsb` from the scratch area in the red zone
  else if kind = UNIX64_RET_ST_XMM0_RAX then slice (regs.xmm0 ++ regs.rax) 0 size
  else if kind = UNIX64_RET_ST_RAX_XMM0 then slice (regs.rax ++ regs.xmm0) 0 size
  else if kind = UNIX64_RET_ST_XMM0_XMM1 then slice (regs.xmm0 ++ regs.xmm1) 0 size
  else if kind = UNIX64_RET_ST_RAX_RDX then slice (regs.rax ++ regs.rdx) 0 size
  else none

/-- The low four bytes of a register, loaded from memory and extended to four; the upper four are
cleared. -/
def loadLow (signed : Bool) (n : ℕ) (rvalue : List Cell) : List Cell :=
  (rvalue.take n ++ List.replicate (4 - n) (extension signed (rvalue.take n))) ++
    List.replicate 4 (.byte 0)

/-- The table of the closure's trampoline: the registers, loaded from `rvalue`. -/
def loadTable (flags : BitVec 32) (rvalue : List Cell) : Option Returned64 :=
  let kind := flags &&& 0xff
  let low := rvalue.take 8
  let high := (rvalue.drop 8).take 8
  let movd := rvalue.take 4 ++ List.replicate 4 (.byte 0)
  if kind = UNIX64_RET_VOID then some .undef
  else if kind = UNIX64_RET_UINT8 then some { Returned64.undef with rax := loadLow false 1 rvalue }
  else if kind = UNIX64_RET_UINT16 then some { Returned64.undef with rax := loadLow false 2 rvalue }
  else if kind = UNIX64_RET_UINT32 then some { Returned64.undef with rax := loadLow false 4 rvalue }
  else if kind = UNIX64_RET_SINT8 then some { Returned64.undef with rax := loadLow true 1 rvalue }
  else if kind = UNIX64_RET_SINT16 then some { Returned64.undef with rax := loadLow true 2 rvalue }
  else if kind = UNIX64_RET_SINT32 then some { Returned64.undef with rax := loadLow false 4 rvalue }
  else if kind = UNIX64_RET_INT64 then some { Returned64.undef with rax := low }
  else if kind = UNIX64_RET_XMM32 then some { Returned64.undef with xmm0 := movd }
  else if kind = UNIX64_RET_XMM64 then some { Returned64.undef with xmm0 := low }
  else if kind = UNIX64_RET_X87 then some { Returned64.undef with st0 := rvalue.take 10 }
  else if kind = UNIX64_RET_ST_XMM0_RAX then
    some { Returned64.undef with rax := high, xmm0 := low }
  else if kind = UNIX64_RET_ST_RAX_XMM0 then
    some { Returned64.undef with xmm0 := high, rax := low }
  else if kind = UNIX64_RET_ST_XMM0_XMM1 then
    some { Returned64.undef with xmm1 := high, xmm0 := low }
  else if kind = UNIX64_RET_ST_RAX_RDX then some { Returned64.undef with rdx := high, rax := low }
  else none

end Jffi
