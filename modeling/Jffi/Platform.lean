import Jffi.Lib.Bytes

/-!
# Platforms and native types

What the code asks of the machine it runs on, and the types of parameters and results. The
constructors of `FFIType` are the `ffi_type` structures of libffi that `typeToFFI` hands out, so
a type whose size contradicts its type code cannot be written down; the size and the code of a
type are functions of the platform.

On a platform whose `long double` is `double` libffi gives `ffi_type_longdouble` the type code of
`double`, which is why `FFIType.code` looks at the platform.
-/

namespace Jffi

/-! ### The machine -/

/-- `Platform.CPU`. -/
inductive CPU
  | i386 | x86_64 | ppc | ppc64 | ppc64le | sparc | sparcv9 | s390x | arm | aarch64
  | loongarch64 | mipsel | mips64el | riscv64 | unknown
  deriving DecidableEq, Repr

/-- `CPU.dataModel`: the width of an address in bits. -/
def CPU.dataModel : CPU → ℕ
  | .i386 | .ppc | .sparc | .arm | .mipsel => 32
  | .x86_64 | .ppc64 | .ppc64le | .sparcv9 | .s390x | .aarch64 | .loongarch64 | .mips64el
  | .riscv64 | .unknown => 64

/-- `defined(__i386__) || defined(__x86_64__)`. -/
def CPU.isX86 : CPU → Bool
  | .i386 | .x86_64 => true
  | _ => false

/-- The formats of a `long double` that is a type of its own: the extended format of the x87, in 12
or in 16 bytes, and the format of IEEE 754 with 128 bits. The pairs of `double`s that compilers for
PowerPC can make of it are not among them. -/
inductive LongDoubleFormat
  | extended96 | extended128 | binary128
  deriving DecidableEq, Repr

/-- `sizeof(long double)`. -/
def LongDoubleFormat.size : LongDoubleFormat → ℕ
  | .extended96 => 12
  | .extended128 | .binary128 => 16

def LongDoubleFormat.isExtended : LongDoubleFormat → Bool
  | .extended96 | .extended128 => true
  | .binary128 => false

/-- The machine the library was compiled for and runs on. -/
structure Platform where
  cpu : CPU
  /-- `BYTE_ORDER`, which is also what `ByteOrder.nativeOrder()` answers. -/
  nativeOrder : ByteOrder
  /-- `_WIN32` is defined. -/
  windows : Bool
  /-- `__GNUC__` is defined. -/
  gnuc : Bool
  /-- The format of `long double` where it is a type of its own, `none` where it is `double`. -/
  longDouble : Option LongDoubleFormat
  /-- The x86 processors are little endian. -/
  x86_little : cpu.isX86 = true → nativeOrder = .little
  /-- The extended format is that of the x86 processors. -/
  extended_x86 : ∀ f ∈ longDouble, f.isExtended = true → cpu.isX86 = true

namespace Platform

variable (pf : Platform)

/-- `sizeof(void *)`, which on every supported processor is also `FFI_SIZEOF_ARG`. -/
def ptrSize : ℕ := pf.cpu.dataModel / 8

theorem ptrSize_eq : pf.ptrSize = 4 ∨ pf.ptrSize = 8 := by
  cases h : pf.cpu <;> simp [ptrSize, h, CPU.dataModel]

theorem ptrSize_pos : 0 < pf.ptrSize := by
  rcases pf.ptrSize_eq with h | h <;> omega

theorem ptrSize_le : pf.ptrSize ≤ 8 := by
  rcases pf.ptrSize_eq with h | h <;> omega

/-- `Platform.addressMask()`. -/
def addressMask : BitVec 64 :=
  if pf.cpu.dataModel = 32 then 0xffffffff else 0xffffffffffffffff

theorem addressMask_eq :
    pf.addressMask = if pf.ptrSize = 4 then 0xffffffff else 0xffffffffffffffff := by
  cases h : pf.cpu <;> simp [addressMask, ptrSize, h, CPU.dataModel]

/-- `Platform.longSize()`. -/
def longSize : ℕ := if pf.windows then 32 else pf.cpu.dataModel

/-- Linux on a 64 bit x86 processor. -/
def linuxX64 : Platform where
  cpu := .x86_64
  nativeOrder := .little
  windows := false
  gnuc := true
  longDouble := some .extended128
  x86_little := by decide
  extended_x86 := by decide

/-- Linux on z/Architecture, which is big endian. -/
def linuxS390x : Platform where
  cpu := .s390x
  nativeOrder := .big
  windows := false
  gnuc := true
  longDouble := some .binary128
  x86_little := by decide
  extended_x86 := by decide

end Platform

/-! ### Type codes -/

/-- The `FFI_TYPE_*` codes, whose numbers `Foreign.TYPE_*` repeats. -/
inductive FFICode
  | void | int | float | double | longdouble | uint8 | sint8 | uint16 | sint16 | uint32 | sint32
  | uint64 | sint64 | struct | pointer
  deriving DecidableEq, Repr

/-! ### `ffi_type` -/

/-- The `ffi_type` structures the library works with. -/
inductive FFIType
  | void | float | double | longdouble | uint8 | sint8 | uint16 | sint16 | uint32 | sint32
  | uint64 | sint64 | pointer
  /-- A struct, a union or an array: libffi sees all three as a struct. -/
  | struct (size alignment : ℕ)
  deriving DecidableEq, Repr

namespace FFIType

/-- `type->type`. -/
def code (pf : Platform) : FFIType → FFICode
  | .void => .void
  | .float => .float
  | .double => .double
  | .longdouble => if pf.longDouble.isSome then .longdouble else .double
  | .uint8 => .uint8
  | .sint8 => .sint8
  | .uint16 => .uint16
  | .sint16 => .sint16
  | .uint32 => .uint32
  | .sint32 => .sint32
  | .uint64 => .uint64
  | .sint64 => .sint64
  | .pointer => .pointer
  | .struct _ _ => .struct

/-- `type->size`. The size of `ffi_type_void` is fake: "They must not be 0." -/
def size (pf : Platform) : FFIType → ℕ
  | .void => 1
  | .float => 4
  | .double => 8
  | .longdouble => (pf.longDouble.map LongDoubleFormat.size).getD 8
  | .uint8 | .sint8 => 1
  | .uint16 | .sint16 => 2
  | .uint32 | .sint32 => 4
  | .uint64 | .sint64 => 8
  | .pointer => pf.ptrSize
  | .struct size _ => size

/-- The number of bytes of a value of the type: a `void` has none. -/
def valueSize (pf : Platform) : FFIType → ℕ
  | .void => 0
  | t => t.size pf

/-- The types libffi widens to a whole `ffi_arg` when a function returns them. -/
def isIntegral : FFIType → Bool
  | .uint8 | .sint8 | .uint16 | .sint16 | .uint32 | .sint32 | .uint64 | .sint64 | .pointer => true
  | _ => false

def isSigned : FFIType → Bool
  | .sint8 | .sint16 | .sint32 | .sint64 => true
  | _ => false

theorem code_eq_struct {pf : Platform} {t : FFIType} :
    t.code pf = .struct ↔ ∃ n a, t = .struct n a := by
  cases t <;> simp [code]
  split <;> simp

theorem code_eq_pointer {pf : Platform} {t : FFIType} : t.code pf = .pointer ↔ t = .pointer := by
  cases t <;> simp [code]
  split <;> simp

theorem valueSize_le_size (pf : Platform) (t : FFIType) : t.valueSize pf ≤ t.size pf := by
  cases t <;> simp [valueSize]

theorem valueSize_of_isIntegral {pf : Platform} {t : FFIType} (h : t.isIntegral = true) :
    t.valueSize pf = t.size pf := by
  cases t <;> simp_all [valueSize, isIntegral]

theorem size_le_of_isIntegral {pf : Platform} {t : FFIType} (h : t.isIntegral = true) :
    t.size pf ≤ 8 := by
  cases t <;> simp_all [size, isIntegral, pf.ptrSize_le]

theorem size_le_of_valueSize {pf : Platform} {t : FFIType} (h : t.valueSize pf ≤ 8) :
    t.size pf ≤ 8 := by
  cases t with
  | void => exact Nat.le_of_ble_eq_true rfl
  | _ => exact h

theorem size_longdouble_le (pf : Platform) : FFIType.longdouble.size pf ≤ 16 := by
  cases h : pf.longDouble with
  | none => simp [size, h]
  | some f => cases f <;> simp [size, h, LongDoubleFormat.size]

theorem size_longdouble_gt {pf : Platform} (h : pf.longDouble.isSome = true) :
    8 < FFIType.longdouble.size pf := by
  obtain ⟨f, hf⟩ := Option.isSome_iff_exists.mp h
  cases f <;> simp [size, hf, LongDoubleFormat.size]

end FFIType

/-! ### `Type` -/

/-- `NativeType`, less `STRUCT`, of which no builtin `Type` is made. -/
inductive NativeType
  | void | float | double | longdouble | uint8 | sint8 | uint16 | sint16 | uint32 | sint32
  | uint64 | sint64 | pointer | uchar | schar | ushort | sshort | uint | sint | ulong | slong
  deriving DecidableEq, Repr

/-- The types of parameters and results on the Java side: a builtin type, or a `Struct`, `Union`
or `Array`, of which the calls only use the size and the alignment libffi computed. -/
inductive JType
  | builtin (t : NativeType)
  | aggregate (size alignment : ℕ)
  deriving DecidableEq, Repr

/-- `typeToFFI`: the native type behind a builtin type. -/
def typeToFFI (pf : Platform) : NativeType → FFIType
  | .void => .void
  | .float => .float
  | .double => .double
  | .longdouble => .longdouble
  | .uint8 => .uint8
  | .sint8 => .sint8
  | .uint16 => .uint16
  | .sint16 => .sint16
  | .uint32 => .uint32
  | .sint32 => .sint32
  | .uint64 => .uint64
  | .sint64 => .sint64
  | .pointer => .pointer
  | .uchar => .uint8
  | .schar => .sint8
  | .ushort => .uint16
  | .sshort => .sint16
  | .uint => .uint32
  | .sint => .sint32
  | .ulong => if pf.longSize = 32 then .uint32 else .uint64
  | .slong => if pf.longSize = 32 then .sint32 else .sint64

namespace JType

/-- The structure `handle()` points to. -/
def ffiType (pf : Platform) : JType → FFIType
  | .builtin t => typeToFFI pf t
  | .aggregate size alignment => .struct size alignment

/-- `Type.type()`. -/
def type (pf : Platform) (t : JType) : FFICode := (t.ffiType pf).code pf

/-- `Type.size()`. -/
def size (pf : Platform) (t : JType) : ℕ := (t.ffiType pf).size pf

/-- `t instanceof Type.Builtin`. -/
def isBuiltin : JType → Bool
  | .builtin _ => true
  | .aggregate _ _ => false

theorem typeToFFI_ne_struct (pf : Platform) (t : NativeType) (n a : ℕ) :
    typeToFFI pf t ≠ .struct n a := by
  cases t <;> simp [typeToFFI] <;> split <;> simp

theorem type_eq_struct {pf : Platform} {t : JType} : t.type pf = .struct ↔ t.isBuiltin = false := by
  cases t with
  | builtin t =>
    simp only [type, ffiType, isBuiltin, FFIType.code_eq_struct]
    exact ⟨fun ⟨n, a, h⟩ => absurd h (typeToFFI_ne_struct pf t n a), fun h => nomatch h⟩
  | aggregate n a => simp [type, ffiType, isBuiltin, FFIType.code]

end JType

end Jffi
