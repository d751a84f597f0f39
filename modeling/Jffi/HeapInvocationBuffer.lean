import Jffi.CallContext
import Jffi.LongDoubles
import Jffi.ObjectBuffer

/-!
# `HeapInvocationBuffer`

The Java side of a call: every parameter takes a slot of `PARAM_SIZE` bytes in a byte array, laid
out by the `ArrayIo` of the platform, and an object takes an entry of the object buffer besides.

The puts of the class are the constructors of `Put`, so that a sequence of puts is a list. A put
that throws gives `none`.

## Main definitions

* `ArrayIo`, `ArrayIo.getInstance` — the four encoders
* `HeapInvocationBuffer`, `Put`, `put`, `puts` — the buffer and its filling

## Main results

* `ArrayIo.encodes_putInt`, … — every encoder writes the image of the native byte order
-/

namespace Jffi

open ObjectBuffer

/-! ### `ArrayIo` -/

/-- `(byte) value`. -/
def toByte {w : ℕ} (value : BitVec w) : Byte := value.setWidth 8

/-- A Java array encoder. -/
structure ArrayIo where
  putByte : List Byte → ℕ → BitVec 32 → Option (List Byte)
  putShort : List Byte → ℕ → BitVec 32 → Option (List Byte)
  putInt : List Byte → ℕ → BitVec 32 → Option (List Byte)
  putLong : List Byte → ℕ → BitVec 64 → Option (List Byte)
  putAddress : List Byte → ℕ → BitVec 64 → Option (List Byte)

namespace LittleEndianArrayIo

def putByte (buffer : List Byte) (offset : ℕ) (value : BitVec 32) : Option (List Byte) :=
  storeBytes buffer offset [toByte value]

def putShort (buffer : List Byte) (offset : ℕ) (value : BitVec 32) : Option (List Byte) :=
  storeBytes buffer offset [toByte value, toByte (value.sshiftRight 8)]

def putInt (buffer : List Byte) (offset : ℕ) (value : BitVec 32) : Option (List Byte) :=
  storeBytes buffer offset
    [toByte value, toByte (value.sshiftRight 8), toByte (value.sshiftRight 16),
      toByte (value.sshiftRight 24)]

def putLong (buffer : List Byte) (offset : ℕ) (value : BitVec 64) : Option (List Byte) :=
  storeBytes buffer offset
    [toByte value, toByte (value.sshiftRight 8), toByte (value.sshiftRight 16),
      toByte (value.sshiftRight 24), toByte (value.sshiftRight 32), toByte (value.sshiftRight 40),
      toByte (value.sshiftRight 48), toByte (value.sshiftRight 56)]

/-- The `putAddress` of `LE32ArrayIo`. -/
def putAddress32 (buffer : List Byte) (offset : ℕ) (value : BitVec 64) : Option (List Byte) :=
  storeBytes buffer offset
    [toByte value, toByte (value.sshiftRight 8), toByte (value.sshiftRight 16),
      toByte (value.sshiftRight 24)]

end LittleEndianArrayIo

namespace BigEndianArrayIo

def putByte (buffer : List Byte) (offset : ℕ) (value : BitVec 32) : Option (List Byte) :=
  storeBytes buffer offset [toByte value]

def putShort (buffer : List Byte) (offset : ℕ) (value : BitVec 32) : Option (List Byte) :=
  storeBytes buffer offset [toByte (value.sshiftRight 8), toByte value]

def putInt (buffer : List Byte) (offset : ℕ) (value : BitVec 32) : Option (List Byte) :=
  storeBytes buffer offset
    [toByte (value.sshiftRight 24), toByte (value.sshiftRight 16), toByte (value.sshiftRight 8),
      toByte value]

def putLong (buffer : List Byte) (offset : ℕ) (value : BitVec 64) : Option (List Byte) :=
  storeBytes buffer offset
    [toByte (value.sshiftRight 56), toByte (value.sshiftRight 48), toByte (value.sshiftRight 40),
      toByte (value.sshiftRight 32), toByte (value.sshiftRight 24), toByte (value.sshiftRight 16),
      toByte (value.sshiftRight 8), toByte value]

/-- The `putAddress` of `BE32ArrayIo`. -/
def putAddress32 (buffer : List Byte) (offset : ℕ) (value : BitVec 64) : Option (List Byte) :=
  storeBytes buffer offset
    [toByte (value.sshiftRight 24), toByte (value.sshiftRight 16), toByte (value.sshiftRight 8),
      toByte value]

end BigEndianArrayIo

def LE32ArrayIo : ArrayIo where
  putByte := LittleEndianArrayIo.putByte
  putShort := LittleEndianArrayIo.putShort
  putInt := LittleEndianArrayIo.putInt
  putLong := LittleEndianArrayIo.putLong
  putAddress := LittleEndianArrayIo.putAddress32

def LE64ArrayIo : ArrayIo where
  putByte := LittleEndianArrayIo.putByte
  putShort := LittleEndianArrayIo.putShort
  putInt := LittleEndianArrayIo.putInt
  putLong := LittleEndianArrayIo.putLong
  putAddress := LittleEndianArrayIo.putLong

def BE32ArrayIo : ArrayIo where
  putByte := BigEndianArrayIo.putByte
  putShort := BigEndianArrayIo.putShort
  putInt := BigEndianArrayIo.putInt
  putLong := BigEndianArrayIo.putLong
  putAddress := BigEndianArrayIo.putAddress32

def BE64ArrayIo : ArrayIo where
  putByte := BigEndianArrayIo.putByte
  putShort := BigEndianArrayIo.putShort
  putInt := BigEndianArrayIo.putInt
  putLong := BigEndianArrayIo.putLong
  putAddress := BigEndianArrayIo.putLong

/-- The encoder that throws whatever it is asked to put. -/
def InvalidArrayIo : ArrayIo where
  putByte _ _ _ := none
  putShort _ _ _ := none
  putInt _ _ _ := none
  putLong _ _ _ := none
  putAddress _ _ _ := none

namespace ArrayIo

/-- `ArrayIo.getInstance()`. -/
def getInstance (pf : Platform) : ArrayIo :=
  match pf.cpu.dataModel, pf.nativeOrder with
  | 32, .little => LE32ArrayIo
  | 32, .big => BE32ArrayIo
  | 64, .little => LE64ArrayIo
  | 64, .big => BE64ArrayIo
  | _, _ => InvalidArrayIo

/-- The argument is `Float.floatToRawIntBits(value)`. -/
def putFloat (io : ArrayIo) (buffer : List Byte) (offset : ℕ) (value : BitVec 32) :
    Option (List Byte) :=
  io.putInt buffer offset value

/-- The argument is `Double.doubleToRawLongBits(value)`. -/
def putDouble (io : ArrayIo) (buffer : List Byte) (offset : ℕ) (value : BitVec 64) :
    Option (List Byte) :=
  io.putLong buffer offset value

/-- The encoder writes `n` bytes of a value at the offset as the platform lays them out. -/
def Encodes {w : ℕ} (pf : Platform) (n : ℕ) (put : List Byte → ℕ → BitVec w → Option (List Byte)) :
    Prop :=
  ∀ buffer offset value, offset + n ≤ buffer.length →
    put buffer offset value = splice buffer offset (pf.nativeOrder.arrange (leBytes n value))

end ArrayIo

/-! ### The encoders are right

Each encoder spells out its bytes; the bytes are those of `leBytes`, in order or reversed. -/

/-- The bytes of a value, by the shifts the encoders use. -/
theorem leBytes_eq_toByte {w n : ℕ} (value : BitVec w) (h : 8 * n ≤ w) :
    leBytes n value = (List.range n).map fun k => toByte (value.sshiftRight (8 * k)) := by
  refine List.map_congr_left fun k hk => ?_
  have hk : k < n := List.mem_range.mp hk
  exact (extractLsb'_eq_setWidth_sshiftRight value (by omega)).symm

namespace LittleEndianArrayIo

theorem putByte_eq (buffer : List Byte) (offset : ℕ) (value : BitVec 32) :
    putByte buffer offset value = storeBytes buffer offset (leBytes 1 value) := by
  rw [leBytes_eq_toByte value (by omega)]
  simp [putByte, List.range_succ]

theorem putShort_eq (buffer : List Byte) (offset : ℕ) (value : BitVec 32) :
    putShort buffer offset value = storeBytes buffer offset (leBytes 2 value) := by
  rw [leBytes_eq_toByte value (by omega)]
  simp [putShort, List.range_succ]

theorem putInt_eq (buffer : List Byte) (offset : ℕ) (value : BitVec 32) :
    putInt buffer offset value = storeBytes buffer offset (leBytes 4 value) := by
  rw [leBytes_eq_toByte value (by omega)]
  simp [putInt, List.range_succ]

theorem putLong_eq (buffer : List Byte) (offset : ℕ) (value : BitVec 64) :
    putLong buffer offset value = storeBytes buffer offset (leBytes 8 value) := by
  rw [leBytes_eq_toByte value (by omega)]
  simp [putLong, List.range_succ]

theorem putAddress32_eq (buffer : List Byte) (offset : ℕ) (value : BitVec 64) :
    putAddress32 buffer offset value = storeBytes buffer offset (leBytes 4 value) := by
  rw [leBytes_eq_toByte value (by omega)]
  simp [putAddress32, List.range_succ]

end LittleEndianArrayIo

namespace BigEndianArrayIo

theorem putByte_eq (buffer : List Byte) (offset : ℕ) (value : BitVec 32) :
    putByte buffer offset value = storeBytes buffer offset (leBytes 1 value).reverse := by
  rw [leBytes_eq_toByte value (by omega)]
  simp [putByte, List.range_succ]

theorem putShort_eq (buffer : List Byte) (offset : ℕ) (value : BitVec 32) :
    putShort buffer offset value = storeBytes buffer offset (leBytes 2 value).reverse := by
  rw [leBytes_eq_toByte value (by omega)]
  simp [putShort, List.range_succ]

theorem putInt_eq (buffer : List Byte) (offset : ℕ) (value : BitVec 32) :
    putInt buffer offset value = storeBytes buffer offset (leBytes 4 value).reverse := by
  rw [leBytes_eq_toByte value (by omega)]
  simp [putInt, List.range_succ]

theorem putLong_eq (buffer : List Byte) (offset : ℕ) (value : BitVec 64) :
    putLong buffer offset value = storeBytes buffer offset (leBytes 8 value).reverse := by
  rw [leBytes_eq_toByte value (by omega)]
  simp [putLong, List.range_succ]

theorem putAddress32_eq (buffer : List Byte) (offset : ℕ) (value : BitVec 64) :
    putAddress32 buffer offset value = storeBytes buffer offset (leBytes 4 value).reverse := by
  rw [leBytes_eq_toByte value (by omega)]
  simp [putAddress32, List.range_succ]

end BigEndianArrayIo

namespace ArrayIo

theorem getInstance_cases (pf : Platform) :
    (pf.ptrSize = 4 ∧ pf.nativeOrder = .little ∧ getInstance pf = LE32ArrayIo) ∨
      (pf.ptrSize = 4 ∧ pf.nativeOrder = .big ∧ getInstance pf = BE32ArrayIo) ∨
      (pf.ptrSize = 8 ∧ pf.nativeOrder = .little ∧ getInstance pf = LE64ArrayIo) ∨
      (pf.ptrSize = 8 ∧ pf.nativeOrder = .big ∧ getInstance pf = BE64ArrayIo) := by
  have hmodel : pf.cpu.dataModel = 32 ∨ pf.cpu.dataModel = 64 := by
    cases pf.cpu <;> simp [CPU.dataModel]
  rcases hmodel with h | h <;> cases ho : pf.nativeOrder <;>
    simp [Platform.ptrSize, getInstance, h, ho]

private theorem encodes_of_storeBytes {w n : ℕ} {pf : Platform}
    {put : List Byte → ℕ → BitVec w → Option (List Byte)}
    (h : ∀ buffer offset value,
      put buffer offset value =
        storeBytes buffer offset (pf.nativeOrder.arrange (leBytes n value))) :
    Encodes pf n put := by
  intro buffer offset value hle
  rw [h, storeBytes_eq_splice (by simpa using hle)]

theorem encodes_putByte (pf : Platform) : Encodes pf 1 (getInstance pf).putByte := by
  refine encodes_of_storeBytes fun buffer offset value => ?_
  rcases getInstance_cases pf with ⟨-, ho, h⟩ | ⟨-, ho, h⟩ | ⟨-, ho, h⟩ | ⟨-, ho, h⟩ <;> rw [h, ho]
  exacts [LittleEndianArrayIo.putByte_eq .., BigEndianArrayIo.putByte_eq ..,
    LittleEndianArrayIo.putByte_eq .., BigEndianArrayIo.putByte_eq ..]

theorem encodes_putShort (pf : Platform) : Encodes pf 2 (getInstance pf).putShort := by
  refine encodes_of_storeBytes fun buffer offset value => ?_
  rcases getInstance_cases pf with ⟨-, ho, h⟩ | ⟨-, ho, h⟩ | ⟨-, ho, h⟩ | ⟨-, ho, h⟩ <;> rw [h, ho]
  exacts [LittleEndianArrayIo.putShort_eq .., BigEndianArrayIo.putShort_eq ..,
    LittleEndianArrayIo.putShort_eq .., BigEndianArrayIo.putShort_eq ..]

theorem encodes_putInt (pf : Platform) : Encodes pf 4 (getInstance pf).putInt := by
  refine encodes_of_storeBytes fun buffer offset value => ?_
  rcases getInstance_cases pf with ⟨-, ho, h⟩ | ⟨-, ho, h⟩ | ⟨-, ho, h⟩ | ⟨-, ho, h⟩ <;> rw [h, ho]
  exacts [LittleEndianArrayIo.putInt_eq .., BigEndianArrayIo.putInt_eq ..,
    LittleEndianArrayIo.putInt_eq .., BigEndianArrayIo.putInt_eq ..]

theorem encodes_putLong (pf : Platform) : Encodes pf 8 (getInstance pf).putLong := by
  refine encodes_of_storeBytes fun buffer offset value => ?_
  rcases getInstance_cases pf with ⟨-, ho, h⟩ | ⟨-, ho, h⟩ | ⟨-, ho, h⟩ | ⟨-, ho, h⟩ <;> rw [h, ho]
  exacts [LittleEndianArrayIo.putLong_eq .., BigEndianArrayIo.putLong_eq ..,
    LittleEndianArrayIo.putLong_eq .., BigEndianArrayIo.putLong_eq ..]

/-- `putAddress` encodes a number of the width of an address, which is all that depends on the
platform. -/
theorem encodes_putAddress (pf : Platform) :
    Encodes pf pf.ptrSize (getInstance pf).putAddress := by
  refine encodes_of_storeBytes fun buffer offset value => ?_
  rcases getInstance_cases pf with ⟨hp, ho, h⟩ | ⟨hp, ho, h⟩ | ⟨hp, ho, h⟩ | ⟨hp, ho, h⟩ <;>
    rw [h, ho, hp]
  exacts [LittleEndianArrayIo.putAddress32_eq .., BigEndianArrayIo.putAddress32_eq ..,
    LittleEndianArrayIo.putLong_eq .., BigEndianArrayIo.putLong_eq ..]

end ArrayIo

/-! ### `Encoder` -/

def PARAM_SIZE : ℕ := 8

namespace Encoder

variable (pf : Platform)

def getBufferSize (callContext : CallContext pf) : ℕ := callContext.getParameterCount * PARAM_SIZE

/-- A value takes a whole slot, however few bytes of it are written. -/
def putSlot (buffer : Option (List Byte)) (offset : ℕ) : Option (List Byte × ℕ) :=
  buffer.map fun buffer => (buffer, offset + PARAM_SIZE)

def putByte (buffer : List Byte) (offset : ℕ) (value : BitVec 32) : Option (List Byte × ℕ) :=
  putSlot ((ArrayIo.getInstance pf).putByte buffer offset value) offset

def putShort (buffer : List Byte) (offset : ℕ) (value : BitVec 32) : Option (List Byte × ℕ) :=
  putSlot ((ArrayIo.getInstance pf).putShort buffer offset value) offset

def putInt (buffer : List Byte) (offset : ℕ) (value : BitVec 32) : Option (List Byte × ℕ) :=
  putSlot ((ArrayIo.getInstance pf).putInt buffer offset value) offset

def putLong (buffer : List Byte) (offset : ℕ) (value : BitVec 64) : Option (List Byte × ℕ) :=
  putSlot ((ArrayIo.getInstance pf).putLong buffer offset value) offset

def putFloat (buffer : List Byte) (offset : ℕ) (value : BitVec 32) : Option (List Byte × ℕ) :=
  putSlot ((ArrayIo.getInstance pf).putFloat buffer offset value) offset

def putDouble (buffer : List Byte) (offset : ℕ) (value : BitVec 64) : Option (List Byte × ℕ) :=
  putSlot ((ArrayIo.getInstance pf).putDouble buffer offset value) offset

def putAddress (buffer : List Byte) (offset : ℕ) (value : BitVec 64) : Option (List Byte × ℕ) :=
  putSlot ((ArrayIo.getInstance pf).putAddress buffer offset value) offset

def skipAddress (offset : ℕ) : ℕ := offset + PARAM_SIZE

end Encoder

/-! ### The buffer -/

structure HeapInvocationBuffer (pf : Platform) where
  callContext : CallContext pf
  buffer : List Byte
  objectBuffer : Option ObjectBuffer
  paramOffset : ℕ
  paramIndex : ℕ

/-- The puts of a `HeapInvocationBuffer`. Floating point values are given by their bits. -/
inductive Put
  | byte (value : BitVec 32)
  | short (value : BitVec 32)
  | int (value : BitVec 32)
  | long (value : BitVec 64)
  | float (value : BitVec 32)
  | double (value : BitVec 64)
  | address (value : BitVec 64)
  | longDouble (value : BitVec 64)
  /-- `putLongDouble(BigDecimal)`, by what its `toEngineeringString` prints. -/
  | bigDecimal (value : Numeral)
  | array (t : ComponentType) (array : Option Obj) (offset length flags : BitVec 32)
  | directBuffer (value : Option Obj) (offset length : BitVec 32)
  /-- `putStruct(byte[], int)`. -/
  | struct (struct : Option Obj) (offset : BitVec 32)
  /-- `putStruct(long)`. -/
  | structAddress (struct : BitVec 64)
  | jniEnvironment
  | jniObject (obj : Option Obj)
  deriving DecidableEq, Repr

namespace HeapInvocationBuffer

variable {pf : Platform}

/-- `new HeapInvocationBuffer(callContext)`. -/
def new (callContext : CallContext pf) : HeapInvocationBuffer pf :=
  ⟨callContext, List.replicate (Encoder.getBufferSize pf callContext) 0, none, 0, 0⟩

/-- `new HeapInvocationBuffer(context, objectCount)`. -/
def ofObjectCount (context : CallContext pf) (objectCount : BitVec 32) :
    Option (HeapInvocationBuffer pf) :=
  (ObjectBuffer.ofCount objectCount).map fun objects =>
    { new context with objectBuffer := some objects }

def getObjectBuffer (b : HeapInvocationBuffer pf) : ObjectBuffer :=
  b.objectBuffer.getD ObjectBuffer.new

/-- A put of a number: encode, and step to the next parameter. -/
def putNumber (b : HeapInvocationBuffer pf) (encoded : Option (List Byte × ℕ)) :
    Option (HeapInvocationBuffer pf) :=
  encoded.map fun (buffer, paramOffset) =>
    { b with buffer := buffer, paramOffset := paramOffset, paramIndex := b.paramIndex + 1 }

/-- A put of an object: leave the slot alone, store the entry, and step to the next parameter. -/
def putEntry (b : HeapInvocationBuffer pf)
    (put : ObjectBuffer → BitVec 32 → Except ObjectBuffer ObjectBuffer) :
    Option (HeapInvocationBuffer pf) :=
  (put b.getObjectBuffer (BitVec.ofNat 32 b.paramIndex)).toOption.map fun objectBuffer =>
    { b with
      objectBuffer := some objectBuffer
      paramOffset := Encoder.skipAddress b.paramOffset
      paramIndex := b.paramIndex + 1 }

def putByte (b : HeapInvocationBuffer pf) (value : BitVec 32) : Option (HeapInvocationBuffer pf) :=
  b.putNumber (Encoder.putByte pf b.buffer b.paramOffset value)

def putShort (b : HeapInvocationBuffer pf) (value : BitVec 32) : Option (HeapInvocationBuffer pf) :=
  b.putNumber (Encoder.putShort pf b.buffer b.paramOffset value)

def putInt (b : HeapInvocationBuffer pf) (value : BitVec 32) : Option (HeapInvocationBuffer pf) :=
  b.putNumber (Encoder.putInt pf b.buffer b.paramOffset value)

def putLong (b : HeapInvocationBuffer pf) (value : BitVec 64) : Option (HeapInvocationBuffer pf) :=
  b.putNumber (Encoder.putLong pf b.buffer b.paramOffset value)

def putFloat (b : HeapInvocationBuffer pf) (value : BitVec 32) : Option (HeapInvocationBuffer pf) :=
  b.putNumber (Encoder.putFloat pf b.buffer b.paramOffset value)

def putDouble (b : HeapInvocationBuffer pf) (value : BitVec 64) :
    Option (HeapInvocationBuffer pf) :=
  b.putNumber (Encoder.putDouble pf b.buffer b.paramOffset value)

def putAddress (b : HeapInvocationBuffer pf) (value : BitVec 64) :
    Option (HeapInvocationBuffer pf) :=
  b.putNumber (Encoder.putAddress pf b.buffer b.paramOffset value)

/-- The overloads `putArray(T[], int, int, int)`. -/
def putArray (b : HeapInvocationBuffer pf) (t : ComponentType) (array : Option Obj)
    (offset length flags : BitVec 32) : Option (HeapInvocationBuffer pf) :=
  b.putEntry fun objects index => objects.putArray t index array offset length flags

def putDirectBuffer (b : HeapInvocationBuffer pf) (value : Option Obj) (offset length : BitVec 32) :
    Option (HeapInvocationBuffer pf) :=
  b.putEntry fun objects index => objects.putDirectBuffer index value offset length

/-- The struct has the size of the parameter's type; looking up the type of a parameter that does
not exist throws. -/
def putStruct (b : HeapInvocationBuffer pf) (struct : Option Obj) (offset : BitVec 32) :
    Option (HeapInvocationBuffer pf) := do
  let type ← b.callContext.getParameterType b.paramIndex
  b.putEntry fun objects index =>
    objects.putArray .byte index struct offset (BitVec.ofNat 32 (type.size pf)) IN

def putStructAddress (b : HeapInvocationBuffer pf) (struct : BitVec 64) :
    Option (HeapInvocationBuffer pf) := do
  let _ ← b.callContext.getParameterType b.paramIndex
  b.putNumber (Encoder.putAddress pf b.buffer b.paramOffset struct)

/-- `ld`, freshly allocated with the given bytes. -/
def newByteArray (heap : List JavaArray) (ld : List Byte) : Obj × List JavaArray :=
  (.array heap.length, heap ++ [⟨.byte, ld.map .byte⟩])

/-- The end of `putLongDouble`, when `ld` has been filled. -/
def putFilled (b : HeapInvocationBuffer pf) (ld : List Byte) (heap : List JavaArray) :
    Option (HeapInvocationBuffer pf × List JavaArray) :=
  let (array, heap) := newByteArray heap ld
  (b.putEntry fun objects index =>
    objects.putArray .byte index (some array) 0 (BitVec.ofNat 32 ld.length) IN).map (·, heap)

/-- `putLongDouble(double)`. -/
def putLongDouble (conversions : LongDoubles pf) (b : HeapInvocationBuffer pf) (value : BitVec 64)
    (heap : List JavaArray) : Option (HeapInvocationBuffer pf × List JavaArray) := do
  let ld ← (Foreign.longDoubleFromDouble conversions value (newLongDouble pf) 0
    (FFIType.longdouble.size pf)).toOption
  b.putFilled ld heap

/-- `putLongDouble(BigDecimal)`. -/
def putBigDecimal (conversions : LongDoubles pf) (b : HeapInvocationBuffer pf) (value : Numeral)
    (heap : List JavaArray) : Option (HeapInvocationBuffer pf × List JavaArray) := do
  let ld ← (Foreign.longDoubleFromString conversions value.text (newLongDouble pf) 0
    (FFIType.longdouble.size pf)).toOption
  b.putFilled ld heap

theorem putLongDouble_eq (conversions : LongDoubles pf) (b : HeapInvocationBuffer pf)
    (value : BitVec 64) (heap : List JavaArray) :
    b.putLongDouble conversions value heap = b.putFilled (conversions.fromDouble value) heap := by
  rw [putLongDouble, longDoubleFromDouble_eq]
  rfl

theorem putBigDecimal_eq (conversions : LongDoubles pf) (b : HeapInvocationBuffer pf)
    (value : Numeral) (heap : List JavaArray) :
    b.putBigDecimal conversions value heap = b.putFilled (conversions.fromNumeral value) heap := by
  rw [putBigDecimal, longDoubleFromString_eq]
  rfl

/-- A JNI parameter clears its slot and stores an entry. -/
def putJNI (b : HeapInvocationBuffer pf) (obj : Option Obj) (type : BitVec 32) :
    Option (HeapInvocationBuffer pf) := do
  let (buffer, paramOffset) ← Encoder.putAddress pf b.buffer b.paramOffset 0
  let objectBuffer ←
    (b.getObjectBuffer.putJNI (BitVec.ofNat 32 b.paramIndex) obj type).toOption
  some { b with
    buffer := buffer
    objectBuffer := some objectBuffer
    paramOffset := paramOffset
    paramIndex := b.paramIndex + 1 }

def putJNIEnvironment (b : HeapInvocationBuffer pf) : Option (HeapInvocationBuffer pf) :=
  b.putJNI none JNIENV

def putJNIObject (b : HeapInvocationBuffer pf) (obj : Option Obj) :
    Option (HeapInvocationBuffer pf) :=
  b.putJNI obj JNIOBJECT

/-- One put, on the buffer and the Java heap. -/
def put (ld : LongDoubles pf) (p : Put) (b : HeapInvocationBuffer pf) (heap : List JavaArray) :
    Option (HeapInvocationBuffer pf × List JavaArray) :=
  match p with
  | .byte v => (b.putByte v).map (·, heap)
  | .short v => (b.putShort v).map (·, heap)
  | .int v => (b.putInt v).map (·, heap)
  | .long v => (b.putLong v).map (·, heap)
  | .float v => (b.putFloat v).map (·, heap)
  | .double v => (b.putDouble v).map (·, heap)
  | .address v => (b.putAddress v).map (·, heap)
  | .longDouble v => b.putLongDouble ld v heap
  | .bigDecimal v => b.putBigDecimal ld v heap
  | .array t a offset length flags => (b.putArray t a offset length flags).map (·, heap)
  | .directBuffer v offset length => (b.putDirectBuffer v offset length).map (·, heap)
  | .struct v offset => (b.putStruct v offset).map (·, heap)
  | .structAddress v => (b.putStructAddress v).map (·, heap)
  | .jniEnvironment => b.putJNIEnvironment.map (·, heap)
  | .jniObject o => (b.putJNIObject o).map (·, heap)

/-- The puts of a sequence, one after the other, until one of them throws. -/
def puts (ld : LongDoubles pf) :
    List Put → HeapInvocationBuffer pf → List JavaArray →
      Option (HeapInvocationBuffer pf × List JavaArray)
  | [], b, heap => some (b, heap)
  | p :: ps, b, heap => do
    let (b, heap) ← put ld p b heap
    puts ld ps b heap

end HeapInvocationBuffer

end Jffi
