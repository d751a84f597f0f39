import Jffi.Lib.BinaryFormat
import Jffi.Lib.DecimalText
import Jffi.Memory

/-!
# The bytes of a `long double`

A Java number is made a `long double` by native code, which writes its bytes to an array: a
`double` is converted, and the text of a `BigDecimal` is read by `strtold`. Where `long double` is
`double` both are numbers with 64 bits. Elsewhere a `double` keeps its value, and a text is rounded
in the direction that is set.

The formats lie in memory in native order. The extended format of the x87 has ten bytes, and behind
them come bytes that the compiler leaves as they are.

## Main definitions

* `Platform.longDoubleBinary` — the format
* `LongDoubles` — what the conversions depend on besides the value
* `LongDoubles.fromDouble`, `LongDoubles.fromNumeral` — the bytes
* `Foreign.longDoubleFromDouble`, `Foreign.longDoubleFromString` — the native functions

## Main results

* `longDoubleFromDouble_eq`, `longDoubleFromString_eq` — a new array is filled
* `number_fromDouble` — the bytes stand for the value of the `double`
* `number_fromNumeral` — they stand for the number next to what was printed
-/

namespace Jffi

/-! ### Formats -/

namespace BinaryFormat

/-- `double`. -/
def binary64 : BinaryFormat := ⟨53, 11, false, by decide, by decide⟩

/-- The extended format of the x87. -/
def extended80 : BinaryFormat := ⟨64, 15, true, by decide, by decide⟩

def binary128 : BinaryFormat := ⟨113, 15, false, by decide, by decide⟩

end BinaryFormat

def LongDoubleFormat.binary : LongDoubleFormat → BinaryFormat
  | .extended96 | .extended128 => .extended80
  | .binary128 => .binary128

/-- The format of `long double`. -/
def Platform.longDoubleBinary (pf : Platform) : BinaryFormat :=
  (pf.longDouble.map LongDoubleFormat.binary).getD .binary64

/-- The bytes of a `long double` that belong to its number. -/
def Platform.longDoubleBytes (pf : Platform) : ℕ := pf.longDoubleBinary.width / 8

theorem longDoubleBytes_le (pf : Platform) :
    pf.longDoubleBytes ≤ FFIType.longdouble.size pf := by
  cases h : pf.longDouble with
  | none => simp only [Platform.longDoubleBytes, Platform.longDoubleBinary, FFIType.size, h]; decide
  | some f =>
    simp only [Platform.longDoubleBytes, Platform.longDoubleBinary, FFIType.size, h]
    cases f <;> decide

theorem width_longDoubleBinary (pf : Platform) :
    pf.longDoubleBinary.width = 8 * pf.longDoubleBytes := by
  cases h : pf.longDouble with
  | none => simp only [Platform.longDoubleBytes, Platform.longDoubleBinary, h]; decide
  | some f =>
    simp only [Platform.longDoubleBytes, Platform.longDoubleBinary, h]
    cases f <;> decide

/-! ### Conversions -/

/-- What the conversions to `long double` depend on besides the value. -/
structure LongDoubles (pf : Platform) where
  /-- The direction in which numbers are rounded. -/
  rounding : Rounding
  /-- The point of the locale. -/
  decimalPoint : Char
  /-- The bytes behind those of a number. -/
  padding : List Byte → List Byte
  length_padding : ∀ bytes,
    (padding bytes).length = FFIType.longdouble.size pf - pf.longDoubleBytes

namespace LongDoubles

/-- Numbers are rounded to the next one, the locale is the C locale, and zeros follow a number. -/
def nearest (pf : Platform) : LongDoubles pf where
  rounding := .tonearest
  decimalPoint := '.'
  padding _ := List.replicate _ 0
  length_padding _ := List.length_replicate ..

variable {pf : Platform} (ld : LongDoubles pf)

/-- The conversion from `double` to `long double`, by the bits of both. -/
def ofDouble (value : BitVec 64) : ℕ :=
  match pf.longDouble with
  | none => value.toNat
  | some _ =>
    ((BinaryFormat.binary64.decode value.toNat).convert pf.longDoubleBinary ld.rounding).encode

/-- `strtold`, of a decimal numeral. -/
def strtold (text : List Char) : Binary pf.longDoubleBinary :=
  let d := scanDecimal ld.decimalPoint text
  pf.longDoubleBinary.round ld.rounding d.negative d.magnitude

/-- The bytes of a `long double` in memory, by its bits. -/
def image (bits : ℕ) : List Byte :=
  let bytes := pf.nativeOrder.arrange
    (leBytes pf.longDoubleBytes (BitVec.ofNat (8 * pf.longDoubleBytes) bits))
  bytes ++ ld.padding bytes

def fromDouble (value : BitVec 64) : List Byte := ld.image (ld.ofDouble value)

def fromNumeral (value : Numeral) : List Byte := ld.image (ld.strtold value.text).encode

theorem length_image (bits : ℕ) : (ld.image bits).length = FFIType.longdouble.size pf := by
  have hle := longDoubleBytes_le pf
  rw [image, List.length_append, ld.length_padding, ByteOrder.length_arrange, length_leBytes]
  omega

theorem length_fromDouble (value : BitVec 64) :
    (ld.fromDouble value).length = FFIType.longdouble.size pf := ld.length_image _

end LongDoubles

/-! ### The native functions -/

/-- `jffi_encodeLongDouble`, for the bytes of `ld`: what becomes of the array, or what is thrown. -/
def jffi_encodeLongDouble (pf : Platform) (ld array : List Byte) (arrayOffset arrayLength : ℤ) :
    Except Exn (List Byte) :=
  if arrayLength ≠ FFIType.longdouble.size pf then .error .longDoubleSize
  else if Native.inRange arrayOffset arrayLength array.length then
    let offset := arrayOffset.toNat
    .ok (array.take offset ++ ld ++ array.drop (offset + ld.length))
  else .error .arrayIndexOutOfBounds

namespace Foreign

variable {pf : Platform} (ld : LongDoubles pf)

def longDoubleFromDouble (doubleValue : BitVec 64) (array : List Byte)
    (arrayOffset arrayLength : ℤ) : Except Exn (List Byte) :=
  jffi_encodeLongDouble pf (ld.image (ld.ofDouble doubleValue)) array arrayOffset arrayLength

/-- The characters of the string are ASCII, and its modified UTF-8 is the same. -/
def longDoubleFromString (str : List Char) (array : List Byte) (arrayOffset arrayLength : ℤ) :
    Except Exn (List Byte) :=
  jffi_encodeLongDouble pf (ld.image (ld.strtold str).encode) array arrayOffset arrayLength

end Foreign

/-! ### What is in the array -/

section Number

variable {pf : Platform} (ld : LongDoubles pf)

/-- `new byte[Type.LONGDOUBLE.size()]`. -/
def newLongDouble (pf : Platform) : List Byte := List.replicate (FFIType.longdouble.size pf) 0

theorem jffi_encodeLongDouble_new (bits : ℕ) :
    jffi_encodeLongDouble pf (ld.image bits) (newLongDouble pf) 0 (FFIType.longdouble.size pf) =
      .ok (ld.image bits) := by
  have hlen := ld.length_image bits
  have hrange : Native.inRange 0 (FFIType.longdouble.size pf) (newLongDouble pf).length := by
    rw [newLongDouble, List.length_replicate]
    exact ⟨le_refl 0, Int.natCast_nonneg _, by omega⟩
  rw [jffi_encodeLongDouble, if_neg (by simp), if_pos hrange]
  simp [newLongDouble, hlen]

theorem longDoubleFromDouble_eq (value : BitVec 64) :
    Foreign.longDoubleFromDouble ld value (newLongDouble pf) 0 (FFIType.longdouble.size pf) =
      .ok (ld.fromDouble value) :=
  jffi_encodeLongDouble_new ld _

theorem longDoubleFromString_eq (value : Numeral) :
    Foreign.longDoubleFromString ld value.text (newLongDouble pf) 0 (FFIType.longdouble.size pf) =
      .ok (ld.fromNumeral value) :=
  jffi_encodeLongDouble_new ld _

/-- What the bytes of a `long double` stand for. -/
def longDoubleOfBytes (pf : Platform) (bytes : List Byte) : Binary pf.longDoubleBinary :=
  pf.longDoubleBinary.decode (leNat (pf.nativeOrder.arrange (bytes.take pf.longDoubleBytes)))

theorem LongDoubles.longDoubleOfBytes_image {bits : ℕ} (h : bits < 2 ^ pf.longDoubleBinary.width) :
    longDoubleOfBytes pf (ld.image bits) = pf.longDoubleBinary.decode bits := by
  rw [width_longDoubleBinary] at h
  rw [longDoubleOfBytes, LongDoubles.image, List.take_left' (by simp),
    ByteOrder.arrange_arrange, leNat_leBytes_eq, BitVec.toNat_ofNat, Nat.mod_eq_of_lt h]

/-- A format other than `double` has its digits and its exponents. -/
theorem binary64_le (f : LongDoubleFormat) :
    BinaryFormat.binary64.precision ≤ f.binary.precision ∧
      f.binary.minExponent ≤ BinaryFormat.binary64.minExponent ∧
        BinaryFormat.binary64.maxExponent ≤ f.binary.maxExponent := by
  cases f <;> decide

/-- The bytes that are made of a finite `double` stand for a `long double` with the same sign and
the same magnitude. -/
theorem number_fromDouble {value : BitVec 64} {x : FiniteBinary .binary64}
    (h : BinaryFormat.binary64.decode value.toNat = .finite x) :
    ∃ y : FiniteBinary pf.longDoubleBinary,
      longDoubleOfBytes pf (ld.fromDouble value) = .finite y ∧ y.negative = x.negative ∧
        y.magnitude = x.magnitude := by
  have hwell := BinaryFormat.wellFormed_decode .binary64 rfl value.toNat
  rw [LongDoubles.fromDouble, LongDoubles.ofDouble]
  cases hpf : pf.longDouble with
  | none =>
    have hbinary : pf.longDoubleBinary = .binary64 := by rw [Platform.longDoubleBinary, hpf]; rfl
    have hwidth : value.toNat < 2 ^ pf.longDoubleBinary.width := by
      rw [hbinary]
      exact value.isLt
    dsimp only
    rw [ld.longDoubleOfBytes_image hwidth]
    clear hwidth
    revert hbinary
    generalize pf.longDoubleBinary = f
    rintro rfl
    exact ⟨x, h, rfl, rfl⟩
  | some f =>
    have hbinary : pf.longDoubleBinary = f.binary := by rw [Platform.longDoubleBinary, hpf]; rfl
    obtain ⟨hprecision, hmin, hmax⟩ := binary64_le f
    rw [← hbinary] at hprecision hmin hmax
    have hconvert := Binary.wellFormed_convert ld.rounding hprecision hwell
    dsimp only
    rw [ld.longDoubleOfBytes_image (Binary.encode_lt hconvert), Binary.decode_encode hconvert, h]
    exact Binary.convert_finite ld.rounding hprecision hmin hmax x

/-- **A number that was printed** is rounded to a `long double`, if the point of the locale is the
one it was printed with. -/
theorem number_fromNumeral (h : ld.decimalPoint = '.') (value : Numeral) :
    longDoubleOfBytes pf (ld.fromNumeral value) =
      pf.longDoubleBinary.round ld.rounding value.negative value.decimal.magnitude := by
  have hnonneg : 0 ≤ value.decimal.magnitude := by
    rw [Decimal.magnitude]
    positivity
  have hwell := pf.longDoubleBinary.wellFormed_round ld.rounding value.negative hnonneg
  rw [LongDoubles.fromNumeral, LongDoubles.strtold, h, value.scanDecimal_text]
  exact (ld.longDoubleOfBytes_image (Binary.encode_lt hwell)).trans (Binary.decode_encode hwell)

end Number

end Jffi
