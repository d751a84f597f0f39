import Jffi.Lib.Printf
import Jffi.LongDoubles
import Jffi.ZeroTerminated

/-!
# `long double` as text

The extended format of the x87: a significand of 64 bits and an exponent of 15. `LongDouble.c`
prints a number with 35 digits to a buffer of 256 bytes, and does not say how large the buffer is.

Rounding is correct and goes in the direction that is set.

## Main definitions

* `LongDouble`, `LongDouble.ofBytes` — the numbers, and where they lie in a Java array
* `sprintf` — the text of a number
* `Fits` — the texts of the three functions fit the buffer
* `Printable` — what lies between `-10 ^ 218` and `10 ^ 219`

## Main results

* `ofBytes_eq`, `ofBytes_fromDouble` — the bytes that are read are those that were written
* `jffi_longDoubleToString_isSome_iff` — the functions have an outcome when the text fits
* `plainDigits_lt_iff` — how many digits the plain text has before the point
* `fits_iff` — the plain text decides: that of the other functions always fits
-/

namespace Jffi

/-! ### Numbers -/

/-- `significand * 2 ^ exponent`, with a sign. -/
structure FiniteLongDouble where
  negative : Bool
  significand : ℕ
  exponent : ℤ
  significand_lt : significand < 2 ^ 64
  le_exponent : -16445 ≤ exponent
  exponent_le : exponent ≤ 16320
  deriving DecidableEq, Repr

namespace FiniteLongDouble

variable (x : FiniteLongDouble)

/-- The value without its sign. -/
def magnitude : ℚ := x.significand * 2 ^ x.exponent

def value : ℚ := if x.negative then -x.magnitude else x.magnitude

end FiniteLongDouble

inductive LongDouble
  | finite (x : FiniteLongDouble)
  | infinity (negative : Bool)
  | nan (negative : Bool)
  deriving DecidableEq, Repr

/-- The first ten bytes of a `long double`. The two lowest exponents are the same. -/
def LongDouble.ofBytes (bytes : List Byte) : LongDouble :=
  let significand := leNat (bytes.take 8)
  let word := leNat ((bytes.drop 8).take 2)
  let negative := decide (2 ^ 15 ≤ word)
  if h : word % 2 ^ 15 = 2 ^ 15 - 1 then
    if significand % 2 ^ 63 = 0 then .infinity negative else .nan negative
  else
    .finite
      { negative := negative
        significand := significand
        exponent := max (word % 2 ^ 15 : ℕ) 1 - 16446
        significand_lt := by
          have hlt := leNat_lt (bytes.take 8)
          have hle : 256 ^ (bytes.take 8).length ≤ 256 ^ 8 :=
            Nat.pow_le_pow_right (by omega) (List.length_take_le 8 bytes)
          exact hlt.trans_le hle
        le_exponent := by omega
        exponent_le := by omega }

/-! ### The bytes of a `double` that was converted -/

/-- A number of the extended format. -/
def LongDouble.ofBinary : Binary .extended80 → LongDouble
  | .finite x =>
    .finite
      { negative := x.negative
        significand := x.significand
        exponent := x.exponent
        significand_lt := x.significand_lt
        le_exponent := le_trans (by decide) x.le_exponent
        exponent_le := x.exponent_le.trans (by decide) }
  | .infinity negative => .infinity negative
  | .nan negative _ => .nan negative

theorem decode_extended80 {significand word : ℕ} (hsignificand : significand < 2 ^ 64)
    (hword : word < 2 ^ 16) :
    BinaryFormat.extended80.decode (significand + 2 ^ 64 * word) =
      BinaryFormat.extended80.ofFields (decide (2 ^ 15 ≤ word)) (word % 2 ^ 15) significand
        (Nat.mod_lt _ (Nat.two_pow_pos _)) := by
  have hpack : significand + 2 ^ 64 * word =
      BinaryFormat.extended80.pack (decide (2 ^ 15 ≤ word)) (word % 2 ^ 15) significand := by
    have hsign : word % 2 ^ 15 + 2 ^ 15 * (decide (2 ^ 15 ≤ word)).toNat = word := by
      by_cases h : 2 ^ 15 ≤ word
      · rw [decide_eq_true h, Bool.toNat_true]
        omega
      · rw [decide_eq_false h, Bool.toNat_false]
        omega
    change _ = significand + 2 ^ 64 * (word % 2 ^ 15 + 2 ^ 15 * (decide (2 ^ 15 ≤ word)).toNat)
    rw [hsign]
  rw [hpack]
  exact BinaryFormat.decode_pack _ _ hsignificand

/-- The bytes that are read are those of the extended format. -/
theorem LongDouble.ofBytes_eq {bytes : List Byte} (h : 8 ≤ bytes.length) :
    LongDouble.ofBytes bytes =
      .ofBinary (BinaryFormat.extended80.decode (leNat (bytes.take 10))) := by
  have hlow : (bytes.take 8).length = 8 := by
    rw [List.length_take]
    omega
  have hpow : 256 ^ 8 = 2 ^ 64 := by decide
  have hhigh : ((bytes.drop 8).take 2).length ≤ 2 := List.length_take_le 2 _
  have hsignificand := leNat_lt (bytes.take 8)
  rw [hlow, hpow] at hsignificand
  have hword : leNat ((bytes.drop 8).take 2) < 2 ^ 16 :=
    (leNat_lt _).trans_le (Nat.pow_le_pow_right (by omega) hhigh)
  have hsplit : leNat (bytes.take 10) =
      leNat (bytes.take 8) + 2 ^ 64 * leNat ((bytes.drop 8).take 2) := by
    rw [show 10 = 8 + 2 from rfl, List.take_add, leNat_append, hlow, hpow]
  rw [hsplit, decode_extended80 hsignificand hword]
  by_cases hspecial : leNat ((bytes.drop 8).take 2) % 2 ^ 15 = 2 ^ 15 - 1
  · refine (dif_pos hspecial).trans ((congrArg ofBinary (dif_pos hspecial)).trans ?_).symm
    change ofBinary (if leNat (bytes.take 8) % 2 ^ 63 = 0 then _ else _) = _
    split <;> rfl
  · refine (dif_neg hspecial).trans ((congrArg ofBinary (dif_neg hspecial)).trans ?_).symm
    have hmin : BinaryFormat.extended80.minExponent = -16445 := by decide
    change LongDouble.finite (.mk _ (leNat (bytes.take 8) % 2 ^ 64)
      (BinaryFormat.extended80.minExponent + _) _ _ _) = _
    congr 2
    · exact Nat.mod_eq_of_lt hsignificand
    · rw [hmin]
      omega

/-- A `double` that was put as a `long double` is read back from its bytes with its value, where the
format is the extended one. -/
theorem ofBytes_fromDouble {pf : Platform} {ld : LongDoubles pf} {f : LongDoubleFormat}
    (hf : pf.longDouble = some f) (hextended : f.isExtended = true) {value : BitVec 64}
    {x : FiniteBinary .binary64} (h : BinaryFormat.binary64.decode value.toNat = .finite x) :
    ∃ y : FiniteLongDouble, LongDouble.ofBytes (ld.fromDouble value) = .finite y ∧
      y.negative = x.negative ∧ y.magnitude = x.magnitude := by
  have hlittle : pf.nativeOrder = .little := pf.x86_little (pf.extended_x86 f hf hextended)
  have hbinary : pf.longDoubleBinary = .extended80 := by
    rw [Platform.longDoubleBinary, hf]
    cases f with
    | binary128 => cases hextended
    | _ => rfl
  have hbytes : pf.longDoubleBytes = 10 := by
    rw [Platform.longDoubleBytes, hbinary]
    decide
  have hlength : 8 ≤ (ld.fromDouble value).length := by
    have hle := longDoubleBytes_le pf
    rw [ld.length_fromDouble]
    omega
  obtain ⟨y, hy, hnegative, hmagnitude⟩ := number_fromDouble ld h
  rw [longDoubleOfBytes, hbytes, hlittle] at hy
  rw [LongDouble.ofBytes_eq hlength]
  revert y
  rw [hbinary]
  intro y hy hnegative hmagnitude
  have hdecode : BinaryFormat.extended80.decode (leNat ((ld.fromDouble value).take 10)) =
      .finite y := hy
  rw [hdecode]
  exact ⟨_, rfl, hnegative, hmagnitude⟩

/-! ### Text -/

/-- A conversion with a precision. -/
inductive Format
  | e (precision : ℕ)
  | f (precision : ℕ)
  | g (precision : ℕ)
  deriving DecidableEq, Repr

/-- What is printed for the magnitude of a number. -/
def Format.digits (fmt : Format) (r : Rounding) (x : FiniteLongDouble) : List Char :=
  match fmt with
  | .e p => styleE r x.negative p x.magnitude
  | .f p => styleF r x.negative p x.magnitude
  | .g p => styleG r x.negative p x.magnitude

def sign (negative : Bool) : List Char := if negative then ['-'] else []

/-- `sprintf`, without the `NUL`. -/
def sprintf (r : Rounding) (fmt : Format) : LongDouble → List Char
  | .finite x => sign x.negative ++ fmt.digits r x
  | .infinity negative => sign negative ++ ['i', 'n', 'f']
  | .nan negative => sign negative ++ ['n', 'a', 'n']

/-- `sizeof(tmp)`. -/
def LongDouble.bufferSize : ℕ := 256

/-- `0.0`. -/
def LongDouble.zero : LongDouble :=
  .finite ⟨false, 0, -16445, by decide, by decide, by decide⟩

/-- The message of the `RuntimeException`. -/
def sizeMessage : String := "array size != sizeof(long double)"

/-- `jffi_decodeLongDouble`. Outside of the array nothing is read, and `ld` has no value. -/
def jffi_decodeLongDouble (sizeofLongDouble : ℕ) (array : List Byte)
    (arrayOffset arrayLength : ℤ) : Option (Option String × LongDouble) :=
  if arrayLength ≠ sizeofLongDouble then some (some sizeMessage, .zero)
  else if Native.inRange arrayOffset arrayLength array.length then
    some (none, .ofBytes (region array arrayOffset arrayLength))
  else none

/-- `jffi_longDoubleToString`: what is thrown, and the text. Nothing is known of what is written
past the end of `tmp`. -/
def jffi_longDoubleToString (r : Rounding) (sizeofLongDouble : ℕ) (array : List Byte)
    (arrayOffset arrayLength : ℤ) (fmt : Format) : Option (Option String × List Char) := do
  let (thrown, ld) ← jffi_decodeLongDouble sizeofLongDouble array arrayOffset arrayLength
  let text := sprintf r fmt ld
  if text.length + 1 ≤ LongDouble.bufferSize then some (thrown, text) else none

/-- `"%.35Le"`. -/
def engineeringFormat : Format := .e 35

/-- `"%.35Lf"`. -/
def plainFormat : Format := .f 35

/-- `"%.35Lg"`. -/
def generalFormat : Format := .g 35

namespace Foreign

def longDoubleToEngineeringString (r : Rounding) (sizeofLongDouble : ℕ) (array : List Byte)
    (arrayOffset arrayLength : ℤ) : Option (Option String × List Char) :=
  jffi_longDoubleToString r sizeofLongDouble array arrayOffset arrayLength engineeringFormat

def longDoubleToPlainString (r : Rounding) (sizeofLongDouble : ℕ) (array : List Byte)
    (arrayOffset arrayLength : ℤ) : Option (Option String × List Char) :=
  jffi_longDoubleToString r sizeofLongDouble array arrayOffset arrayLength plainFormat

def longDoubleToString (r : Rounding) (sizeofLongDouble : ℕ) (array : List Byte)
    (arrayOffset arrayLength : ℤ) : Option (Option String × List Char) :=
  jffi_longDoubleToString r sizeofLongDouble array arrayOffset arrayLength generalFormat

end Foreign

/-- The text fits the buffer, with its `NUL`. -/
def FitsBuffer (r : Rounding) (fmt : Format) (x : LongDouble) : Prop :=
  (sprintf r fmt x).length + 1 ≤ LongDouble.bufferSize

instance (r : Rounding) (fmt : Format) (x : LongDouble) : Decidable (FitsBuffer r fmt x) := by
  unfold FitsBuffer; infer_instance

/-- The texts of the three functions fit the buffer. -/
structure Fits (r : Rounding) (x : LongDouble) : Prop where
  engineering : FitsBuffer r engineeringFormat x
  plain : FitsBuffer r plainFormat x
  general : FitsBuffer r generalFormat x

/-- A number that is not too large to be printed digit by digit. -/
def Printable : LongDouble → Prop
  | .finite x => -10 ^ 218 < x.value ∧ x.value < 10 ^ 219
  | .infinity _ | .nan _ => True

variable {r : Rounding}

/-- The functions have a defined outcome if and only if the text of the number fits their buffer. -/
theorem jffi_longDoubleToString_isSome_iff {size : ℕ} {array : List Byte} {offset : ℤ}
    (fmt : Format) (h : Native.inRange offset size array.length) :
    (jffi_longDoubleToString r size array offset size fmt).isSome ↔
      FitsBuffer r fmt (.ofBytes (region array offset size)) := by
  rw [jffi_longDoubleToString, jffi_decodeLongDouble, if_neg (by simp), if_pos h,
    Option.bind_eq_bind, Option.bind_some]
  dsimp only
  split
  case isTrue hfits => exact iff_of_true rfl hfits
  case isFalse hfits => exact iff_of_false (by simp) hfits

/-! ### What is large -/

namespace FiniteLongDouble

variable (x : FiniteLongDouble)

theorem magnitude_nonneg : 0 ≤ x.magnitude := by
  rw [magnitude]
  positivity

/-- A number is whole, or it is less than `2 ^ 64`, since its significand has 64 bits. -/
theorem whole_or_lt : (∃ n : ℕ, x.magnitude = n) ∨ x.magnitude < 2 ^ 64 := by
  rcases Int.le_total 0 x.exponent with h | h
  · obtain ⟨k, hk⟩ := Int.eq_ofNat_of_zero_le h
    refine .inl ⟨x.significand * 2 ^ k, ?_⟩
    rw [magnitude, hk]
    push_cast
    rw [zpow_natCast]
  · refine .inr ?_
    have hle : (2 : ℚ) ^ x.exponent ≤ 1 := zpow_le_one_of_nonpos₀ (by norm_num) h
    have hlt : (x.significand : ℚ) < 2 ^ 64 := by exact_mod_cast x.significand_lt
    calc x.magnitude = x.significand * 2 ^ x.exponent := rfl
      _ ≤ x.significand * 1 := by gcongr
      _ < 2 ^ 64 := by rwa [mul_one]

/-- **The digits before the point**: no number this large is rounded up to the next power of ten. -/
theorem plainDigits_lt_iff {k : ℕ} (hk : 20 ≤ k) :
    r.apply x.negative (x.magnitude * 10 ^ 35) / 10 ^ 35 < 10 ^ k ↔ x.magnitude < 10 ^ k := by
  rw [Nat.div_lt_iff_lt_mul (Nat.pow_pos (by omega)), ← Nat.pow_add]
  constructor
  · intro h
    by_contra hge
    rw [not_lt] at hge
    refine absurd (Rounding.le_apply r x.negative (n := 10 ^ (k + 35)) ?_) (Nat.not_le.mpr h)
    push_cast
    rw [pow_add]
    gcongr
  · intro h
    rcases x.whole_or_lt with ⟨n, hn⟩ | hlt
    · have hwhole : x.magnitude * 10 ^ 35 = ((n * 10 ^ 35 : ℕ) : ℚ) := by
        rw [hn]
        push_cast
        rfl
      have hnlt : n < 10 ^ k := by
        rw [hn] at h
        exact_mod_cast h
      rw [hwhole, Rounding.apply_natCast, Nat.pow_add]
      exact Nat.mul_lt_mul_of_pos_right hnlt (Nat.pow_pos (by omega))
    · have hle : r.apply x.negative (x.magnitude * 10 ^ 35) ≤ 2 ^ 64 * 10 ^ 35 := by
        apply Rounding.apply_le
        calc x.magnitude * 10 ^ 35 ≤ 2 ^ 64 * 10 ^ 35 :=
              mul_le_mul_of_nonneg_right hlt.le (by positivity)
          _ = ((2 ^ 64 * 10 ^ 35 : ℕ) : ℚ) := by norm_num
      calc r.apply x.negative (x.magnitude * 10 ^ 35) ≤ 2 ^ 64 * 10 ^ 35 := hle
        _ < 10 ^ (20 + 35) := by norm_num
        _ ≤ 10 ^ (k + 35) := Nat.pow_le_pow_right (by omega) (by omega)

/-- The magnitude is zero, or lies between powers of ten that the exponents of the format allow. -/
theorem magnitude_bounds {k : ℕ} (hk : 16445 ≤ 3 * k) :
    x.magnitude = 0 ∨ (10 : ℚ) ^ (-k : ℤ) ≤ x.magnitude ∧ x.magnitude < 10 ^ k := by
  have height : (2 : ℚ) ^ (3 * k) ≤ 10 ^ k := by
    rw [pow_mul]
    exact pow_le_pow_left₀ (by norm_num) (by norm_num) k
  have hlow := x.le_exponent
  have hhigh := x.exponent_le
  rcases Nat.eq_zero_or_pos x.significand with hzero | hpos
  · refine .inl ?_
    rw [magnitude, hzero, Nat.cast_zero, zero_mul]
  · have hone : (1 : ℚ) ≤ x.significand := by exact_mod_cast hpos
    have hlt : (x.significand : ℚ) < 2 ^ 64 := by exact_mod_cast x.significand_lt
    refine .inr ⟨?_, ?_⟩
    · calc (10 : ℚ) ^ (-k : ℤ) = (10 ^ k)⁻¹ := by rw [zpow_neg, zpow_natCast]
        _ ≤ (2 ^ (3 * k))⁻¹ := inv_anti₀ (by positivity) height
        _ = 2 ^ (-(3 * k : ℕ) : ℤ) := by rw [zpow_neg, zpow_natCast]
        _ ≤ 2 ^ x.exponent := zpow_le_zpow_right₀ (by norm_num) (by omega)
        _ ≤ x.significand * 2 ^ x.exponent := le_mul_of_one_le_left (by positivity) hone
    · calc x.magnitude = x.significand * 2 ^ x.exponent := rfl
        _ < 2 ^ 64 * 2 ^ x.exponent := mul_lt_mul_of_pos_right hlt (by positivity)
        _ = 2 ^ (64 + x.exponent) := by
            rw [zpow_add₀ (by norm_num)]
            norm_cast
        _ ≤ 2 ^ ((3 * k : ℕ) : ℤ) := zpow_le_zpow_right₀ (by norm_num) (by omega)
        _ = 2 ^ (3 * k) := zpow_natCast _ _
        _ ≤ 10 ^ k := height

/-- The exponent in base ten of a number in scientific notation has at most four digits. -/
theorem natAbs_exponent_lt (p : ℕ) :
    (scientific r x.negative p x.magnitude).2.natAbs < 10 ^ 4 :=
  (natAbs_scientific_le r x.negative (k := 9998) (x.magnitude_bounds (by omega))).trans_lt
  (by omega)

/-- Whether a number is printable can be said by its value, since a minus sign costs a digit. -/
theorem printable_iff : -10 ^ 218 < x.value ∧ x.value < 10 ^ 219 ↔
    x.magnitude < 10 ^ (if x.negative then 218 else 219) := by
  have hnonneg := x.magnitude_nonneg
  rw [value]
  cases x.negative with
  | true =>
    rw [if_pos rfl, if_pos rfl, neg_lt_neg_iff]
    exact and_iff_left (lt_of_le_of_lt (neg_nonpos.mpr hnonneg) (by positivity))
  | false =>
    rw [if_neg (by simp), if_neg (by simp)]
    exact and_iff_right (lt_of_lt_of_le (neg_neg_of_pos (by positivity)) hnonneg)

end FiniteLongDouble

/-! ### What fits -/

theorem length_sign (negative : Bool) : (sign negative).length = if negative then 1 else 0 := by
  cases negative <;> rfl

/-- The texts without digits, which infinities have, are short enough for any of the formats. -/
theorem fitsBuffer_infinity (fmt : Format) (negative : Bool) :
    FitsBuffer r fmt (.infinity negative) := by
  cases negative <;> exact Nat.le_of_ble_eq_true rfl

theorem fitsBuffer_nan (fmt : Format) (negative : Bool) : FitsBuffer r fmt (.nan negative) := by
  cases negative <;> exact Nat.le_of_ble_eq_true rfl

/-- The text in plain notation fits the buffer if and only if the number is printable. -/
theorem fitsBuffer_plain_iff (x : LongDouble) : FitsBuffer r plainFormat x ↔ Printable x := by
  cases x with
  | finite x =>
    have hsign := length_sign x.negative
    have hlen := length_styleF r x.negative (q := x.magnitude) (show 0 < 35 by omega)
    rw [Printable, x.printable_iff, ← x.plainDigits_lt_iff (r := r) (by split <;> omega),
      ← Nat.length_toDigits_le_iff (by omega) (by split <;> omega), FitsBuffer, sprintf,
      plainFormat, Format.digits, List.length_append, hlen, hsign, LongDouble.bufferSize]
    split <;> omega
  | infinity negative => exact iff_of_true (fitsBuffer_infinity _ negative) trivial
  | nan negative => exact iff_of_true (fitsBuffer_nan _ negative) trivial

theorem fitsBuffer_engineering (x : LongDouble) : FitsBuffer r engineeringFormat x := by
  cases x with
  | finite x =>
    have hsign := length_sign x.negative
    have hlen := length_styleE_le r x.negative (p := 35) x.magnitude_nonneg (by omega)
      (x.natAbs_exponent_lt 35)
    rw [FitsBuffer, sprintf, engineeringFormat, Format.digits, List.length_append, hsign,
      LongDouble.bufferSize]
    split <;> omega
  | infinity negative => exact fitsBuffer_infinity _ negative
  | nan negative => exact fitsBuffer_nan _ negative

theorem fitsBuffer_general (x : LongDouble) : FitsBuffer r generalFormat x := by
  cases x with
  | finite x =>
    have hsign := length_sign x.negative
    have hlen := length_styleG_le r x.negative (p := 35) x.magnitude_nonneg (by omega)
      (by omega) (x.natAbs_exponent_lt 34)
    rw [FitsBuffer, sprintf, generalFormat, Format.digits, List.length_append, hsign,
      LongDouble.bufferSize]
    split <;> omega
  | infinity negative => exact fitsBuffer_infinity _ negative
  | nan negative => exact fitsBuffer_nan _ negative

/-- **The texts fit** when the number is infinite or not a number, or less than `10 ^ 219` and more
than `-10 ^ 218`. -/
theorem fits_iff (r : Rounding) (x : LongDouble) : Fits r x ↔ Printable x := by
  constructor
  · intro h
    exact (fitsBuffer_plain_iff x).mp h.plain
  · intro h
    exact ⟨fitsBuffer_engineering x, (fitsBuffer_plain_iff x).mpr h, fitsBuffer_general x⟩

/-- The largest number has 4933 digits before the point, and its plain text does not fit the buffer.
-/
theorem not_fits_max : ¬Fits .tonearest
    (.finite ⟨false, 2 ^ 64 - 1, 16320, by decide, by decide, by decide⟩) := by
  intro h
  have hlt := ((fitsBuffer_plain_iff _).mp h.plain).2
  have hle : (10 : ℚ) ^ 219 ≤ ((2 ^ 64 - 1 : ℕ) : ℚ) * 2 ^ (16320 : ℤ) := by
    calc (10 : ℚ) ^ 219 ≤ 16 ^ 219 := pow_le_pow_left₀ (by norm_num) (by norm_num) 219
      _ = 2 ^ (4 * 219) := by rw [pow_mul]; norm_num
      _ = 2 ^ ((4 * 219 : ℕ) : ℤ) := (zpow_natCast _ _).symm
      _ ≤ 2 ^ (16320 : ℤ) := zpow_le_zpow_right₀ (by norm_num) (by omega)
      _ ≤ ((2 ^ 64 - 1 : ℕ) : ℚ) * 2 ^ (16320 : ℤ) :=
        le_mul_of_one_le_left (zpow_nonneg (by norm_num) _) (by norm_num)
  exact absurd (hle.trans_lt hlt) (lt_irrefl _)

end Jffi
