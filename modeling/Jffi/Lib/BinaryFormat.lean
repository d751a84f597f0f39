import Jffi.Lib.Rounding
import Mathlib.Algebra.Order.Field.Power
import Mathlib.Data.Int.Log
import Mathlib.Tactic.FieldSimp
import Mathlib.Tactic.Positivity
import Mathlib.Tactic.Ring

/-!
# Binary floating-point formats

A format is given by how many binary digits a significand has, how many bits there are for the
exponent, and whether the leading digit of the significand is stored. Numbers are rounded to a
format in the direction that is set, and have an encoding as a whole number: the sign, the biased
exponent, and the digits that are stored. The smallest exponent is that of the subnormal numbers
too.

## Main definitions

* `BinaryFormat` — the formats, and the exponents they have
* `Binary` — a number of a format, an infinity, or not a number
* `BinaryFormat.round` — the number of the format next to a rational one
* `Binary.encode`, `BinaryFormat.decode` — the bits
* `Binary.convert` — from one format to another

## Main results

* `decode_encode` — the encoding of a number in its normal form stands for it
* `round_of_representable`, `wellFormed_round` — what the format has is not rounded, and what is
  rounded is in its normal form
* `convert_finite` — a number keeps its value in a wider format
-/

namespace Jffi

structure BinaryFormat where
  /-- The digits of a significand. -/
  precision : ℕ
  exponentBits : ℕ
  /-- The leading digit of a significand is stored. -/
  explicit : Bool
  two_le_precision : 2 ≤ precision
  two_le_exponentBits : 2 ≤ exponentBits
  deriving DecidableEq

namespace BinaryFormat

variable (f : BinaryFormat)

/-- The bits for the digits that are stored. -/
def storedBits : ℕ := if f.explicit then f.precision else f.precision - 1

/-- The bits of an encoding. -/
def width : ℕ := f.storedBits + f.exponentBits + 1

def bias : ℕ := 2 ^ (f.exponentBits - 1) - 1

/-- The exponent of the last digit, at its smallest. -/
def minExponent : ℤ := 2 - f.bias - f.precision

/-- The exponent of the last digit, at its largest. -/
def maxExponent : ℤ := f.minExponent + (2 ^ f.exponentBits - 3 : ℕ)

theorem minExponent_le_maxExponent : f.minExponent ≤ f.maxExponent := by
  rw [maxExponent]
  omega

end BinaryFormat

/-! ### Numbers -/

/-- `significand * 2 ^ exponent`, with a sign. -/
structure FiniteBinary (f : BinaryFormat) where
  negative : Bool
  significand : ℕ
  exponent : ℤ
  significand_lt : significand < 2 ^ f.precision
  le_exponent : f.minExponent ≤ exponent
  exponent_le : exponent ≤ f.maxExponent
  deriving DecidableEq

namespace FiniteBinary

variable {f : BinaryFormat} (x : FiniteBinary f)

/-- The value without its sign. -/
def magnitude : ℚ := x.significand * 2 ^ x.exponent

/-- The leading digit is one, or the exponent is the smallest. -/
def Normal : Prop := x.significand < 2 ^ (f.precision - 1) → x.exponent = f.minExponent

theorem magnitude_nonneg : 0 ≤ x.magnitude := by
  rw [magnitude]
  positivity

end FiniteBinary

/-- What a format has an encoding for. -/
inductive Binary (f : BinaryFormat)
  | finite (x : FiniteBinary f)
  | infinity (negative : Bool)
  | nan (negative : Bool) (payload : ℕ)
  deriving DecidableEq

namespace BinaryFormat

variable (f : BinaryFormat)

/-- The number of the largest magnitude. -/
def largest (negative : Bool) : FiniteBinary f where
  negative := negative
  significand := 2 ^ f.precision - 1
  exponent := f.maxExponent
  significand_lt := Nat.sub_lt (Nat.two_pow_pos _) Nat.one_pos
  le_exponent := f.minExponent_le_maxExponent
  exponent_le := le_refl _

/-! ### Rounding -/

/-- What is too large becomes infinite, unless it is rounded towards zero. -/
def overflow (r : Rounding) (negative : Bool) : Binary f :=
  match r, negative with
  | .tonearest, _ | .upward, false | .downward, true => .infinity negative
  | .towardzero, _ | .upward, true | .downward, false => .finite (f.largest negative)

/-- The exponent of the last digit that the format has for a number. -/
def lastExponent (q : ℚ) : ℤ :=
  if q = 0 then f.minExponent else max (Int.log 2 q + 1 - f.precision) f.minExponent

theorem minExponent_le_lastExponent (q : ℚ) : f.minExponent ≤ f.lastExponent q := by
  rw [lastExponent]
  split
  · exact le_refl _
  · exact le_max_right _ _

/-- The number of the format for a magnitude. One more digit, when all of them are rounded up,
moves the exponent. -/
def round (r : Rounding) (negative : Bool) (q : ℚ) : Binary f :=
  let x := f.lastExponent q
  let n := r.apply negative (q / 2 ^ x)
  if hn : n < 2 ^ f.precision then
    if hx : x ≤ f.maxExponent then
      .finite ⟨negative, n, x, hn, f.minExponent_le_lastExponent q, hx⟩
    else f.overflow r negative
  else if hx : x + 1 ≤ f.maxExponent then
    .finite
      { negative := negative
        significand := 2 ^ (f.precision - 1)
        exponent := x + 1
        significand_lt := Nat.pow_lt_pow_right (by omega) (by have := f.two_le_precision; omega)
        le_exponent := (f.minExponent_le_lastExponent q).trans (by omega)
        exponent_le := hx }
  else f.overflow r negative

/-! ### Bits -/

/-- The three fields side by side. -/
def pack (negative : Bool) (field stored : ℕ) : ℕ :=
  stored + 2 ^ f.storedBits * (field + 2 ^ f.exponentBits * negative.toNat)

/-- The digits that are stored of a leading one. -/
def leading : ℕ := if f.explicit then 2 ^ (f.precision - 1) else 0

theorem pow_precision : 2 ^ f.precision = 2 ^ (f.precision - 1) + 2 ^ (f.precision - 1) := by
  have hp := f.two_le_precision
  rw [← Nat.two_mul, ← Nat.pow_succ', Nat.succ_eq_add_one, Nat.sub_add_cancel (by omega)]

/-- What the fields of sign, exponent and digits stand for. -/
def ofFields (negative : Bool) (field stored : ℕ) (hfield : field < 2 ^ f.exponentBits) :
    Binary f :=
  let fraction := stored % 2 ^ (f.precision - 1)
  if h : field = 2 ^ f.exponentBits - 1 then
    if fraction = 0 then .infinity negative else .nan negative fraction
  else
    .finite
      { negative := negative
        significand :=
          if f.explicit then stored % 2 ^ f.precision
          else if field = 0 then fraction else fraction + 2 ^ (f.precision - 1)
        exponent := f.minExponent + (field - 1 : ℕ)
        significand_lt := by
          have hpow := f.pow_precision
          have hfraction : fraction < 2 ^ (f.precision - 1) := Nat.mod_lt _ (Nat.two_pow_pos _)
          split
          · exact Nat.mod_lt _ (Nat.two_pow_pos _)
          · split <;> omega
        le_exponent := by omega
        exponent_le := by
          rw [maxExponent]
          omega }

/-- The number that a whole number encodes. -/
def decode (bits : ℕ) : Binary f :=
  f.ofFields (decide (bits / 2 ^ f.storedBits / 2 ^ f.exponentBits % 2 = 1))
    (bits / 2 ^ f.storedBits % 2 ^ f.exponentBits) (bits % 2 ^ f.storedBits)
    (Nat.mod_lt _ (Nat.two_pow_pos _))

end BinaryFormat

namespace Binary

variable {f g : BinaryFormat}

def negative : Binary f → Bool
  | .finite x => x.negative
  | .infinity negative | .nan negative _ => negative

/-- The biased exponent. -/
def field : Binary f → ℕ
  | .finite x =>
    if x.significand < 2 ^ (f.precision - 1) then 0 else (x.exponent - f.minExponent).toNat + 1
  | .infinity _ | .nan _ _ => 2 ^ f.exponentBits - 1

/-- The digits that are stored, which leave out the leading one where the format implies it. -/
def stored : Binary f → ℕ
  | .finite x => if f.explicit then x.significand else x.significand % 2 ^ (f.precision - 1)
  | .infinity _ => f.leading
  | .nan _ payload => f.leading + payload

def encode (x : Binary f) : ℕ := f.pack x.negative x.field x.stored

/-- The same number in another format. What is not a number becomes a quiet one and keeps the
leading digits of its payload. -/
def convert (g : BinaryFormat) (r : Rounding) : Binary f → Binary g
  | .finite x => g.round r x.negative x.magnitude
  | .infinity negative => .infinity negative
  | .nan negative payload =>
    .nan negative ((payload ||| 2 ^ (f.precision - 2)) * 2 ^ g.precision / 2 ^ f.precision)

/-- The number is in the form that its encoding stands for. -/
def WellFormed : Binary f → Prop
  | .finite x => x.Normal
  | .infinity _ => True
  | .nan _ payload => 0 < payload ∧ payload < 2 ^ (f.precision - 1)

end Binary

/-! ### Decoding what was encoded -/

namespace BinaryFormat

variable (f : BinaryFormat) {negative : Bool} {field stored : ℕ}

theorem pack_mod (hstored : stored < 2 ^ f.storedBits) :
    f.pack negative field stored % 2 ^ f.storedBits = stored := by
  rw [pack, Nat.add_mul_mod_self_left, Nat.mod_eq_of_lt hstored]

theorem pack_div (hstored : stored < 2 ^ f.storedBits) :
    f.pack negative field stored / 2 ^ f.storedBits =
      field + 2 ^ f.exponentBits * negative.toNat := by
  rw [pack, Nat.add_mul_div_left _ _ (Nat.two_pow_pos _), Nat.div_eq_of_lt hstored, Nat.zero_add]

/-- Fields that fit their widths are found again in the number they were packed into. -/
theorem decode_pack (hfield : field < 2 ^ f.exponentBits) (hstored : stored < 2 ^ f.storedBits) :
    f.decode (f.pack negative field stored) = f.ofFields negative field stored hfield := by
  have hmod : (field + 2 ^ f.exponentBits * negative.toNat) % 2 ^ f.exponentBits = field := by
    rw [Nat.add_mul_mod_self_left, Nat.mod_eq_of_lt hfield]
  have hdiv : (field + 2 ^ f.exponentBits * negative.toNat) / 2 ^ f.exponentBits =
      negative.toNat := by
    rw [Nat.add_mul_div_left _ _ (Nat.two_pow_pos _), Nat.div_eq_of_lt hfield, Nat.zero_add]
  have hsign : decide (negative.toNat % 2 = 1) = negative := by cases negative <;> rfl
  simp only [decode, f.pack_div hstored, f.pack_mod hstored, hmod, hdiv, hsign]

/-- There are exponents between that of the subnormal numbers and that of infinity. -/
theorem three_lt_pow_exponentBits : 3 < 2 ^ f.exponentBits := by
  have hpow := Nat.pow_le_pow_right (n := 2) (by omega) f.two_le_exponentBits
  omega

theorem storedBits_eq :
    f.storedBits = f.precision ∧ f.explicit = true ∨
      f.storedBits = f.precision - 1 ∧ f.explicit = false := by
  rw [storedBits]
  cases f.explicit <;> simp

/-- A fraction with the leading digit in front of it fits. -/
theorem leading_add_lt {fraction : ℕ} (h : fraction < 2 ^ (f.precision - 1)) :
    f.leading + fraction < 2 ^ f.storedBits := by
  have hpow := f.pow_precision
  rcases f.storedBits_eq with ⟨hbits, hexplicit⟩ | ⟨hbits, hexplicit⟩ <;>
    simp only [leading, hexplicit, hbits, if_true, Bool.false_eq_true, if_false] <;> omega

theorem leading_add_mod {fraction : ℕ} (h : fraction < 2 ^ (f.precision - 1)) :
    (f.leading + fraction) % 2 ^ (f.precision - 1) = fraction := by
  rw [leading]
  split
  · rw [Nat.add_mod_left, Nat.mod_eq_of_lt h]
  · rw [Nat.zero_add, Nat.mod_eq_of_lt h]

/-- The fields of a significand and an exponent stand for them. -/
theorem ofFields_finite (x : FiniteBinary f) (hfield : field + 1 < 2 ^ f.exponentBits)
    (hzero : field = 0 ↔ x.significand < 2 ^ (f.precision - 1))
    (hexponent : x.exponent = f.minExponent + (field - 1 : ℕ))
    (hstored : stored = if f.explicit then x.significand
      else x.significand % 2 ^ (f.precision - 1)) :
    f.ofFields x.negative field stored (by omega) = .finite x := by
  have hpow := f.pow_precision
  have hlt := x.significand_lt
  obtain ⟨negative, significand, exponent, _, _, _⟩ := x
  dsimp only at hzero hexponent hstored hlt
  have hne : field ≠ 2 ^ f.exponentBits - 1 := by omega
  simp only [ofFields, dif_neg hne, Binary.finite.injEq, FiniteBinary.mk.injEq, true_and, hstored,
    hexponent, and_true]
  cases f.explicit with
  | true => exact Nat.mod_eq_of_lt hlt
  | false =>
    simp only [Bool.false_eq_true, if_false, Nat.mod_mod, hzero]
    split
    · rename_i hsmall
      exact Nat.mod_eq_of_lt hsmall
    · rename_i hlarge
      rw [Nat.mod_eq_sub_mod (by omega), Nat.mod_eq_of_lt (by omega)]
      omega

theorem ofFields_infinity (h : 2 ^ f.exponentBits - 1 < 2 ^ f.exponentBits) :
    f.ofFields negative (2 ^ f.exponentBits - 1) f.leading h = .infinity negative := by
  have hfraction := @leading_add_mod f 0 (Nat.two_pow_pos _)
  rw [Nat.add_zero] at hfraction
  rw [ofFields, dif_pos rfl, if_pos hfraction]

theorem ofFields_nan {payload : ℕ} (h : 2 ^ f.exponentBits - 1 < 2 ^ f.exponentBits)
    (hpos : 0 < payload) (hlt : payload < 2 ^ (f.precision - 1)) :
    f.ofFields negative (2 ^ f.exponentBits - 1) (f.leading + payload) h =
      .nan negative payload := by
  rw [ofFields, dif_pos rfl, f.leading_add_mod hlt, if_neg (by omega)]

theorem pack_lt (hfield : field < 2 ^ f.exponentBits) (hstored : stored < 2 ^ f.storedBits) :
    f.pack negative field stored < 2 ^ f.width := by
  have hsign : field + 2 ^ f.exponentBits * negative.toNat < 2 ^ f.exponentBits * 2 := by
    cases negative <;> simp <;> omega
  rw [pack, width, Nat.add_assoc, Nat.pow_add, Nat.pow_succ]
  calc stored + 2 ^ f.storedBits * (field + 2 ^ f.exponentBits * negative.toNat)
      < 2 ^ f.storedBits * (field + 2 ^ f.exponentBits * negative.toNat + 1) := by
        rw [Nat.mul_succ]
        omega
    _ ≤ 2 ^ f.storedBits * (2 ^ f.exponentBits * 2) := Nat.mul_le_mul_left _ hsign

end BinaryFormat

namespace Binary

variable {f : BinaryFormat}

theorem field_lt (x : Binary f) : x.field < 2 ^ f.exponentBits := by
  have hthree := f.three_lt_pow_exponentBits
  cases x with
  | finite x =>
    have hmax := x.exponent_le
    rw [BinaryFormat.maxExponent] at hmax
    rw [field]
    split <;> omega
  | infinity negative => rw [field]; omega
  | nan negative payload => rw [field]; omega

theorem stored_lt {x : Binary f} (h : x.WellFormed) : x.stored < 2 ^ f.storedBits := by
  cases x with
  | finite x =>
    rw [stored]
    rcases f.storedBits_eq with ⟨hbits, hexplicit⟩ | ⟨hbits, hexplicit⟩ <;> rw [hbits, hexplicit]
    · exact x.significand_lt
    · exact Nat.mod_lt _ (Nat.two_pow_pos _)
  | infinity negative => exact f.leading_add_lt (Nat.two_pow_pos _)
  | nan negative payload => exact f.leading_add_lt h.2

theorem encode_lt {x : Binary f} (h : x.WellFormed) : x.encode < 2 ^ f.width :=
  f.pack_lt x.field_lt (stored_lt h)

/-- **A number is what its encoding stands for**, when it is in its normal form. -/
theorem decode_encode {x : Binary f} (h : x.WellFormed) : f.decode x.encode = x := by
  have hthree := f.three_lt_pow_exponentBits
  rw [encode, f.decode_pack x.field_lt (stored_lt h)]
  cases x with
  | finite x =>
    have hle := x.le_exponent
    have hmax := x.exponent_le
    rw [BinaryFormat.maxExponent] at hmax
    have hsmall : x.significand < 2 ^ (f.precision - 1) → x.exponent = f.minExponent := h
    refine f.ofFields_finite x ?_ ?_ ?_ rfl <;> rw [field]
    · split <;> omega
    · split <;> simp [*]
    · split
      · rw [hsmall ‹_›]
        simp
      · omega
  | infinity negative => exact f.ofFields_infinity _
  | nan negative payload => exact f.ofFields_nan _ h.1 h.2

end Binary

/-! ### Numbers that are not rounded -/

namespace BinaryFormat

variable (f : BinaryFormat) (r : Rounding) (negative : Bool) {q : ℚ}

/-- The digits of a number, up to the last one, are not too many. -/
theorem div_lastExponent_lt (hq : 0 ≤ q) : q / 2 ^ f.lastExponent q < 2 ^ f.precision := by
  rw [div_lt_iff₀ (by positivity), ← zpow_natCast, ← zpow_add₀ (by norm_num)]
  rcases hq.eq_or_lt with rfl | hpos
  · positivity
  · calc q < 2 ^ (Int.log 2 q + 1) := Int.lt_zpow_succ_log_self (by norm_num) q
      _ ≤ 2 ^ (f.precision + f.lastExponent q) := by
        refine zpow_le_zpow_right₀ (by norm_num) ?_
        rw [lastExponent, if_neg hpos.ne']
        omega

/-- They are as many as there can be, unless the exponent is the smallest. -/
theorem le_div_lastExponent (hq : 0 ≤ q) (h : f.minExponent < f.lastExponent q) :
    2 ^ (f.precision - 1) ≤ q / 2 ^ f.lastExponent q := by
  have hp := f.two_le_precision
  have hne : q ≠ 0 := by
    rintro rfl
    rw [lastExponent, if_pos rfl] at h
    exact lt_irrefl _ h
  have hpos : 0 < q := lt_of_le_of_ne hq hne.symm
  rw [lastExponent, if_neg hne] at h
  rw [le_div_iff₀ (by positivity), ← zpow_natCast, ← zpow_add₀ (by norm_num)]
  calc (2 : ℚ) ^ (((f.precision - 1 : ℕ) : ℤ) + f.lastExponent q) ≤ 2 ^ Int.log 2 q := by
        refine zpow_le_zpow_right₀ (by norm_num) ?_
        rw [lastExponent, if_neg hne]
        omega
    _ ≤ q := Int.zpow_log_le_self (by norm_num) hpos

/-- Rounding a number that is not negative gives one in normal form, an infinity or a zero. -/
theorem wellFormed_round (hq : 0 ≤ q) : (f.round r negative q).WellFormed := by
  have hpow := f.pow_precision
  have hlargest : (f.overflow r negative).WellFormed := by
    unfold overflow
    split <;> simp [Binary.WellFormed, FiniteBinary.Normal, largest] <;> omega
  simp only [round]
  split
  · split
    · intro hsmall
      dsimp only at hsmall ⊢
      by_contra hne
      have hle := f.le_div_lastExponent hq
        (lt_of_le_of_ne (f.minExponent_le_lastExponent q) (Ne.symm hne))
      have hn := Rounding.le_apply r negative
        (by exact_mod_cast hle : ((2 ^ (f.precision - 1) : ℕ) : ℚ) ≤ _)
      omega
    · exact hlargest
  · split
    · intro hsmall
      exact absurd hsmall (lt_irrefl _)
    · exact hlargest

/-- **What the format has is not rounded**: a significand and an exponent within its bounds give a
number of the same magnitude. -/
theorem round_of_representable {s : ℕ} {e : ℤ} (hs : s < 2 ^ f.precision)
    (hmin : f.minExponent ≤ e) (hmax : e ≤ f.maxExponent) :
    ∃ y : FiniteBinary f, f.round r negative (s * 2 ^ e) = .finite y ∧ y.negative = negative ∧
      y.magnitude = s * 2 ^ e := by
  have hq : (0 : ℚ) ≤ s * 2 ^ e := by positivity
  have hle : f.lastExponent (s * 2 ^ e) ≤ e := by
    rw [lastExponent]
    split
    · exact hmin
    · rename_i hne
      have hpos : (0 : ℚ) < s * 2 ^ e := lt_of_le_of_ne hq (Ne.symm hne)
      have hlog : Int.log 2 ((s : ℚ) * 2 ^ e) < f.precision + e := by
        rw [← Int.lt_zpow_iff_log_lt (by norm_num) hpos]
        have hcast : (s : ℚ) < 2 ^ f.precision := by exact_mod_cast hs
        calc (s : ℚ) * 2 ^ e < 2 ^ f.precision * 2 ^ e := by gcongr
          _ = ((2 : ℕ) : ℚ) ^ ((f.precision : ℤ) + e) := by
            rw [zpow_add₀ (by norm_num), zpow_natCast]
            norm_num
      omega
  obtain ⟨k, hk⟩ := Int.eq_ofNat_of_zero_le (sub_nonneg.mpr hle)
  have hwhole : (s : ℚ) * 2 ^ e / 2 ^ f.lastExponent (s * 2 ^ e) = ((s * 2 ^ k : ℕ) : ℚ) := by
    rw [mul_div_assoc, ← zpow_sub₀ (by norm_num), hk, zpow_natCast]
    push_cast
    rfl
  have hlt := f.div_lastExponent_lt hq
  rw [hwhole] at hlt
  have hfits : s * 2 ^ k < 2 ^ f.precision := by exact_mod_cast hlt
  simp only [round, hwhole, Rounding.apply_natCast]
  rw [dif_pos hfits, dif_pos (hle.trans hmax)]
  refine ⟨_, rfl, rfl, ?_⟩
  change ((s * 2 ^ k : ℕ) : ℚ) * 2 ^ f.lastExponent (s * 2 ^ e) = s * 2 ^ e
  rw [← hwhole]
  exact div_mul_cancel₀ _ (by positivity)

end BinaryFormat

namespace Binary

variable {f g : BinaryFormat} (r : Rounding)

/-- **A number keeps its value** in a format that has its digits and its exponents. -/
theorem convert_finite (hprecision : f.precision ≤ g.precision)
    (hmin : g.minExponent ≤ f.minExponent) (hmax : f.maxExponent ≤ g.maxExponent)
    (x : FiniteBinary f) :
    ∃ y : FiniteBinary g, (Binary.finite x).convert g r = .finite y ∧ y.negative = x.negative ∧
      y.magnitude = x.magnitude :=
  g.round_of_representable r x.negative
    (x.significand_lt.trans_le (Nat.pow_le_pow_right (by omega) hprecision))
    (hmin.trans x.le_exponent) (x.exponent_le.trans hmax)

/-- Converting a number in normal form to a format of at least its precision gives one in normal
form; what is no number stays none. -/
theorem wellFormed_convert (hprecision : f.precision ≤ g.precision) {x : Binary f}
    (h : x.WellFormed) : (x.convert g r).WellFormed := by
  have hp := f.two_le_precision
  cases x with
  | finite x => exact g.wellFormed_round r x.negative x.magnitude_nonneg
  | infinity negative => trivial
  | nan negative payload =>
    have hquiet : 0 < payload ||| 2 ^ (f.precision - 2) :=
      lt_of_lt_of_le (Nat.two_pow_pos _) Nat.right_le_or
    have hlt : payload ||| 2 ^ (f.precision - 2) < 2 ^ (f.precision - 1) :=
      Nat.or_lt_two_pow h.2 (Nat.pow_lt_pow_right (by omega) (by omega))
    have hshift : (payload ||| 2 ^ (f.precision - 2)) * 2 ^ g.precision / 2 ^ f.precision =
        (payload ||| 2 ^ (f.precision - 2)) * 2 ^ (g.precision - f.precision) := by
      rw [Nat.mul_div_assoc _ (Nat.pow_dvd_pow 2 hprecision), Nat.pow_div hprecision (by omega)]
    rw [convert, hshift]
    refine ⟨Nat.mul_pos hquiet (Nat.two_pow_pos _), ?_⟩
    calc (payload ||| 2 ^ (f.precision - 2)) * 2 ^ (g.precision - f.precision)
        < 2 ^ (f.precision - 1) * 2 ^ (g.precision - f.precision) :=
          Nat.mul_lt_mul_of_pos_right hlt (Nat.two_pow_pos _)
      _ = 2 ^ (g.precision - 1) := by
          rw [← Nat.pow_add]
          congr 1
          omega

end Binary

/-- A number that is decoded is in its normal form, when its leading digit is not stored. -/
theorem BinaryFormat.wellFormed_decode (f : BinaryFormat) (h : f.explicit = false) (bits : ℕ) :
    (f.decode bits).WellFormed := by
  rw [decode, ofFields]
  split
  · split
    · trivial
    · exact ⟨Nat.pos_of_ne_zero ‹_›, Nat.mod_lt _ (Nat.two_pow_pos _)⟩
  · intro hsmall
    simp only [h, Bool.false_eq_true, if_false] at hsmall ⊢
    split at hsmall
    · rename_i hzero
      rw [hzero]
      simp
    · omega

end Jffi
