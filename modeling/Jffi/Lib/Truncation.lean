import Mathlib.Tactic.IntervalCases
import Mathlib.Tactic.Common

/-!
# Numbers with a fraction, as an `int`

The conversion of C from an interchange format to `int`, which cuts the fraction off. Where the
whole part does not fit, C leaves the result undefined.

## Main definitions

* `truncate` — the conversion

## Main results

* `truncate_high` — the low bits of a fraction that are zero do not matter
* `eq_zero_of_truncate_float`, `eq_zero_of_truncate_high` — only of `+0.0` the `int` has the bits of
  the number
-/

namespace Jffi

/-- The exponent of a number with `f` bits of fraction and `e` of exponent, as it is stored. -/
def storedExponent (f e bits : ℕ) : ℕ := bits / 2 ^ f % 2 ^ e

/-- The exponent that stands for zero. -/
def bias (e : ℕ) : ℕ := 2 ^ (e - 1) - 1

/-- The whole part of a number with the exponent `k`, without the sign. -/
def wholeMagnitude (f k bits : ℕ) : ℕ := (2 ^ f + bits % 2 ^ f) * 2 ^ k / 2 ^ f

/-- … and with it. -/
def wholePart (f e k bits : ℕ) : ℤ :=
  if bits / 2 ^ (f + e) % 2 = 1 then -(wholeMagnitude f k bits : ℤ)
  else wholeMagnitude f k bits

/-- `(int) x` of a number with the given bits, which has `f` bits of fraction and `e` of
exponent. -/
def truncate (f e bits : ℕ) : Option ℤ :=
  if storedExponent f e bits = 2 ^ e - 1 then none
  else if storedExponent f e bits < bias e then some 0
  else
    let value := wholePart f e (storedExponent f e bits - bias e) bits
    if -2 ^ 31 ≤ value ∧ value < 2 ^ 31 then some value else none

theorem truncate_zero {f e : ℕ} (he : 2 ≤ e) : truncate f e 0 = some 0 := by
  have hpow : 2 ^ 1 ≤ 2 ^ (e - 1) := Nat.pow_le_pow_right (by omega) (by omega)
  have hle : 2 ^ (e - 1) ≤ 2 ^ e := Nat.pow_le_pow_right (by omega) (by omega)
  have hexp : storedExponent f e 0 = 0 := by rw [storedExponent, Nat.zero_div, Nat.zero_mod]
  rw [truncate, hexp, if_neg (by omega), if_pos (by rw [bias]; omega)]

theorem le_wholeMagnitude (f k bits : ℕ) : 2 ^ k ≤ wholeMagnitude f k bits := by
  rw [wholeMagnitude, Nat.le_div_iff_mul_le (Nat.two_pow_pos f), Nat.mul_comm]
  exact Nat.mul_le_mul_right _ (Nat.le_add_right _ _)

/-- A whole part that is an `int` has no more bits. -/
theorem lt_of_wholePart {f e k bits : ℕ} (hlow : -2 ^ 31 ≤ wholePart f e k bits)
    (hhigh : wholePart f e k bits < 2 ^ 31) : k < 32 ∧ wholeMagnitude f k bits ≤ 2 ^ 31 := by
  have hmag := le_wholeMagnitude f k bits
  have hle : wholeMagnitude f k bits ≤ 2 ^ 31 := by
    rw [wholePart] at hlow hhigh
    split at hlow <;> omega
  refine ⟨?_, hle⟩
  by_contra hk
  have hpow : 2 ^ 32 ≤ 2 ^ k := Nat.pow_le_pow_right (by omega) (by omega)
  omega

/-- What a result says of the number: it is less than one, or has a whole part. -/
theorem truncate_cases {f e bits : ℕ} {v : ℤ} (h : truncate f e bits = some v) :
    storedExponent f e bits < bias e ∧ v = 0 ∨
      ∃ k < 32, storedExponent f e bits = bias e + k ∧ v = wholePart f e k bits ∧
        wholeMagnitude f k bits ≤ 2 ^ 31 := by
  rw [truncate] at h
  split at h
  case isTrue => cases h
  case isFalse =>
    split at h
    case isTrue hsmall =>
      cases h
      exact .inl ⟨hsmall, rfl⟩
    case isFalse hlarge =>
      dsimp only at h
      split at h
      case isFalse => cases h
      case isTrue hrange =>
        cases h
        obtain ⟨hk, hle⟩ := lt_of_wholePart hrange.1 hrange.2
        exact .inr ⟨_, hk, by omega, rfl, hle⟩

/-- **The low bits** of a fraction do not matter when they are zero. -/
theorem truncate_high (f e n bits : ℕ) :
    truncate (f + n) e (bits * 2 ^ n) = truncate f e bits := by
  have hpos : 0 < 2 ^ n := Nat.two_pow_pos n
  have hexp : storedExponent (f + n) e (bits * 2 ^ n) = storedExponent f e bits := by
    rw [storedExponent, storedExponent, Nat.pow_add, Nat.mul_div_mul_right _ _ hpos]
  have hsign : bits * 2 ^ n / 2 ^ (f + n + e) = bits / 2 ^ (f + e) := by
    rw [Nat.add_right_comm, Nat.pow_add, Nat.mul_div_mul_right _ _ hpos]
  have hmag (k : ℕ) : wholeMagnitude (f + n) k (bits * 2 ^ n) = wholeMagnitude f k bits := by
    rw [wholeMagnitude, wholeMagnitude, Nat.pow_add, Nat.mul_mod_mul_right, ← Nat.add_mul,
      Nat.mul_right_comm, Nat.mul_div_mul_right _ _ hpos]
  have hwhole (k : ℕ) : wholePart (f + n) e k (bits * 2 ^ n) = wholePart f e k bits := by
    rw [wholePart, wholePart, hsign, hmag]
  rw [truncate, truncate, hexp, hwhole]

/-- The bits of an `int` that has a sign and a magnitude. -/
theorem toNat_wholePart {f e k bits : ℕ} (hle : wholeMagnitude f k bits ≤ 2 ^ 31)
    (h : (BitVec.ofInt 32 (wholePart f e k bits)).toNat = bits) :
    bits / 2 ^ (f + e) % 2 = 1 ∧ wholeMagnitude f k bits + bits = 2 ^ 32 ∨
      bits / 2 ^ (f + e) % 2 = 0 ∧ wholeMagnitude f k bits = bits := by
  have hpos := (Nat.two_pow_pos k).trans_le (le_wholeMagnitude f k bits)
  rw [BitVec.toNat_ofInt, wholePart] at h
  split at h
  case isTrue hneg => exact .inl ⟨hneg, by omega⟩
  case isFalse hneg => exact .inr ⟨by omega, by omega⟩

/-- The whole part of a `float` is not the number that its bits are, with either sign. -/
theorem float_ne {q r n k : ℕ} (hr : r < 8388608) (hk : k < 32)
    (hn : n = (8388608 + r) * 2 ^ k / 8388608) :
    (q = 256 + 127 + k → n + (8388608 * q + r) ≠ 2 ^ 32) ∧
      (q = 127 + k → n ≠ 8388608 * q + r) := by
  constructor
  · rintro rfl
    interval_cases k <;> simp only [Nat.reducePow] at hn <;> omega
  · rintro rfl
    interval_cases k <;> simp only [Nat.reducePow] at hn <;> omega

/-- **A `float`**: only of `+0.0` the `int` has the same bits. -/
theorem eq_zero_of_truncate_float {bits : ℕ} (hbits : bits < 2 ^ 32) {v : ℤ}
    (h : truncate 23 8 bits = some v) (hv : (BitVec.ofInt 32 v).toNat = bits) : bits = 0 := by
  rcases truncate_cases h with ⟨-, rfl⟩ | ⟨k, hk, hexp, rfl, hle⟩
  · exact hv.symm
  · have hr : bits % 8388608 < 8388608 := Nat.mod_lt _ (by omega)
    obtain ⟨hneg, hpos⟩ := @float_ne (bits / 8388608) _ _ k hr hk rfl
    have hexp' : bits / 8388608 % 256 = 127 + k := hexp
    have hsign : bits / 2 ^ (23 + 8) = bits / 8388608 / 256 := by
      rw [Nat.pow_add, ← Nat.div_div_eq_div_mul]
    rw [Nat.div_add_mod] at hneg hpos
    rcases toNat_wholePart hle hv with ⟨hs, hsum⟩ | ⟨hs, hsum⟩
    · rw [hsign] at hs
      exact absurd hsum (hneg (by omega))
    · rw [hsign] at hs
      exact absurd hsum (hpos (by omega))

/-- … nor is that of the high half of a `double`. -/
theorem high_ne {q r n k : ℕ} (hr : r < 1048576) (hk : k < 32)
    (hn : n = (1048576 + r) * 2 ^ k / 1048576) :
    (q = 2048 + 1023 + k → n + (1048576 * q + r) ≠ 2 ^ 32) ∧
      (q = 1023 + k → n ≠ 1048576 * q + r) := by
  constructor
  · rintro rfl
    interval_cases k <;> simp only [Nat.reducePow] at hn <;> omega
  · rintro rfl
    interval_cases k <;> simp only [Nat.reducePow] at hn <;> omega

/-- **The high half of a `double`** whose low half is zero. -/
theorem eq_zero_of_truncate_high {bits : ℕ} (hbits : bits < 2 ^ 32) {v : ℤ}
    (h : truncate 52 11 (bits * 2 ^ 32) = some v) (hv : (BitVec.ofInt 32 v).toNat = bits) :
    bits = 0 := by
  rw [truncate_high 20 11 32] at h
  rcases truncate_cases h with ⟨-, rfl⟩ | ⟨k, hk, hexp, rfl, hle⟩
  · exact hv.symm
  · have hr : bits % 1048576 < 1048576 := Nat.mod_lt _ (by omega)
    obtain ⟨hneg, hpos⟩ := @high_ne (bits / 1048576) _ _ k hr hk rfl
    have hexp' : bits / 1048576 % 2048 = 1023 + k := hexp
    have hsign : bits / 2 ^ (20 + 11) = bits / 1048576 / 2048 := by
      rw [Nat.pow_add, ← Nat.div_div_eq_div_mul]
    rw [Nat.div_add_mod] at hneg hpos
    rcases toNat_wholePart hle hv with ⟨hs, hsum⟩ | ⟨hs, hsum⟩
    · rw [hsign] at hs
      exact absurd hsum (hneg (by omega))
    · rw [hsign] at hs
      exact absurd hsum (hpos (by omega))

/-- **The low half of a `double`** whose high half is zero. -/
theorem eq_zero_of_truncate_low {bits : ℕ} (hbits : bits < 2 ^ 32) {v : ℤ}
    (h : truncate 52 11 bits = some v) (hv : (BitVec.ofInt 32 v).toNat = bits) : bits = 0 := by
  rcases truncate_cases h with ⟨-, rfl⟩ | ⟨k, hk, hexp, -⟩
  · exact hv.symm
  · rw [storedExponent, Nat.div_eq_of_lt (by omega), bias] at hexp
    omega

end Jffi
