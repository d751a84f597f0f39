import Mathlib.Algebra.Order.Floor.Semiring
import Mathlib.Data.Rat.Floor
import Mathlib.Tactic.Linarith
import Mathlib.Tactic.NormNum

/-!
# Rounding

A number that is not whole is rounded to a whole one in one of four directions. The sign of a number
is kept beside its magnitude, and it is the magnitude that is rounded.

## Main definitions

* `Rounding`, `Rounding.apply` — the directions, and what they make of a number

## Main results

* `Rounding.apply_natCast` — whole numbers stay as they are
* `Rounding.apply_le`, `Rounding.le_apply` — bounds that are whole
-/

namespace Jffi

/-- `FE_TONEAREST`, `FE_TOWARDZERO`, `FE_UPWARD` and `FE_DOWNWARD`. -/
inductive Rounding
  | tonearest | towardzero | upward | downward
  deriving DecidableEq, Repr

/-- The magnitude of a number with the given sign, as a whole number. -/
def Rounding.apply (r : Rounding) (negative : Bool) (q : ℚ) : ℕ :=
  match r, negative with
  | .tonearest, _ =>
    if 1 / 2 < q - ⌊q⌋₊ ∨ q - ⌊q⌋₊ = 1 / 2 ∧ ⌊q⌋₊ % 2 = 1 then ⌊q⌋₊ + 1 else ⌊q⌋₊
  | .towardzero, _ | .upward, true | .downward, false => ⌊q⌋₊
  | .upward, false | .downward, true => ⌈q⌉₊

namespace Rounding

variable (r : Rounding) (negative : Bool) {q : ℚ}

theorem floor_le_apply (q : ℚ) : ⌊q⌋₊ ≤ r.apply negative q := by
  simp only [apply]
  split
  · split
    · exact Nat.le_succ _
    · exact Nat.le_refl _
  · exact Nat.le_refl _
  · exact Nat.le_refl _
  · exact Nat.le_refl _
  · exact Nat.floor_le_ceil q
  · exact Nat.floor_le_ceil q

theorem apply_le_ceil (q : ℚ) : r.apply negative q ≤ ⌈q⌉₊ := by
  simp only [apply]
  split
  · split
    case isTrue h =>
      -- more than the whole part
      have hlt : (⌊q⌋₊ : ℚ) < q := by
        rcases h with h | h
        · linarith
        · linarith [h.1]
      exact Nat.lt_ceil.mpr hlt
    case isFalse => exact Nat.floor_le_ceil q
  · exact Nat.floor_le_ceil q
  · exact Nat.floor_le_ceil q
  · exact Nat.floor_le_ceil q
  · exact Nat.le_refl _
  · exact Nat.le_refl _

/-- A whole number is rounded to itself, in every direction. -/
@[simp] theorem apply_natCast (n : ℕ) : r.apply negative n = n := by
  have hfloor := floor_le_apply r negative (n : ℚ)
  have hceil := apply_le_ceil r negative (n : ℚ)
  rw [Nat.floor_natCast] at hfloor
  rw [Nat.ceil_natCast] at hceil
  exact Nat.le_antisymm hceil hfloor

theorem apply_le {n : ℕ} (h : q ≤ n) : r.apply negative q ≤ n :=
  (r.apply_le_ceil negative q).trans (Nat.ceil_le.mpr h)

theorem le_apply {n : ℕ} (h : (n : ℚ) ≤ q) : n ≤ r.apply negative q :=
  (Nat.le_floor h).trans (r.floor_le_apply negative q)

end Rounding

end Jffi
