import Jffi.Lib.Rounding
import Mathlib.Algebra.Order.Field.Power
import Mathlib.Data.Int.Log
import Mathlib.Data.List.DropRight
import Mathlib.Tactic.FieldSimp
import Mathlib.Tactic.GCongr
import Mathlib.Tactic.Linarith
import Mathlib.Tactic.NormNum
import Mathlib.Tactic.Positivity

/-!
# Numbers as decimal text

The conversions `e`, `f` and `g` of `printf` for the magnitude of a number, which is a rational
number. A decimal that has too many digits is rounded correctly, in the direction that is set.

## Main definitions

* `styleE`, `styleF`, `styleG` — the conversions

## Main results

* `length_styleF` — the text of `f` has as many digits as the number
* `length_styleE_le`, `length_styleG_le` — the others only have more digits in the exponent
-/

namespace Jffi

/-! ### Digits -/

/-- The digits of `n`, with zeros in front until there are at least `k`. -/
def padded (k n : ℕ) : List Char :=
  List.replicate (k - (Nat.toDigits 10 n).length) '0' ++ Nat.toDigits 10 n

/-- The digits behind the point, and no point when there are none. -/
def fraction (p n : ℕ) : List Char := if p = 0 then [] else '.' :: padded p n

/-- Without the zeros at the end, and without the point when nothing is left behind it. -/
def trimmed (text : List Char) : List Char :=
  match text.rdropWhile (· = '0') with
  | ['.'] => []
  | text => text

theorem length_toDigits_le {n k : ℕ} (hk : 0 < k) (hn : n < 10 ^ k) :
    (Nat.toDigits 10 n).length ≤ k :=
  (Nat.length_toDigits_le_iff (by omega) hk).mpr hn

theorem length_padded_le {n k l : ℕ} (hk : k ≤ l) (hl : 0 < l) (hn : n < 10 ^ l) :
    (padded k n).length ≤ l := by
  have hdigits := length_toDigits_le hl hn
  rw [padded, List.length_append, List.length_replicate]
  omega

theorem length_padded {n k : ℕ} (hk : 0 < k) (hn : n < 10 ^ k) : (padded k n).length = k := by
  have hdigits := length_toDigits_le hk hn
  rw [padded, List.length_append, List.length_replicate]
  omega

theorem length_fraction {p n : ℕ} (hp : 0 < p) (hn : n < 10 ^ p) :
    (fraction p n).length = p + 1 := by
  rw [fraction, if_neg (by omega), List.length_cons, length_padded hp hn]

theorem length_fraction_le {p n : ℕ} (hn : n < 10 ^ p) : (fraction p n).length ≤ p + 1 := by
  rcases Nat.eq_zero_or_pos p with rfl | hp
  · exact Nat.zero_le _
  · exact Nat.le_of_eq (length_fraction hp hn)

theorem length_trimmed_le (text : List Char) : (trimmed text).length ≤ text.length := by
  rw [trimmed]
  split
  · exact Nat.zero_le _
  · exact (List.rdropWhile_prefix _ text).length_le

/-! ### The conversions -/

section

variable (r : Rounding) (negative : Bool) (p : ℕ) (q : ℚ)

/-- `%.pf`. -/
def styleF : List Char :=
  let n := r.apply negative (q * 10 ^ p)
  Nat.toDigits 10 (n / 10 ^ p) ++ fraction p (n % 10 ^ p)

/-- The digits of the significand, `p` of them behind the point, and the exponent. -/
def scientific : ℕ × ℤ :=
  if q = 0 then (0, 0)
  else
    let x := Int.log 10 q
    let n := r.apply negative (q * 10 ^ (p - x))
    if n = 10 ^ (p + 1) then (10 ^ p, x + 1) else (n, x)

/-- The exponent has at least two digits. -/
def exponentText (x : ℤ) : List Char :=
  'e' :: (if x < 0 then '-' else '+') :: padded 2 x.natAbs

/-- `%.pe`. -/
def styleE : List Char :=
  let (n, x) := scientific r negative p q
  Nat.toDigits 10 (n / 10 ^ p) ++ fraction p (n % 10 ^ p) ++ exponentText x

/-- `%.pg`, for a precision that is not zero. -/
def styleG : List Char :=
  let (n, x) := scientific r negative (p - 1) q
  if -4 ≤ x ∧ x < p then
    let p := (p - 1 - x).toNat
    let n := r.apply negative (q * 10 ^ p)
    Nat.toDigits 10 (n / 10 ^ p) ++ trimmed (fraction p (n % 10 ^ p))
  else
    Nat.toDigits 10 (n / 10 ^ (p - 1)) ++ trimmed (fraction (p - 1) (n % 10 ^ (p - 1))) ++
      exponentText x

end

/-! ### Lengths -/

section

variable (r : Rounding) (negative : Bool) {p : ℕ} {q : ℚ}

/-- **The text of `f`** has the digits of the number, the point and `p` more. -/
theorem length_styleF (hp : 0 < p) : (styleF r negative p q).length =
    (Nat.toDigits 10 (r.apply negative (q * 10 ^ p) / 10 ^ p)).length + (p + 1) := by
  rw [styleF, List.length_append, length_fraction hp (Nat.mod_lt _ (Nat.pow_pos (by omega)))]

/-- A number is less than the power of ten that follows the exponent it is printed with. -/
theorem lt_zpow_scientific (hq : 0 ≤ q) : q < 10 ^ ((scientific r negative p q).2 + 1) := by
  rcases hq.eq_or_lt with rfl | hpos
  · norm_num [scientific]
  · have hlt := Int.lt_zpow_succ_log_self (b := 10) (by omega) q
    push_cast at hlt
    rw [scientific, if_neg hpos.ne']
    dsimp only
    split
    · exact hlt.trans (zpow_lt_zpow_right₀ (by norm_num) (by omega))
    · exact hlt

/-- The significand that is printed has one digit before the point and `p` behind it. -/
theorem scientific_fst_lt (hq : 0 ≤ q) : (scientific r negative p q).1 < 10 ^ (p + 1) := by
  rcases hq.eq_or_lt with rfl | hpos
  · rw [scientific, if_pos rfl]
    exact Nat.pow_pos (by omega)
  · have hlt := Int.lt_zpow_succ_log_self (b := 10) (by omega) q
    push_cast at hlt
    rw [scientific, if_neg hpos.ne']
    dsimp only
    have hle : r.apply negative (q * 10 ^ (p - Int.log 10 q)) ≤ 10 ^ (p + 1) := by
      apply Rounding.apply_le
      push_cast
      calc q * 10 ^ (p - Int.log 10 q)
          ≤ 10 ^ (Int.log 10 q + 1) * 10 ^ (p - Int.log 10 q) := by gcongr
        _ = 10 ^ ((p : ℤ) + 1) := by
            rw [← zpow_add₀ (by norm_num)]
            congr 1
            ring
        _ = 10 ^ (p + 1) := by norm_cast
    split
    · exact Nat.pow_lt_pow_right (by omega) (by omega)
    · omega

/-- The exponent of a number that is not too large or too small. -/
theorem natAbs_scientific_le {k : ℕ} (hq : q = 0 ∨ (10 : ℚ) ^ (-k : ℤ) ≤ q ∧ q < 10 ^ k) :
    (scientific r negative p q).2.natAbs ≤ k := by
  rcases hq with rfl | ⟨hlow, hhigh⟩
  · rw [scientific, if_pos rfl]
    exact Nat.zero_le _
  · have hpos : 0 < q := lt_of_lt_of_le (by positivity) hlow
    have hl : (-k : ℤ) ≤ Int.log 10 q :=
      (Int.zpow_le_iff_le_log (b := 10) (by omega) hpos).mp (by exact_mod_cast hlow)
    have hu : Int.log 10 q < k :=
      (Int.lt_zpow_iff_log_lt (b := 10) (by omega) hpos).mp (by exact_mod_cast hhigh)
    rw [scientific, if_neg hpos.ne']
    dsimp only
    split <;> dsimp only <;> omega

theorem length_exponentText_le {x : ℤ} {k : ℕ} (hk : 2 ≤ k) (hx : x.natAbs < 10 ^ k) :
    (exponentText x).length ≤ k + 2 := by
  have hlen := length_padded_le hk (by omega) hx
  rw [exponentText, List.length_cons, List.length_cons]
  omega

/-- A significand of at most `p + 1` digits has at most one before the point. -/
theorem length_significand_le {n : ℕ} (hn : n < 10 ^ (p + 1)) :
    (Nat.toDigits 10 (n / 10 ^ p)).length ≤ 1 :=
  length_toDigits_le (by omega) (Nat.div_lt_of_lt_mul (by rwa [Nat.pow_one, ← Nat.pow_succ]))

/-- **The text of `e`** has at most four characters more than its precision and the digits of its
exponent. -/
theorem length_styleE_le {k : ℕ} (hq : 0 ≤ q) (hk : 2 ≤ k)
    (hx : (scientific r negative p q).2.natAbs < 10 ^ k) :
    (styleE r negative p q).length ≤ p + k + 4 := by
  have hn := scientific_fst_lt r negative (p := p) hq
  have hfirst := length_significand_le hn
  have hfraction := length_fraction_le
    (Nat.mod_lt (scientific r negative p q).1 (Nat.pow_pos (n := p) (by omega : 0 < 10)))
  have hexponent := length_exponentText_le hk hx
  rw [styleE, List.length_append, List.length_append]
  omega

/-- **The text of `g`** has at most twice its precision and five characters, and the digits of its
exponent. -/
theorem length_styleG_le {k : ℕ} (hq : 0 ≤ q) (hp : 0 < p) (hk : 2 ≤ k)
    (hx : (scientific r negative (p - 1) q).2.natAbs < 10 ^ k) :
    (styleG r negative p q).length ≤ 2 * p + k + 5 := by
  have hn := scientific_fst_lt r negative (p := p - 1) hq
  have hlt := lt_zpow_scientific r negative (p := p - 1) hq
  have hfirst := length_significand_le hn
  have hexponent := length_exponentText_le hk hx
  rw [styleG]
  generalize scientific r negative (p - 1) q = c at *
  obtain ⟨n, x⟩ := c
  dsimp only at *
  split
  case isTrue h =>
    have hdigits : r.apply negative (q * 10 ^ (p - 1 - x).toNat) ≤ 10 ^ p := by
      apply Rounding.apply_le
      push_cast
      rw [← zpow_natCast (10 : ℚ) (p - 1 - x).toNat, Int.toNat_of_nonneg (by omega)]
      calc q * 10 ^ (p - 1 - x)
          ≤ 10 ^ (x + 1) * 10 ^ (p - 1 - x) := by gcongr
        _ = 10 ^ (p : ℤ) := by
            rw [← zpow_add₀ (by norm_num)]
            congr 1
            ring
        _ = 10 ^ p := zpow_natCast _ _
    generalize r.apply negative (q * 10 ^ (p - 1 - x).toNat) = m at hdigits
    have hwhole : (Nat.toDigits 10 (m / 10 ^ (p - 1 - x).toNat)).length ≤ p + 1 := by
      refine length_toDigits_le (by omega) ((Nat.div_le_self _ _).trans_lt ?_)
      exact hdigits.trans_lt (Nat.pow_lt_pow_right (by omega) (by omega))
    have htrimmed := length_trimmed_le
      (fraction (p - 1 - x).toNat (m % 10 ^ (p - 1 - x).toNat))
    have hfraction := length_fraction_le
      (Nat.mod_lt m (Nat.pow_pos (n := (p - 1 - x).toNat) (by omega : 0 < 10)))
    rw [List.length_append]
    omega
  case isFalse =>
    have htrimmed := length_trimmed_le (fraction (p - 1) (n % 10 ^ (p - 1)))
    have hfraction := length_fraction_le
      (Nat.mod_lt n (Nat.pow_pos (n := p - 1) (by omega : 0 < 10)))
    rw [List.length_append, List.length_append]
    omega

end

end Jffi
