import Mathlib.Algebra.Order.Field.Power
import Mathlib.Data.Rat.Floor
import Mathlib.Tactic.NormNum

/-!
# Decimal numerals

A numeral as it is printed with a point and an exponent, and the scanner of the C library that reads
it back. The scanner reads as many characters as make a numeral and leaves the others alone, and its
point is a character that can be set.

The other forms it knows, numbers in base 16, `inf` and `nan`, are not numerals of this kind.

## Main definitions

* `Numeral`, `Numeral.text` — the numerals
* `Decimal`, `scanDecimal` — the numbers, and the scanner

## Main results

* `scanDecimal_text` — a numeral is read as the number it was printed for
-/

namespace Jffi

/-- `digits * 10 ^ exponent`, with a sign. -/
structure Decimal where
  negative : Bool
  digits : ℕ
  exponent : ℤ
  deriving DecidableEq, Repr

/-- The value without its sign. -/
def Decimal.magnitude (d : Decimal) : ℚ := d.digits * 10 ^ d.exponent

/-! ### The scanner -/

/-- `isspace`, in the C locale. -/
def isSpace (c : Char) : Bool := c = ' ' || ('\t' ≤ c && c ≤ '\r')

/-- The sign, if there is one. -/
def scanSign (cs : List Char) : Bool × List Char :=
  match cs with
  | [] => (false, [])
  | c :: rest => if c = '-' then (true, rest) else (false, if c = '+' then rest else cs)

/-- The exponent, if there is one. -/
def scanExponent : List Char → ℤ
  | [] => 0
  | c :: cs =>
    if c = 'e' ∨ c = 'E' then
      let (negative, cs) := scanSign cs
      let n := Nat.ofDigitChars 10 (cs.takeWhile Char.isDigit) 0
      if negative then -n else n
    else 0

/-- The digits behind the point, and what follows them. -/
def scanFraction (point : Char) (cs : List Char) : List Char × List Char :=
  match cs with
  | [] => ([], [])
  | c :: rest =>
    if c = point then (rest.takeWhile Char.isDigit, rest.dropWhile Char.isDigit) else ([], cs)

/-- The number at the start of the text, and zero when there is none. -/
def scanDecimal (point : Char) (text : List Char) : Decimal :=
  let (negative, cs) := scanSign (text.dropWhile isSpace)
  let whole := cs.takeWhile Char.isDigit
  let (fraction, cs) := scanFraction point (cs.dropWhile Char.isDigit)
  if whole ++ fraction = [] then ⟨false, 0, 0⟩
  else
    ⟨negative, Nat.ofDigitChars 10 (whole ++ fraction) 0, scanExponent cs - fraction.length⟩

/-! ### Numerals -/

/-- A number with the digits that are printed of it. -/
structure Numeral where
  negative : Bool
  whole : ℕ
  /-- The digits behind the point. -/
  fraction : List (Fin 10)
  exponent : ℤ
  deriving DecidableEq, Repr

namespace Numeral

variable (n : Numeral)

/-- The digits behind the point, and no point when there are none. -/
def fractionText : List Char :=
  if n.fraction = [] then [] else '.' :: n.fraction.map fun d => d.val.digitChar

/-- The exponent with its sign, and nothing when it is zero. -/
def exponentText : List Char :=
  if n.exponent = 0 then []
  else 'E' :: (if n.exponent < 0 then '-' else '+') :: Nat.toDigits 10 n.exponent.natAbs

def text : List Char :=
  (if n.negative then ['-'] else []) ++
    (Nat.toDigits 10 n.whole ++ (n.fractionText ++ n.exponentText))

/-- The number that is printed. -/
def decimal : Decimal where
  negative := n.negative
  digits := n.fraction.foldl (fun digits d => 10 * digits + d.val) n.whole
  exponent := n.exponent - n.fraction.length

end Numeral

/-! ### Reading what was printed -/

theorem isDigit_toDigits (n : ℕ) : ∀ c ∈ Nat.toDigits 10 n, c.isDigit = true :=
  fun _ hc => Nat.isDigit_of_mem_toDigits (by omega) (by omega) hc

/-- A digit is neither white space nor a sign. -/
theorem of_isDigit {c : Char} (h : c.isDigit = true) :
    isSpace c = false ∧ c ≠ '-' ∧ c ≠ '+' := by
  rw [Char.isDigit_iff_toNat] at h
  have hlow : 48 ≤ c.toNat := h.1
  refine ⟨?_, ?_, ?_⟩
  · have hspace : c ≠ ' ' := by
      rintro rfl
      exact absurd hlow (by decide)
    have hreturn : ¬c ≤ '\r' := by
      rw [Char.le_def, UInt32.le_iff_toNat_le]
      change ¬c.toNat ≤ 13
      omega
    simp [isSpace, hspace, hreturn]
  · rintro rfl
    exact absurd hlow (by decide)
  · rintro rfl
    exact absurd hlow (by decide)

theorem scanSign_sign (p : Prop) [Decidable p] (cs : List Char) :
    scanSign ((if p then '-' else '+') :: cs) = (decide p, cs) := by
  by_cases hp : p <;> simp [scanSign, hp]

/-- Reading digits takes those that are there and stops in front of the first character that is
none. -/
theorem span_digits {ds rest : List Char} (hds : ∀ c ∈ ds, c.isDigit = true)
    (hrest : ∀ c ∈ rest.head?, c.isDigit = false) :
    (ds ++ rest).takeWhile Char.isDigit = ds ∧ (ds ++ rest).dropWhile Char.isDigit = rest := by
  rw [List.takeWhile_append_of_pos hds, List.dropWhile_append_of_pos hds]
  cases rest with
  | nil => exact ⟨List.append_nil ds, rfl⟩
  | cons c rest =>
    have hc : c.isDigit = false := hrest c rfl
    rw [List.takeWhile_cons_of_neg (by simp [hc]), List.dropWhile_cons_of_neg (by simp [hc])]
    exact ⟨List.append_nil ds, rfl⟩

theorem ofDigitChars_digits (fraction : List (Fin 10)) (n : ℕ) :
    Nat.ofDigitChars 10 (fraction.map fun d => d.val.digitChar) n =
      fraction.foldl (fun digits d => 10 * digits + d.val) n := by
  induction fraction generalizing n with
  | nil => exact Nat.ofDigitChars_nil
  | cons d fraction ih =>
    rw [List.map_cons, Nat.ofDigitChars_cons_digitChar_of_lt_ten d.isLt, ih, List.foldl_cons]

namespace Numeral

variable (n : Numeral)

theorem scanExponent_exponentText : scanExponent n.exponentText = n.exponent := by
  rw [exponentText]
  split
  case isTrue h => exact h.symm
  case isFalse h =>
    have hdigits : (Nat.toDigits 10 n.exponent.natAbs).takeWhile Char.isDigit =
        Nat.toDigits 10 n.exponent.natAbs := by
      have hspan := (@span_digits _ [] (isDigit_toDigits n.exponent.natAbs) (by simp)).1
      rwa [List.append_nil] at hspan
    simp only [scanExponent, scanSign_sign, or_true, if_true, hdigits,
      Nat.ofDigitChars_ten_toDigits, decide_eq_true_eq]
    split <;> omega

theorem head_exponentText : ∀ c ∈ n.exponentText.head?, c.isDigit = false ∧ c ≠ '.' := by
  rw [exponentText]
  split
  · simp
  · intro c hc
    obtain rfl : 'E' = c := by simpa using hc
    decide

theorem scanFraction_fractionText :
    scanFraction '.' (n.fractionText ++ n.exponentText) =
      (n.fraction.map fun d => d.val.digitChar, n.exponentText) := by
  have hhead := n.head_exponentText
  rw [fractionText]
  split
  case isTrue h =>
    rw [h, List.nil_append, List.map_nil]
    cases hexp : n.exponentText with
    | nil => rfl
    | cons c cs =>
      rw [hexp] at hhead
      rw [scanFraction, if_neg (hhead c rfl).2]
  case isFalse h =>
    have hds : ∀ c ∈ n.fraction.map fun d => d.val.digitChar, c.isDigit = true := by
      intro c hc
      obtain ⟨d, -, rfl⟩ := List.mem_map.mp hc
      simp
    obtain ⟨htake, hdrop⟩ := span_digits hds fun c hc => (hhead c hc).1
    rw [List.cons_append, scanFraction, if_pos rfl, htake, hdrop]

/-- The scanner takes the sign of a numeral, if it has one, and goes on with its digits. -/
theorem scanSign_text :
    scanSign (n.text.dropWhile isSpace) =
      (n.negative, Nat.toDigits 10 n.whole ++ (n.fractionText ++ n.exponentText)) := by
  obtain ⟨c, cs, hcs⟩ := List.exists_cons_of_ne_nil (@Nat.toDigits_ne_nil n.whole 10)
  have hdigit := isDigit_toDigits n.whole c (by rw [hcs]; exact List.mem_cons_self)
  obtain ⟨hspace, hminus, hplus⟩ := of_isDigit hdigit
  rw [text]
  cases n.negative with
  | true => rfl
  | false =>
    rw [if_neg Bool.false_ne_true, List.nil_append, hcs, List.cons_append,
      List.dropWhile_cons_of_neg (by simp [hspace]), scanSign, if_neg hminus, if_neg hplus]

/-- **A numeral is read** as the number it was printed for. -/
theorem scanDecimal_text : scanDecimal '.' n.text = n.decimal := by
  have hhead : ∀ c ∈ (n.fractionText ++ n.exponentText).head?, c.isDigit = false := by
    intro c hc
    rw [fractionText] at hc
    split at hc
    · exact (n.head_exponentText c hc).1
    · obtain rfl : '.' = c := by simpa using hc
      decide
  obtain ⟨htake, hdrop⟩ := span_digits (isDigit_toDigits n.whole) hhead
  simp only [scanDecimal, n.scanSign_text, htake, hdrop, n.scanFraction_fractionText,
    n.scanExponent_exponentText, Nat.ofDigitChars_append, Nat.ofDigitChars_ten_toDigits,
    ofDigitChars_digits, List.length_map, decimal]
  rw [if_neg]
  simp

end Numeral

end Jffi
