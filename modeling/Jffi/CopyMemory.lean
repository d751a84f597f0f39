import Jffi.Platform
import Mathlib.Algebra.Order.Ring.Int
import Mathlib.Algebra.Ring.Divisibility.Basic
import Mathlib.Data.Int.ModEq

/-!
# Copies of native memory

`MemoryIO.copyMemory` asks whether the two ranges overlap, and lets `memmove` copy those that do. It
compares the ends as signed numbers of 64 bits.

All of memory is there, at the addresses of the platform. What `Unsafe.copyMemory` does with ranges
that overlap is not known.

## Main definitions

* `Ram`, `memmove`, `memcpy` — memory, and the functions that copy it
* `CopyIO`, `CopyIO.copyMemory` — the implementations of `MemoryIO`
* `MovesMemory` — the copy is right, whatever the overlap

## Main results

* `apart_iff` — ranges without a common byte, by their ends
* `movesMemory_iff` — the copy is right unless the ranges overlap and one ends at the highest
  address
-/

namespace Jffi

variable {w : ℕ}

/-- Memory with addresses of `w` bits. -/
abbrev Ram (w : ℕ) : Type := BitVec w → Byte

/-- The ranges of `n` bytes have none in common. -/
def Apart (src dst : BitVec w) (n : ℕ) : Prop :=
  ∀ i < n, ∀ j < n, src + BitVec.ofNat w i ≠ dst + BitVec.ofNat w j

instance (src dst : BitVec w) (n : ℕ) : Decidable (Apart src dst n) := by
  unfold Apart; infer_instance

def memmove (dst src : BitVec w) (n : ℕ) (ram : Ram w) : Ram w := fun p =>
  if (p - dst).toNat < n then ram (src + (p - dst)) else ram p

/-- `memcpy`, which has no outcome for ranges that overlap. -/
def memcpy (dst src : BitVec w) (n : ℕ) (ram : Ram w) : Option (Ram w) :=
  if Apart src dst n then some (memmove dst src n ram) else none

/-! ### `MemoryIO` -/

section

variable (pf : Platform)

/-- The width of a pointer, and of a `size_t`. -/
def ptrBits : ℕ := 8 * pf.ptrSize

/-- `j2p`. -/
def Ram.j2p (j : BitVec 64) : BitVec (ptrBits pf) := j.setWidth _

/-- A `jlong` where a `size_t` is expected. -/
def jlongSize (size : BitVec 64) : ℕ := (size.setWidth (ptrBits pf)).toNat

/-- `sun.misc.Unsafe`. -/
structure Unsafe where
  copyMemory : BitVec 64 → BitVec 64 → BitVec 64 → Ram (ptrBits pf) → Option (Ram (ptrBits pf))
  copyMemory_of_apart : ∀ src dst size ram,
    Apart (Ram.j2p pf src) (Ram.j2p pf dst) (jlongSize pf size) →
      copyMemory src dst size ram =
        some (memmove (Ram.j2p pf dst) (Ram.j2p pf src) (jlongSize pf size) ram)

namespace Foreign

def copyMemory (src dst size : BitVec 64) : Ram (ptrBits pf) → Option (Ram (ptrBits pf)) :=
  memcpy (Ram.j2p pf dst) (Ram.j2p pf src) (jlongSize pf size)

def copyMemoryChecked (src dst size : BitVec 64) : Ram (ptrBits pf) → Option (Ram (ptrBits pf)) :=
  memcpy (Ram.j2p pf dst) (Ram.j2p pf src) (jlongSize pf size)

def memmove (dst src size : BitVec 64) (ram : Ram (ptrBits pf)) : Ram (ptrBits pf) :=
  Jffi.memmove (Ram.j2p pf dst) (Ram.j2p pf src) (jlongSize pf size) ram

def memmoveChecked (dst src size : BitVec 64) (ram : Ram (ptrBits pf)) : Ram (ptrBits pf) :=
  Jffi.memmove (Ram.j2p pf dst) (Ram.j2p pf src) (jlongSize pf size) ram

end Foreign

/-- The implementations of `MemoryIO`. -/
inductive CopyIO
  | nativeImpl
  | checkedNativeImpl
  | unsafeImpl (theUnsafe : Unsafe pf)

/-- The regions do not overlap, as far as `copyMemory` can see. -/
def regionsApart (src dst size : BitVec 64) : Bool :=
  (dst + size).sle src || (src + size).sle dst

end

namespace CopyIO

variable {pf : Platform}

/-- `_copyMemory`. -/
def intrinsicCopyMemory (io : CopyIO pf) (src dst size : BitVec 64) (ram : Ram (ptrBits pf)) :
    Option (Ram (ptrBits pf)) :=
  match io with
  | nativeImpl => Foreign.copyMemory pf src dst size ram
  | checkedNativeImpl => Foreign.copyMemoryChecked pf src dst size ram
  | unsafeImpl theUnsafe => theUnsafe.copyMemory src dst size ram

def memmove (io : CopyIO pf) (dst src size : BitVec 64) (ram : Ram (ptrBits pf)) :
    Ram (ptrBits pf) :=
  match io with
  | nativeImpl | unsafeImpl _ => Foreign.memmove pf dst src size ram
  | checkedNativeImpl => Foreign.memmoveChecked pf dst src size ram

def copyMemory (io : CopyIO pf) (src dst size : BitVec 64) (ram : Ram (ptrBits pf)) :
    Option (Ram (ptrBits pf)) :=
  if regionsApart src dst size then io.intrinsicCopyMemory src dst size ram
  else some (io.memmove dst src size ram)

end CopyIO

/-! ### What a copy is for -/

/-- The range at `dst` has become what the range at `src` was, and nothing else has changed. -/
structure Moved (src dst : BitVec w) (n : ℕ) (ram ram' : Ram w) : Prop where
  moved : ∀ i < n, ram' (dst + BitVec.ofNat w i) = ram (src + BitVec.ofNat w i)
  kept : ∀ p, (∀ i < n, p ≠ dst + BitVec.ofNat w i) → ram' p = ram p

variable (pf : Platform)

/-- There are addresses for the range, and it does not cross the signed boundary. -/
def InSpace (address size : BitVec 64) : Prop :=
  if pf.ptrSize = 4 then address ≠ 0 ∧ address.toNat + size.toNat ≤ 2 ^ 32
  else address.toInt + size.toInt ≤ 2 ^ 63

instance (address size : BitVec 64) : Decidable (InSpace pf address size) := by
  unfold InSpace; infer_instance

/-- The copy is right, and what is only right for ranges without a common byte is only used for
those. -/
def MovesMemory (io : CopyIO pf) (src dst size : BitVec 64) : Prop :=
  (∀ ram, ∃ ram', io.copyMemory src dst size ram = some ram' ∧
    Moved (Ram.j2p pf src) (Ram.j2p pf dst) size.toNat ram ram') ∧
  (regionsApart src dst size = true → Apart (Ram.j2p pf src) (Ram.j2p pf dst) size.toNat)

/-- `memmove` leaves at the destination what lay at the source, and every other byte as it was,
whatever the overlap. -/
theorem moved_memmove (src dst : BitVec w) {n : ℕ} (hn : n ≤ 2 ^ w) (ram : Ram w) :
    Moved src dst n ram (memmove dst src n ram) := by
  constructor
  · intro i hi
    have hsub : dst + BitVec.ofNat w i - dst = BitVec.ofNat w i := by
      rw [BitVec.add_comm, BitVec.add_sub_cancel]
    have hlt : (BitVec.ofNat w i).toNat < n := by
      rw [BitVec.toNat_ofNat, Nat.mod_eq_of_lt (Nat.lt_of_lt_of_le hi hn)]
      exact hi
    rw [memmove, hsub, if_pos hlt]
  · intro p hp
    refine if_neg fun hlt => hp _ hlt ?_
    rw [BitVec.ofNat_toNat, BitVec.setWidth_eq, BitVec.add_comm, BitVec.sub_add_cancel]

/-! ### Ranges -/

theorem exists_toInt_eq (a : BitVec 64) : ∃ k : ℤ, a.toInt = a.toNat + 2 ^ 64 * k := by
  rw [BitVec.toInt_eq_toNat_cond]
  split
  · exact ⟨0, by omega⟩
  · exact ⟨-1, by omega⟩

/-- The bytes of two ranges have the same address when their numbers are the same to so many
bits. -/
theorem setWidth_add_eq_iff (hw : w ≤ 64) (a b : BitVec 64) (i j : ℕ) :
    a.setWidth w + BitVec.ofNat w i = b.setWidth w + BitVec.ofNat w j ↔
      (2 ^ w : ℤ) ∣ (b.toInt + j) - (a.toInt + i) := by
  obtain ⟨k, hk⟩ := exists_toInt_eq a
  obtain ⟨l, hl⟩ := exists_toInt_eq b
  have hdvd : (2 ^ w : ℤ) ∣ 2 ^ 64 * (l - k) := Dvd.dvd.mul_right (pow_dvd_pow 2 hw) _
  have hdiff : (b.toInt + j) - (a.toInt + i) =
      ((b.toNat + j : ℕ) : ℤ) - (a.toNat + i : ℕ) + 2 ^ 64 * (l - k) := by
    omega
  rw [hdiff, dvd_add_left hdvd, ← BitVec.toNat_inj]
  simp only [BitVec.toNat_add, BitVec.toNat_setWidth, BitVec.toNat_ofNat, Nat.mod_add_mod,
    Nat.add_mod_mod]
  exact (Nat.modEq_iff_dvd).trans (by push_cast; rfl)

/-- Two ranges that lie in the address space have no byte in common just when one of them ends
before the other begins, counted with the sign of a `long`. -/
theorem apart_iff (hw : w ≤ 64) {src dst : BitVec 64} {n : ℕ} {low : ℤ}
    (hsrc : low ≤ src.toInt ∧ src.toInt + n ≤ low + 2 ^ w)
    (hdst : low ≤ dst.toInt ∧ dst.toInt + n ≤ low + 2 ^ w) :
    Apart (src.setWidth w) (dst.setWidth w) n ↔
      n = 0 ∨ dst.toInt + n ≤ src.toInt ∨ src.toInt + n ≤ dst.toInt := by
  constructor
  · intro h
    by_contra hover
    rw [not_or, not_or, Int.not_le, Int.not_le] at hover
    obtain ⟨hn, hlt, hlt'⟩ := hover
    rcases Int.le_total src.toInt dst.toInt with hle | hle
    · refine h (dst.toInt - src.toInt).toNat (by omega) 0 (by omega) ?_
      rw [setWidth_add_eq_iff hw]
      exact ⟨0, by omega⟩
    · refine h 0 (by omega) (src.toInt - dst.toInt).toNat (by omega) ?_
      rw [setWidth_add_eq_iff hw]
      exact ⟨0, by omega⟩
  · intro h i hi j hj heq
    rw [setWidth_add_eq_iff hw] at heq
    have hzero := Int.eq_zero_of_abs_lt_dvd heq (abs_lt.mpr ⟨by omega, by omega⟩)
    omega

/-! ### The copy -/

variable {pf} {io : CopyIO pf} {src dst size : BitVec 64}

/-- A size is a `size_t`, and the ranges are in one window of the address space. -/
theorem window (hsize : 0 ≤ size.toInt) (hsrc : InSpace pf src size)
    (hdst : InSpace pf dst size) :
    jlongSize pf size = size.toNat ∧ size.toNat ≤ 2 ^ ptrBits pf ∧ ptrBits pf ≤ 64 ∧
      src.toInt + size.toInt ≤ 2 ^ 63 ∧ dst.toInt + size.toInt ≤ 2 ^ 63 ∧
      ∃ low : ℤ, (low ≤ src.toInt ∧ src.toInt + size.toNat ≤ low + 2 ^ ptrBits pf) ∧
        low ≤ dst.toInt ∧ dst.toInt + size.toNat ≤ low + 2 ^ ptrBits pf := by
  have hpos := BitVec.toInt_eq_toNat_cond size
  have hlt := size.isLt
  rcases pf.ptrSize_eq with hp | hp
  · -- addresses of 32 bits are not negative
    have hbits : ptrBits pf = 32 := by rw [ptrBits, hp]
    rw [InSpace, if_pos hp] at hsrc hdst
    obtain ⟨hsrc₀, hsrc⟩ := hsrc
    obtain ⟨-, hdst⟩ := hdst
    have hne : src.toNat ≠ 0 := fun h => hsrc₀ (BitVec.eq_of_toNat_eq h)
    have hsrcInt : src.toInt = src.toNat := BitVec.toInt_eq_toNat_of_lt (by omega)
    have hdstInt : dst.toInt = dst.toNat := BitVec.toInt_eq_toNat_of_lt (by omega)
    rw [jlongSize, BitVec.toNat_setWidth, hbits, hsrcInt, hdstInt]
    refine ⟨Nat.mod_eq_of_lt (by omega), by omega, by omega, by omega, by omega, 0, ?_⟩
    omega
  · have hbits : ptrBits pf = 64 := by rw [ptrBits, hp]
    rw [InSpace, if_neg (by omega)] at hsrc hdst
    have hsrcLow := BitVec.le_toInt src
    have hdstLow := BitVec.le_toInt dst
    rw [jlongSize, BitVec.toNat_setWidth, hbits]
    refine ⟨Nat.mod_eq_of_lt hlt, Nat.le_of_lt hlt, by omega, hsrc, hdst, -2 ^ 63, ?_⟩
    omega

/-- The copy is right when `_copyMemory` is only used where it is. -/
theorem movesMemory_of_apart (hjlong : jlongSize pf size = size.toNat)
    (hle : size.toNat ≤ 2 ^ ptrBits pf)
    (h : regionsApart src dst size = true → Apart (Ram.j2p pf src) (Ram.j2p pf dst) size.toNat) :
    MovesMemory pf io src dst size := by
  refine ⟨fun ram => ?_, h⟩
  refine ⟨_, ?_, moved_memmove (Ram.j2p pf src) (Ram.j2p pf dst) hle ram⟩
  unfold CopyIO.copyMemory
  split
  case isTrue hregions =>
    have hapart := h hregions
    rw [← hjlong] at hapart
    cases io with
    | nativeImpl => exact (if_pos hapart).trans (by rw [hjlong])
    | checkedNativeImpl => exact (if_pos hapart).trans (by rw [hjlong])
    | unsafeImpl theUnsafe =>
      exact (theUnsafe.copyMemory_of_apart src dst size ram hapart).trans (by rw [hjlong])
  case isFalse =>
    rw [← hjlong]
    cases io <;> rfl

/-- The end of a range as `copyMemory` computes it is the end of the range, unless that is 2⁶³,
which becomes the smallest `long`. -/
theorem toInt_end {a : BitVec 64} (hsize : 0 ≤ size.toInt)
    (ha : a.toInt + size.toInt ≤ 2 ^ 63) :
    (a + size).toInt =
      if a.toInt + size.toInt = 2 ^ 63 then -2 ^ 63 else a.toInt + size.toInt := by
  have hlow := BitVec.le_toInt a
  rw [BitVec.toInt_add, Int.bmod_def]
  split <;> split <;> omega

/-- **The copy is right** unless the ranges overlap and one of them ends at the highest address. -/
theorem movesMemory_iff (hsize : 0 ≤ size.toInt) (hsrc : InSpace pf src size)
    (hdst : InSpace pf dst size) :
    MovesMemory pf io src dst size ↔
      (dst.toInt + size.toInt ≤ src.toInt ∨ src.toInt + size.toInt ≤ dst.toInt) ∨
        src.toInt + size.toInt ≠ 2 ^ 63 ∧ dst.toInt + size.toInt ≠ 2 ^ 63 := by
  obtain ⟨hjlong, hle, hbits, hsrcEnd, hdstEnd, low, hsrcLow, hdstLow⟩ := window hsize hsrc hdst
  have hapart := apart_iff hbits hsrcLow hdstLow
  have hsrcInt := toInt_end hsize hsrcEnd
  have hdstInt := toInt_end hsize hdstEnd
  have hnat : size.toInt = size.toNat := by
    have hcond := BitVec.toInt_eq_toNat_cond size
    have hlt := size.isLt
    omega
  have hregions : regionsApart src dst size = true ↔
      (dst + size).toInt ≤ src.toInt ∨ (src + size).toInt ≤ dst.toInt := by
    rw [regionsApart, Bool.or_eq_true, BitVec.sle_iff_toInt_le, BitVec.sle_iff_toInt_le]
  have hlowest := BitVec.le_toInt src
  have hlowest' := BitVec.le_toInt dst
  constructor
  · rintro ⟨-, h⟩
    rw [hregions, Ram.j2p, Ram.j2p, hapart] at h
    by_contra hnot
    rw [hsrcInt, hdstInt] at h
    split at h <;> split at h <;> omega
  · intro h
    refine movesMemory_of_apart hjlong hle fun hr => ?_
    rw [hregions, hsrcInt, hdstInt] at hr
    rw [Ram.j2p, Ram.j2p, hapart]
    split at hr <;> split at hr <;> omega

theorem movesMemory_iff_overlap :
    MovesMemory .linuxX64 .nativeImpl 16 18 8 ↔
      ((18 : BitVec 64).toInt + (8 : BitVec 64).toInt ≤ (16 : BitVec 64).toInt ∨
        (16 : BitVec 64).toInt + (8 : BitVec 64).toInt ≤ (18 : BitVec 64).toInt) ∨
        (16 : BitVec 64).toInt + (8 : BitVec 64).toInt ≠ 2 ^ 63 ∧
          (18 : BitVec 64).toInt + (8 : BitVec 64).toInt ≠ 2 ^ 63 :=
  movesMemory_iff (by decide) (by decide) (by decide)

/-- The last bytes below the signed boundary, moved by one: the ranges overlap, and the code takes
them for apart. -/
theorem not_movesMemory_highest :
    InSpace .linuxX64 0x7ffffffffffffffc 3 ∧ InSpace .linuxX64 0x7ffffffffffffffd 3 ∧
      ¬MovesMemory .linuxX64 .nativeImpl 0x7ffffffffffffffc 0x7ffffffffffffffd 3 := by
  refine ⟨by decide, by decide, fun h => ?_⟩
  have hapart := h.2 (by decide)
  exact absurd rfl (hapart 1 (by decide) 0 (by decide))

end Jffi
