import Mathlib.Algebra.Ring.Int.Defs
import Mathlib.Algebra.Ring.Nat
import Mathlib.Data.Int.Notation
import Mathlib.Data.List.Basic
import Mathlib.Tactic.Common

/-!
# Bytes, byte order and stretches of memory

Everything the marshalling code says about memory is said about lists of cells: a number is the
list of its bytes, least significant first, and a byte order is how such a list lies in memory.
Reading and writing a stretch of a list are partial, as they are for an array.

## Main definitions

* `ByteOrder.arrange` — the memory image of a list of digits
* `leBytes`, `leNat` — the bytes of a bit vector, least significant first, and back
* `slice`, `splice` — reading and overwriting a stretch of a list
* `storeBytes` — one store after the other, each bounds checked

## Main results

* `slice_splice_self`, `slice_splice_disjoint` — read after write
* `storeBytes_eq_splice` — consecutive stores are one `splice`
-/

namespace Jffi

/-! ### Byte order -/

/-- The order in which the bytes of a number lie in memory. -/
inductive ByteOrder
  | little
  | big
  deriving DecidableEq, Repr

variable {α β : Type}

/-- The memory image of a list of digits given least significant first. -/
def ByteOrder.arrange : ByteOrder → List α → List α
  | .little, l => l
  | .big, l => l.reverse

@[simp] theorem ByteOrder.length_arrange (o : ByteOrder) (l : List α) :
    (o.arrange l).length = l.length := by
  cases o <;> simp [arrange]

@[simp] theorem ByteOrder.arrange_arrange (o : ByteOrder) (l : List α) :
    o.arrange (o.arrange l) = l := by
  cases o <;> simp [arrange]

theorem ByteOrder.map_arrange (o : ByteOrder) (f : α → β) (l : List α) :
    (o.arrange l).map f = o.arrange (l.map f) := by
  cases o <;> simp [arrange]

@[simp] theorem ByteOrder.mem_arrange (o : ByteOrder) {l : List α} {x : α} :
    x ∈ o.arrange l ↔ x ∈ l := by
  cases o <;> simp [arrange]

/-! ### The bytes of a bit vector -/

abbrev Byte := BitVec 8

/-- The `n` low bytes of `x`, least significant first. -/
def leBytes {w : ℕ} (n : ℕ) (x : BitVec w) : List Byte :=
  (List.range n).map fun k => x.extractLsb' (8 * k) 8

@[simp] theorem length_leBytes {w : ℕ} (n : ℕ) (x : BitVec w) : (leBytes n x).length = n := by
  simp [leBytes]

theorem take_leBytes {w n m : ℕ} (h : m ≤ n) (x : BitVec w) :
    (leBytes n x).take m = leBytes m x := by
  simp only [leBytes, ← List.map_take, List.take_range, Nat.min_eq_left h]

/-- Byte `k` of `x`, in the form a shift and a narrowing cast give it. -/
theorem extractLsb'_eq_setWidth_sshiftRight {w k : ℕ} (x : BitVec w) (h : 8 * k + 8 ≤ w) :
    (x.sshiftRight (8 * k)).setWidth 8 = x.extractLsb' (8 * k) 8 := by
  ext i hi
  simp only [BitVec.getElem_setWidth, BitVec.getElem_extractLsb', BitVec.getLsbD_sshiftRight]
  have hlt : 8 * k + i < w := by omega
  have hiw : i < w := by omega
  simp [hlt, Nat.not_le.mpr hiw]

theorem leBytes_setWidth {w v n : ℕ} (x : BitVec w) (h : 8 * n ≤ v) :
    leBytes n (x.setWidth v) = leBytes n x := by
  refine List.map_congr_left fun k hk => ?_
  have hk : k < n := List.mem_range.mp hk
  ext i hi
  simp only [BitVec.getElem_extractLsb', BitVec.getLsbD_setWidth]
  have : 8 * k + i < v := by omega
  simp [this]

theorem leBytes_zero {w : ℕ} (n : ℕ) : leBytes n (0 : BitVec w) = List.replicate n 0 := by
  refine List.eq_replicate_iff.mpr ⟨length_leBytes n _, fun b hb => ?_⟩
  obtain ⟨k, -, rfl⟩ := List.mem_map.mp hb
  ext i hi
  simp

theorem leBytes_succ {w : ℕ} (n : ℕ) (x : BitVec w) :
    leBytes (n + 1) x = x.extractLsb' 0 8 :: leBytes n (x >>> 8) := by
  simp only [leBytes, List.range_succ_eq_map, List.map_cons, List.map_map, Nat.mul_zero]
  refine congrArg _ (List.map_congr_left fun k _ => ?_)
  ext i hi
  simp [BitVec.getElem_extractLsb', Nat.mul_add, Nat.add_comm, Nat.add_left_comm]

/-- The number with the given bytes, least significant first. -/
def leNat : List Byte → ℕ
  | [] => 0
  | b :: bs => b.toNat + 256 * leNat bs

theorem leNat_leBytes {w : ℕ} (n : ℕ) (x : BitVec w) : leNat (leBytes n x) = x.toNat % 256 ^ n := by
  induction n generalizing x with
  | zero => simp [leBytes, leNat, Nat.mod_one]
  | succ n ih =>
    have hmod : x.toNat % 256 ^ (n + 1) = x.toNat % 256 + 256 * (x.toNat / 256 % 256 ^ n) := by
      rw [Nat.pow_succ', Nat.mod_mul]
    rw [leBytes_succ, leNat, ih, hmod, BitVec.extractLsb'_toNat, BitVec.toNat_ushiftRight,
      Nat.shiftRight_zero, Nat.shiftRight_eq_div_pow]

theorem leNat_lt (bs : List Byte) : leNat bs < 256 ^ bs.length := by
  induction bs with
  | nil => exact Nat.one_pos
  | cons b bs ih =>
    have hb := b.isLt
    rw [leNat, List.length_cons, Nat.pow_succ]
    omega

theorem leNat_eq_zero_iff (bs : List Byte) : leNat bs = 0 ↔ ∀ b ∈ bs, b = 0 := by
  induction bs with
  | nil => simp [leNat]
  | cons b bs ih =>
    rw [leNat, List.forall_mem_cons, ← ih, ← BitVec.toNat_inj]
    change _ ↔ b.toNat = 0 ∧ _
    omega

theorem leNat_append (xs ys : List Byte) :
    leNat (xs ++ ys) = leNat xs + 256 ^ xs.length * leNat ys := by
  induction xs with
  | nil => simp [leNat]
  | cons x xs ih =>
    rw [List.cons_append, leNat, leNat, ih, List.length_cons, Nat.pow_succ', Nat.mul_add,
      Nat.mul_assoc, Nat.add_assoc]

theorem leNat_replicate_zero (n : ℕ) : leNat (List.replicate n 0) = 0 :=
  (leNat_eq_zero_iff _).mpr fun _ hb => List.eq_of_mem_replicate hb

/-- A number is read back from its bytes, least significant first, if there are as many as its width
has. -/
theorem leNat_leBytes_eq {n : ℕ} (x : BitVec (8 * n)) : leNat (leBytes n x) = x.toNat := by
  have hlt := x.isLt
  rw [Nat.pow_mul] at hlt
  rw [leNat_leBytes, Nat.mod_eq_of_lt hlt]

/-! ### Stretches of a list -/

/-- The `n` elements of `l` from position `off` on, if they are all there. -/
def slice (l : List α) (off n : ℕ) : Option (List α) :=
  if off + n ≤ l.length then some ((l.drop off).take n) else none

/-- `l` with the elements from position `off` on overwritten by `xs`, if there is room. -/
def splice (l : List α) (off : ℕ) (xs : List α) : Option (List α) :=
  if off + xs.length ≤ l.length then some (l.take off ++ xs ++ l.drop (off + xs.length)) else none

theorem slice_eq_some {l ys : List α} {off n : ℕ} :
    slice l off n = some ys ↔ off + n ≤ l.length ∧ ys = (l.drop off).take n := by
  by_cases h : off + n ≤ l.length
  · simp [slice, h, eq_comm]
  · simp [slice, h]

theorem splice_eq_some {l l' xs : List α} {off : ℕ} :
    splice l off xs = some l' ↔
      off + xs.length ≤ l.length ∧ l' = l.take off ++ xs ++ l.drop (off + xs.length) := by
  by_cases h : off + xs.length ≤ l.length
  · simp [splice, h, eq_comm]
  · simp [splice, h]

theorem length_of_slice {l ys : List α} {off n : ℕ} (h : slice l off n = some ys) :
    ys.length = n := by
  obtain ⟨hle, rfl⟩ := slice_eq_some.mp h
  simp only [List.length_take, List.length_drop]
  omega

theorem length_of_splice {l l' xs : List α} {off : ℕ} (h : splice l off xs = some l') :
    l'.length = l.length := by
  obtain ⟨hle, rfl⟩ := splice_eq_some.mp h
  simp only [List.length_append, List.length_take, List.length_drop]
  omega

theorem getElem?_of_slice {l ys : List α} {off n : ℕ} (h : slice l off n = some ys) {i : ℕ}
    (hi : i < n) : ys[i]? = l[off + i]? := by
  obtain ⟨-, rfl⟩ := slice_eq_some.mp h
  rw [List.getElem?_take_of_lt hi, List.getElem?_drop]

/-- An overwritten list has the new elements where they were written, and its own elsewhere. -/
theorem getElem?_of_splice {l l' xs : List α} {off : ℕ} (h : splice l off xs = some l') (i : ℕ) :
    l'[i]? = if off ≤ i ∧ i < off + xs.length then xs[i - off]? else l[i]? := by
  obtain ⟨hle, rfl⟩ := splice_eq_some.mp h
  have hlen : (l.take off).length = off := by rw [List.length_take]; omega
  rw [List.append_assoc]
  rcases Nat.lt_or_ge i off with hi | hi
  · rw [List.getElem?_append_left (by omega), if_neg (by omega), List.getElem?_take_of_lt hi]
  · rw [List.getElem?_append_right (by omega), hlen]
    rcases Nat.lt_or_ge i (off + xs.length) with hi' | hi'
    · rw [List.getElem?_append_left (by omega), if_pos ⟨hi, hi'⟩]
    · rw [List.getElem?_append_right (by omega), if_neg (by omega), List.getElem?_drop]
      congr 1
      omega

/-- Two lists of one length that agree on a stretch have the same slice there. -/
theorem slice_congr {l l' : List α} {off n : ℕ} (hlen : l'.length = l.length)
    (h : ∀ i, i < n → l'[off + i]? = l[off + i]?) : slice l' off n = slice l off n := by
  simp only [slice, hlen]
  split
  · refine congrArg some (List.ext_getElem? fun i => ?_)
    rcases Nat.lt_or_ge i n with hi | hi
    · rw [List.getElem?_take_of_lt hi, List.getElem?_take_of_lt hi, List.getElem?_drop,
        List.getElem?_drop, h i hi]
    · rw [List.getElem?_take_eq_none hi, List.getElem?_take_eq_none hi]
  · rfl

/-- A list of elements that a list has from a position on, one by one, is its slice there. -/
theorem slice_of_getElem? {l ys : List α} {off n : ℕ} (hle : off + n ≤ l.length)
    (hn : ys.length = n) (h : ∀ i < n, l[off + i]? = ys[i]?) : slice l off n = some ys := by
  refine slice_eq_some.mpr ⟨hle, List.ext_getElem? fun i => ?_⟩
  rcases Nat.lt_or_ge i n with hi | hi
  · rw [List.getElem?_take_of_lt hi, List.getElem?_drop, h i hi]
  · rw [List.getElem?_take_eq_none hi, List.getElem?_eq_none (by omega)]

/-- Reading where something was just written gives what was written. -/
theorem slice_splice_self {l l' xs : List α} {off : ℕ} (h : splice l off xs = some l') :
    slice l' off xs.length = some xs := by
  have hlen := length_of_splice h
  have hget := getElem?_of_splice h
  obtain ⟨hle, -⟩ := splice_eq_some.mp h
  refine slice_eq_some.mpr ⟨by omega, List.ext_getElem? fun i => ?_⟩
  rcases Nat.lt_or_ge i xs.length with hi | hi
  · rw [List.getElem?_take_of_lt hi, List.getElem?_drop, hget, if_pos (by omega),
      Nat.add_sub_cancel_left]
  · rw [List.getElem?_take_eq_none hi, List.getElem?_eq_none hi]

/-- Reading apart from where something was just written gives what was there before. -/
theorem slice_splice_disjoint {l l' xs : List α} {off pos n : ℕ} (h : splice l off xs = some l')
    (hd : pos + n ≤ off ∨ off + xs.length ≤ pos) : slice l' pos n = slice l pos n := by
  refine slice_congr (length_of_splice h) fun i hi => ?_
  rw [getElem?_of_splice h, if_neg (by omega)]

theorem slice_map (f : α → β) (l : List α) (off n : ℕ) :
    slice (l.map f) off n = (slice l off n).map (List.map f) := by
  simp only [slice, List.length_map]
  split <;> simp [List.map_take, List.map_drop]

/-- A shorter slice from the same position is the start of the longer one. -/
theorem take_of_slice {l ys : List α} {off n m : ℕ} (h : slice l off n = some ys) (hm : m ≤ n) :
    slice l off m = some (ys.take m) := by
  obtain ⟨hle, rfl⟩ := slice_eq_some.mp h
  rw [slice_eq_some, List.take_take, Nat.min_eq_left hm]
  exact ⟨by omega, rfl⟩

theorem slice_all (l : List α) : slice l 0 l.length = some l :=
  slice_eq_some.mpr ⟨by omega, by simp⟩

theorem exists_slice {l : List α} {off n : ℕ} (h : off + n ≤ l.length) :
    ∃ ys, slice l off n = some ys :=
  ⟨_, slice_eq_some.mpr ⟨h, rfl⟩⟩

theorem exists_splice {l xs : List α} {off : ℕ} (h : off + xs.length ≤ l.length) :
    ∃ l', splice l off xs = some l' :=
  ⟨_, splice_eq_some.mpr ⟨h, rfl⟩⟩

/-- Writing back what is there changes nothing. -/
theorem splice_of_slice {l xs : List α} {off : ℕ} (h : slice l off xs.length = some xs) :
    splice l off xs = some l := by
  obtain ⟨hle, hx⟩ := slice_eq_some.mp h
  refine splice_eq_some.mpr ⟨hle, ?_⟩
  rw [List.append_assoc, ← List.drop_drop]
  have hx' : xs ++ (l.drop off).drop xs.length = l.drop off := by
    conv_lhs => rw [hx, List.length_take, List.length_drop, Nat.min_eq_left (by omega)]
    exact List.take_append_drop _ _
  rw [hx', List.take_append_drop]

/-- Two slices, one behind the other, are one slice of both lengths. -/
theorem slice_append {l xs ys : List α} {off n m : ℕ} (hx : slice l off n = some xs)
    (hy : slice l (off + n) m = some ys) : slice l off (n + m) = some (xs ++ ys) := by
  obtain ⟨hlx, rfl⟩ := slice_eq_some.mp hx
  obtain ⟨hly, rfl⟩ := slice_eq_some.mp hy
  refine slice_eq_some.mpr ⟨by omega, ?_⟩
  rw [← List.drop_drop, List.take_add]

/-- Overwriting a stretch and then the one behind it is overwriting both at once. -/
theorem splice_append {l l' l'' xs ys : List α} {off : ℕ} (hx : splice l off xs = some l')
    (hy : splice l' (off + xs.length) ys = some l'') : splice l off (xs ++ ys) = some l'' := by
  have hlen := length_of_splice hx
  obtain ⟨hly, -⟩ := splice_eq_some.mp hy
  obtain ⟨l₃, h₃⟩ : ∃ l₃, splice l off (xs ++ ys) = some l₃ :=
    exists_splice (by rw [List.length_append]; omega)
  rw [h₃]
  refine congrArg some (List.ext_getElem? fun i => ?_)
  rw [getElem?_of_splice h₃, getElem?_of_splice hy, getElem?_of_splice hx, List.length_append]
  by_cases hfirst : off ≤ i ∧ i < off + xs.length
  · rw [if_pos (by omega), if_neg (by omega), if_pos hfirst, List.getElem?_append_left (by omega)]
  · rw [if_neg hfirst]
    by_cases hsecond : off + xs.length ≤ i ∧ i < off + xs.length + ys.length
    · rw [if_pos (by omega), if_pos hsecond, List.getElem?_append_right (by omega)]
      congr 1
      omega
    · rw [if_neg (by omega), if_neg hsecond]

section Pieces

variable {f : β → List α} {c : ℕ} {xs : List β}

/-- Pieces of one length, put one behind the other, have that length times their number. -/
theorem length_flatMap_of_const (h : ∀ x ∈ xs, (f x).length = c) :
    (xs.flatMap f).length = xs.length * c := by
  rw [List.length_flatMap, List.map_congr_left h, List.map_const', List.sum_replicate_nat]

theorem take_drop_flatMap (h : ∀ x ∈ xs, (f x).length = c) {i : ℕ} {x : β} (hx : xs[i]? = some x)
    (rest : List α) : ((xs.flatMap f ++ rest).drop (i * c)).take c = f x := by
  induction xs generalizing i with
  | nil => cases hx
  | cons y ys ih =>
    obtain ⟨hy, hys⟩ := List.forall_mem_cons.mp h
    rw [List.flatMap_cons, List.append_assoc]
    cases i with
    | zero =>
      cases hx
      rw [Nat.zero_mul, List.drop_zero, List.take_left' hy]
    | succ i =>
      rw [Nat.succ_mul, Nat.add_comm, ← List.drop_drop, List.drop_left' hy]
      exact ih hys hx

end Pieces

/-! ### Memory that is there everywhere -/

/-- `m` with the cells from `a` on overwritten by `xs`. -/
def overlay (m : ℕ → α) (a : ℕ) (xs : List α) : ℕ → α :=
  fun i => if a ≤ i then (xs[i - a]?).getD (m i) else m i

@[simp] theorem overlay_nil (m : ℕ → α) (a : ℕ) : overlay m a [] = m := by
  funext i
  simp [overlay]

theorem overlay_of_lt {m : ℕ → α} {a i : ℕ} (xs : List α) (h : i < a) : overlay m a xs i = m i :=
  if_neg (by omega)

theorem overlay_of_ge {m : ℕ → α} {a i : ℕ} {xs : List α} (h : a + xs.length ≤ i) :
    overlay m a xs i = m i := by
  rw [overlay, if_pos (by omega), List.getElem?_eq_none (by omega)]
  rfl

theorem overlay_of_mem {m : ℕ → α} {a k : ℕ} {xs : List α} (h : k < xs.length) :
    overlay m a xs (a + k) = xs[k] := by
  rw [overlay, if_pos (Nat.le_add_right a k), Nat.add_sub_cancel_left, List.getElem?_eq_getElem h]
  rfl

/-- Overwriting a stretch of memory and then the one behind it is overwriting both at once. -/
theorem overlay_overlay (m : ℕ → α) (a : ℕ) (xs ys : List α) :
    overlay (overlay m a xs) (a + xs.length) ys = overlay m a (xs ++ ys) := by
  funext i
  rcases Nat.lt_or_ge i (a + xs.length) with hlt | hge
  · rw [overlay_of_lt ys hlt]
    rcases Nat.lt_or_ge i a with hlt' | hge'
    · rw [overlay_of_lt xs hlt', overlay_of_lt _ hlt']
    · obtain ⟨k, rfl⟩ := Nat.exists_eq_add_of_le hge'
      rw [overlay_of_mem (by omega), overlay_of_mem (by rw [List.length_append]; omega),
        List.getElem_append_left (by omega)]
  · have hinner : overlay m a xs i = m i := overlay_of_ge hge
    have hindex : i - (a + xs.length) = i - a - xs.length := by omega
    rw [overlay, if_pos hge, hinner, overlay, if_pos (by omega),
      List.getElem?_append_right (by omega), hindex]

/-! ### Stores, one after the other -/

/-- `array[i] = x`, throwing when `i` is past the end. -/
def setAt (l : List α) (i : ℕ) (x : α) : Option (List α) :=
  if i < l.length then some (l.set i x) else none

/-- Store `xs` at `off`, `off + 1`, …, in this order. -/
def storeBytes (l : List α) (off : ℕ) : List α → Option (List α)
  | [] => some l
  | x :: xs => do
    let l ← setAt l off x
    storeBytes l (off + 1) xs

/-- Consecutive stores that stay inside the array are one `splice`. -/
theorem storeBytes_eq_splice {l xs : List α} {off : ℕ} (h : off + xs.length ≤ l.length) :
    storeBytes l off xs = splice l off xs := by
  induction xs generalizing l off with
  | nil => simp [storeBytes, splice, show off ≤ l.length by simpa using h]
  | cons x xs ih =>
    rw [List.length_cons] at h
    have hoff : off < l.length := by omega
    rw [storeBytes, setAt, if_pos hoff]
    change storeBytes (l.set off x) (off + 1) xs = _
    rw [ih (by simp only [List.length_set]; omega)]
    simp only [splice, List.length_set, List.length_cons]
    rw [if_pos (by omega), if_pos (by omega)]
    have htake : (l.set off x).take (off + 1) = l.take off ++ [x] := by
      rw [List.take_add_one, List.getElem?_set_self hoff, List.take_set_of_le (Nat.le_refl off)]
      rfl
    rw [htake, List.drop_set_of_lt (by omega)]
    simp [Nat.add_assoc, Nat.add_comm 1]

end Jffi
