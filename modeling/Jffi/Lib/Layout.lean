import Mathlib.Algebra.Ring.Int.Defs
import Mathlib.Algebra.Ring.Nat
import Mathlib.Order.Bounds.Basic
import Mathlib.Order.Monotone.Basic
import Mathlib.Tactic.Common

/-!
# The layout of aggregates

Sizes and alignments as plain numbers, without machine arithmetic. A struct places its fields one
after the other, each at the least aligned offset that is left; what makes this *the* layout is
that no other aligned, ordered and disjoint placement puts any field lower.

## Main definitions

* `alignUp` — the least multiple of an alignment that is not below a number
* `Layout` — a size and an alignment
* `place` — the greedy offsets
* `Placed` — offsets that are aligned, in order and apart
* `IsStructOf`, `IsUnionOf` — the layouts of the C standard's aggregates

## Main results

* `isLeast_alignUp`
* `isLeast_place` — the greedy placement is below every other one
* `isStructOf_layout`, `isUnionOf_layout` — the computed layouts are those of C
* `alignUp_or` — aligning by setting low bits
-/

namespace Jffi

/-! ### Aligning -/

/-- The least multiple of `a` that is at least `n`. -/
def alignUp (n a : ℕ) : ℕ := (n + (a - 1)) / a * a

theorem dvd_alignUp (n a : ℕ) : a ∣ alignUp n a := Nat.dvd_mul_left a _

@[simp] theorem alignUp_zero (a : ℕ) : alignUp 0 a = 0 := by
  rw [alignUp]
  rcases Nat.eq_zero_or_pos a with rfl | ha
  · simp
  · rw [Nat.div_eq_of_lt (by omega), Nat.zero_mul]

theorem le_alignUp (n : ℕ) {a : ℕ} (ha : 0 < a) : n ≤ alignUp n a := by
  have hdiv := Nat.div_add_mod (n + (a - 1)) a
  have hmod := Nat.mod_lt (n + (a - 1)) ha
  rw [Nat.mul_comm] at hdiv
  rw [alignUp]
  omega

theorem alignUp_le {n a m : ℕ} (hm : a ∣ m) (hn : n ≤ m) : alignUp n a ≤ m := by
  obtain ⟨k, rfl⟩ := hm
  rcases Nat.eq_zero_or_pos a with rfl | ha
  · simp [alignUp]
  · rw [alignUp, Nat.mul_comm a k]
    refine Nat.mul_le_mul_right a (Nat.lt_succ_iff.mp ?_)
    rw [Nat.div_lt_iff_lt_mul ha, Nat.succ_mul, Nat.mul_comm]
    omega

theorem alignUp_of_dvd {n a : ℕ} (ha : 0 < a) (h : a ∣ n) : alignUp n a = n :=
  Nat.le_antisymm (alignUp_le h (Nat.le_refl n)) (le_alignUp n ha)

/-- Aligning up commutes with adding a multiple of the alignment. -/
theorem alignUp_add {k a : ℕ} (h : a ∣ k) (n : ℕ) : alignUp (k + n) a = k + alignUp n a := by
  obtain ⟨c, rfl⟩ := h
  rcases Nat.eq_zero_or_pos a with rfl | ha
  · simp [alignUp]
  · rw [alignUp, Nat.add_assoc, Nat.mul_add_div ha, Nat.add_mul, Nat.mul_comm c a]
    rfl

/-- **Aligning up** gives the least multiple of the alignment that is not below the number. -/
theorem isLeast_alignUp (n : ℕ) {a : ℕ} (ha : 0 < a) :
    IsLeast {m | a ∣ m ∧ n ≤ m} (alignUp n a) :=
  ⟨⟨dvd_alignUp n a, le_alignUp n ha⟩, fun _ h => alignUp_le h.1 h.2⟩

/-- Setting the low bits rounds up to the next multiple, less one. -/
theorem alignUp_or {n : ℕ} (hn : 0 < n) (k : ℕ) :
    ((n - 1) ||| (2 ^ k - 1)) + 1 = alignUp n (2 ^ k) := by
  have hpos : 0 < 2 ^ k := Nat.two_pow_pos k
  have hor : (n - 1) ||| (2 ^ k - 1) = 2 ^ k * ((n - 1) / 2 ^ k) + (2 ^ k - 1) := by
    refine Nat.eq_of_testBit_eq fun i => ?_
    rw [Nat.testBit_or, Nat.testBit_two_pow_mul_add _ (by omega), Nat.testBit_two_pow_sub_one,
      Nat.testBit_div_two_pow]
    by_cases hi : i < k
    · simp [hi]
    · simp [hi, Nat.sub_add_cancel (Nat.not_lt.mp hi)]
  have hdiv : (n + (2 ^ k - 1)) / 2 ^ k = (n - 1) / 2 ^ k + 1 := by
    rw [show n + (2 ^ k - 1) = n - 1 + 2 ^ k by omega, Nat.add_div_right _ hpos]
  rw [hor, alignUp, hdiv, Nat.add_mul, Nat.mul_comm]
  omega

/-! ### Layouts -/

/-- What a type takes in memory. -/
@[ext] structure Layout where
  size : ℕ
  alignment : ℕ
  deriving DecidableEq, Repr

/-- Offsets for the fields at or after `n`: each a multiple of the alignment of its field, and no
field reaching into the next one. -/
inductive Placed : ℕ → List Layout → List ℕ → Prop
  | nil (n : ℕ) : Placed n [] []
  | cons {n o : ℕ} {f : Layout} {fs : List Layout} {os : List ℕ} (le : n ≤ o)
      (aligned : f.alignment ∣ o) (rest : Placed (o + f.size) fs os) :
      Placed n (f :: fs) (o :: os)

/-- Each field at the least aligned offset that the fields before it leave. -/
def place : ℕ → List Layout → List ℕ
  | _, [] => []
  | n, f :: fs => alignUp n f.alignment :: place (alignUp n f.alignment + f.size) fs

/-- Where the last field ends, when each is placed at the next multiple of its alignment. -/
def extent : ℕ → List Layout → ℕ
  | n, [] => n
  | n, f :: fs => extent (alignUp n f.alignment + f.size) fs

variable {fields : List Layout}

theorem placed_place (hpos : ∀ f ∈ fields, 0 < f.alignment) (n : ℕ) :
    Placed n fields (place n fields) := by
  induction fields generalizing n with
  | nil => exact .nil n
  | cons f fs ih =>
    exact .cons (le_alignUp n (hpos f (List.mem_cons_self ..))) (dvd_alignUp n _)
      (ih (fun g hg => hpos g (List.mem_cons_of_mem f hg)) _)

/-- Every placement of the fields that respects order and alignment puts each of them at its greedy
offset or behind it. -/
theorem place_le {n m : ℕ} {offsets : List ℕ} (hn : n ≤ m) (h : Placed m fields offsets) :
    List.Forall₂ (· ≤ ·) (place n fields) offsets := by
  induction h generalizing n with
  | nil m => exact .nil
  | cons le aligned rest ih =>
    have ho := alignUp_le aligned (hn.trans le)
    exact .cons ho (ih (Nat.add_le_add_right ho _))

theorem le_extent (hpos : ∀ f ∈ fields, 0 < f.alignment) (n : ℕ) : n ≤ extent n fields := by
  induction fields generalizing n with
  | nil => exact Nat.le_refl n
  | cons f fs ih =>
    have hf := le_alignUp n (hpos f (List.mem_cons_self ..))
    have hfs := ih (fun g hg => hpos g (List.mem_cons_of_mem f hg)) (alignUp n f.alignment + f.size)
    rw [extent]
    omega

/-- Every field of the greedy placement ends within its extent … -/
theorem end_le_extent (hpos : ∀ f ∈ fields, 0 < f.alignment) (n : ℕ) :
    ∀ p ∈ fields.zip (place n fields), p.2 + p.1.size ≤ extent n fields := by
  induction fields generalizing n with
  | nil => simp
  | cons f fs ih =>
    have htail := fun g hg => hpos g (List.mem_cons_of_mem f hg)
    intro p hp
    rcases List.mem_cons.mp hp with rfl | hp
    · exact le_extent htail _
    · exact ih htail _ p hp

/-- … and no number below the extent bounds the ends of all fields. -/
theorem extent_le {n m : ℕ} (hn : n ≤ m)
    (h : ∀ p ∈ fields.zip (place n fields), p.2 + p.1.size ≤ m) : extent n fields ≤ m := by
  induction fields generalizing n with
  | nil => exact hn
  | cons f fs ih =>
    exact ih (h (f, alignUp n f.alignment) (List.mem_cons_self ..))
      fun p hp => h p (List.mem_cons_of_mem _ hp)

/-- The greedy placement puts each field at a multiple of its alignment, not before the start. -/
theorem of_mem_zip_place (hpos : ∀ f ∈ fields, 0 < f.alignment) (n : ℕ) :
    ∀ p ∈ fields.zip (place n fields), p.1.alignment ∣ p.2 ∧ n ≤ p.2 := by
  induction fields generalizing n with
  | nil => simp
  | cons f fs ih =>
    have hf := le_alignUp n (hpos f (List.mem_cons_self ..))
    intro p hp
    rcases List.mem_cons.mp hp with rfl | hp
    · exact ⟨dvd_alignUp n _, hf⟩
    · obtain ⟨hdvd, hle⟩ := ih (fun g hg => hpos g (List.mem_cons_of_mem f hg)) _ p hp
      exact ⟨hdvd, by omega⟩

/-- One of the fields ends where the extent of the greedy placement ends. -/
theorem exists_end_eq_extent (h : fields ≠ []) (n : ℕ) :
    ∃ p ∈ fields.zip (place n fields), p.2 + p.1.size = extent n fields := by
  induction fields generalizing n with
  | nil => exact absurd rfl h
  | cons f fs ih =>
    rcases fs with _ | ⟨g, fs⟩
    · exact ⟨(f, alignUp n f.alignment), by simp [place], rfl⟩
    · obtain ⟨p, hp, hend⟩ := ih (by simp) (alignUp n f.alignment + f.size)
      exact ⟨p, List.mem_cons_of_mem _ hp, hend⟩

@[simp] theorem length_place (n : ℕ) (fields : List Layout) :
    (place n fields).length = fields.length := by
  induction fields generalizing n with
  | nil => rfl
  | cons f fs ih => simp [place, ih]

/-- Starting the fields at an aligned offset shifts their extent by that offset. -/
theorem extent_add {k : ℕ} (h : ∀ f ∈ fields, f.alignment ∣ k) (n : ℕ) :
    extent (k + n) fields = k + extent n fields := by
  induction fields generalizing n with
  | nil => rfl
  | cons f fs ih =>
    rw [extent, extent, alignUp_add (h f (List.mem_cons_self ..)), Nat.add_assoc,
      ih fun g hg => h g (List.mem_cons_of_mem f hg)]

/-- Equal fields of a size that their alignment divides lie without padding. -/
theorem extent_replicate {f : Layout} (hpos : 0 < f.alignment) (hdvd : f.alignment ∣ f.size)
    (n k : ℕ) : extent (k * f.size) (List.replicate n f) = (k + n) * f.size := by
  induction n generalizing k with
  | zero => rfl
  | succ n ih =>
    rw [List.replicate_succ, extent, alignUp_of_dvd hpos (Nat.dvd_mul_left_of_dvd hdvd k),
      ← Nat.succ_mul, ih, Nat.succ_add_eq_add_succ]

/-- The largest alignment, `0` of no field. -/
def maxAlignment (fields : List Layout) : ℕ := (fields.map Layout.alignment).foldl max 0

/-- The largest size, `0` of no field. -/
def maxSize (fields : List Layout) : ℕ := (fields.map Layout.size).foldl max 0

theorem isGreatest_foldl_max {ns : List ℕ} (h : ns ≠ []) :
    IsGreatest {n | n ∈ ns} (ns.foldl max 0) := by
  have hmax : (0 :: ns).max? = some (ns.foldl max 0) := List.max?_cons'
  obtain ⟨hmem, hall⟩ := List.max?_eq_some_iff.mp hmax
  have hupper : ∀ n ∈ ns, n ≤ ns.foldl max 0 := fun n hn => hall n (List.mem_cons_of_mem 0 hn)
  refine ⟨?_, hupper⟩
  rcases List.mem_cons.mp hmem with hzero | hmem
  · obtain ⟨n, hn⟩ := List.exists_mem_of_ne_nil ns h
    have hn' : n = ns.foldl max 0 := by
      have := hupper n hn
      omega
    exact hn' ▸ hn
  · exact hmem

theorem isGreatest_maxAlignment (h : fields ≠ []) :
    IsGreatest {a | ∃ f ∈ fields, f.alignment = a} (maxAlignment fields) := by
  have hne : fields.map Layout.alignment ≠ [] := by simpa using h
  simpa [maxAlignment] using isGreatest_foldl_max hne

theorem isGreatest_maxSize (h : fields ≠ []) :
    IsGreatest {n | ∃ f ∈ fields, f.size = n} (maxSize fields) := by
  have hne : fields.map Layout.size ≠ [] := by simpa using h
  simpa [maxSize] using isGreatest_foldl_max hne

theorem maxAlignment_pos (h : fields ≠ []) (hpos : ∀ f ∈ fields, 0 < f.alignment) :
    0 < maxAlignment fields := by
  obtain ⟨f, hf, heq⟩ := (isGreatest_maxAlignment h).1
  exact heq ▸ hpos f hf

theorem size_le_extent (hpos : ∀ f ∈ fields, 0 < f.alignment) (n : ℕ) :
    ∀ f ∈ fields, f.size ≤ extent n fields := by
  induction fields generalizing n with
  | nil => simp
  | cons g fs ih =>
    have htail := fun f hf => hpos f (List.mem_cons_of_mem g hf)
    intro f hf
    rcases List.mem_cons.mp hf with rfl | hf
    · exact (Nat.le_add_left ..).trans (le_extent htail _)
    · exact ih htail _ f hf

/-! ### The aggregates of C -/

/-- `l` is the layout of a struct with these fields, which lie at `offsets`. -/
structure IsStructOf (fields : List Layout) (offsets : List ℕ) (l : Layout) : Prop where
  placed : Placed 0 fields offsets
  least : ∀ os, Placed 0 fields os → List.Forall₂ (· ≤ ·) offsets os
  alignment : IsGreatest {a | ∃ f ∈ fields, f.alignment = a} l.alignment
  size : IsLeast {m | l.alignment ∣ m ∧ ∀ p ∈ fields.zip offsets, p.2 + p.1.size ≤ m} l.size

/-- `l` is the layout of a union with these members. -/
structure IsUnionOf (fields : List Layout) (l : Layout) : Prop where
  alignment : IsGreatest {a | ∃ f ∈ fields, f.alignment = a} l.alignment
  size : IsLeast {m | l.alignment ∣ m ∧ ∀ f ∈ fields, f.size ≤ m} l.size

/-- `l` is the layout of an array. -/
structure IsArrayOf (elem : Layout) (length : ℕ) (l : Layout) : Prop where
  alignment : l.alignment = elem.alignment
  size : l.size = length * elem.size

def structLayout (fields : List Layout) : Layout :=
  ⟨alignUp (extent 0 fields) (maxAlignment fields), maxAlignment fields⟩

def unionLayout (fields : List Layout) : Layout :=
  ⟨alignUp (maxSize fields) (maxAlignment fields), maxAlignment fields⟩

def arrayLayout (elem : Layout) (length : ℕ) : Layout := ⟨length * elem.size, elem.alignment⟩

/-- **An array is the struct of its elements**, if their alignment divides their size. -/
theorem structLayout_replicate {elem : Layout} (hpos : 0 < elem.alignment)
    (hdvd : elem.alignment ∣ elem.size) {n : ℕ} (hn : 0 < n) :
    structLayout (List.replicate n elem) = arrayLayout elem n := by
  have hne : List.replicate n elem ≠ [] := by simp; omega
  obtain ⟨f, hf, hmax⟩ := (isGreatest_maxAlignment hne).1
  rw [List.eq_of_mem_replicate hf] at hmax
  have hextent := extent_replicate hpos hdvd n 0
  rw [Nat.zero_mul, Nat.zero_add] at hextent
  rw [structLayout, ← hmax, hextent, alignUp_of_dvd hpos (Nat.dvd_mul_left_of_dvd hdvd n)]
  rfl

/-- **The layout of a struct** is the least there is: aligned to each of its fields, with every
field aligned inside of it, in order. -/
theorem isStructOf_layout (h : fields ≠ []) (hpos : ∀ f ∈ fields, 0 < f.alignment) :
    IsStructOf fields (place 0 fields) (structLayout fields) where
  placed := placed_place hpos 0
  least := fun _ hos => place_le (Nat.le_refl 0) hos
  alignment := isGreatest_maxAlignment h
  size := by
    have hsize := isLeast_alignUp (extent 0 fields) (maxAlignment_pos h hpos)
    refine ⟨⟨hsize.1.1, fun p hp => ?_⟩, fun m hm => ?_⟩
    · exact (end_le_extent hpos 0 p hp).trans hsize.1.2
    · exact hsize.2 ⟨hm.1, extent_le (Nat.zero_le m) hm.2⟩

/-- **The layout of a union** is the least there is: aligned to each of its fields, with room for
each of them from its start. -/
theorem isUnionOf_layout (h : fields ≠ []) (hpos : ∀ f ∈ fields, 0 < f.alignment) :
    IsUnionOf fields (unionLayout fields) where
  alignment := isGreatest_maxAlignment h
  size := by
    have hsize := isLeast_alignUp (maxSize fields) (maxAlignment_pos h hpos)
    have hmax := isGreatest_maxSize h
    refine ⟨⟨hsize.1.1, fun f hf => ?_⟩, fun m hm => ?_⟩
    · exact (hmax.2 ⟨f, hf, rfl⟩).trans hsize.1.2
    · obtain ⟨f, hf, heq⟩ := hmax.1
      exact hsize.2 ⟨hm.1, heq.symm.trans_le (hm.2 f hf)⟩

theorem size_le_structLayout (h : fields ≠ []) (hpos : ∀ f ∈ fields, 0 < f.alignment) :
    ∀ f ∈ fields, f.size ≤ (structLayout fields).size := fun f hf =>
  (size_le_extent hpos 0 f hf).trans (le_alignUp _ (maxAlignment_pos h hpos))

theorem size_le_unionLayout (h : fields ≠ []) (hpos : ∀ f ∈ fields, 0 < f.alignment) :
    ∀ f ∈ fields, f.size ≤ (unionLayout fields).size := fun f hf =>
  ((isGreatest_maxSize h).2 ⟨f, hf, rfl⟩).trans (le_alignUp _ (maxAlignment_pos h hpos))

theorem isArrayOf_layout (elem : Layout) (length : ℕ) :
    IsArrayOf elem length (arrayLayout elem length) :=
  ⟨rfl, rfl⟩

end Jffi
