import Jffi.Libffi.Classify

/-!
# What the classes say

The rules of the x86-64 ABI, told of the numbers and pointers in a value: a value of more than
sixteen bytes, or with a `long double` in it, is passed in memory; of any other value each eight
bytes travel in a general register when an integer or a pointer lies in them, and in a vector
register when there are only floating point numbers. libffi computes this for every type that is
laid out as C lays it out.

Unions are left out, which libffi takes for structs: it would look at the members of a union one
behind the other.

## Main definitions

* `Natural` — a type laid out as C lays it out, without unions
* `leaves` — the numbers and pointers in a value
* `FitsClass` — a class tells what lies in eight bytes
* `Describes` — a type of the library and the `ffi_type` libffi looks at

## Main results

* `Natural.classify` — one class for each eight bytes, and it fits
* `Natural.exists_within` — no eight bytes are padding only
* `examineArgument_eq` — how an argument is passed
* `Builds.natural` — the types of `newStruct` and `newArray`
-/

namespace Jffi

/-! ### Types as C lays them out -/

/-- The numbers and pointers. -/
def FFIType.isScalar : FFIType → Bool
  | .void | .struct _ _ => false
  | _ => true

/-- A number or a pointer as an `ffi_type`: on x86-64 each is aligned to its size. -/
def FFIType.scalarType (s : FFIType) : FfiType .linuxX64 :=
  ⟨BitVec.ofNat _ (s.size .linuxX64), BitVec.ofNat _ (s.size .linuxX64), s.code .linuxX64, []⟩

/-- A number, a pointer, or a struct of such types with the layout of C. -/
inductive Natural : FfiType .linuxX64 → Prop
  | scalar (s : FFIType) (scalar : s.isScalar = true) : Natural s.scalarType
  | struct {size : SizeT .linuxX64} {alignment : BitVec 16}
      {elements : List (FfiType .linuxX64)} (ne : elements ≠ [])
      (natural : ∀ e ∈ elements, Natural e)
      (layout : (⟨size.toNat, alignment.toNat⟩ : Layout) =
        structLayout (elements.map FfiType.layout)) :
      Natural ⟨size, alignment, .struct, elements⟩

/-- A number or a pointer in a value. -/
structure Leaf where
  offset : ℕ
  size : ℕ
  type : FFICode
  deriving DecidableEq, Repr

namespace Leaf

/-- Where the leaf ends, in bytes from the start of the type. -/
def stop (l : Leaf) : ℕ := l.offset + l.size

/-- The same number, `n` bytes further on. -/
def shift (n : ℕ) (l : Leaf) : Leaf := { l with offset := n + l.offset }

/-- It lies in the `k`-th eight bytes, if only in part. -/
def Within (k : ℕ) (l : Leaf) : Prop := l.offset < 8 * k + 8 ∧ 8 * k < l.stop

instance (k : ℕ) (l : Leaf) : Decidable (l.Within k) :=
  inferInstanceAs (Decidable (l.offset < 8 * k + 8 ∧ 8 * k < l.stop))

/-- The leaf is an integer or a pointer, for which there are the general registers. -/
def isInteger (l : Leaf) : Bool :=
  match l.type with
  | .float | .double | .longdouble | .void | .struct => false
  | _ => true

@[simp] theorem stop_shift (n : ℕ) (l : Leaf) : (l.shift n).stop = n + l.stop :=
  Nat.add_assoc n l.offset l.size

@[simp] theorem shift_shift (n m : ℕ) (l : Leaf) : (l.shift m).shift n = l.shift (n + m) := by
  simp [shift, Nat.add_assoc]

@[simp] theorem shift_zero (l : Leaf) : l.shift 0 = l := by
  simp [shift]

end Leaf

mutual

/-- The numbers and pointers in a value of a type. -/
def leaves : FfiType .linuxX64 → List Leaf
  | ⟨size, _, type, elements⟩ =>
    if type = .struct then leavesFrom 0 elements else [⟨0, size.toNat, type⟩]

/-- Those in the elements of a struct that lie from offset `n` on. -/
def leavesFrom (n : ℕ) : List (FfiType .linuxX64) → List Leaf
  | [] => []
  | e :: es =>
    (leaves e).map (.shift (alignUp n e.alignment.toNat)) ++
      leavesFrom (alignUp n e.alignment.toNat + e.size.toNat) es

end

@[simp] theorem leaves_struct (size : SizeT .linuxX64) (alignment : BitVec 16)
    (elements : List (FfiType .linuxX64)) :
    leaves ⟨size, alignment, .struct, elements⟩ = leavesFrom 0 elements := rfl

/-! ### Numbers and pointers -/

section Scalar

variable {s : FFIType} (hs : s.isScalar = true)
include hs

theorem scalar_size :
    s.scalarType.size.toNat = s.size .linuxX64 ∧ s.scalarType.alignment.toNat = s.size .linuxX64 ∧
      ∃ j ≤ 4, s.size .linuxX64 = 2 ^ j := by
  cases s with
  | void => cases hs
  | struct => cases hs
  | uint8 | sint8 => exact ⟨rfl, rfl, 0, by decide, rfl⟩
  | uint16 | sint16 => exact ⟨rfl, rfl, 1, by decide, rfl⟩
  | uint32 | sint32 | float => exact ⟨rfl, rfl, 2, by decide, rfl⟩
  | uint64 | sint64 | double | pointer => exact ⟨rfl, rfl, 3, by decide, rfl⟩
  | longdouble => exact ⟨rfl, rfl, 4, by decide, rfl⟩

theorem valueSize_scalar : s.valueSize .linuxX64 = s.size .linuxX64 := by
  cases s with
  | void => cases hs
  | _ => rfl

theorem leaves_scalar :
    leaves s.scalarType = [⟨0, s.size .linuxX64, s.code .linuxX64⟩] := by
  cases s with
  | void => cases hs
  | struct => cases hs
  | _ => rfl

end Scalar

/-! ### The leaves of a struct -/

/-- The elements with their offsets. -/
def placed (n : ℕ) (elements : List (FfiType .linuxX64)) : List (FfiType .linuxX64 × ℕ) :=
  elements.zip (place n (elements.map FfiType.layout))

@[simp] theorem placed_nil (n : ℕ) : placed n [] = [] := rfl

@[simp] theorem placed_cons (n : ℕ) (e : FfiType .linuxX64) (es : List (FfiType .linuxX64)) :
    placed n (e :: es) =
      (e, alignUp n e.alignment.toNat) ::
        placed (alignUp n e.alignment.toNat + e.size.toNat) es := rfl

theorem extent_map_cons (n : ℕ) (e : FfiType .linuxX64) (es : List (FfiType .linuxX64)) :
    extent n ((e :: es).map FfiType.layout) =
      extent (alignUp n e.alignment.toNat + e.size.toNat) (es.map FfiType.layout) := rfl

theorem mem_leavesFrom {n : ℕ} {elements : List (FfiType .linuxX64)} {l : Leaf} :
    l ∈ leavesFrom n elements ↔ ∃ p ∈ placed n elements, ∃ l' ∈ leaves p.1, l'.shift p.2 = l := by
  induction elements generalizing n with
  | nil => simp [leavesFrom]
  | cons e es ih => simp [leavesFrom, ih]

/-- Elements that are laid out behind a start to which they are aligned have the same leaves, moved
by that start. -/
theorem leavesFrom_add {k : ℕ} {elements : List (FfiType .linuxX64)}
    (h : ∀ e ∈ elements, e.alignment.toNat ∣ k) (n : ℕ) :
    leavesFrom (k + n) elements = (leavesFrom n elements).map (.shift k) := by
  induction elements generalizing n with
  | nil => rfl
  | cons e es ih =>
    have htail := fun f hf => h f (List.mem_cons_of_mem e hf)
    rw [leavesFrom, leavesFrom, alignUp_add (h e (List.mem_cons_self ..)), Nat.add_assoc,
      ih htail, List.map_append, List.map_map]
    refine congrArg (· ++ _) (List.map_congr_left fun l _ => ?_)
    simp

section Placed

variable {n : ℕ} {elements : List (FfiType .linuxX64)}
  (hpos : ∀ e ∈ elements, 0 < e.alignment.toNat)

theorem of_mem_placed {p : FfiType .linuxX64 × ℕ} (hp : p ∈ placed n elements) :
    p.1 ∈ elements ∧ (p.1.layout, p.2) ∈
      (elements.map FfiType.layout).zip (place n (elements.map FfiType.layout)) := by
  refine ⟨(List.of_mem_zip hp).1, ?_⟩
  rw [List.zip_map_left]
  exact List.mem_map_of_mem (f := Prod.map FfiType.layout id) hp

include hpos in
theorem layout_alignment_pos' : ∀ f ∈ elements.map FfiType.layout, 0 < f.alignment := by
  intro f hf
  obtain ⟨e, he, rfl⟩ := List.mem_map.mp hf
  exact hpos e he

include hpos in
/-- An element lies at a multiple of its alignment, not before the start, and ends within the extent
of the elements. -/
theorem place_of_mem_placed {p : FfiType .linuxX64 × ℕ} (hp : p ∈ placed n elements) :
    p.1.alignment.toNat ∣ p.2 ∧ n ≤ p.2 ∧
      p.2 + p.1.size.toNat ≤ extent n (elements.map FfiType.layout) := by
  have hmem := (of_mem_placed hp).2
  obtain ⟨hdvd, hle⟩ := of_mem_zip_place (layout_alignment_pos' hpos) n _ hmem
  exact ⟨hdvd, hle, end_le_extent (layout_alignment_pos' hpos) n _ hmem⟩

theorem exists_mem_placed {e : FfiType .linuxX64} (he : e ∈ elements) :
    ∃ o, (e, o) ∈ placed n elements := by
  induction elements generalizing n with
  | nil => cases he
  | cons f fs ih =>
    rcases List.mem_cons.mp he with rfl | he
    · exact ⟨_, List.mem_cons_self ..⟩
    · obtain ⟨o, ho⟩ := ih (n := alignUp n f.alignment.toNat + f.size.toNat) he
      exact ⟨o, List.mem_cons_of_mem _ ho⟩

/-- The extent of the elements is no larger than they need: it is where the last of them ends. -/
theorem exists_placed_end (hne : elements ≠ []) :
    ∃ p ∈ placed n elements, p.2 + p.1.size.toNat = extent n (elements.map FfiType.layout) := by
  obtain ⟨p, hp, hend⟩ :=
    @exists_end_eq_extent (elements.map FfiType.layout) (by simpa using hne) n
  rw [List.zip_map_left] at hp
  obtain ⟨q, hq, rfl⟩ := List.mem_map.mp hp
  exact ⟨q, hq, hend⟩

end Placed

/-! ### What the layout of C says of a type -/

namespace Natural

variable {t : FfiType .linuxX64}

theorem alignment (h : Natural t) : ∃ j ≤ 4, t.alignment.toNat = 2 ^ j := by
  induction h with
  | scalar s hs =>
    obtain ⟨-, halign, j, hj, hsize⟩ := scalar_size hs
    exact ⟨j, hj, halign.trans hsize⟩
  | @struct size alignment elements hne hnatural hlayout ih =>
    obtain ⟨l, hl, hmax⟩ :=
      (@isGreatest_maxAlignment (elements.map FfiType.layout) (by simpa using hne)).1
    obtain ⟨e, he, rfl⟩ := List.mem_map.mp hl
    obtain ⟨j, hj, heq⟩ := ih e he
    exact ⟨j, hj, (congrArg Layout.alignment hlayout).trans (hmax.symm.trans heq)⟩

theorem isPowerOfTwo (h : Natural t) : IsPowerOfTwo t.alignment := by
  obtain ⟨j, -, hj⟩ := h.alignment
  exact ⟨j, hj⟩

theorem alignment_pos (h : Natural t) : 0 < t.alignment.toNat := h.isPowerOfTwo.pos

/-- The alignments are powers of two, so that of two natural types the smaller one divides the
other. -/
theorem alignment_dvd_of_le {t' : FfiType .linuxX64} (h : Natural t) (h' : Natural t')
    (hle : t.alignment.toNat ≤ t'.alignment.toNat) : t.alignment.toNat ∣ t'.alignment.toNat := by
  obtain ⟨i, -, hi⟩ := h.alignment
  obtain ⟨j, -, hj⟩ := h'.alignment
  rw [hi, hj] at hle ⊢
  exact Nat.pow_dvd_pow 2 ((Nat.pow_le_pow_iff_right (by decide)).mp hle)

section Struct

variable {size : SizeT .linuxX64} {alignment : BitVec 16} {elements : List (FfiType .linuxX64)}
  (hnatural : ∀ e ∈ elements, Natural e)
  (hlayout : (⟨size.toNat, alignment.toNat⟩ : Layout) =
    structLayout (elements.map FfiType.layout))
include hnatural hlayout

theorem element_dvd (hne : elements ≠ []) {e : FfiType .linuxX64} (he : e ∈ elements) :
    e.alignment.toNat ∣ alignment.toNat := by
  refine (hnatural e he).alignment_dvd_of_le (.struct hne hnatural hlayout) ?_
  have halign : alignment.toNat = maxAlignment (elements.map FfiType.layout) :=
    congrArg Layout.alignment hlayout
  rw [halign]
  exact (isGreatest_maxAlignment (by simpa using hne)).2
    ⟨e.layout, List.mem_map_of_mem he, rfl⟩

theorem extent_le_size (hne : elements ≠ []) :
    extent 0 (elements.map FfiType.layout) ≤ size.toNat := by
  have hsize : size.toNat = _ := congrArg Layout.size hlayout
  rw [hsize]
  exact le_alignUp _ (maxAlignment_pos (by simpa using hne)
    (layout_alignment_pos' fun e he => (hnatural e he).alignment_pos))

end Struct

/-- An alignment of at most sixteen, in the eight bytes an aligned offset lies in. -/
theorem alignment_dvd_mod (h : Natural t) {n : ℕ} (hn : t.alignment.toNat ∣ n) :
    t.alignment.toNat ∣ n % 8 := by
  obtain ⟨j, hj, heq⟩ := h.alignment
  rw [heq] at hn ⊢
  rcases Nat.lt_or_ge j 4 with hlt | hge
  · exact (Nat.dvd_mod_iff (Nat.pow_dvd_pow 2 (by omega : j ≤ 3))).mpr hn
  · have h8 : 8 ∣ n := Nat.dvd_trans (Nat.pow_dvd_pow 2 (by omega : 3 ≤ j)) hn
    rw [Nat.mod_eq_zero_of_dvd h8]
    exact Nat.dvd_zero _

theorem dvd_size (h : Natural t) : t.alignment.toNat ∣ t.size.toNat := by
  cases h with
  | scalar s hs =>
    obtain ⟨hsize, halign, -⟩ := scalar_size hs
    exact ⟨1, by rw [Nat.mul_one, hsize, halign]⟩
  | struct hne hnatural hlayout =>
    have hsize := congrArg Layout.size hlayout
    have halign := congrArg Layout.alignment hlayout
    simp only at hsize halign
    rw [hsize, halign]
    exact dvd_alignUp _ _

theorem size_pos (h : Natural t) : 0 < t.size.toNat := by
  induction h with
  | scalar s hs =>
    obtain ⟨hsize, -, j, -, hj⟩ := scalar_size hs
    rw [hsize, hj]
    exact Nat.two_pow_pos j
  | @struct size alignment elements hne hnatural hlayout ih =>
    obtain ⟨e, he⟩ := List.exists_mem_of_ne_nil elements hne
    have hle := size_le_extent (layout_alignment_pos' fun e he => (hnatural e he).alignment_pos) 0
      e.layout (List.mem_map_of_mem he)
    exact Nat.lt_of_lt_of_le (ih e he) (hle.trans (extent_le_size hnatural hlayout hne))

end Natural

/-! ### The leaves of a natural type -/

/-- What is known of a number or pointer in a value of type `t`. -/
structure LeafOf (t : FfiType .linuxX64) (l : Leaf) : Prop where
  scalar : ∃ s : FFIType, s.isScalar = true ∧ l.size = s.size .linuxX64 ∧ l.type = s.code .linuxX64
  dvd_offset : l.size ∣ l.offset
  dvd_alignment : l.size ∣ t.alignment.toNat
  stop_le : l.stop ≤ t.size.toNat

namespace LeafOf

variable {t : FfiType .linuxX64} {l : Leaf}

theorem size_eq (h : LeafOf t l) : ∃ j ≤ 4, l.size = 2 ^ j := by
  obtain ⟨s, hs, hsize, -⟩ := h.scalar
  obtain ⟨-, -, j, hj, heq⟩ := scalar_size hs
  exact ⟨j, hj, hsize.trans heq⟩

theorem size_pos (h : LeafOf t l) : 0 < l.size := by
  obtain ⟨j, -, hj⟩ := h.size_eq
  exact hj ▸ Nat.two_pow_pos j

theorem type_ne_struct (h : LeafOf t l) : l.type ≠ .struct := by
  obtain ⟨s, hs, -, htype⟩ := h.scalar
  rw [htype]
  cases s <;> first | decide | cases hs

/-- A `long double` takes sixteen bytes, and nothing else does: all other numbers have at most
eight. -/
theorem size_eq_sixteen (h : LeafOf t l) : l.size = 16 ↔ l.type = .longdouble := by
  obtain ⟨s, hs, hsize, htype⟩ := h.scalar
  rw [hsize, htype]
  cases s <;> first | decide | cases hs

/-- Floating point numbers take a multiple of four bytes, so that an upper half of a word is never
cut by one. -/
theorem four_dvd (h : LeafOf t l) (hl : l.isInteger = false) : 4 ∣ l.size := by
  obtain ⟨s, hs, hsize, htype⟩ := h.scalar
  rw [Leaf.isInteger, htype] at hl
  rw [hsize]
  revert hl
  cases s <;> first | decide | cases hs

theorem size_le_eight (h : LeafOf t l) (hl : l.type ≠ .longdouble) : l.size ≤ 8 := by
  obtain ⟨s, hs, hsize, htype⟩ := h.scalar
  rw [htype] at hl
  rw [hsize]
  revert hl
  cases s <;> first | decide | cases hs

end LeafOf

namespace Natural

variable {t : FfiType .linuxX64}

/-- The leaves of a struct are those of its elements, where these lie. -/
theorem mem_leaves_struct {elements : List (FfiType .linuxX64)}
    (hnatural : ∀ e ∈ elements, Natural e) {n : ℕ} {l : Leaf} (hl : l ∈ leavesFrom n elements) :
    ∃ e ∈ elements, ∃ o, e.alignment.toNat ∣ o ∧ n ≤ o ∧
      o + e.size.toNat ≤ extent n (elements.map FfiType.layout) ∧
      ∃ l' ∈ leaves e, l'.shift o = l := by
  obtain ⟨p, hp, l', hl', rfl⟩ := mem_leavesFrom.mp hl
  obtain ⟨hdvd, hle, hend⟩ :=
    place_of_mem_placed (fun e he => (hnatural e he).alignment_pos) hp
  exact ⟨p.1, (of_mem_placed hp).1, p.2, hdvd, hle, hend, l', hl', rfl⟩

/-- Every leaf of a natural type has the size and alignment of its number, and lies within the type.
-/
theorem leafOf (h : Natural t) {l : Leaf} (hl : l ∈ leaves t) : LeafOf t l := by
  induction h generalizing l with
  | scalar s hs =>
    obtain ⟨hsize, halign, -⟩ := scalar_size hs
    rw [leaves_scalar hs, List.mem_singleton] at hl
    subst hl
    exact ⟨⟨s, hs, rfl, rfl⟩, Nat.dvd_zero _, ⟨1, by rw [Nat.mul_one, halign]⟩,
      (Nat.zero_add _).trans_le hsize.ge⟩
  | @struct size alignment elements hne hnatural hlayout ih =>
    obtain ⟨e, he, o, hdvd, -, hend, l', hl', rfl⟩ := mem_leaves_struct hnatural hl
    obtain ⟨hscalar, hoffset, halign, hstop⟩ := ih e he hl'
    refine ⟨hscalar, Nat.dvd_add (Nat.dvd_trans halign hdvd) hoffset,
      Nat.dvd_trans halign (element_dvd hnatural hlayout hne he), ?_⟩
    have hsize := extent_le_size hnatural hlayout hne
    change (l'.shift o).stop ≤ size.toNat
    rw [Leaf.stop_shift]
    omega

/-- Some number or pointer is what a type is aligned for. -/
theorem exists_leaf_alignment (h : Natural t) : ∃ l ∈ leaves t, l.size = t.alignment.toNat := by
  induction h with
  | scalar s hs =>
    rw [leaves_scalar hs]
    exact ⟨_, List.mem_singleton.mpr rfl, (scalar_size hs).2.1.symm⟩
  | @struct size alignment elements hne hnatural hlayout ih =>
    obtain ⟨f, hf, hmax⟩ :=
      (@isGreatest_maxAlignment (elements.map FfiType.layout) (by simpa using hne)).1
    obtain ⟨e, he, rfl⟩ := List.mem_map.mp hf
    obtain ⟨l, hl, hsize⟩ := ih e he
    obtain ⟨o, ho⟩ := exists_mem_placed (n := 0) he
    exact ⟨l.shift o, mem_leavesFrom.mpr ⟨_, ho, l, hl, rfl⟩,
      hsize.trans (hmax.trans (congrArg Layout.alignment hlayout).symm)⟩

theorem alignment_le_eight (h : Natural t) (hno : ∀ l ∈ leaves t, l.type ≠ .longdouble) :
    t.alignment.toNat ∣ 8 := by
  obtain ⟨l, hl, hsize⟩ := h.exists_leaf_alignment
  have hle := (h.leafOf hl).size_le_eight (hno l hl)
  obtain ⟨j, hj, heq⟩ := (h.leafOf hl).size_eq
  rw [← hsize, heq]
  rw [heq] at hle
  exact Nat.pow_dvd_pow 2 ((Nat.pow_le_pow_iff_right (m := 3) (by decide)).mp hle)

/-! ### No eight bytes are padding only -/

theorem exists_leaf_zero (h : Natural t) : ∃ l ∈ leaves t, l.offset = 0 := by
  induction h with
  | scalar s hs =>
    rw [leaves_scalar hs]
    exact ⟨_, List.mem_singleton.mpr rfl, rfl⟩
  | @struct size alignment elements hne hnatural hlayout ih =>
    rcases elements with _ | ⟨e, es⟩
    · exact absurd rfl hne
    · obtain ⟨l, hl, hzero⟩ := ih e (List.mem_cons_self ..)
      refine ⟨l.shift 0, mem_leavesFrom.mpr ⟨(e, 0), ?_, l, hl, rfl⟩, ?_⟩
      · rw [placed_cons, alignUp_zero]
        exact List.mem_cons_self ..
      · simpa using hzero

/-- A value that reaches past an aligned place has a number or a pointer that does. -/
theorem exists_lt_stop (h : Natural t) {b m : ℕ} (hb : t.alignment.toNat ∣ b)
    (hm : t.alignment.toNat ∣ m) (hlt : m < b + t.size.toNat) :
    ∃ l ∈ leaves t, m < b + l.stop := by
  induction h generalizing b with
  | scalar s hs =>
    rw [leaves_scalar hs]
    refine ⟨_, List.mem_singleton.mpr rfl, ?_⟩
    rw [(scalar_size hs).1] at hlt
    simpa [Leaf.stop] using hlt
  | @struct size alignment elements hne hnatural hlayout ih =>
    simp only at hb hm hlt
    have hsize : size.toNat = alignUp (extent 0 (elements.map FfiType.layout)) alignment.toNat := by
      have halign := congrArg Layout.alignment hlayout
      simp only at halign
      rw [halign]
      exact congrArg Layout.size hlayout
    -- the padding at the end does not reach the next aligned place
    have hextent : m < b + extent 0 (elements.map FfiType.layout) := by
      by_contra hle
      obtain ⟨c, rfl⟩ := Nat.exists_eq_add_of_le (show b ≤ m by omega)
      have hc := (Nat.dvd_add_right hb).mp hm
      have hup := alignUp_le hc (show extent 0 (elements.map FfiType.layout) ≤ c by omega)
      omega
    obtain ⟨p, hp, hend⟩ := exists_placed_end (n := 0) hne
    have hmem := (of_mem_placed hp).1
    have hdvd := (place_of_mem_placed (fun e he => (hnatural e he).alignment_pos) hp).1
    have helem := element_dvd hnatural hlayout hne hmem
    obtain ⟨l, hl, hstop⟩ := ih p.1 hmem (b := b + p.2)
      (Nat.dvd_add (Nat.dvd_trans helem hb) hdvd) (Nat.dvd_trans helem hm) (by omega)
    refine ⟨l.shift p.2, mem_leavesFrom.mpr ⟨p, hp, l, hl, rfl⟩, ?_⟩
    rw [Leaf.stop_shift]
    omega

/-- **No eight bytes are padding only**, in a value that travels in registers. -/
theorem exists_within (h : Natural t) (hno : ∀ l ∈ leaves t, l.type ≠ .longdouble)
    (hsize : t.size.toNat ≤ 16) {k : ℕ} (hk : 8 * k < t.size.toNat) :
    ∃ l ∈ leaves t, l.Within k := by
  rcases Nat.eq_zero_or_pos k with rfl | hpos
  · obtain ⟨l, hl, hzero⟩ := h.exists_leaf_zero
    have := (h.leafOf hl).size_pos
    exact ⟨l, hl, by rw [Leaf.Within, Leaf.stop]; omega⟩
  · have hone : k = 1 := by omega
    subst hone
    obtain ⟨l, hl, hstop⟩ := h.exists_lt_stop (b := 0) (m := 8) (Nat.dvd_zero _)
      (h.alignment_le_eight hno) (by omega)
    have hle := (h.leafOf hl).stop_le
    have hpos := (h.leafOf hl).size_pos
    rw [Leaf.stop] at hle hstop
    exact ⟨l, hl, by rw [Leaf.Within, Leaf.stop]; omega⟩

end Natural

/-! ### Classes that fit -/

/-- The class tells what lies in the `k`-th eight bytes. -/
structure FitsClass (c : RegClass) (k : ℕ) (L : List Leaf) : Prop where
  plain : c.isPlain = true
  no : c = .no ↔ ∀ l ∈ L, ¬l.Within k
  integer : c.isInteger = true ↔ ∃ l ∈ L, l.Within k ∧ l.isInteger = true
  x87 : c.isX87 = true ↔ ∃ l ∈ L, l.Within k ∧ l.type = .longdouble
  /-- The class that moves four bytes only. -/
  low : c.isSse = true → (c = .ssesf ↔ ∀ l ∈ L, l.Within k → l.stop ≤ 8 * k + 4)

theorem fitsClass_no {k : ℕ} {L : List Leaf} (h : ∀ l ∈ L, ¬l.Within k) : FitsClass .no k L where
  plain := rfl
  no := iff_of_true rfl h
  integer := iff_of_false (by decide) fun ⟨l, hl, hw, _⟩ => h l hl hw
  x87 := iff_of_false (by decide) fun ⟨l, hl, hw, _⟩ => h l hl hw
  low := fun h => by cases h

/-- A class fits a single number if it is of the number's kind, and is the one for a lone low
`float` just where the number ends in the lower half. -/
theorem fitsClass_singleton {c : RegClass} {k : ℕ} {l : Leaf} (hw : l.Within k)
    (hplain : c.isPlain = true) (hno : c ≠ .no) (hint : c.isInteger = l.isInteger)
    (hx87 : c.isX87 = true ↔ l.type = .longdouble)
    (hlow : c.isSse = true → (c = .ssesf ↔ l.stop ≤ 8 * k + 4)) : FitsClass c k [l] where
  plain := hplain
  no := iff_of_false hno fun h => h l (List.mem_singleton.mpr rfl) hw
  integer := by simp [hint, hw]
  x87 := by simp [hx87, hw]
  low := by simpa [hw] using hlow

namespace FitsClass

variable {c d : RegClass} {k : ℕ} {L L' : List Leaf}

theorem congr (h : FitsClass c k L) {k' : ℕ} {L' : List Leaf} {f : Leaf → Leaf}
    (hL : L' = L.map f) (hw : ∀ l ∈ L, (f l).Within k' ↔ l.Within k)
    (hf : ∀ l ∈ L, (f l).type = l.type ∧ ((f l).stop ≤ 8 * k' + 4 ↔ l.stop ≤ 8 * k + 4)) :
    FitsClass c k' L' := by
  subst hL
  refine ⟨h.plain, h.no.trans ?_, h.integer.trans ?_, h.x87.trans ?_,
    fun hc => (h.low hc).trans ?_⟩
  · simp only [List.forall_mem_map]
    exact forall₂_congr fun l hl => not_congr (hw l hl).symm
  · simp only [List.mem_map, exists_exists_and_eq_and]
    refine exists_congr fun l => and_congr_right fun hl => ?_
    rw [hw l hl, Leaf.isInteger, Leaf.isInteger, (hf l hl).1]
  · simp only [List.mem_map, exists_exists_and_eq_and]
    refine exists_congr fun l => and_congr_right fun hl => ?_
    rw [hw l hl, (hf l hl).1]
  · simp only [List.forall_mem_map]
    exact forall₂_congr fun l hl => imp_congr (hw l hl).symm (hf l hl).2.symm

/-- When two classes fit the leaves of a word each, their merger fits the leaves of both, as long as
a `long double` meets nothing else. -/
theorem merge (h : FitsClass c k L) (h' : FitsClass d k L') (hcd : c.isX87 = true → d = .no)
    (hdc : d.isX87 = true → c = .no) : FitsClass (mergeClasses d c) k (L ++ L') := by
  obtain ⟨hplain, hx87⟩ := mergeClasses_isPlain h'.plain h.plain hdc hcd
  have hc : c ≠ .memory := by rintro rfl; exact absurd h.plain (by decide)
  have hd : d ≠ .memory := by rintro rfl; exact absurd h'.plain (by decide)
  have hlow {c : RegClass} {L : List Leaf} (h : FitsClass c k L)
      (hc : c = .no ∨ c.isSse = true) :
      (c = .no ∨ c = .ssesf) ↔ ∀ l ∈ L, l.Within k → l.stop ≤ 8 * k + 4 := by
    rcases hc with rfl | hc
    · exact iff_of_true (.inl rfl) fun l hl hw => absurd hw (h.no.mp rfl l hl)
    · rw [← h.low hc]
      refine or_iff_right ?_
      rintro rfl
      cases hc
  refine ⟨hplain, ?_, ?_, ?_, fun hsse => ?_⟩
  · rw [mergeClasses_eq_no, h.no, h'.no, List.forall_mem_append, and_comm]
  · rw [isInteger_mergeClasses hd hc, Bool.or_eq_true, h.integer, h'.integer, or_comm]
    simp only [List.mem_append, or_and_right, exists_or]
  · rw [hx87, Bool.or_eq_true, h.x87, h'.x87, or_comm]
    simp only [List.mem_append, or_and_right, exists_or]
  · obtain ⟨hd', hc'⟩ := isSse_of_mergeClasses hsse
    rw [mergeClasses_eq_ssesf hsse, hlow h' hd', hlow h hc', List.forall_mem_append, and_comm]

end FitsClass

/-! ### Classification -/

/-- What the code makes of a value that starts `o` bytes into its first eight. -/
def Classified (t : FfiType .linuxX64) (o : SizeT .linuxX64) : Prop :=
  ∃ classes, classifyArgument t o = some classes ∧ (∀ c ∈ classes, c ≠ .sseup) ∧
    (t.type = .struct → 16 < o.toNat + t.size.toNat → classes = []) ∧
    (o.toNat + t.size.toNat ≤ 16 →
      classes.length = (o.toNat + t.size.toNat + 7) / 8 ∧
        ∀ k c, classes[k]? = some c → FitsClass c k ((leaves t).map (.shift o.toNat)))

theorem classifyInteger_eq (size o : SizeT .linuxX64) (h : o.toNat + size.toNat ≤ 8) :
    ∃ c, classifyInteger size o = [c] ∧ c.isInteger = true := by
  have hsum : (o + size).toNat = o.toNat + size.toNat := by
    rw [BitVec.toNat_add]
    exact Nat.mod_eq_of_lt (Nat.lt_of_le_of_lt h (by decide))
  rw [classifyInteger]
  split
  · exact ⟨_, rfl, rfl⟩
  · rw [if_pos]
    · exact ⟨_, rfl, rfl⟩
    · rw [BitVec.le_def, hsum]
      exact h

/-- A number whose classification is a single class has one class for its word, and this class fits
it. -/
theorem classified_one {s : FFIType} (hs : s.isScalar = true) {o : SizeT .linuxX64} {c : RegClass}
    (hclassify : classifyArgument s.scalarType o = some [c])
    (hfits : o.toNat + s.size .linuxX64 ≤ 8) (hplain : c.isPlain = true) (hno : c ≠ .no)
    (hint : c.isInteger = (⟨0, 0, s.code .linuxX64⟩ : Leaf).isInteger)
    (hx87 : c.isX87 = true ↔ s.code .linuxX64 = .longdouble)
    (hlow : c.isSse = true → (c = .ssesf ↔ o.toNat + s.size .linuxX64 ≤ 4)) :
    Classified s.scalarType o := by
  obtain ⟨hsize, -, j, -, hj⟩ := scalar_size hs
  have hpos : 0 < s.size .linuxX64 := hj ▸ Nat.two_pow_pos j
  refine ⟨[c], hclassify, ?_, fun _ h => ?_, fun _ => ⟨?_, fun k d hd => ?_⟩⟩
  · intro d hd
    rw [List.mem_singleton] at hd
    rintro rfl
    rw [← hd] at hplain
    exact absurd hplain (by decide)
  · rw [hsize] at h
    omega
  · rw [hsize, List.length_singleton]
    omega
  · have hk : k = 0 := by
      have hlt := (List.getElem?_eq_some_iff.mp hd).1
      rw [List.length_singleton] at hlt
      omega
    subst hk
    cases hd
    rw [leaves_scalar hs, List.map_singleton]
    refine fitsClass_singleton ⟨?_, ?_⟩ hplain hno hint hx87 fun hc => ?_
    · change o.toNat + 0 < 8 * 0 + 8
      omega
    · change 8 * 0 < o.toNat + 0 + s.size .linuxX64
      omega
    · rw [hlow hc]
      simp [Leaf.stop, Leaf.shift]

/-- A size that divides eight and an aligned start below eight: what lies there ends within the
word. -/
theorem add_le_eight_of_dvd {o n : ℕ} (ho : o < 8) (hdvd : n ∣ o) (hn : n ∣ 8) : o + n ≤ 8 := by
  obtain ⟨c, rfl⟩ := hdvd
  obtain ⟨d, hd⟩ := hn
  rw [hd] at ho ⊢
  have hcd : c < d := Nat.lt_of_mul_lt_mul_left ho
  exact (Nat.mul_succ n c).symm.trans_le (Nat.mul_le_mul_left n hcd)

/-- A number or a pointer at an aligned place in a word is classified with a class that fits it. -/
theorem classified_scalar {s : FFIType} (hs : s.isScalar = true) {o : SizeT .linuxX64}
    (ho : o.toNat < 8) (hdvd : s.size .linuxX64 ∣ o.toNat) : Classified s.scalarType o := by
  have hinteger (hcode : ∀ p, classifyArgument s.scalarType p =
      some (classifyInteger s.scalarType.size p)) (h8 : s.size .linuxX64 ∣ 8)
      (hint : (⟨0, 0, s.code .linuxX64⟩ : Leaf).isInteger = true) : Classified s.scalarType o := by
    have hfits := add_le_eight_of_dvd ho hdvd h8
    obtain ⟨c, hc, hc'⟩ := classifyInteger_eq s.scalarType.size o
      (by rw [(scalar_size hs).1]; exact hfits)
    refine classified_one hs ((hcode o).trans (congrArg some hc)) hfits ?_ ?_ (hc'.trans hint.symm)
      ?_ fun hsse => ?_
    · cases c <;> first | rfl | cases hc'
    · rintro rfl
      cases hc'
    · refine iff_of_false ?_ fun hcode => ?_
      · cases c <;> first | decide | cases hc'
      · simp [Leaf.isInteger, hcode] at hint
    · cases c <;> first | exact absurd hsse (by decide) | exact absurd hc' (by decide)
  -- the only multiple of eight below eight
  have hzero (h8 : 8 ∣ s.size .linuxX64) : o.toNat = 0 :=
    Nat.eq_zero_of_dvd_of_lt (Nat.dvd_trans h8 hdvd) ho
  cases s with
  | void => cases hs
  | struct => cases hs
  | uint8 | sint8 | uint16 | sint16 | uint32 | sint32 | uint64 | sint64 | pointer =>
    exact hinteger (fun _ => rfl) (by decide) rfl
  | float =>
    have hfits := add_le_eight_of_dvd ho hdvd (by decide)
    by_cases hz : o % 8 = 0
    · refine classified_one (c := .ssesf) hs (if_pos hz) hfits rfl (by decide) rfl (by decide)
        fun _ => iff_of_true rfl ?_
      have hmod : o.toNat % 8 = 0 := congrArg BitVec.toNat hz
      have hoz : o.toNat = 0 := by omega
      rw [hoz]
      decide
    · refine classified_one (c := .sse) hs (if_neg hz) hfits rfl (by decide) rfl (by decide)
        fun _ => iff_of_false (by decide) fun hle => hz ?_
      have hoz : o.toNat = 0 := by
        change o.toNat + 4 ≤ 4 at hle
        omega
      rw [BitVec.eq_of_toNat_eq (x := o) (y := 0) hoz]
      rfl
  | double =>
    refine classified_one (c := .ssedf) hs rfl ?_ rfl (by decide) rfl (by decide) fun _ => ?_
    · rw [hzero (by decide)]
      decide
    · rw [hzero (by decide)]
      decide
  | longdouble =>
    have hoz := hzero (by decide)
    refine ⟨[.x87, .x87up], rfl, by decide, (fun h => by cases h), fun _ => ⟨?_, fun k c hc => ?_⟩⟩
    · rw [hoz]
      rfl
    · rw [leaves_scalar hs, List.map_singleton, hoz]
      have hk : k = 0 ∨ k = 1 := by
        have hlt : k < 2 := (List.getElem?_eq_some_iff.mp hc).1
        omega
      rcases hk with rfl | rfl
      · cases hc
        exact fitsClass_singleton (by decide) rfl (by decide) rfl (by decide) (fun h => by cases h)
      · cases hc
        exact fitsClass_singleton (by decide) rfl (by decide) rfl (by decide) (fun h => by cases h)

/-- The classes of an element, in the words it covers and in the others. -/
theorem fitsClass_at {t : FfiType .linuxX64} {A : ℕ} {subclasses : List RegClass}
    (hstop : ∀ l ∈ leaves t, l.stop ≤ t.size.toNat)
    (hlen : subclasses.length = (A % 8 + t.size.toNat + 7) / 8)
    (hfits : ∀ k c, subclasses[k]? = some c → FitsClass c k ((leaves t).map (.shift (A % 8))))
    (k : ℕ) :
    FitsClass (if A / 8 ≤ k then (subclasses[k - A / 8]?).getD .no else .no) k
      ((leaves t).map (.shift A)) := by
  have hA : 8 * (A / 8) + A % 8 = A := Nat.div_add_mod A 8
  split
  case isTrue hle =>
    cases hget : subclasses[k - A / 8]? with
    | none =>
      refine fitsClass_no fun l hl hw => ?_
      obtain ⟨l, hl', rfl⟩ := List.mem_map.mp hl
      have hlt := List.getElem?_eq_none_iff.mp hget
      have hle := hstop l hl'
      have hw := hw.2
      rw [Leaf.stop_shift] at hw
      omega
    | some c =>
      refine (hfits _ _ hget).congr (f := .shift (8 * (A / 8))) ?_ (fun l hl => ?_)
        fun l hl => ⟨rfl, ?_⟩
      · simp [Function.comp_def, hA]
      · rw [Leaf.Within, Leaf.Within, Leaf.stop_shift, Leaf.shift]
        simp only
        omega
      · rw [Leaf.stop_shift]
        omega
  case isFalse hlt =>
    refine fitsClass_no fun l hl hw => ?_
    obtain ⟨l, -, rfl⟩ := List.mem_map.mp hl
    have hw := hw.1
    simp only [Leaf.shift] at hw
    omega

/-- Merging words that are no upper halves makes none: `X86_64_SSEUP_CLASS` never arises from a
merger. -/
theorem mergeAt_ne_sseup (n : ℕ) {subclasses classes : List RegClass}
    (hsub : ∀ c ∈ subclasses, c ≠ .sseup) (hsup : ∀ c ∈ classes, c ≠ .sseup) :
    ∀ c ∈ mergeAt n subclasses classes, c ≠ .sseup := by
  intro c hc
  obtain ⟨k, hk⟩ := List.mem_iff_getElem?.mp hc
  rw [getElem?_mergeAt, Option.map_eq_some_iff] at hk
  obtain ⟨d, hd, rfl⟩ := hk
  refine mergeClasses_ne_sseup ?_ (hsup d (List.mem_of_getElem? hd))
  split
  · cases hget : subclasses[k - n]? with
    | none => decide
    | some s => exact hsub s (List.mem_of_getElem? hget)
  · decide

/-- The loop over the elements of a struct gives each word a class that fits what lies there, when
the classes before it fit the leaves `L` of the elements before. -/
theorem classifyElements_spec {elements : List (FfiType .linuxX64)}
    (helements : ∀ e ∈ elements, Natural e ∧ ∀ o : SizeT .linuxX64, o.toNat < 8 →
      e.alignment.toNat ∣ o.toNat → o.toNat + e.size.toNat ≤ 32 → Classified e o)
    {b : SizeT .linuxX64} (classes : List RegClass) (hsup : ∀ c ∈ classes, c ≠ .sseup)
    (hroom : extent b.toNat (elements.map FfiType.layout) ≤ 32) :
    (classifyElements elements b classes = some [] ∧
        16 < extent b.toNat (elements.map FfiType.layout)) ∨
      ∃ cs, classifyElements elements b classes = some (finishStruct cs) ∧
        cs.length = classes.length ∧ (∀ c ∈ cs, c ≠ .sseup) ∧
        (extent b.toNat (elements.map FfiType.layout) ≤ 16 → ∀ L : List Leaf,
          (∀ l ∈ L, 0 < l.size ∧ (l.type = .longdouble → l.size = 16) ∧ l.stop ≤ b.toNat) →
          (∀ k c, classes[k]? = some c → FitsClass c k L) →
          ∀ k c, cs[k]? = some c → FitsClass c k (L ++ leavesFrom b.toNat elements)) := by
  induction elements generalizing b classes with
  | nil =>
    refine .inr ⟨classes, rfl, rfl, hsup, fun _ L _ hfits k c hc => ?_⟩
    rw [leavesFrom, List.append_nil]
    exact hfits k c hc
  | cons e es ih =>
    obtain ⟨hnatural, hclassified⟩ := helements e (List.mem_cons_self ..)
    have htail := fun f hf => helements f (List.mem_cons_of_mem e hf)
    have hpos := layout_alignment_pos' fun f hf => (htail f hf).1.alignment_pos
    rw [extent_map_cons] at hroom ⊢
    -- where the element starts
    have hend := le_extent hpos (alignUp b.toNat e.alignment.toNat + e.size.toNat)
    have hstart : (FFI_ALIGN b e.alignment).toNat = alignUp b.toNat e.alignment.toNat := by
      refine toNat_FFI_ALIGN hnatural.isPowerOfTwo (Nat.lt_of_le_of_lt ?_ (by decide : 32 < 2 ^ 64))
      exact (Nat.le_add_right _ _).trans (hend.trans hroom)
    have hmod : (FFI_ALIGN b e.alignment % 8).toNat = alignUp b.toNat e.alignment.toNat % 8 := by
      rw [BitVec.toNat_umod, hstart]
      rfl
    have hdiv : (FFI_ALIGN b e.alignment / 8).toNat = alignUp b.toNat e.alignment.toNat / 8 := by
      rw [BitVec.toNat_udiv, hstart]
      rfl
    have hnext : (FFI_ALIGN b e.alignment + e.size).toNat =
        alignUp b.toNat e.alignment.toNat + e.size.toNat := by
      rw [BitVec.toNat_add, hstart]
      exact Nat.mod_eq_of_lt (Nat.lt_of_le_of_lt (hend.trans hroom) (by decide))
    generalize hA : alignUp b.toNat e.alignment.toNat = A at *
    have hAdvd : e.alignment.toNat ∣ A := hA ▸ dvd_alignUp _ _
    have hbA : b.toNat ≤ A := hA ▸ le_alignUp _ hnatural.alignment_pos
    obtain ⟨subclasses, hsub, hsubsup, -, hsubfits⟩ := hclassified (FFI_ALIGN b e.alignment % 8)
      (by omega) (hmod ▸ hnatural.alignment_dvd_mod hAdvd) (by omega)
    rw [hmod] at hsubfits
    have hsize := hnatural.size_pos
    rw [classifyElements_cons hsub]
    by_cases hnil : subclasses = []
    · refine .inl ⟨if_pos hnil, ?_⟩
      by_contra hle
      have hlen := (hsubfits (by omega)).1
      rw [hnil, List.length_nil] at hlen
      omega
    · rw [if_neg hnil, hdiv]
      have ih' := ih htail (b := FFI_ALIGN b e.alignment + e.size) _
        (mergeAt_ne_sseup (A / 8) hsubsup hsup)
        (by rw [hnext]; exact hroom)
      rw [hnext, length_mergeAt] at ih'
      refine ih'.imp_right fun ⟨cs, hcs, hlen, hcssup, hcsfits⟩ => ⟨cs, hcs, hlen, hcssup, ?_⟩
      intro hsmall L hL hLfits
      rw [leavesFrom, ← List.append_assoc, hA]
      refine hcsfits hsmall _ (fun l hl => ?_) fun k c hc => ?_
      · rcases List.mem_append.mp hl with hl | hl
        · obtain ⟨hpos, hlong, hstop⟩ := hL l hl
          exact ⟨hpos, hlong, by omega⟩
        · obtain ⟨l', hl', rfl⟩ := List.mem_map.mp hl
          have hof := hnatural.leafOf hl'
          refine ⟨hof.size_pos, hof.size_eq_sixteen.mpr, ?_⟩
          rw [Leaf.stop_shift]
          exact Nat.add_le_add_left hof.stop_le A
      · rw [getElem?_mergeAt, Option.map_eq_some_iff] at hc
        obtain ⟨d, hd, rfl⟩ := hc
        obtain ⟨hsublen, hsubfits⟩ := hsubfits (by omega)
        have hd := hLfits k d hd
        have hsub := fitsClass_at (fun l hl => (hnatural.leafOf hl).stop_le) hsublen hsubfits k
        refine hd.merge hsub (fun hx87 => ?_) fun hx87 => ?_
        · -- behind a `long double` there is no room
          obtain ⟨l, hl, -, htype⟩ := hd.x87.mp hx87
          obtain ⟨-, hlong, hstop⟩ := hL l hl
          have := hlong htype
          rw [Leaf.stop] at hstop
          omega
        · -- and none before one
          obtain ⟨l, hl, -, htype⟩ := hsub.x87.mp hx87
          obtain ⟨l', hl', rfl⟩ := List.mem_map.mp hl
          have hof := hnatural.leafOf hl'
          have hsixteen := hof.size_eq_sixteen.mpr htype
          have hle := hof.stop_le
          rw [Leaf.stop] at hle
          refine hd.no.mpr fun l hl hw => ?_
          obtain ⟨hpos, -, hstop⟩ := hL l hl
          rw [Leaf.stop] at hstop
          omega

/-- The number of words that `classify_argument` computes in machine arithmetic is the one that the
bytes take. -/
theorem toNat_words {size o : BitVec 64} (h : o.toNat + size.toNat ≤ 32) :
    ((size + o + 8 - 1) / 8).toNat = (o.toNat + size.toNat + 7) / 8 := by
  have hsum : (size + o + 8 - 1).toNat = o.toNat + size.toNat + 7 := by bv_omega
  rw [BitVec.toNat_udiv, hsum]
  rfl

/-- A natural type of at most thirty-two bytes gets one class for each of its words, and each class
fits the leaves that lie in the word. -/
theorem Natural.classified {t : FfiType .linuxX64} (h : Natural t) {o : SizeT .linuxX64}
    (ho : o.toNat < 8) (hdvd : t.alignment.toNat ∣ o.toNat) (hroom : o.toNat + t.size.toNat ≤ 32) :
    Classified t o := by
  induction h generalizing o with
  | scalar s hs => exact classified_scalar hs ho ((scalar_size hs).2.1 ▸ hdvd)
  | @struct size alignment elements hne hnatural hlayout ih =>
    simp only at hdvd hroom
    have hsize : 0 < size.toNat := (Natural.struct hne hnatural hlayout).size_pos
    have hle := extent_le_size hnatural hlayout hne
    have helemdvd : ∀ e ∈ elements, e.alignment.toNat ∣ o.toNat := fun e he =>
      Nat.dvd_trans (element_dvd hnatural hlayout hne he) hdvd
    have hextent : extent o.toNat (elements.map FfiType.layout) =
        o.toNat + extent 0 (elements.map FfiType.layout) := by
      refine extent_add (k := o.toNat) (fun f hf => ?_) 0
      obtain ⟨e, he, rfl⟩ := List.mem_map.mp hf
      exact helemdvd e he
    have hleaves : leavesFrom o.toNat elements = (leavesFrom 0 elements).map (.shift o.toNat) :=
      leavesFrom_add (k := o.toNat) helemdvd 0
    -- the words of the struct
    have hwords : ((size + o + 8 - 1) / 8).toNat = (o.toNat + size.toNat + 7) / 8 :=
      toNat_words hroom
    have hclassify : classifyArgument ⟨size, alignment, .struct, elements⟩ o =
        classifyElements elements o
          (List.replicate ((o.toNat + size.toNat + 7) / 8) .no) := by
      rw [classifyArgument]
      simp only [hwords]
      rw [if_neg, if_neg, if_neg]
      · omega
      · rw [MAX_CLASSES]
        omega
      · rw [BitVec.lt_def]
        change ¬32 < size.toNat
        omega
    rw [Classified, hclassify]
    have hspec := classifyElements_spec
      (fun e he => ⟨hnatural e he, fun p hp hd hr => ih e he hp hd hr⟩) (b := o)
      (List.replicate ((o.toNat + size.toNat + 7) / 8) .no)
      (fun c hc => by rw [List.eq_of_mem_replicate hc]; decide) (by omega)
    rw [hextent] at hspec
    rcases hspec with ⟨hcs, hbig⟩ | ⟨cs, hcs, hlen, hsup, hfits⟩
    · refine ⟨[], hcs, by simp, fun _ _ => rfl, fun h => ?_⟩
      simp only at h
      omega
    · rw [List.length_replicate] at hlen
      simp only
      rcases Nat.lt_or_ge 16 (o.toNat + size.toNat) with hbig | hsmall
      · refine ⟨[], hcs.trans (congrArg some (finishStruct_of_two_lt (by omega) hsup)), by simp,
          fun _ _ => rfl, fun h => ?_⟩
        omega
      · have hfits := hfits (by omega) [] (by simp) fun k c hc => by
          rw [List.eq_of_mem_replicate (List.mem_of_getElem? hc)]
          exact fitsClass_no (by simp)
        have hmemory : ∀ c ∈ cs, c ≠ .memory := by
          intro c hc
          obtain ⟨k, hk⟩ := List.mem_iff_getElem?.mp hc
          rintro rfl
          exact absurd (hfits k _ hk).plain (by decide)
        rw [finishStruct_of_length_le (by omega) hmemory] at hcs
        refine ⟨cs, hcs, hsup, fun _ h => absurd h (by omega), fun _ => ⟨hlen, fun k c hc => ?_⟩⟩
        rw [leaves_struct, ← hleaves]
        exact hfits k c hc

/-! ### How an argument is passed -/

/-- The ABI passes a value in memory. -/
def FfiType.InMemory (t : FfiType .linuxX64) : Prop :=
  16 < t.size.toNat ∨ ∃ l ∈ leaves t, l.type = .longdouble

instance (t : FfiType .linuxX64) : Decidable t.InMemory :=
  inferInstanceAs (Decidable (_ ∨ _))

/-- A value travels in registers: what `examine_argument` stores for it. -/
structure InRegisters (t : FfiType .linuxX64) (e : Examined) : Prop where
  size_le : t.size.toNat ≤ 16
  n_eq : e.n = (t.size.toNat + 7) / 8
  length_eq : e.classes.length = e.n
  ngpr_eq : e.ngpr = e.classes.countP RegClass.isInteger
  nsse_eq : e.nsse = e.classes.countP RegClass.isSse
  /-- Each class is for one of the two files of registers. -/
  isSse : ∀ c ∈ e.classes, c.isSse = !c.isInteger
  ne_sseup : ∀ c ∈ e.classes, c ≠ .sseup
  /-- For the general registers it is where an integer or a pointer lies. -/
  isInteger : ∀ k c, e.classes[k]? = some c →
    (c.isInteger = true ↔ ∃ l ∈ leaves t, l.Within k ∧ l.isInteger = true)
  /-- A class that moves four bytes has nothing in the other four. -/
  low : ∀ k, e.classes[k]? = some .ssesf → ∀ l ∈ leaves t, l.Within k → l.stop ≤ 8 * k + 4
  /-- The bytes that are moved to a vector register are there. -/
  room : ∀ k c, e.classes[k]? = some c → c.isSse = true →
    8 * k + (if c = .ssesf then 4 else 8) ≤ t.size.toNat

theorem countClasses_eq {inReturn : Bool} {classes cs : List RegClass}
    (h : ∀ c ∈ cs, c.isPlain = true ∧ c ≠ .no ∧ c.isX87 = false) (ngpr nsse : ℕ) :
    countClasses inReturn classes cs ngpr nsse =
      some ⟨classes.length, classes, ngpr + cs.countP RegClass.isInteger,
        nsse + cs.countP RegClass.isSse⟩ := by
  induction cs generalizing ngpr nsse with
  | nil => rfl
  | cons c cs ih =>
    have hc := h c (List.mem_cons_self ..)
    have ih := ih fun d hd => h d (List.mem_cons_of_mem c hd)
    cases c with
    | integer | integersi =>
      rw [countClasses, ih, List.countP_cons, List.countP_cons]
      simp only [RegClass.isInteger, RegClass.isSse, if_true, Bool.false_eq_true, if_false,
        Nat.add_zero, Nat.add_assoc, Nat.add_comm 1]
    | sse | ssesf | ssedf =>
      rw [countClasses, ih, List.countP_cons, List.countP_cons]
      simp only [RegClass.isInteger, RegClass.isSse, if_true, Bool.false_eq_true, if_false,
        Nat.add_zero, Nat.add_assoc, Nat.add_comm 1]
    | no => exact absurd rfl hc.2.1
    | sseup | complexX87 | memory => exact absurd hc.1 (by decide)
    | x87 | x87up => exact absurd hc.2.2 (by decide)

namespace Natural

variable {t : FfiType .linuxX64}

/-- A number or pointer in a value of at most sixteen bytes that has a `long double` in it. -/
theorem eq_of_longdouble (h : Natural t) (hsize : t.size.toNat ≤ 16) {l : Leaf}
    (hl : l ∈ leaves t) (htype : l.type = .longdouble) : l.Within 0 := by
  have hof := h.leafOf hl
  have hstop := hof.stop_le
  have := hof.size_eq_sixteen.mpr htype
  rw [Leaf.stop] at hstop
  rw [Leaf.Within, Leaf.stop]
  omega

/-- The classes of a value that travels in registers, also when it is returned. -/
theorem examine_inRegisters (h : Natural t) (hin : ¬t.InMemory) (inReturn : Bool) :
    ∃ e, examineArgument t inReturn = some e ∧ InRegisters t e := by
  rw [FfiType.InMemory, not_or, not_exists] at hin
  obtain ⟨hsize, hlong⟩ := hin
  have hno : ∀ l ∈ leaves t, l.type ≠ .longdouble := fun l hl htype => hlong l ⟨hl, htype⟩
  obtain ⟨classes, hclassify, hsup, -, hfits⟩ :=
    h.classified (o := 0) (by decide) (Nat.dvd_zero _) (by simp; omega)
  obtain ⟨hlen, hfits⟩ := hfits (by simp; omega)
  simp only [BitVec.ofNat_eq_ofNat, BitVec.toNat_ofNat, Nat.zero_mod, Nat.zero_add] at hlen hfits
  have hleaves : (leaves t).map (.shift 0) = leaves t :=
    (List.map_congr_left fun l _ => l.shift_zero).trans (List.map_id _)
  rw [hleaves] at hfits
  have hclass : ∀ c ∈ classes, c.isPlain = true ∧ c ≠ .no ∧ c.isX87 = false := by
    intro c hc
    obtain ⟨k, hk⟩ := List.mem_iff_getElem?.mp hc
    have hf := hfits k c hk
    refine ⟨hf.plain, fun hcno => ?_, Bool.eq_false_iff.mpr fun hx87 => ?_⟩
    · have hlt := (List.getElem?_eq_some_iff.mp hk).1
      obtain ⟨l, hl, hw⟩ := h.exists_within hno (by omega) (k := k) (by omega)
      exact hf.no.mp hcno l hl hw
    · obtain ⟨l, hl, -, htype⟩ := hf.x87.mp hx87
      exact hno l hl htype
  refine ⟨⟨classes.length, classes, classes.countP RegClass.isInteger,
    classes.countP RegClass.isSse⟩, ?_, by omega, hlen, rfl, rfl, rfl, fun c hc => ?_, hsup,
    fun k c hc => (hfits k c hc).integer, fun k hk => ((hfits k _ hk).low rfl).mp rfl,
    fun k c hc hsse => ?_⟩
  · rw [examineArgument, hclassify]
    change countClasses inReturn classes classes 0 0 = _
    rw [countClasses_eq hclass, Nat.zero_add, Nat.zero_add]
  · obtain ⟨hplain, hne, hx87⟩ := hclass c hc
    cases c <;> first
      | rfl
      | exact absurd rfl hne
      | exact absurd hplain (by decide)
      | exact absurd hx87 (by decide)
  · have hf := hfits k c hc
    -- what lies in these eight bytes are floats and doubles, which end at a multiple of four
    have hquad : ∀ l ∈ leaves t, l.Within k → 4 ∣ l.stop ∧ l.stop ≤ t.size.toNat := by
      intro l hl hw
      have hof := h.leafOf hl
      have hint : l.isInteger = false := by
        refine Bool.eq_false_iff.mpr fun hint => ?_
        have := hf.integer.mpr ⟨l, hl, hw, hint⟩
        revert this hsse
        cases c <;> decide
      refine ⟨?_, hof.stop_le⟩
      have hdvd := hof.four_dvd hint
      exact Nat.dvd_add (Nat.dvd_trans hdvd hof.dvd_offset) hdvd
    by_cases hlow : c = .ssesf
    · have hne : c ≠ .no := by
        rintro rfl
        cases hsse
      obtain ⟨l, hl, hw⟩ := not_forall.mp (mt hf.no.mpr hne) |>.imp fun l hl => by
        simpa using hl
      have := hquad l hl hw
      have := hw.2
      rw [if_pos hlow]
      omega
    · obtain ⟨l, hl, hw, hstop⟩ : ∃ l ∈ leaves t, l.Within k ∧ 8 * k + 4 < l.stop := by
        simpa using mt (hf.low hsse).mpr hlow
      have := hquad l hl hw
      rw [if_neg hlow]
      omega

/-- **A value in memory**: nothing of it travels in registers. A small one, which has a
`long double` in it, is returned otherwise. -/
theorem examine_inMemory (h : Natural t) (hin : t.InMemory) (inReturn : Bool) :
    ∃ e, examineArgument t inReturn = some e ∧
      (inReturn = false ∨ 16 < t.size.toNat → e.n = 0) := by
  rcases Nat.lt_or_ge 16 t.size.toNat with hbig | hsmall
  · have hnil : classifyArgument t 0 = some [] := by
      cases h with
      | scalar s hs =>
        obtain ⟨hsize, -, j, hj, heq⟩ := scalar_size hs
        have hle := Nat.pow_le_pow_right (n := 2) (by decide) hj
        omega
      | @struct size alignment elements hne hnatural hlayout =>
        rcases Nat.lt_or_ge 32 size.toNat with hlt | hle
        · rw [classifyArgument]
          exact if_pos (show (32 : SizeT .linuxX64) < size from hlt)
        · obtain ⟨classes, hclassify, -, hstruct, -⟩ :=
            (Natural.struct hne hnatural hlayout).classified (o := 0) (by decide)
              (Nat.dvd_zero _) (by simpa using hle)
          rw [hclassify, hstruct rfl (by simpa using hbig)]
    exact ⟨⟨0, [], 0, 0⟩, by rw [examineArgument, hnil]; rfl, fun _ => rfl⟩
  · obtain ⟨l, hl, htype⟩ := hin.resolve_left (by omega)
    obtain ⟨classes, hclassify, -, -, hfits⟩ :=
      h.classified (o := 0) (by decide) (Nat.dvd_zero _) (by simp; omega)
    obtain ⟨hlen, hfits⟩ := hfits (by simp; omega)
    simp only [BitVec.ofNat_eq_ofNat, BitVec.toNat_ofNat, Nat.zero_mod, Nat.zero_add] at hlen hfits
    -- the first class is one of the floating point stack
    have hpos := h.size_pos
    rcases classes with _ | ⟨c, cs⟩
    · rw [List.length_nil] at hlen
      omega
    · have hx87 : c.isX87 = true := (hfits 0 c rfl).x87.mpr
        ⟨l, List.mem_map.mpr ⟨l, hl, l.shift_zero⟩, h.eq_of_longdouble hsmall hl htype, htype⟩
      refine ⟨⟨inReturn.toNat, c :: cs, 0, 0⟩, ?_, fun hreturn => ?_⟩
      swap
      · rw [hreturn.resolve_right (by omega)]
        rfl
      rw [examineArgument, hclassify]
      change countClasses inReturn (c :: cs) (c :: cs) 0 0 = _
      cases c <;> first | rfl | cases hx87

end Natural

/-! ### The types that were built -/

/-- A number or a pointer as a builtin type. -/
def FFIType.builtinType (s : FFIType) (hs : s.isScalar = true) : BuiltinType .linuxX64 where
  toFfiType := s.scalarType
  alignment_pow := (Natural.scalar s hs).isPowerOfTwo
  alignment_dvd := (Natural.scalar s hs).dvd_size

/-- A type, and the `ffi_type` libffi looks at. -/
inductive Describes : FFIType → FfiType .linuxX64 → Prop
  | void : Describes .void ⟨1, 1, .void, []⟩
  | scalar (s : FFIType) (scalar : s.isScalar = true) : Describes s s.scalarType
  | struct {type : FfiType .linuxX64} (natural : Natural type) (struct : type.type = .struct) :
      Describes (.struct type.size.toNat type.alignment.toNat) type

/-- A tree of structs and arrays over numbers and pointers. -/
inductive TypeTree.OfScalars : TypeTree .linuxX64 → Prop
  | builtin (s : FFIType) (scalar : s.isScalar = true) : OfScalars (.builtin (s.builtinType scalar))
  | struct {fields : List (TypeTree .linuxX64)} (scalars : ∀ f ∈ fields, OfScalars f) :
      OfScalars (.aggregate false fields)
  | array {elem : TypeTree .linuxX64} (length : BitVec 32) (scalars : OfScalars elem) :
      OfScalars (.array elem length)

theorem type_foldl {pf : Platform} (isUnion : Bool) (types : List (FfiType pf)) (s : FfiType pf) :
    (types.foldl (addField isUnion) s).type = s.type := by
  induction types generalizing s with
  | nil => rfl
  | cons t ts ih => exact ih (addField isUnion s t)

/-- What `newStruct` and `newArray` build from numbers and pointers without unions is natural, when
its size fits into a `size_t`. -/
theorem Builds.natural {tree : TypeTree .linuxX64} {t : FfiType .linuxX64} (h : Builds tree t)
    (hs : tree.OfScalars)
    (hfits : tree.layout.size < 2 ^ (8 * Platform.linuxX64.ptrSize)) : Natural t := by
  induction h with
  | builtin t =>
    cases hs with
    | builtin s hscalar => exact .scalar s hscalar
  | @aggregate callocFails isUnion fields s hfields hcall ih =>
    have hlayout := (Builds.aggregate hfields hcall).layout_eq hfits
    obtain ⟨hne, rfl⟩ := newStruct_handle hcall
    generalize hg : fields.map Prod.fst = trees at hs hfits hlayout
    cases hs with
    | struct hscalars =>
      subst hg
      have hpos : ∀ f ∈ fields.map Prod.fst, 0 < f.layout.alignment := by
        intro f hf
        obtain ⟨g, hg, rfl⟩ := List.mem_map.mp hf
        obtain ⟨hpow, halign⟩ := (hfields g hg).alignment
        exact halign ▸ hpow.pos
      have hlt := size_lt_of_aggregate (by simpa using hne) hpos hfits
      have hlayouts := layouts_of_fields hfields (by simpa using hne) hfits
        fun f hf hsize => (hfields f hf).layout_eq hsize
      have htype := type_foldl false (fields.map Prod.snd) (emptyAggregate : FfiType .linuxX64)
      have helements := elements_foldl false (fields.map Prod.snd)
        (emptyAggregate : FfiType .linuxX64)
      have hnatural : ∀ e ∈ fields.map Prod.snd, Natural e := by
        intro e he
        obtain ⟨f, hf, rfl⟩ := List.mem_map.mp he
        have hmem : f.1 ∈ fields.map Prod.fst := List.mem_map_of_mem hf
        exact ih f hf (hscalars f.1 hmem) (hlt f.1 hmem)
      rw [TypeTree.layout, hlayouts] at hlayout
      simp only [htype, helements]
      exact .struct hne hnatural hlayout
  | @array callocFails elem e s length helem hcall ih =>
    have hdvd := helem.dvd_size
    have hlayout := (Builds.array helem hcall).layout_eq hfits
    obtain ⟨hlength, rfl⟩ := newArray_handle hcall
    have hpos := toNat_pos_of_toInt hlength
    cases hs with
    | array _ hscalars =>
      have hlt : elem.layout.size < 2 ^ (8 * Platform.linuxX64.ptrSize) :=
        Nat.lt_of_le_of_lt (Nat.le_mul_of_pos_left _ hpos) hfits
      refine .struct (by simp; omega) (fun e' he' => ?_) ?_
      · rw [List.eq_of_mem_replicate he']
        exact ih hscalars hlt
      · rw [List.map_replicate, structLayout_replicate helem.alignment.1.pos hdvd hpos]
        rw [TypeTree.layout, ← helem.layout_eq hlt] at hlayout
        exact hlayout

/-- **How libffi passes a built type** is how the ABI has it passed: in memory if it is large or has
a `long double`, and otherwise each of its words in a register of the right kind. -/
theorem examineArgument_built {tree : TypeTree .linuxX64} {t : FfiType .linuxX64}
    (h : Builds tree t) (hs : tree.OfScalars)
    (hfits : tree.layout.size < 2 ^ (8 * Platform.linuxX64.ptrSize)) :
    ∃ e, examineArgument t false = some e ∧ (t.InMemory → e.n = 0) ∧
      (¬t.InMemory → InRegisters t e) := by
  have hnatural := h.natural hs hfits
  by_cases hin : t.InMemory
  · obtain ⟨e, he, hzero⟩ := hnatural.examine_inMemory hin false
    exact ⟨e, he, fun _ => hzero (.inl rfl), fun h => absurd hin h⟩
  · obtain ⟨e, he, hregisters⟩ := hnatural.examine_inRegisters hin false
    exact ⟨e, he, fun h => absurd h hin, fun _ => hregisters⟩

/-- `struct { double d; float f; int i; }`. -/
def doubleFloatInt : FfiType .linuxX64 :=
  ⟨16, 8, .struct, [FFIType.double.scalarType, FFIType.float.scalarType, FFIType.sint32.scalarType]⟩

/-- … as the calls that build it see it. -/
def doubleFloatIntTree : TypeTree .linuxX64 :=
  .aggregate false [.builtin (FFIType.double.builtinType rfl),
    .builtin (FFIType.float.builtinType rfl), .builtin (FFIType.sint32.builtinType rfl)]

theorem builds_doubleFloatInt : Builds doubleFloatIntTree doubleFloatInt := by
  refine @Builds.aggregate _ (fun _ => false) false
    [(.builtin (FFIType.double.builtinType rfl), FFIType.double.scalarType),
      (.builtin (FFIType.float.builtinType rfl), FFIType.float.scalarType),
      (.builtin (FFIType.sint32.builtinType rfl), FFIType.sint32.scalarType)] _ ?_ rfl
  intro f hf
  simp only [List.mem_cons, List.not_mem_nil, or_false] at hf
  rcases hf with rfl | rfl | rfl
  · exact .builtin (FFIType.double.builtinType rfl)
  · exact .builtin (FFIType.float.builtinType rfl)
  · exact .builtin (FFIType.sint32.builtinType rfl)

theorem ofScalars_doubleFloatInt : doubleFloatIntTree.OfScalars := by
  refine .struct fun f hf => ?_
  simp only [List.mem_cons, List.not_mem_nil, or_false] at hf
  rcases hf with rfl | rfl | rfl
  · exact .builtin _ rfl
  · exact .builtin _ rfl
  · exact .builtin _ rfl

/-- The `float` shares its eight bytes with the `int`, and travels with it. -/
theorem examineArgument_doubleFloatInt :
    ∃ e, examineArgument doubleFloatInt false = some e ∧ e.classes = [.ssedf, .integer] ∧
      InRegisters doubleFloatInt e := by
  obtain ⟨e, he, -, hregisters⟩ :=
    examineArgument_built builds_doubleFloatInt ofScalars_doubleFloatInt (by decide)
  have hclasses : examineArgument doubleFloatInt false =
      some ⟨2, [.ssedf, .integer], 1, 1⟩ := by decide
  refine ⟨e, he, ?_, hregisters (by decide)⟩
  rw [hclasses] at he
  cases he
  rfl

end Jffi
