import Jffi.Memory

/-!
# Array regions and addresses

What the region functions of JNI do with memory that is an address, when the memory is known to be
there.

## Main definitions

* `HasRoom` — there is memory at a Java `long`
* `nativeAddress`, `extCells`

## Main results

* `HasRoom.ofLong_add` — adding to the `long` is adding to the address
* `Native.getArrayRegion_addr`, `Native.setArrayRegion_of_inRange`
-/

namespace Jffi

variable (pf : Platform)

/-! ### Addresses -/

/-- There is memory for `n` bytes at the address. -/
structure HasRoom (address : BitVec 64) (n : ℕ) : Prop where
  ne_null : address.toNat % 256 ^ pf.ptrSize ≠ 0
  fits : address.toNat % 256 ^ pf.ptrSize + n ≤ 256 ^ pf.ptrSize

variable {pf} {address : BitVec 64}

/-- The native address that a `long` of Java stands for. -/
def nativeAddress (pf : Platform) (address : BitVec 64) : ℕ := address.toNat % 256 ^ pf.ptrSize

theorem HasRoom.pos {n : ℕ} (h : HasRoom pf address n) : nativeAddress pf address ≠ 0 := h.ne_null

/-- Adding to the address does not wrap around inside of the memory. -/
theorem HasRoom.ofLong_add {n k : ℕ} (h : HasRoom pf address n) (hk : k < n) :
    Ptr.ofLong pf (address + BitVec.ofInt 64 k) = .addr (nativeAddress pf address + k) := by
  have hdvd : 256 ^ pf.ptrSize ∣ 2 ^ 64 := by
    rcases pf.ptrSize_eq with hp | hp
    · exact ⟨2 ^ 32, by simp [hp]⟩
    · exact ⟨1, by simp [hp]⟩
  have hfits := h.fits
  rw [Ptr.ofLong, BitVec.ofInt_natCast, BitVec.toNat_add, BitVec.toNat_ofNat, Nat.add_mod_mod,
    Nat.mod_mod_of_dvd _ hdvd, Nat.add_mod, Nat.mod_eq_of_lt (a := k) (by omega),
    Nat.mod_eq_of_lt (by omega)]
  rfl

theorem ofLong_eq (pf : Platform) (address : BitVec 64) :
    Ptr.ofLong pf address = .addr (nativeAddress pf address) := rfl

/-! ### Memory that is not a block -/

namespace Memory

theorem store_addr {m : Memory} {a : ℕ} (ha : a ≠ 0) (xs : List Cell) :
    m.store (.addr a) xs = some { m with ext := overlay m.ext a xs } := by
  rw [store, if_neg ha]
  refine congrArg some (congrArg (fun e => { m with ext := e }) (funext fun i => ?_))
  by_cases hin : a ≤ i ∧ i < a + xs.length
  · obtain ⟨k, rfl⟩ := Nat.exists_eq_add_of_le hin.1
    have hk : k < xs.length := by omega
    rw [if_pos hin, overlay_of_mem hk, Nat.add_sub_cancel_left, List.getElem?_eq_getElem hk]
    rfl
  · rw [if_neg hin]
    rcases Nat.lt_or_ge i a with hlt | hge
    · exact (overlay_of_lt xs hlt).symm
    · exact (overlay_of_ge (by omega)).symm

end Memory

/-- The first `n` cells of native memory from `a` on. -/
def extCells (ext : ℕ → Cell) (a n : ℕ) : List Cell := (List.range n).map fun i => ext (a + i)

@[simp] theorem length_extCells (ext : ℕ → Cell) (a n : ℕ) : (extCells ext a n).length = n := by
  simp [extCells]

theorem extCells_append (ext : ℕ → Cell) (a n m : ℕ) :
    extCells ext a (n + m) = extCells ext a n ++ extCells ext (a + n) m := by
  simp [extCells, List.range_add, Nat.add_assoc]

/-! ### Regions -/

namespace Native

/-- Reading the newest block, while it is live, is a slice of its cells. -/
theorem load_top {s : Native} {blocks : List Block} {blk : Block}
    (htop : s.blocks = blocks ++ [blk]) (hlive : blk.live = true) (off n : ℕ) :
    s.load (.block blocks.length off) n = slice blk.cells off n := by
  have hget : s.toMemory.blocks[blocks.length]? = some blk := by
    rw [htop, List.getElem?_append_right (Nat.le_refl _), Nat.sub_self]
    rfl
  exact Memory.load_block hget hlive off n

theorem load_addr {s : Native} {a : ℕ} (ha : a ≠ 0) (n : ℕ) :
    s.load (.addr a) n = some (extCells s.ext a n) :=
  if_neg ha

theorem store_addr {s : Native} {a : ℕ} (ha : a ≠ 0) (xs : List Cell) :
    s.store (.addr a) xs = some { s with ext := overlay s.ext a xs } := by
  rw [store, Memory.store_addr ha]
  rfl

/-- A reference leads to the array that is there, if the component type is the one asked for. -/
theorem arrayOf_of_getElem? {s : Native} {t : ComponentType} {r : ℕ} {a : JavaArray}
    (ha : s.arrays[r]? = some a) (ht : a.component = t) :
    s.arrayOf t (some (.array r)) = some (r, a) := by
  simp [arrayOf, ha, ht]

section Regions

variable {s : Native} {r : ℕ} {a : JavaArray} {offset : ℤ} {length : ℕ}

/-- `Get<Type>ArrayRegion` of a range that the array does not have throws, and copies nothing. -/
theorem getArrayRegion_of_not_inRange {length : ℤ} (ha : s.arrays[r]? = some a)
    (h : ¬inRange offset length a.length) (dst : Ptr) :
    s.getArrayRegion a.component (some (.array r)) offset length dst =
      some { s.logged (.jni .getArrayRegion) with pending := some .arrayIndexOutOfBounds } := by
  rw [getArrayRegion, arrayOf_of_getElem? ha rfl]
  exact if_neg h

/-- `Get<Type>ArrayRegion` of elements that are there copies them to an address other than zero. -/
theorem getArrayRegion_addr (ha : s.arrays[r]? = some a) (h : inRange offset length a.length)
    {p : ℕ} (hp : p ≠ 0) {xs : List Cell}
    (hxs : slice a.cells (offset.toNat * a.component.size) (length * a.component.size) = some xs) :
    s.getArrayRegion a.component (some (.array r)) offset length (.addr p) =
      some { s.logged (.jni .getArrayRegion) with ext := overlay s.ext p xs } := by
  rw [getArrayRegion, arrayOf_of_getElem? ha rfl, Option.bind_eq_bind, Option.bind_some]
  dsimp only
  rw [if_pos h, Int.toNat_natCast, hxs]
  exact store_addr hp xs

/-- `Set<Type>ArrayRegion` of a range that the array does not have throws, and copies nothing. -/
theorem setArrayRegion_of_not_inRange {length : ℤ} (ha : s.arrays[r]? = some a)
    (h : ¬inRange offset length a.length) (src : Ptr) :
    s.setArrayRegion a.component (some (.array r)) offset length src =
      some { s.logged (.jni .setArrayRegion) with pending := some .arrayIndexOutOfBounds } := by
  rw [setArrayRegion, arrayOf_of_getElem? ha rfl]
  exact if_neg h

/-- `Set<Type>ArrayRegion` of cells that can be read replaces the elements of the range by them. -/
theorem setArrayRegion_of_inRange (ha : s.arrays[r]? = some a) (h : inRange offset length a.length)
    {src : Ptr} {xs cells : List Cell}
    (hxs : (s.logged (.jni .setArrayRegion)).load src (length * a.component.size) = some xs)
    (hcells : splice a.cells (offset.toNat * a.component.size) xs = some cells) :
    s.setArrayRegion a.component (some (.array r)) offset length src =
      some { s.logged (.jni .setArrayRegion) with
        arrays := s.arrays.set r { a with cells := cells } } := by
  rw [setArrayRegion, arrayOf_of_getElem? ha rfl, Option.bind_eq_bind, Option.bind_some]
  dsimp only
  rw [if_pos h, Int.toNat_natCast, hxs, Option.bind_eq_bind, Option.bind_some, hcells]
  rfl

end Regions

end Native

/-- The elements of a region that lies inside of an array. -/
theorem exists_region {a : JavaArray} {offset length : ℤ}
    (h : Native.inRange offset length a.length) :
    ∃ xs, slice a.cells (offset.toNat * a.component.size) (length.toNat * a.component.size) =
      some xs := by
  obtain ⟨h0, h1, h2⟩ := h
  have hle : offset.toNat + length.toNat ≤ a.length := by omega
  have hcells : (offset.toNat + length.toNat) * a.component.size ≤ a.cells.length :=
    Nat.le_trans (Nat.mul_le_mul_right _ hle) (Nat.div_mul_le_self _ _)
  rw [Nat.add_mul] at hcells
  exact exists_slice hcells

/-- The elements of a range that the array has can be replaced by as many bytes. -/
theorem exists_replaced {a : JavaArray} {offset length : ℤ}
    (h : Native.inRange offset length a.length) (ys : List Cell)
    (hys : ys.length = length.toNat * a.component.size) :
    ∃ cells, splice a.cells (offset.toNat * a.component.size) ys = some cells := by
  obtain ⟨xs, hxs⟩ := exists_region h
  obtain ⟨hle, -⟩ := slice_eq_some.mp hxs
  exact exists_splice (hys ▸ hle)

theorem mem_of_slice {α : Type} {l ys : List α} {off n : ℕ} (h : slice l off n = some ys) {y : α}
    (hy : y ∈ ys) : y ∈ l := by
  obtain ⟨-, rfl⟩ := slice_eq_some.mp h
  exact List.mem_of_mem_drop (List.mem_of_mem_take hy)

end Jffi
