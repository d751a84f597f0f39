import Jffi.Aggregate

/-!
# The size Java sees

`Foreign.getTypeSize` returns the `size_t` of an `ffi_type` as a `jint`, and `Type.size()` is what
every Java buffer for a value of the type is allocated with.

## Main definitions

* `Foreign.getTypeSize`, `TypeInfo`, `Type.size`
* `SizeKept` — Java knows the size of the type

## Main results

* `size_eq_of_lt` — below `2 ^ 31` bytes the two sizes are the number of C
* `sizeKept_iff` — and from there on Java never has it
* `getTypeSize_eq_mod`, `exists_built_of_large` — what it has instead, and that nothing throws
-/

namespace Jffi

variable {pf : Platform}

/-- `getTypeSize`, which narrows the `size_t` of the type to a `jint`. -/
def Foreign.getTypeSize (t : FfiType pf) : BitVec 32 := t.size.setWidth 32

def Foreign.getTypeAlign (t : FfiType pf) : BitVec 32 := t.alignment.setWidth 32

/-- `Type.TypeInfo`, with the `ffi_type` for its address. -/
structure TypeInfo (pf : Platform) where
  handle : FfiType pf
  size : BitVec 32
  alignment : BitVec 32

/-- The constructor of `Aggregate`, for the handle the native call returned. It throws on the
handle `0`. -/
def Aggregate.typeInfo (handle : Option (FfiType pf)) : Option (TypeInfo pf) :=
  handle.map fun t => ⟨t, Foreign.getTypeSize t, Foreign.getTypeAlign t⟩

/-- `Type.size()` of a type whose field `size` still is `0` or has been resolved. -/
def Type.size (resolved : BitVec 32) (info : TypeInfo pf) : BitVec 32 :=
  if resolved ≠ 0 then resolved else info.size

/-- Resolving the size of a type a second time returns what the first time has stored. -/
theorem Type.size_resolved (info : TypeInfo pf) :
    Type.size (Type.size 0 info) info = Type.size 0 info := by
  have hfirst : Type.size 0 info = info.size := if_neg (by simp)
  rw [hfirst, Type.size]
  split
  · rfl
  · rfl

/-- An `int` has the size of the type, `Type.size()` is it, and a buffer of so many bytes has room
for the value. -/
structure SizeKept (tree : TypeTree pf) (info : TypeInfo pf) : Prop where
  representable : ∃ n : BitVec 32, n.toInt = tree.layout.size
  size : (Type.size 0 info).toInt = tree.layout.size
  room : (info.handle.size.toNat : ℤ) ≤ (Type.size 0 info).toInt

theorem SizeKept.lt {tree : TypeTree pf} {info : TypeInfo pf} (h : SizeKept tree info) :
    tree.layout.size < 2 ^ 31 := by
  obtain ⟨n, hn⟩ := h.representable
  have hlt := n.toInt_lt
  omega

theorem toInt_setWidth_of_lt {w : ℕ} {x : BitVec w} (h : x.toNat < 2 ^ 31) :
    (x.setWidth 32).toInt = x.toNat := by
  have hsmall : x.toNat % 2 ^ 32 = x.toNat := Nat.mod_eq_of_lt (by omega)
  rw [BitVec.toInt_eq_toNat_of_lt]
  · rw [BitVec.toNat_setWidth, hsmall]
  · rw [BitVec.toNat_setWidth, hsmall]
    omega

theorem two_pow_31_le (pf : Platform) : 2 ^ 31 ≤ 2 ^ (8 * pf.ptrSize) := by
  refine Nat.pow_le_pow_right (by decide) ?_
  rcases pf.ptrSize_eq with h | h <;> omega

/-- **Below `2 ^ 31` bytes** no step of the native arithmetic wraps, and neither does the
narrowing. -/
theorem size_eq_of_lt {tree : TypeTree pf} {t : FfiType pf} (h : Builds tree t)
    (hlt : tree.layout.size < 2 ^ 31) :
    t.size.toNat = tree.layout.size ∧ (Foreign.getTypeSize t).toInt = tree.layout.size := by
  have hlayout := h.layout_eq (Nat.lt_of_lt_of_le hlt (two_pow_31_le pf))
  have hsize : t.size.toNat = tree.layout.size := congrArg Layout.size hlayout
  refine ⟨hsize, ?_⟩
  rw [Foreign.getTypeSize, toInt_setWidth_of_lt (hsize.trans_lt hlt), hsize]

/-- The `TypeInfo` of a type that was built holds its handle, and the size that `getTypeSize`
returns for it. -/
theorem size_typeInfo {t : FfiType pf} {info : TypeInfo pf}
    (h : Aggregate.typeInfo (some t) = some info) :
    info.handle = t ∧ Type.size 0 info = Foreign.getTypeSize t := by
  cases h
  exact ⟨rfl, if_neg (by simp)⟩

/-- **The sizes of aggregates.** Whatever a tree is made of, once its constructors have returned
Java has its size exactly when an `int` can hold it. -/
theorem sizeKept_iff {tree : TypeTree pf} {t : FfiType pf} {info : TypeInfo pf}
    (h : Builds tree t) (hinfo : Aggregate.typeInfo (some t) = some info) :
    SizeKept tree info ↔ tree.layout.size < 2 ^ 31 := by
  obtain ⟨hhandle, hsize⟩ := size_typeInfo hinfo
  constructor
  · intro hkept
    exact hkept.lt
  · intro hlt
    obtain ⟨hnative, hjava⟩ := size_eq_of_lt h hlt
    have hjava' : (Type.size 0 info).toInt = tree.layout.size := hsize ▸ hjava
    refine ⟨⟨_, hjava'⟩, hjava', ?_⟩
    rw [hjava', hhandle, hnative]

/-- Sixteen pairs of a `char` and an `int` have 128 bytes, aligned to four, for the Java code too.
-/
theorem sizeKept_charInts :
    SizeKept (.array (.aggregate false [.builtin sint8X64, .builtin sint32X64]) 16)
      ⟨⟨128, 4, .struct, List.replicate 16
        ⟨8, 4, .struct, [sint8X64.toFfiType, sint32X64.toFfiType]⟩⟩, 128, 4⟩ := by
  have hstruct : Builds (.aggregate false [.builtin sint8X64, .builtin sint32X64])
      ⟨8, 4, .struct, [sint8X64.toFfiType, sint32X64.toFfiType]⟩ := by
    refine @Builds.aggregate _ (fun _ => false) false
      [(.builtin sint8X64, sint8X64.toFfiType), (.builtin sint32X64, sint32X64.toFfiType)] _ ?_ rfl
    intro f hf
    simp only [List.mem_cons, List.not_mem_nil, or_false] at hf
    rcases hf with rfl | rfl
    · exact .builtin _
    · exact .builtin _
  have harray := @Builds.array _ (fun _ => false) _ _ _ 16 hstruct rfl
  exact (sizeKept_iff harray rfl).mpr (by decide)

/-- Where `size_t` still has room, Java keeps the low 32 bits. -/
theorem getTypeSize_eq_mod {tree : TypeTree pf} {t : FfiType pf} (h : Builds tree t)
    (hfits : tree.layout.size < 2 ^ (8 * pf.ptrSize)) :
    (Foreign.getTypeSize t).toNat = tree.layout.size % 2 ^ 32 := by
  have hsize : t.size.toNat = tree.layout.size := congrArg Layout.size (h.layout_eq hfits)
  rw [Foreign.getTypeSize, BitVec.toNat_setWidth, hsize]

/-- No constructor objects to a size that only `size_t` has room for. -/
theorem exists_built_of_large {tree : TypeTree pf} (h : Proper tree)
    (hfits : tree.layout.size < 2 ^ (8 * pf.ptrSize)) (hlarge : 2 ^ 31 ≤ tree.layout.size) :
    ∃ t info, Builds tree t ∧ Aggregate.typeInfo (some t) = some info ∧ ¬SizeKept tree info := by
  obtain ⟨t, ht⟩ := exists_built h hfits
  refine ⟨t, _, ht, rfl, fun hkept => ?_⟩
  have hlt := hkept.lt
  omega

/-- Rows of 65536 bytes. -/
def bytes64K : TypeTree .linuxX64 := .array (.builtin sint8X64) 65536

/-- 65536 rows of 65536 bytes have 2³² bytes, of which the Java code keeps none: the size becomes
`0`. -/
theorem not_sizeKept_rows :
    ∃ t info, Builds (.array bytes64K 65536) t ∧ Aggregate.typeInfo (some t) = some info ∧
      (TypeTree.array bytes64K 65536).layout.size = 2 ^ 32 ∧ t.size.toNat = 2 ^ 32 ∧
      Type.size 0 info = 0 ∧ ¬SizeKept (.array bytes64K 65536) info := by
  have hbytes := @Builds.array _ (fun _ => false) _ _ _ 65536 (.builtin sint8X64) rfl
  have hrows := @Builds.array _ (fun _ => false) _ _ _ 65536 hbytes rfl
  refine ⟨_, _, hrows, rfl, rfl, rfl, rfl, ?_⟩
  intro hkept
  have hsize : (0 : ℤ) = 2 ^ 32 := hkept.size
  exact absurd hsize (by decide)

end Jffi
