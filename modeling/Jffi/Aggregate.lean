import Jffi.Lib.Layout
import Jffi.Platform

/-!
# Aggregates

`newStruct` and `newArray` lay out structs, unions and arrays in the unsigned arithmetic of
`size_t`. libffi takes the size and the alignment from the finished `ffi_type`, so nothing computes
a layout a second time.

The offsets of the fields are not stored anywhere; `fieldOffsets` are the values `FFI_ALIGN` takes
in the rounds of the loop.

## Main definitions

* `FfiType` — the C structure `ffi_type`
* `Foreign.newStruct`, `Foreign.newArray`
* `TypeTree`, `Builds` — types over types, and the `ffi_type` that building one ends with

## Main results

* `built_layout` — the layouts are those of C as long as `size_t` has room for them
* `exists_built` — a tree without empty aggregates can be built
-/

namespace Jffi

variable {pf : Platform}

/-! ### `ffi_type` -/

/-- `size_t`. -/
abbrev SizeT (pf : Platform) : Type := BitVec (8 * pf.ptrSize)

/-- The C structure `ffi_type`. -/
structure FfiType (pf : Platform) where
  size : SizeT pf
  /-- An `unsigned short`. -/
  alignment : BitVec 16
  type : FFICode
  elements : List (FfiType pf)

def FfiType.layout (t : FfiType pf) : Layout := ⟨t.size.toNat, t.alignment.toNat⟩

def FFI_ALIGN (v : SizeT pf) (a : BitVec 16) : SizeT pf :=
  ((v - 1) ||| (a.setWidth (8 * pf.ptrSize) - 1)) + 1

def MAX {w : ℕ} (x y : BitVec w) : BitVec w := if x > y then x else y

/-- The two allocations for an aggregate. -/
inductive AggregatePart
  | type | elements
  deriving DecidableEq, Repr

/-- The exceptions of `newStruct` and `newArray`. -/
inductive AggregateExn
  | nullTypes
  | noFields
  | outOfMemory
  | nullField (index : ℕ)
  | emptyField (index : ℕ)
  | emptyStruct
  | nullElement
  | emptyElement
  | noElements
  deriving DecidableEq, Repr

def AggregateExn.className : AggregateExn → String
  | .nullTypes | .nullElement => "java/lang/NullPointerException"
  | .noFields | .nullField _ | .emptyField _ | .emptyElement | .noElements =>
    "java/lang/IllegalArgumentException"
  | .outOfMemory => "java/lang/OutOfMemoryError"
  | .emptyStruct => "java/lang/RuntimeException"

def AggregateExn.message : AggregateExn → String
  | .nullTypes => "types array cannot be null"
  | .noFields => "No fields specified"
  | .outOfMemory => "failed to allocate memory"
  | .nullField i => "type for field " ++ toString i ++ " is NULL"
  | .emptyField i => "type for field " ++ toString i ++ " has size 0"
  | .emptyStruct => "struct size is zero"
  | .nullElement => "element type cannot be null"
  | .emptyElement => "element type size 0"
  | .noElements => "array length == 0"

/-- A call of `newStruct` or `newArray`: the handle it returns, what it throws, and its
allocations. -/
structure NewAggregate (pf : Platform) where
  handle : Option (FfiType pf)
  thrown : Option AggregateExn
  allocated : List AggregatePart
  freed : List AggregatePart

/-- Which calls of `calloc` fail. The `count + 1` elements are counted in an `int`, and no memory
has room for the number a wrapped one is widened to. -/
def callocElementsFails (callocFails : AggregatePart → Bool) (count : ℕ) : Bool :=
  callocFails .elements || 2 ^ 31 ≤ count + 1

/-! ### `newStruct` -/

/-- `s` after the three assignments that reset it. -/
def emptyAggregate : FfiType pf := ⟨0, 0, .struct, []⟩

/-- The assignments that a round of the loop makes for the field `elem` of a struct or a union. -/
def addField (isUnion : Bool) (s elem : FfiType pf) : FfiType pf where
  size := if isUnion then MAX s.size elem.size else FFI_ALIGN s.size elem.alignment + elem.size
  alignment := MAX s.alignment elem.alignment
  type := s.type
  elements := s.elements ++ [elem]

/-- One round of the loop over the field types. -/
def fieldStep (isUnion : Bool) (s : FfiType pf) (field : Option (FfiType pf) × ℕ) :
    Except AggregateExn (FfiType pf) :=
  match field.1 with
  | none => .error (.nullField field.2)
  | some elem =>
    if elem.size = 0 then .error (.emptyField field.2) else .ok (addField isUnion s elem)

def Foreign.newStruct (callocFails : AggregatePart → Bool)
    (typeArray : Option (List (Option (FfiType pf)))) (isUnion : Bool) : NewAggregate pf :=
  match typeArray with
  | none => ⟨none, some .nullTypes, [], []⟩
  | some fieldTypes =>
    if fieldTypes.length < 1 then ⟨none, some .noFields, [], []⟩
    else if callocFails .type then ⟨none, some .outOfMemory, [], []⟩
    else if callocElementsFails callocFails fieldTypes.length then
      ⟨none, some .outOfMemory, [.type], [.type]⟩
    else
      match fieldTypes.zipIdx.foldlM (fieldStep isUnion) emptyAggregate with
      | .error e => ⟨none, some e, [.type, .elements], [.elements, .type]⟩
      | .ok s =>
        if s.size = 0 then ⟨none, some .emptyStruct, [.type, .elements], [.elements, .type]⟩
        else
          -- Include tail padding
          ⟨some { s with size := FFI_ALIGN s.size s.alignment }, none, [.type, .elements], []⟩

/-- Where the rounds of a struct's loop put the fields. -/
def fieldOffsets : FfiType pf → List (FfiType pf) → List (SizeT pf)
  | _, [] => []
  | s, elem :: elems =>
    FFI_ALIGN s.size elem.alignment :: fieldOffsets (addField false s elem) elems

/-! ### `newArray` -/

def Foreign.newArray (callocFails : AggregatePart → Bool) (type : Option (FfiType pf))
    (length : BitVec 32) : NewAggregate pf :=
  match type with
  | none => ⟨none, some .nullElement, [], []⟩
  | some elem =>
    if elem.size = 0 then ⟨none, some .emptyElement, [], []⟩
    else if length.toInt < 1 then ⟨none, some .noElements, [], []⟩
    else if callocFails .type then ⟨none, some .outOfMemory, [], []⟩
    else if callocElementsFails callocFails length.toNat then
      ⟨none, some .outOfMemory, [.type], [.type]⟩
    else
      ⟨some
        { size := length.signExtend (8 * pf.ptrSize) * elem.size
          alignment := elem.alignment
          type := .struct
          elements := List.replicate length.toNat elem },
        none, [.type, .elements], []⟩

/-- A call either returns a handle and keeps what it allocated, or throws and gives it back. -/
def NewAggregate.Settled (a : NewAggregate pf) : Prop :=
  (a.handle.isSome = true ∧ a.thrown = none ∧ a.freed = []) ∨
    (a.handle = none ∧ a.thrown.isSome = true ∧ a.freed = a.allocated.reverse)

theorem newStruct_settled (callocFails : AggregatePart → Bool)
    (typeArray : Option (List (Option (FfiType pf)))) (isUnion : Bool) :
    (Foreign.newStruct callocFails typeArray isUnion).Settled := by
  simp only [Foreign.newStruct]
  repeat' split
  all_goals first | exact .inr ⟨rfl, rfl, rfl⟩ | exact .inl ⟨rfl, rfl, rfl⟩

theorem newArray_settled (callocFails : AggregatePart → Bool) (type : Option (FfiType pf))
    (length : BitVec 32) : (Foreign.newArray callocFails type length).Settled := by
  simp only [Foreign.newArray]
  repeat' split
  all_goals first | exact .inr ⟨rfl, rfl, rfl⟩ | exact .inl ⟨rfl, rfl, rfl⟩

/-! ### `size_t` without overflow -/

theorem sixteen_le_sizeT (pf : Platform) : 16 ≤ 8 * pf.ptrSize := by
  rcases pf.ptrSize_eq with h | h <;> omega

theorem toNat_MAX {w : ℕ} (x y : BitVec w) : (MAX x y).toNat = max x.toNat y.toNat := by
  rw [MAX]
  split
  case isTrue h => exact (Nat.max_eq_left (Nat.le_of_lt h)).symm
  case isFalse h => exact (Nat.max_eq_right (Nat.le_of_not_lt h)).symm

/-- The alignments that C works with are powers of two. -/
def IsPowerOfTwo (a : BitVec 16) : Prop := ∃ k, a.toNat = 2 ^ k

theorem IsPowerOfTwo.pos {a : BitVec 16} (h : IsPowerOfTwo a) : 0 < a.toNat := by
  obtain ⟨k, hk⟩ := h
  exact hk ▸ Nat.two_pow_pos k

/-- `FFI_ALIGN` computes the next multiple of a power of two, reduced to the width of a `size_t`. -/
theorem toNat_FFI_ALIGN_mod {a : BitVec 16} (ha : IsPowerOfTwo a) (v : SizeT pf) :
    (FFI_ALIGN v a).toNat = alignUp v.toNat a.toNat % 2 ^ (8 * pf.ptrSize) := by
  obtain ⟨k, hk⟩ := ha
  have hw := sixteen_le_sizeT pf
  have hlt : a.toNat < 2 ^ (8 * pf.ptrSize) :=
    Nat.lt_of_lt_of_le a.isLt (Nat.pow_le_pow_right (by decide) hw)
  have hone : (1 : SizeT pf).toNat = 1 := Nat.mod_eq_of_lt (Nat.one_lt_two_pow (by omega))
  have hmask : (a.setWidth (8 * pf.ptrSize) - 1).toNat = 2 ^ k - 1 := by
    have ha' : (a.setWidth (8 * pf.ptrSize)).toNat = 2 ^ k := by
      rw [BitVec.toNat_setWidth, Nat.mod_eq_of_lt hlt, hk]
    rw [BitVec.toNat_sub_of_le, ha', hone]
    rw [BitVec.le_def, ha', hone]
    exact Nat.two_pow_pos k
  by_cases hv : v = 0
  · subst hv
    have hall : (0 : SizeT pf) - 1 = BitVec.allOnes _ := by
      rw [← BitVec.neg_one_eq_allOnes]
      simp
    have hwrap : BitVec.allOnes (8 * pf.ptrSize) + 1 = 0 := by
      rw [← BitVec.neg_one_eq_allOnes]
      exact BitVec.add_left_neg _
    rw [FFI_ALIGN, hall, BitVec.allOnes_or, hwrap]
    simp
  · have hpos : 0 < v.toNat := Nat.pos_of_ne_zero fun h => hv (BitVec.eq_of_toNat_eq h)
    have hsub : (v - 1).toNat = v.toNat - 1 := by
      rw [BitVec.toNat_sub_of_le, hone]
      rwa [BitVec.le_def, hone]
    rw [FFI_ALIGN, BitVec.toNat_add, BitVec.toNat_or, hsub, hmask, hone, hk, alignUp_or hpos]

/-- `FFI_ALIGN` computes the next multiple of a power of two where that fits a `size_t`. -/
theorem toNat_FFI_ALIGN {v : SizeT pf} {a : BitVec 16} (ha : IsPowerOfTwo a)
    (hfits : alignUp v.toNat a.toNat < 2 ^ (8 * pf.ptrSize)) :
    (FFI_ALIGN v a).toNat = alignUp v.toNat a.toNat := by
  rw [toNat_FFI_ALIGN_mod ha, Nat.mod_eq_of_lt hfits]

/-! ### The loop over the fields -/

theorem fieldStep_of_size {isUnion : Bool} {s t : FfiType pf} (h : t.size ≠ 0) (k : ℕ) :
    fieldStep isUnion s (some t, k) = .ok (addField isUnion s t) :=
  if_neg h

/-- The loop over types that are all there gets through, or stops at an empty one. -/
theorem foldlM_fieldStep (isUnion : Bool) (types : List (FfiType pf)) (k : ℕ) (s : FfiType pf) :
    ((types.map some).zipIdx k).foldlM (fieldStep isUnion) s =
        .ok (types.foldl (addField isUnion) s) ∨
      ∃ e, ((types.map some).zipIdx k).foldlM (fieldStep isUnion) s = .error e := by
  induction types generalizing k s with
  | nil => exact .inl rfl
  | cons t ts ih =>
    rw [List.map_cons, List.zipIdx_cons, List.foldlM_cons, List.foldl_cons]
    by_cases ht : t.size = 0
    · have hstep : fieldStep isUnion s (some t, k) = .error (.emptyField k) := if_pos ht
      rw [hstep]
      exact .inr ⟨.emptyField k, rfl⟩
    · rw [fieldStep_of_size ht]
      exact ih (k + 1) (addField isUnion s t)

theorem foldlM_fieldStep_ok (isUnion : Bool) {types : List (FfiType pf)}
    (hsize : ∀ t ∈ types, t.size ≠ 0) (k : ℕ) (s : FfiType pf) :
    ((types.map some).zipIdx k).foldlM (fieldStep isUnion) s =
      .ok (types.foldl (addField isUnion) s) := by
  induction types generalizing k s with
  | nil => rfl
  | cons t ts ih =>
    rw [List.map_cons, List.zipIdx_cons, List.foldlM_cons, List.foldl_cons,
      fieldStep_of_size (hsize t (List.mem_cons_self ..))]
    exact ih (fun u hu => hsize u (List.mem_cons_of_mem t hu)) (k + 1) (addField isUnion s t)

theorem elements_foldl (isUnion : Bool) (types : List (FfiType pf)) (s : FfiType pf) :
    (types.foldl (addField isUnion) s).elements = s.elements ++ types := by
  induction types generalizing s with
  | nil => simp
  | cons t ts ih => simp [ih, addField]

theorem alignment_foldl (isUnion : Bool) (types : List (FfiType pf)) (s : FfiType pf) :
    (types.foldl (addField isUnion) s).alignment.toNat =
      ((types.map FfiType.layout).map Layout.alignment).foldl max s.alignment.toNat := by
  induction types generalizing s with
  | nil => rfl
  | cons t ts ih =>
    simp only [List.foldl_cons, List.map_cons, ih, addField, toNat_MAX]
    rfl

theorem size_foldl_union (types : List (FfiType pf)) (s : FfiType pf) :
    (types.foldl (addField true) s).size.toNat =
      ((types.map FfiType.layout).map Layout.size).foldl max s.size.toNat := by
  induction types generalizing s with
  | nil => rfl
  | cons t ts ih =>
    simp only [List.foldl_cons, List.map_cons, ih, addField, if_true, toNat_MAX]
    rfl

/-- Fields whose types are aligned to powers of two have positive alignments in the abstract layout.
-/
theorem layout_alignment_pos {types : List (FfiType pf)}
    (h : ∀ t ∈ types, IsPowerOfTwo t.alignment) :
    ∀ f ∈ types.map FfiType.layout, 0 < f.alignment := by
  intro f hf
  obtain ⟨t, ht, rfl⟩ := List.mem_map.mp hf
  exact (h t ht).pos

/-- The alignment of an aggregate: the largest of its fields, so a power of two when they are. -/
theorem alignment_addFields (isUnion : Bool) (types : List (FfiType pf)) :
    (types.foldl (addField isUnion) emptyAggregate).alignment.toNat =
      maxAlignment (types.map FfiType.layout) :=
  alignment_foldl isUnion types emptyAggregate

theorem isPowerOfTwo_addFields (isUnion : Bool) {types : List (FfiType pf)} (hne : types ≠ [])
    (h : ∀ t ∈ types, IsPowerOfTwo t.alignment) :
    IsPowerOfTwo (types.foldl (addField isUnion) emptyAggregate).alignment := by
  have hne' : types.map FfiType.layout ≠ [] := by simpa using hne
  obtain ⟨l, hl, hmax⟩ := (isGreatest_maxAlignment hne').1
  obtain ⟨t, ht, rfl⟩ := List.mem_map.mp hl
  obtain ⟨k, hk⟩ := h t ht
  exact ⟨k, (alignment_addFields isUnion types).trans (hmax.symm.trans hk)⟩

/-- A round of the loop of a struct aligns the offset reached so far and adds the size of the field,
where the end of the field fits a `size_t`. -/
theorem toNat_addField {s t : FfiType pf} (ht : IsPowerOfTwo t.alignment)
    (hfits : alignUp s.size.toNat t.alignment.toNat + t.size.toNat < 2 ^ (8 * pf.ptrSize)) :
    (FFI_ALIGN s.size t.alignment).toNat = alignUp s.size.toNat t.alignment.toNat ∧
      (addField false s t).size.toNat =
        alignUp s.size.toNat t.alignment.toNat + t.size.toNat := by
  have halign := toNat_FFI_ALIGN (v := s.size) ht (Nat.lt_of_le_of_lt (Nat.le_add_right _ _) hfits)
  refine ⟨halign, ?_⟩
  change (FFI_ALIGN s.size t.alignment + t.size).toNat = _
  rw [BitVec.toNat_add, halign, Nat.mod_eq_of_lt hfits]

/-- **The loop of a struct** computes the greedy placement: the size is its extent, and the offsets
are where it puts the fields. -/
theorem foldl_struct {types : List (FfiType pf)} (h : ∀ t ∈ types, IsPowerOfTwo t.alignment)
    (s : FfiType pf)
    (hfits : extent s.size.toNat (types.map FfiType.layout) < 2 ^ (8 * pf.ptrSize)) :
    (types.foldl (addField false) s).size.toNat =
        extent s.size.toNat (types.map FfiType.layout) ∧
      (fieldOffsets s types).map BitVec.toNat = place s.size.toNat (types.map FfiType.layout) := by
  induction types generalizing s with
  | nil => exact ⟨rfl, rfl⟩
  | cons t ts ih =>
    have htail := fun u hu => h u (List.mem_cons_of_mem t hu)
    have hend := le_extent (layout_alignment_pos htail)
      (alignUp s.size.toNat t.alignment.toNat + t.size.toNat)
    obtain ⟨hoffset, hsize⟩ := toNat_addField (s := s) (h t (List.mem_cons_self ..))
      (Nat.lt_of_le_of_lt hend hfits)
    have ih' := ih htail (addField false s t) (by rw [hsize]; exact hfits)
    rw [hsize] at ih'
    refine ⟨ih'.1, ?_⟩
    simp only [fieldOffsets, List.map_cons, place, hoffset, ih'.2]
    rfl

/-! ### What a handle points to -/

/-- A handle that `newStruct` returns is what its loop over the fields has computed, with the size
aligned at the end, and there was at least one field. -/
theorem newStruct_handle {callocFails : AggregatePart → Bool} {isUnion : Bool}
    {types : List (FfiType pf)} {s : FfiType pf}
    (h : (Foreign.newStruct callocFails (some (types.map some)) isUnion).handle = some s) :
    types ≠ [] ∧
      s = { types.foldl (addField isUnion) emptyAggregate with
        size := FFI_ALIGN (types.foldl (addField isUnion) emptyAggregate).size
          (types.foldl (addField isUnion) emptyAggregate).alignment } := by
  simp only [Foreign.newStruct, List.length_map] at h
  split at h
  · cases h
  case isFalse hlen =>
    refine ⟨fun hnil => hlen (by simp [hnil]), ?_⟩
    split at h
    · cases h
    split at h
    · cases h
    rcases foldlM_fieldStep isUnion types 0 emptyAggregate with hloop | ⟨e, hloop⟩
    · simp only [hloop] at h
      split at h
      · cases h
      · cases h
        rfl
    · simp only [hloop] at h
      cases h

/-- `newStruct` succeeds on types of some size when the memory is there. -/
theorem exists_newStruct {isUnion : Bool} {types : List (FfiType pf)} (hne : types ≠ [])
    (hcount : types.length + 1 < 2 ^ 31) (hsize : ∀ t ∈ types, t.size ≠ 0)
    (hsum : (types.foldl (addField isUnion) emptyAggregate).size ≠ 0) :
    ∃ s, (Foreign.newStruct (fun _ => false) (some (types.map some)) isUnion).handle = some s := by
  have hlen : ¬types.length < 1 := fun h => hne (List.length_eq_zero_iff.mp (by omega))
  have hcalloc : callocElementsFails (fun _ => false) types.length = false := by
    simp [callocElementsFails]
    omega
  refine Option.isSome_iff_exists.mp ?_
  simp only [Foreign.newStruct, List.length_map, if_neg hlen, hcalloc,
    foldlM_fieldStep_ok isUnion hsize, if_neg hsum, Bool.false_eq_true, if_false]
  rfl

theorem newArray_handle {callocFails : AggregatePart → Bool} {elem s : FfiType pf}
    {length : BitVec 32} (h : (Foreign.newArray callocFails (some elem) length).handle = some s) :
    0 < length.toInt ∧ s =
      { size := length.signExtend (8 * pf.ptrSize) * elem.size
        alignment := elem.alignment
        type := .struct
        elements := List.replicate length.toNat elem } := by
  simp only [Foreign.newArray] at h
  split at h
  · cases h
  split at h
  · cases h
  case isFalse hlength =>
    split at h
    · cases h
    split at h
    · cases h
    · cases h
      exact ⟨by omega, rfl⟩

theorem toNat_pos_of_toInt {length : BitVec 32} (h : 0 < length.toInt) : 0 < length.toNat := by
  rw [BitVec.toInt_eq_toNat_cond] at h
  split at h <;> omega

/-- The number of elements of an array, as the multiplication sees it. -/
theorem toNat_signExtend_length {length : BitVec 32} (h : 0 < length.toInt) :
    (length.signExtend (8 * pf.ptrSize)).toNat = length.toNat := by
  have hw := sixteen_le_sizeT pf
  have hmsb : length.msb = false := by
    rw [BitVec.msb_eq_toInt]
    exact decide_eq_false (by omega)
  rw [BitVec.signExtend_eq_setWidth_of_msb_false hmsb, BitVec.toNat_setWidth]
  refine Nat.mod_eq_of_lt (Nat.lt_of_lt_of_le length.isLt (Nat.pow_le_pow_right (by decide) ?_))
  rcases pf.ptrSize_eq with h | h <;> omega

/-! ### Trees of types -/

/-- A builtin `ffi_type`, whose size is a multiple of its alignment. -/
structure BuiltinType (pf : Platform) extends FfiType pf where
  alignment_pow : IsPowerOfTwo alignment
  alignment_dvd : alignment.toNat ∣ size.toNat

/-- The types that a program can build: structs, unions and arrays over builtin types, to any depth.
-/
inductive TypeTree (pf : Platform)
  | builtin (t : BuiltinType pf)
  /-- A struct or a union. -/
  | aggregate (isUnion : Bool) (fields : List (TypeTree pf))
  | array (elem : TypeTree pf) (length : BitVec 32)

mutual

/-- The layout of a type in numbers that do not overflow. -/
def TypeTree.layout : TypeTree pf → Layout
  | .builtin t => t.toFfiType.layout
  | .aggregate false fields => structLayout (TypeTree.layouts fields)
  | .aggregate true fields => unionLayout (TypeTree.layouts fields)
  | .array elem length => arrayLayout (TypeTree.layout elem) length.toNat

def TypeTree.layouts : List (TypeTree pf) → List Layout
  | [] => []
  | t :: ts => TypeTree.layout t :: TypeTree.layouts ts

end

theorem TypeTree.layouts_eq (fields : List (TypeTree pf)) :
    layouts fields = fields.map layout := by
  induction fields with
  | nil => rfl
  | cons t ts ih => rw [layouts, ih, List.map_cons]

/-- The calls that build a type, innermost first, end with this `ffi_type`. -/
inductive Builds : TypeTree pf → FfiType pf → Prop
  | builtin (t : BuiltinType pf) : Builds (.builtin t) t.toFfiType
  | aggregate {callocFails : AggregatePart → Bool} {isUnion : Bool}
      {fields : List (TypeTree pf × FfiType pf)} {s : FfiType pf}
      (hfields : ∀ f ∈ fields, Builds f.1 f.2)
      (hcall : (Foreign.newStruct callocFails (some ((fields.map Prod.snd).map some))
        isUnion).handle = some s) :
      Builds (.aggregate isUnion (fields.map Prod.fst)) s
  | array {callocFails : AggregatePart → Bool} {elem : TypeTree pf} {t s : FfiType pf}
      {length : BitVec 32} (helem : Builds elem t)
      (hcall : (Foreign.newArray callocFails (some t) length).handle = some s) :
      Builds (.array elem length) s

/-- The alignment of a built type is a power of two, and that of the abstract layout, even where the
size does not fit. -/
theorem Builds.alignment {tree : TypeTree pf} {t : FfiType pf} (h : Builds tree t) :
    IsPowerOfTwo t.alignment ∧ tree.layout.alignment = t.alignment.toNat := by
  induction h with
  | builtin t => exact ⟨t.alignment_pow, rfl⟩
  | @aggregate callocFails isUnion fields s hfields hcall ih =>
    obtain ⟨hne, rfl⟩ := newStruct_handle hcall
    refine ⟨isPowerOfTwo_addFields isUnion hne ?_, ?_⟩
    · intro t ht
      obtain ⟨f, hf, rfl⟩ := List.mem_map.mp ht
      exact (ih f hf).1
    · have hlayouts : (TypeTree.layouts (fields.map Prod.fst)).map Layout.alignment =
          ((fields.map Prod.snd).map FfiType.layout).map Layout.alignment := by
        rw [TypeTree.layouts_eq, List.map_map, List.map_map, List.map_map, List.map_map]
        exact List.map_congr_left fun f hf => (ih f hf).2
      rw [alignment_addFields, maxAlignment, ← hlayouts]
      cases isUnion <;> rfl
  | array helem hcall ih =>
    obtain ⟨-, rfl⟩ := newArray_handle hcall
    exact ih

/-! ### Layouts without overflow -/

section Fits

variable {types : List (FfiType pf)} (hne : types ≠ [])
  (hpow : ∀ t ∈ types, IsPowerOfTwo t.alignment)
include hne hpow

/-- A struct whose size fits a `size_t` has the layout of a C struct, and its fields are placed as C
places them. -/
theorem struct_layout {s : FfiType pf} (hs : s = types.foldl (addField false) emptyAggregate)
    (hfits : (structLayout (types.map FfiType.layout)).size < 2 ^ (8 * pf.ptrSize)) :
    (⟨(FFI_ALIGN s.size s.alignment).toNat, s.alignment.toNat⟩ : Layout) =
        structLayout (types.map FfiType.layout) ∧
      (fieldOffsets emptyAggregate types).map BitVec.toNat =
        place 0 (types.map FfiType.layout) := by
  have hmax := alignment_addFields false types
  have hpos := maxAlignment_pos (by simpa using hne) (layout_alignment_pos hpow)
  obtain ⟨hextent, hoffsets⟩ := foldl_struct hpow emptyAggregate
    (Nat.lt_of_le_of_lt (le_alignUp _ hpos) hfits)
  have hsize : s.size.toNat = extent 0 (types.map FfiType.layout) := hs ▸ hextent
  rw [← hs] at hmax
  refine ⟨?_, hoffsets⟩
  rw [structLayout, ← hmax, ← hsize] at hfits
  rw [toNat_FFI_ALIGN (hs ▸ isPowerOfTwo_addFields false hne hpow) hfits, hsize, hmax]
  rfl

/-- A union whose size fits a `size_t` has the layout of a C union: the largest size, aligned to the
largest alignment. -/
theorem union_layout {s : FfiType pf} (hs : s = types.foldl (addField true) emptyAggregate)
    (hfits : (unionLayout (types.map FfiType.layout)).size < 2 ^ (8 * pf.ptrSize)) :
    (⟨(FFI_ALIGN s.size s.alignment).toNat, s.alignment.toNat⟩ : Layout) =
      unionLayout (types.map FfiType.layout) := by
  have hmax := alignment_addFields true types
  have hsize : s.size.toNat = maxSize (types.map FfiType.layout) := hs ▸ size_foldl_union types _
  rw [← hs] at hmax
  rw [unionLayout, ← hmax, ← hsize] at hfits
  rw [toNat_FFI_ALIGN (hs ▸ isPowerOfTwo_addFields true hne hpow) hfits, hsize, hmax]
  rfl

end Fits

/-- The product that `newArray` computes is the size of the array where that fits a `size_t`; the
length is not negative. -/
theorem array_layout {elem : FfiType pf} {length : BitVec 32} (hlength : 0 < length.toInt)
    (hfits : (arrayLayout elem.layout length.toNat).size < 2 ^ (8 * pf.ptrSize)) :
    (length.signExtend (8 * pf.ptrSize) * elem.size).toNat = length.toNat * elem.size.toNat := by
  rw [BitVec.toNat_mul, toNat_signExtend_length hlength]
  exact Nat.mod_eq_of_lt hfits

/-- What C says about a type, told of the `ffi_type` that was built for it. -/
def IsCLayout : TypeTree pf → FfiType pf → Prop
  | .builtin b, t => t = b.toFfiType
  | .aggregate false fields, t =>
    List.Forall₂ Builds fields t.elements ∧
      IsStructOf (t.elements.map FfiType.layout)
        ((fieldOffsets emptyAggregate t.elements).map BitVec.toNat) t.layout
  | .aggregate true fields, t =>
    List.Forall₂ Builds fields t.elements ∧
      IsUnionOf (t.elements.map FfiType.layout) t.layout
  | .array elem length, t =>
    ∃ e, Builds elem e ∧ t.elements = List.replicate length.toNat e ∧ t.elements ≠ [] ∧
      IsArrayOf e.layout length.toNat t.layout

/-- Where the size of a struct or union fits a `size_t`, those of its fields do. -/
theorem size_lt_of_aggregate {isUnion : Bool} {fields : List (TypeTree pf)} (hne : fields ≠ [])
    (hpos : ∀ f ∈ fields, 0 < f.layout.alignment)
    (hfits : (TypeTree.aggregate isUnion fields).layout.size < 2 ^ (8 * pf.ptrSize)) :
    ∀ f ∈ fields, f.layout.size < 2 ^ (8 * pf.ptrSize) := by
  intro f hf
  have hne' : fields.map TypeTree.layout ≠ [] := by simpa using hne
  have hpos' : ∀ l ∈ fields.map TypeTree.layout, 0 < l.alignment := by
    intro l hl
    obtain ⟨g, hg, rfl⟩ := List.mem_map.mp hl
    exact hpos g hg
  have hmem : f.layout ∈ fields.map TypeTree.layout := List.mem_map_of_mem hf
  refine Nat.lt_of_le_of_lt ?_ hfits
  cases isUnion with
  | false =>
    rw [TypeTree.layout, TypeTree.layouts_eq]
    exact size_le_structLayout hne' hpos' _ hmem
  | true =>
    rw [TypeTree.layout, TypeTree.layouts_eq]
    exact size_le_unionLayout hne' hpos' _ hmem

section Fields

variable {fields : List (TypeTree pf × FfiType pf)} (hfields : ∀ f ∈ fields, Builds f.1 f.2)
include hfields

theorem isPowerOfTwo_of_built : ∀ t ∈ fields.map Prod.snd, IsPowerOfTwo t.alignment := by
  intro t ht
  obtain ⟨f, hf, rfl⟩ := List.mem_map.mp ht
  exact (hfields f hf).alignment.1

theorem forall₂_built : List.Forall₂ Builds (fields.map Prod.fst) (fields.map Prod.snd) := by
  induction fields with
  | nil => exact .nil
  | cons f fs ih =>
    exact .cons (hfields f (List.mem_cons_self ..))
      (ih fun g hg => hfields g (List.mem_cons_of_mem f hg))

/-- Fields whose layouts agree when they fit, in an aggregate that fits. -/
theorem layouts_of_fields {isUnion : Bool} (hne : fields ≠ [])
    (hfits : (TypeTree.aggregate isUnion (fields.map Prod.fst)).layout.size <
      2 ^ (8 * pf.ptrSize))
    (heq : ∀ f ∈ fields, f.1.layout.size < 2 ^ (8 * pf.ptrSize) → f.2.layout = f.1.layout) :
    TypeTree.layouts (fields.map Prod.fst) = (fields.map Prod.snd).map FfiType.layout := by
  have hpos : ∀ t ∈ fields.map Prod.fst, 0 < t.layout.alignment := by
    intro t ht
    obtain ⟨f, hf, rfl⟩ := List.mem_map.mp ht
    obtain ⟨hpow, halign⟩ := (hfields f hf).alignment
    exact halign ▸ hpow.pos
  have hlt := size_lt_of_aggregate (by simpa using hne) hpos hfits
  rw [TypeTree.layouts_eq, List.map_map, List.map_map]
  exact List.map_congr_left fun f hf => (heq f hf (hlt f.1 (List.mem_map_of_mem hf))).symm

end Fields

/-- What the native code computes for a type is the layout of its tree, where the size of the tree
fits a `size_t`. -/
theorem Builds.layout_eq {tree : TypeTree pf} {t : FfiType pf} (h : Builds tree t)
    (hfits : tree.layout.size < 2 ^ (8 * pf.ptrSize)) : t.layout = tree.layout := by
  induction h with
  | builtin t => rfl
  | @aggregate callocFails isUnion fields s hfields hcall ih =>
    obtain ⟨hne, rfl⟩ := newStruct_handle hcall
    have hpow := isPowerOfTwo_of_built hfields
    have hlayouts := layouts_of_fields hfields (by simpa using hne) hfits ih
    cases isUnion with
    | false =>
      rw [TypeTree.layout, hlayouts] at hfits ⊢
      exact (struct_layout hne hpow rfl hfits).1
    | true =>
      rw [TypeTree.layout, hlayouts] at hfits ⊢
      exact union_layout hne hpow rfl hfits
  | @array callocFails elem t s length helem hcall ih =>
    obtain ⟨hlength, rfl⟩ := newArray_handle hcall
    have hpos := toNat_pos_of_toInt hlength
    rw [TypeTree.layout] at hfits ⊢
    have helem := ih (Nat.lt_of_le_of_lt (Nat.le_mul_of_pos_left _ hpos) hfits)
    rw [← helem] at hfits ⊢
    exact Layout.ext (array_layout hlength hfits) rfl

/-- The alignment of a built type divides its size, so that elements of an array are aligned as
well. -/
theorem Builds.alignment_dvd {tree : TypeTree pf} {t : FfiType pf} (h : Builds tree t)
    (hfits : tree.layout.size < 2 ^ (8 * pf.ptrSize)) : t.alignment.toNat ∣ t.size.toNat := by
  induction h with
  | builtin t => exact t.alignment_dvd
  | @aggregate callocFails isUnion fields s hfields hcall ih =>
    have hlayout := (Builds.aggregate hfields hcall).layout_eq hfits
    change s.layout.alignment ∣ s.layout.size
    rw [hlayout]
    cases isUnion with
    | false => exact dvd_alignUp _ _
    | true => exact dvd_alignUp _ _
  | @array callocFails elem t s length helem hcall ih =>
    obtain ⟨hlength, rfl⟩ := newArray_handle hcall
    have hpos := toNat_pos_of_toInt hlength
    have hsize : elem.layout.size < 2 ^ (8 * pf.ptrSize) :=
      Nat.lt_of_le_of_lt (Nat.le_mul_of_pos_left _ hpos) hfits
    rw [TypeTree.layout, ← helem.layout_eq hsize] at hfits
    rw [array_layout hlength hfits]
    exact Nat.dvd_trans (ih hsize) (Nat.dvd_mul_left _ _)

/-- **The layout of aggregates** is that of C: a power of two aligns the type and divides its size,
and the fields, members or elements lie as `IsCLayout` says. -/
theorem built_layout {tree : TypeTree pf} {t : FfiType pf} (h : Builds tree t)
    (hfits : tree.layout.size < 2 ^ (8 * pf.ptrSize)) :
    IsPowerOfTwo t.alignment ∧ t.alignment.toNat ∣ t.size.toNat ∧ IsCLayout tree t := by
  refine ⟨h.alignment.1, h.alignment_dvd hfits, ?_⟩
  have hlayout := h.layout_eq hfits
  cases h with
  | builtin t => rfl
  | @aggregate callocFails isUnion fields s hfields hcall =>
    obtain ⟨hne, hs⟩ := newStruct_handle hcall
    have helements : t.elements = fields.map Prod.snd := by
      rw [hs]
      exact elements_foldl isUnion _ emptyAggregate
    have hpow := isPowerOfTwo_of_built hfields
    have hpos := layout_alignment_pos hpow
    have hne' : (fields.map Prod.snd).map FfiType.layout ≠ [] := by simpa using hne
    have hlayouts := layouts_of_fields hfields (by simpa using hne) hfits
      fun f hf hsize => (hfields f hf).layout_eq hsize
    cases isUnion with
    | false =>
      rw [TypeTree.layout, hlayouts] at hfits hlayout
      refine ⟨helements ▸ forall₂_built hfields, ?_⟩
      rw [helements, hlayout, (struct_layout hne hpow rfl hfits).2]
      exact isStructOf_layout hne' hpos
    | true =>
      rw [TypeTree.layout, hlayouts] at hlayout
      refine ⟨helements ▸ forall₂_built hfields, ?_⟩
      rw [helements, hlayout]
      exact isUnionOf_layout hne' hpos
  | @array callocFails elem e s length helem hcall =>
    obtain ⟨hlength, rfl⟩ := newArray_handle hcall
    have hpos := toNat_pos_of_toInt hlength
    have hsize : elem.layout.size < 2 ^ (8 * pf.ptrSize) :=
      Nat.lt_of_le_of_lt (Nat.le_mul_of_pos_left _ hpos) hfits
    refine ⟨e, helem, rfl, ?_, ?_⟩
    · simp only [ne_eq, List.replicate_eq_nil_iff]
      omega
    · rw [hlayout, helem.layout_eq hsize]
      exact isArrayOf_layout elem.layout length.toNat

/-! ### Every tree can be built -/

/-- A tree without empty types, whose widths an `int` can count. -/
inductive Proper : TypeTree pf → Prop
  | builtin (t : BuiltinType pf) (size : t.size ≠ 0) : Proper (.builtin t)
  | aggregate {isUnion : Bool} {fields : List (TypeTree pf)} (ne : fields ≠ [])
      (count : fields.length + 1 < 2 ^ 31) (proper : ∀ f ∈ fields, Proper f) :
      Proper (.aggregate isUnion fields)
  | array {elem : TypeTree pf} {length : BitVec 32} (proper : Proper elem)
      (pos : 0 < length.toInt) (count : length.toNat + 1 < 2 ^ 31) : Proper (.array elem length)

/-- A tree without empty structs and arrays takes at least a byte, and is aligned to at least one.
-/
theorem Proper.layout_pos {tree : TypeTree pf} (h : Proper tree) :
    0 < tree.layout.alignment ∧ 0 < tree.layout.size := by
  induction h with
  | builtin t hsize =>
    exact ⟨t.alignment_pow.pos, Nat.pos_of_ne_zero fun h => hsize (BitVec.eq_of_toNat_eq h)⟩
  | @aggregate isUnion fields hne hcount hproper ih =>
    have hne' : fields.map TypeTree.layout ≠ [] := by simpa using hne
    have hpos : ∀ l ∈ fields.map TypeTree.layout, 0 < l.alignment := by
      intro l hl
      obtain ⟨f, hf, rfl⟩ := List.mem_map.mp hl
      exact (ih f hf).1
    obtain ⟨f, hf⟩ := List.exists_mem_of_ne_nil fields hne
    have hmem : f.layout ∈ fields.map TypeTree.layout := List.mem_map_of_mem hf
    cases isUnion with
    | false =>
      rw [TypeTree.layout, TypeTree.layouts_eq]
      exact ⟨maxAlignment_pos hne' hpos,
        Nat.lt_of_lt_of_le (ih f hf).2 (size_le_structLayout hne' hpos _ hmem)⟩
    | true =>
      rw [TypeTree.layout, TypeTree.layouts_eq]
      exact ⟨maxAlignment_pos hne' hpos,
        Nat.lt_of_lt_of_le (ih f hf).2 (size_le_unionLayout hne' hpos _ hmem)⟩
  | array hproper hpos hcount ih =>
    exact ⟨ih.1, Nat.mul_pos (toNat_pos_of_toInt hpos) ih.2⟩

/-- What is built for a proper tree that fits is not empty. -/
theorem Proper.size_ne_zero {tree : TypeTree pf} {t : FfiType pf} (h : Proper tree)
    (hbuilt : Builds tree t) (hfits : tree.layout.size < 2 ^ (8 * pf.ptrSize)) : t.size ≠ 0 := by
  intro hzero
  have hlayout : t.layout.size = tree.layout.size := by rw [hbuilt.layout_eq hfits]
  have hpos := h.layout_pos.2
  rw [← hlayout] at hpos
  simp [FfiType.layout, hzero] at hpos

theorem exists_pairs {fields : List (TypeTree pf)} (h : ∀ f ∈ fields, ∃ t, Builds f t) :
    ∃ pairs : List (TypeTree pf × FfiType pf),
      pairs.map Prod.fst = fields ∧ ∀ p ∈ pairs, Builds p.1 p.2 := by
  induction fields with
  | nil => exact ⟨[], rfl, by simp⟩
  | cons f fs ih =>
    obtain ⟨t, ht⟩ := h f (List.mem_cons_self ..)
    obtain ⟨pairs, rfl, hpairs⟩ := ih fun g hg => h g (List.mem_cons_of_mem f hg)
    exact ⟨(f, t) :: pairs, rfl, List.forall_mem_cons.mpr ⟨ht, hpairs⟩⟩

/-- The size the loop arrives at, when it fits, is not zero. -/
theorem size_addFields_ne_zero {isUnion : Bool} {types : List (FfiType pf)} (hne : types ≠ [])
    (hpow : ∀ t ∈ types, IsPowerOfTwo t.alignment) (hsize : ∀ t ∈ types, t.size ≠ 0)
    (hfits : extent 0 (types.map FfiType.layout) < 2 ^ (8 * pf.ptrSize) ∨ isUnion = true) :
    (types.foldl (addField isUnion) emptyAggregate).size ≠ 0 := by
  intro hzero
  obtain ⟨t, ht⟩ := List.exists_mem_of_ne_nil types hne
  have hmem : t.layout ∈ types.map FfiType.layout := List.mem_map_of_mem ht
  have hpos : 0 < t.layout.size :=
    Nat.pos_of_ne_zero fun h => hsize t ht (BitVec.eq_of_toNat_eq h)
  cases isUnion with
  | false =>
    have hfits' := hfits.resolve_right (by decide)
    have hextent := (foldl_struct hpow emptyAggregate hfits').1
    have hle := size_le_extent (layout_alignment_pos hpow) 0 _ hmem
    rw [hzero] at hextent
    have hextent' : 0 = extent 0 (types.map FfiType.layout) := hextent
    omega
  | true =>
    have hmax : _ = maxSize (types.map FfiType.layout) := size_foldl_union types emptyAggregate
    have hle := (isGreatest_maxSize (List.ne_nil_of_mem hmem)).2 ⟨_, hmem, rfl⟩
    rw [hzero] at hmax
    have hmax' : 0 = maxSize (types.map FfiType.layout) := hmax
    omega

/-- **Every proper tree that fits can be built**: some calls of `newStruct` and `newArray` return a
handle for it. -/
theorem exists_built {tree : TypeTree pf} (h : Proper tree)
    (hfits : tree.layout.size < 2 ^ (8 * pf.ptrSize)) : ∃ t, Builds tree t := by
  induction h with
  | builtin t hsize => exact ⟨_, .builtin t⟩
  | @aggregate isUnion fields hne hcount hproper ih =>
    have hlt := size_lt_of_aggregate hne (fun f hf => (hproper f hf).layout_pos.1) hfits
    obtain ⟨pairs, rfl, hpairs⟩ := exists_pairs fun f hf => ih f hf (hlt f hf)
    have hne' : pairs.map Prod.snd ≠ [] := by simpa using hne
    have hpow := isPowerOfTwo_of_built hpairs
    have hsize : ∀ t ∈ pairs.map Prod.snd, t.size ≠ 0 := by
      intro t ht
      obtain ⟨p, hp, rfl⟩ := List.mem_map.mp ht
      have hmem : p.1 ∈ pairs.map Prod.fst := List.mem_map_of_mem hp
      exact (hproper p.1 hmem).size_ne_zero (hpairs p hp) (hlt p.1 hmem)
    have hlayouts := layouts_of_fields hpairs (by simpa using hne) hfits
      fun p hp h => (hpairs p hp).layout_eq h
    have hextent : extent 0 ((pairs.map Prod.snd).map FfiType.layout) < 2 ^ (8 * pf.ptrSize) ∨
        isUnion = true := by
      cases isUnion with
      | false =>
        rw [TypeTree.layout, hlayouts] at hfits
        have hpos := maxAlignment_pos (by simpa using hne') (layout_alignment_pos hpow)
        exact .inl (Nat.lt_of_le_of_lt (le_alignUp _ hpos) hfits)
      | true => exact .inr rfl
    obtain ⟨s, hs⟩ := exists_newStruct hne' (by simpa using hcount) hsize
      (size_addFields_ne_zero hne' hpow hsize hextent)
    exact ⟨s, .aggregate hpairs hs⟩
  | @array elem length hproper hpos hcount ih =>
    have hlt : elem.layout.size < 2 ^ (8 * pf.ptrSize) :=
      Nat.lt_of_le_of_lt (Nat.le_mul_of_pos_left _ (toNat_pos_of_toInt hpos)) hfits
    obtain ⟨t, ht⟩ := ih hlt
    have hsize := hproper.size_ne_zero ht hlt
    have hcalloc : callocElementsFails (fun _ => false) length.toNat = false := by
      simp [callocElementsFails]
      omega
    have hcall : ∃ s, (Foreign.newArray (fun _ => false) (some t) length).handle = some s := by
      refine Option.isSome_iff_exists.mp ?_
      simp only [Foreign.newArray, if_neg hsize, hcalloc, if_neg (show ¬length.toInt < 1 by omega),
        Bool.false_eq_true, if_false]
      rfl
    obtain ⟨s, hs⟩ := hcall
    exact ⟨s, .array ht hs⟩

/-- `ffi_type_sint8` and `ffi_type_sint32`. -/
def sint8X64 : BuiltinType .linuxX64 where
  size := 1
  alignment := 1
  type := .sint8
  elements := []
  alignment_pow := ⟨0, rfl⟩
  alignment_dvd := ⟨1, rfl⟩

@[inherit_doc sint8X64]
def sint32X64 : BuiltinType .linuxX64 where
  size := 4
  alignment := 4
  type := .sint32
  elements := []
  alignment_pow := ⟨2, rfl⟩
  alignment_dvd := ⟨1, rfl⟩

/-- `struct { char c; int i; }` takes eight bytes, and an array of three of them 24. -/
theorem built_layout_charInt :
    ∃ t, Builds (.array (.aggregate false [.builtin sint8X64, .builtin sint32X64]) 3) t ∧
      t.layout = ⟨24, 4⟩ ∧ IsPowerOfTwo t.alignment ∧ t.alignment.toNat ∣ t.size.toNat ∧
      IsCLayout (.array (.aggregate false [.builtin sint8X64, .builtin sint32X64]) 3) t := by
  have hstruct : Builds (.aggregate false [.builtin sint8X64, .builtin sint32X64])
      ⟨8, 4, .struct, [sint8X64.toFfiType, sint32X64.toFfiType]⟩ := by
    refine @Builds.aggregate _ (fun _ => false) false
      [(.builtin sint8X64, sint8X64.toFfiType), (.builtin sint32X64, sint32X64.toFfiType)] _ ?_ rfl
    intro f hf
    simp only [List.mem_cons, List.not_mem_nil, or_false] at hf
    rcases hf with rfl | rfl
    · exact .builtin _
    · exact .builtin _
  have harray := @Builds.array _ (fun _ => false) _ _ _ 3 hstruct rfl
  exact ⟨_, harray, rfl, built_layout harray (by decide)⟩

end Jffi
