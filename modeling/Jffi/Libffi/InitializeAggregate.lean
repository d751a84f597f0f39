import Jffi.Aggregate

/-!
# The layout libffi would compute

libffi has a layout algorithm of its own: `initialize_aggregate` fills in the size and the
alignment of a struct whose size is zero, and of the structs among its elements that still have
none. The types of `newStruct` and `newArray` never reach it, because they come with a size. Had
they come without, libffi would have computed what the library computed, wrapped numbers included.

A union is a struct to libffi, so it is left out.

## Main definitions

* `initializeAggregate` — with the offsets that `ffi_get_struct_offsets` reports
* `Unsized` — a type some of whose structs have lost their size
* `TypeTree.Unionless`

## Main results

* `Builds.dvd_size` — the alignment divides the size, even a wrapped one
* `initializeAggregate_built` — libffi arrives at the type that was built
-/

namespace Jffi

variable {pf : Platform}

/-! ### `initialize_aggregate` -/

mutual

/-- `initialize_aggregate(arg, offsets)`: the finished type and the offsets of its elements, `none`
for `FFI_BAD_TYPEDEF`. -/
def initializeAggregate : FfiType pf → Option (FfiType pf × List (SizeT pf))
  | ⟨_, _, type, elements⟩ => do
    let (arg, offsets) ← initializeElements ⟨0, 0, type, []⟩ elements
    -- Structure size includes tail padding
    let size := FFI_ALIGN arg.size arg.alignment
    if size = 0 then none else some ({ arg with size := size }, offsets)

/-- The `while` loop over `arg->elements`. -/
def initializeElements (arg : FfiType pf) :
    List (FfiType pf) → Option (FfiType pf × List (SizeT pf))
  | [] => some (arg, [])
  | elem :: elems => do
    let elem ← (if elem.size = 0 then (initializeAggregate elem).map Prod.fst else some elem)
    let (last, offsets) ← initializeElements (addField false arg elem) elems
    some (last, FFI_ALIGN arg.size elem.alignment :: offsets)

end

theorem initializeAggregate_eq (t : FfiType pf) :
    initializeAggregate t =
      (initializeElements ⟨0, 0, t.type, []⟩ t.elements).bind fun p =>
        if FFI_ALIGN p.1.size p.1.alignment = 0 then none
        else some ({ p.1 with size := FFI_ALIGN p.1.size p.1.alignment }, p.2) := by
  obtain ⟨size, alignment, type, elements⟩ := t
  rfl

/-- The loop over elements that have a size, or get the one they should have. -/
theorem initializeElements_eq {fields : List (FfiType pf × FfiType pf)}
    (h : ∀ f ∈ fields, (if f.2.size = 0 then (initializeAggregate f.2).map Prod.fst
      else some f.2) = some f.1) (arg : FfiType pf) :
    initializeElements arg (fields.map Prod.snd) =
      some ((fields.map Prod.fst).foldl (addField false) arg,
        fieldOffsets arg (fields.map Prod.fst)) := by
  induction fields generalizing arg with
  | nil => rfl
  | cons f fs ih =>
    rw [List.map_cons, initializeElements, h f (List.mem_cons_self ..)]
    simp only [Option.bind_eq_bind, Option.bind_some]
    rw [ih fun g hg => h g (List.mem_cons_of_mem f hg)]
    rfl

/-! ### The alignment divides the size -/

/-- What the low bits of a multiple of a power of two do to `FFI_ALIGN`. -/
theorem FFI_ALIGN_of_dvd {v : SizeT pf} {a : BitVec 16} (ha : IsPowerOfTwo a)
    (hdvd : a.toNat ∣ v.toNat) : FFI_ALIGN v a = v := by
  have halign : alignUp v.toNat a.toNat = v.toNat :=
    Nat.le_antisymm (alignUp_le hdvd (Nat.le_refl _)) (le_alignUp _ ha.pos)
  refine BitVec.eq_of_toNat_eq ?_
  rw [toNat_FFI_ALIGN ha (by rw [halign]; exact v.isLt), halign]

/-- A power of two that fits an `unsigned short` divides the number of values of a `size_t`. -/
theorem IsPowerOfTwo.dvd_sizeT {a : BitVec 16} (ha : IsPowerOfTwo a) :
    a.toNat ∣ 2 ^ (8 * pf.ptrSize) := by
  obtain ⟨k, hk⟩ := ha
  have hlt : 2 ^ k < 2 ^ 16 := hk ▸ a.isLt
  have hk16 : k < 16 := (Nat.pow_lt_pow_iff_right (by decide)).mp hlt
  rw [hk]
  exact Nat.pow_dvd_pow 2 (by have := sixteen_le_sizeT pf; omega)

/-- `FFI_ALIGN` is a multiple of the alignment, also where it wraps around. -/
theorem dvd_FFI_ALIGN {a : BitVec 16} (ha : IsPowerOfTwo a) (v : SizeT pf) :
    a.toNat ∣ (FFI_ALIGN v a).toNat := by
  rw [toNat_FFI_ALIGN_mod ha, Nat.dvd_mod_iff ha.dvd_sizeT]
  exact dvd_alignUp _ _

theorem Builds.dvd_size {tree : TypeTree pf} {t : FfiType pf} (h : Builds tree t) :
    t.alignment.toNat ∣ t.size.toNat := by
  induction h with
  | builtin t => exact t.alignment_dvd
  | aggregate hfields hcall ih =>
    obtain ⟨hne, rfl⟩ := newStruct_handle hcall
    exact dvd_FFI_ALIGN (isPowerOfTwo_addFields _ hne (isPowerOfTwo_of_built hfields)) _
  | array helem hcall ih =>
    obtain ⟨hlength, rfl⟩ := newArray_handle hcall
    rw [BitVec.toNat_mul, Nat.dvd_mod_iff helem.alignment.1.dvd_sizeT]
    exact Nat.dvd_mul_left_of_dvd ih _

/-! ### What was built, from its elements -/

/-- A tree without unions, whose builtin types are not structs. -/
inductive TypeTree.Unionless : TypeTree pf → Prop
  | builtin (t : BuiltinType pf) (type : t.type ≠ .struct) : Unionless (.builtin t)
  | struct {fields : List (TypeTree pf)} (unionless : ∀ f ∈ fields, Unionless f) :
      Unionless (.aggregate false fields)
  | array {elem : TypeTree pf} (length : BitVec 32) (unionless : Unionless elem) :
      Unionless (.array elem length)

/-- The loop of `newStruct` stops with an error when it comes to a field whose type has no size. -/
theorem foldlM_fieldStep_error (isUnion : Bool) {types : List (FfiType pf)}
    (h : ∃ t ∈ types, t.size = 0) (k : ℕ) (s : FfiType pf) :
    ∃ e, ((types.map some).zipIdx k).foldlM (fieldStep isUnion) s = .error e := by
  induction types generalizing k s with
  | nil => simp at h
  | cons t ts ih =>
    rw [List.map_cons, List.zipIdx_cons, List.foldlM_cons]
    by_cases ht : t.size = 0
    · have hstep : fieldStep isUnion s (some t, k) = .error (.emptyField k) := if_pos ht
      rw [hstep]
      exact ⟨.emptyField k, rfl⟩
    · rw [fieldStep_of_size ht]
      obtain ⟨u, hu, hzero⟩ := h
      rcases List.mem_cons.mp hu with rfl | hu
      · exact absurd hzero ht
      · exact ih ⟨u, hu, hzero⟩ (k + 1) (addField isUnion s t)

theorem size_ne_zero_of_newStruct {callocFails : AggregatePart → Bool} {isUnion : Bool}
    {types : List (FfiType pf)} {s : FfiType pf}
    (h : (Foreign.newStruct callocFails (some (types.map some)) isUnion).handle = some s) :
    ∀ t ∈ types, t.size ≠ 0 := by
  intro t ht hzero
  obtain ⟨e, he⟩ := foldlM_fieldStep_error isUnion ⟨t, ht, hzero⟩ 0 emptyAggregate
  simp only [Foreign.newStruct, he] at h
  split at h
  · cases h
  split at h
  · cases h
  split at h <;> cases h

theorem size_ne_zero_of_newArray {callocFails : AggregatePart → Bool} {elem s : FfiType pf}
    {length : BitVec 32} (h : (Foreign.newArray callocFails (some elem) length).handle = some s) :
    elem.size ≠ 0 := by
  intro hzero
  simp only [Foreign.newArray, if_pos hzero] at h
  cases h

/-- `t` is the struct of its elements: what the loop over them arrives at, with the padding. -/
def FfiType.IsStruct (t : FfiType pf) : Prop :=
  t = { t.elements.foldl (addField false) emptyAggregate with
    size := FFI_ALIGN (t.elements.foldl (addField false) emptyAggregate).size
      (t.elements.foldl (addField false) emptyAggregate).alignment }

/-- Equal elements are added to a struct one behind the other without padding, if their size is a
multiple of their alignment. -/
theorem foldl_replicate {elem : FfiType pf} (ha : IsPowerOfTwo elem.alignment)
    (hdvd : elem.alignment.toNat ∣ elem.size.toNat) (n m : ℕ)
    (elements : List (FfiType pf)) :
    (List.replicate n elem).foldl (addField false)
        ⟨BitVec.ofNat _ m * elem.size, elem.alignment, .struct, elements⟩ =
      ⟨BitVec.ofNat _ (m + n) * elem.size, elem.alignment, .struct,
        elements ++ List.replicate n elem⟩ := by
  induction n generalizing m elements with
  | zero => simp
  | succ n ih =>
    have hstep : addField false ⟨BitVec.ofNat _ m * elem.size, elem.alignment, .struct, elements⟩
        elem = ⟨BitVec.ofNat _ (m + 1) * elem.size, elem.alignment, .struct,
          elements ++ [elem]⟩ := by
      have hsize : elem.alignment.toNat ∣ (BitVec.ofNat _ m * elem.size : SizeT pf).toNat := by
        rw [BitVec.toNat_mul, Nat.dvd_mod_iff ha.dvd_sizeT]
        exact Nat.dvd_mul_left_of_dvd hdvd _
      simp only [addField, Bool.false_eq_true, if_false, FFI_ALIGN_of_dvd ha hsize, MAX, gt_iff_lt,
        ite_self]
      rw [BitVec.ofNat_add, BitVec.add_mul, BitVec.one_mul]
    rw [List.replicate_succ, List.foldl_cons, hstep, ih (m + 1)]
    simp [Nat.add_comm, Nat.add_left_comm]

/-- **A built type is the struct of its elements**, when it has any and there is no union in it. -/
theorem Builds.isStruct {tree : TypeTree pf} {t : FfiType pf} (h : Builds tree t)
    (hu : tree.Unionless) (htype : t.type = .struct) :
    t.IsStruct ∧ ∀ e ∈ t.elements, e.size ≠ 0 ∧ ∃ tree', Builds tree' e ∧ tree'.Unionless := by
  cases h with
  | builtin t =>
    cases hu with
    | builtin t htype' => exact absurd htype htype'
  | @aggregate callocFails isUnion fields s hfields hcall =>
    obtain ⟨hne, rfl⟩ := newStruct_handle hcall
    have hsize := size_ne_zero_of_newStruct hcall
    generalize hg : fields.map Prod.fst = trees at hu
    cases hu with
    | struct hunionless =>
      have helements : ((fields.map Prod.snd).foldl (addField false) emptyAggregate).elements =
          fields.map Prod.snd := elements_foldl false _ emptyAggregate
      refine ⟨?_, fun e he => ?_⟩
      · simp only [FfiType.IsStruct, helements]
      · change e ∈ ((fields.map Prod.snd).foldl (addField false) emptyAggregate).elements at he
        rw [helements] at he
        obtain ⟨f, hf, rfl⟩ := List.mem_map.mp he
        exact ⟨hsize _ he, f.1, hfields f hf, hunionless _ (hg ▸ List.mem_map_of_mem hf)⟩
  | @array callocFails elem e s length helem hcall =>
    obtain ⟨hlength, rfl⟩ := newArray_handle hcall
    cases hu with
    | array _ hunionless =>
      refine ⟨?_, fun e' he' => ?_⟩
      · have hpow := helem.alignment.1
        obtain ⟨n, hn⟩ : ∃ n, length.toNat = n + 1 :=
          Nat.exists_eq_add_one.mpr (toNat_pos_of_toInt hlength)
        have hfirst : addField false emptyAggregate e =
            ⟨BitVec.ofNat _ 1 * e.size, e.alignment, .struct, [e]⟩ := by
          have hzero : FFI_ALIGN (0 : SizeT pf) e.alignment = 0 :=
            FFI_ALIGN_of_dvd hpow (by simp)
          have hmax : MAX 0 e.alignment = e.alignment := if_neg (by simp)
          change (⟨FFI_ALIGN 0 e.alignment + e.size, MAX 0 e.alignment, .struct, [] ++ [e]⟩ :
            FfiType pf) = _
          rw [hzero, hmax, BitVec.ofNat_eq_ofNat, BitVec.zero_add, BitVec.one_mul, List.nil_append]
        have hfold : (List.replicate length.toNat e).foldl (addField false) emptyAggregate =
            ⟨length.signExtend (8 * pf.ptrSize) * e.size, e.alignment, .struct,
              List.replicate length.toNat e⟩ := by
          have hcount : length.signExtend (8 * pf.ptrSize) = BitVec.ofNat _ (1 + n) := by
            refine BitVec.eq_of_toNat_eq ?_
            have hlt := (length.signExtend (8 * pf.ptrSize)).isLt
            rw [toNat_signExtend_length hlength, hn] at hlt ⊢
            rw [BitVec.toNat_ofNat, Nat.add_comm 1 n, Nat.mod_eq_of_lt hlt]
          rw [hn, List.replicate_succ, List.foldl_cons, hfirst,
            foldl_replicate hpow helem.dvd_size n 1, hcount]
          rfl
        simp only [FfiType.IsStruct, hfold]
        have hdvd := (Builds.array helem hcall).dvd_size
        rw [FFI_ALIGN_of_dvd hpow hdvd]
      · rw [List.eq_of_mem_replicate he']
        exact ⟨size_ne_zero_of_newArray hcall, elem, helem, hunionless⟩

/-! ### The two algorithms agree -/

/-- A type some of whose structs have lost their size, and with it whatever they had for an
alignment. A struct that has kept its size has kept everything. -/
inductive Unsized : FfiType pf → FfiType pf → Prop
  | kept (t : FfiType pf) : Unsized t t
  | lost {fields : List (FfiType pf × FfiType pf)} {size : SizeT pf}
      {alignment alignment' : BitVec 16} (fields_lost : ∀ f ∈ fields, Unsized f.1 f.2) :
      Unsized ⟨size, alignment, .struct, fields.map Prod.fst⟩
        ⟨0, alignment', .struct, fields.map Prod.snd⟩

theorem Unsized.eq_of_size {t r : FfiType pf} (h : Unsized t r) (hr : r.size ≠ 0) : r = t := by
  cases h with
  | kept => rfl
  | lost _ => exact absurd rfl hr

/-- **libffi computes the layout that was built**, wrapped numbers included, when a struct has lost
its size and alignment, and the offsets of its fields are those of the loop of `newStruct`. -/
theorem initializeAggregate_built {tree : TypeTree pf} {t r : FfiType pf} (h : Builds tree t)
    (hu : tree.Unionless) (ht : t.size ≠ 0) (hlost : Unsized t r) (hr : r.size = 0) :
    initializeAggregate r = some (t, fieldOffsets emptyAggregate t.elements) := by
  induction hlost generalizing tree with
  | kept t => exact absurd hr ht
  | @lost fields size alignment alignment' hfields ih =>
    obtain ⟨hstruct, helements⟩ := h.isStruct hu rfl
    have hsized : ∀ f ∈ fields, (if f.2.size = 0 then (initializeAggregate f.2).map Prod.fst
        else some f.2) = some f.1 := by
      intro f hf
      obtain ⟨hsize, tree', hbuilds, hunionless⟩ := helements f.1 (List.mem_map_of_mem hf)
      split
      case isTrue hzero => rw [ih f hf hbuilds hunionless hsize hzero]; rfl
      case isFalse hne => rw [(hfields f hf).eq_of_size hne]
    have hfold := congrArg FfiType.size hstruct
    rw [initializeAggregate_eq, initializeElements_eq hsized]
    refine (if_neg fun hzero => ht (hfold.trans hzero)).trans ?_
    exact congrArg some (Prod.ext hstruct.symm rfl)

/-- `struct { char c; int i; }`. -/
def charInt : FfiType .linuxX64 := ⟨8, 4, .struct, [sint8X64.toFfiType, sint32X64.toFfiType]⟩

theorem builds_charInt :
    Builds (.aggregate false [.builtin sint8X64, .builtin sint32X64]) charInt := by
  refine @Builds.aggregate _ (fun _ => false) false
    [(.builtin sint8X64, sint8X64.toFfiType), (.builtin sint32X64, sint32X64.toFfiType)] _ ?_ rfl
  intro f hf
  simp only [List.mem_cons, List.not_mem_nil, or_false] at hf
  rcases hf with rfl | rfl
  · exact .builtin _
  · exact .builtin _

theorem unionless_charInt :
    (TypeTree.aggregate false [.builtin sint8X64, .builtin sint32X64]).Unionless := by
  refine .struct fun f hf => ?_
  simp only [List.mem_cons, List.not_mem_nil, or_false] at hf
  rcases hf with rfl | rfl
  · exact .builtin _ (by decide)
  · exact .builtin _ (by decide)

/-- Two elements of an array that have lost their size, the second with an alignment left. -/
theorem initializeAggregate_charInt :
    initializeAggregate
        (⟨0, 0, .struct,
          [⟨0, 0, .struct, charInt.elements⟩, ⟨0, 16, .struct, charInt.elements⟩]⟩ :
          FfiType .linuxX64) =
      some (⟨16, 4, .struct, [charInt, charInt]⟩, [0, 8]) := by
  have hlost (a : BitVec 16) : Unsized charInt ⟨0, a, .struct, charInt.elements⟩ :=
    @Unsized.lost .linuxX64 (charInt.elements.map fun t => (t, t)) _ 4 _ fun f hf => by
      obtain ⟨t, -, rfl⟩ := List.mem_map.mp hf
      exact .kept t
  refine initializeAggregate_built (@Builds.array _ (fun _ => false) _ _ _ 2
    builds_charInt rfl) (.array _ unionless_charInt) (by decide)
    (@Unsized.lost .linuxX64 [(charInt, _), (charInt, _)] _ _ _ fun f hf => ?_) rfl
  simp only [List.mem_cons, List.not_mem_nil, or_false] at hf
  rcases hf with rfl | rfl
  · exact hlost 0
  · exact hlost 16

end Jffi
