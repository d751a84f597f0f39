import Jffi.Libffi.ArgumentPassing

/-!
# Calls of closures

A closure is called through its trampoline, as any native function is: what `ffi_call` does for a
native function that is a closure can be read off libffi to the end. The function behind the closure
gets the numbers and pointers of the arguments, and what it stores as its result, in the frame of
the trampoline or at the address that came with the arguments, is stored in the return buffer, by
way of the registers for results.

So `ffi_call`, as the entry points of the library use it, is what the code of libffi does. Padding
is the exception, and of a `long double` only ten bytes are stored.

## Main definitions

* `ffiCallClosure` — `ffi_call`, the trampoline and back
* `Refines` — every byte that is not undefined

## Main results

* `storeTable_loadTable` — a result in registers
* `ffiCall_closure` — a call of a closure
-/

namespace Jffi

/-! ### The call -/

/-- What a closure's function stores is loaded and stored again: its result lies in the frame of the
trampoline, whose 32 bytes are for it, or in `retval`, at the address `raddr`. -/
def returnClosure (cif : Cif64) (raddr : Ptr) (rvalue : Option Ptr) (result retval : List Cell) :
    Option (List Cell) := do
  let frame := List.replicate 32 Cell.undef
  let (flags, frame, retval) ← (match rvalue with
    | none => do
      let frame ← splice frame 0 result
      some (cif.flags, frame, retval)
    | some p => do
      let frame ← splice frame 0 (p.image .linuxX64)
      let retval ← if p = raddr then splice retval 0 result else none
      some (UNIX64_RET_INT64, frame, retval))
  let regs ← loadTable flags frame
  let stored ← storeTable cif.flags regs
  splice retval 0 stored

/-- `ffi_call` of a closure with the function `callee` behind it. The address `raddr` is that of
`retval`: the library never passes `NULL` for it. -/
def ffiCallClosure (cif : Cif64) (callee : Callee) (raddr : Ptr) (area : SizeT .linuxX64)
    (avalue : List (List Cell)) (retval : List Cell) (m : Memory) :
    Option (CallResult × List Cell) := do
  let entry ← ffiCallInt cif raddr area avalue
  let (rvalue, sources) ← closureInner cif entry
  let args ← closureValues cif entry sources
  let r := callee args m
  let retval ← returnClosure cif raddr rvalue r.result retval
  some (r, retval)

/-! ### The tables -/

/-- The flag that says that vector registers are used changes neither the entry of the result tables
nor the size that is kept beside it. -/
theorem flag_ignored (flags : BitVec 32) :
    (flags ||| UNIX64_FLAG_XMM_ARGS) &&& 0xff = flags &&& 0xff ∧
      (flags ||| UNIX64_FLAG_XMM_ARGS) >>> UNIX64_SIZE_SHIFT = flags >>> UNIX64_SIZE_SHIFT := by
  refine ⟨?_, ?_⟩
  · rw [BitVec.and_comm, BitVec.and_or_distrib_left, BitVec.and_comm]
    exact BitVec.or_zero
  · rw [BitVec.ushiftRight_or_distrib]
    exact BitVec.or_zero

theorem loadTable_or (flags : BitVec 32) (rvalue : List Cell) :
    loadTable (flags ||| UNIX64_FLAG_XMM_ARGS) rvalue = loadTable flags rvalue := by
  simp only [loadTable, (flag_ignored flags).1]

theorem storeTable_or (flags : BitVec 32) (regs : Returned64) :
    storeTable (flags ||| UNIX64_FLAG_XMM_ARGS) regs = storeTable flags regs := by
  simp only [storeTable, (flag_ignored flags).1, (flag_ignored flags).2]

/-- The size of a struct beside the number of an entry. -/
theorem decode_size {c : BitVec 32} (hc : c.toNat < 2 ^ 8) {size : SizeT .linuxX64}
    (hsize : size.toNat ≤ 16) :
    (c ||| (size <<< UNIX64_SIZE_SHIFT).setWidth 32) &&& 0xff = c ∧
      ((c ||| (size <<< UNIX64_SIZE_SHIFT).setWidth 32) >>> UNIX64_SIZE_SHIFT).toNat =
        size.toNat ∧
      (c ||| (size <<< UNIX64_SIZE_SHIFT).setWidth 32) &&& UNIX64_FLAG_RET_IN_MEM = 0 := by
  have hnat : (c ||| (size <<< UNIX64_SIZE_SHIFT).setWidth 32).toNat =
      size.toNat * 2 ^ 12 + c.toNat := by
    rw [BitVec.toNat_or, BitVec.toNat_setWidth, BitVec.toNat_shiftLeft, UNIX64_SIZE_SHIFT,
      Nat.shiftLeft_eq]
    have hlt : size.toNat * 2 ^ 12 < 2 ^ 32 := by omega
    rw [Nat.mod_eq_of_lt (a := size.toNat * 2 ^ 12) (Nat.lt_trans hlt (by decide)),
      Nat.mod_eq_of_lt hlt, Nat.or_comm, ← Nat.shiftLeft_eq,
      Nat.shiftLeft_add_eq_or_of_lt (show c.toNat < 2 ^ 12 by omega)]
  refine ⟨BitVec.eq_of_toNat_eq ?_, ?_, ?_⟩
  · rw [BitVec.toNat_and, hnat]
    refine (Nat.and_two_pow_sub_one_eq_mod _ 8).trans ?_
    omega
  · rw [BitVec.toNat_ushiftRight, hnat, UNIX64_SIZE_SHIFT, Nat.shiftRight_eq_div_pow]
    omega
  · have hbit : (c ||| (size <<< UNIX64_SIZE_SHIFT).setWidth 32).getLsbD 10 = false := by
      rw [BitVec.getLsbD, hnat, Nat.testBit_eq_decide_div_mod_eq]
      exact decide_eq_false (by omega)
    rw [show UNIX64_FLAG_RET_IN_MEM = BitVec.twoPow 32 10 from rfl, BitVec.and_twoPow, hbit]
    rfl

theorem extendLow_loadLow (signed signed' : Bool) {n : ℕ} {rvalue : List Cell}
    (hn : n ≤ rvalue.length) :
    extendLow signed n (loadLow signed' n rvalue) =
      rvalue.take n ++ List.replicate (8 - n) (extension signed (rvalue.take n)) := by
  have hlen : (rvalue.take n).length = n := by
    rw [List.length_take]
    omega
  rw [extendLow, loadLow, List.append_assoc, List.take_append_of_le_length (by omega),
    List.take_of_length_le (by omega)]

theorem fitResult_of_le {n : ℕ} {result : List Cell} (h : n ≤ result.length) :
    fitResult n result = result.take n := by
  rw [fitResult, List.take_append_of_le_length h]

/-- The entries for two registers, of which the first bytes are stored. -/
theorem sized_tables {c : BitVec 32}
    (hc : c = UNIX64_RET_ST_XMM0_RAX ∨ c = UNIX64_RET_ST_RAX_XMM0 ∨ c = UNIX64_RET_ST_XMM0_XMM1 ∨
      c = UNIX64_RET_ST_RAX_RDX) {size : SizeT .linuxX64} (hsize : size.toNat ≤ 16)
    {rvalue : List Cell} (hlen : rvalue.length = 32) :
    (loadTable (c ||| (size <<< UNIX64_SIZE_SHIFT).setWidth 32) rvalue).bind
        (storeTable (c ||| (size <<< UNIX64_SIZE_SHIFT).setWidth 32)) =
      some (rvalue.take size.toNat) := by
  have hlt : c.toNat < 2 ^ 8 := by rcases hc with rfl | rfl | rfl | rfl <;> decide
  have hslice : slice (rvalue.take 8 ++ (rvalue.drop 8).take 8) 0 size.toNat =
      some (rvalue.take size.toNat) := by
    rw [← List.take_add]
    refine slice_eq_some.mpr ⟨by simp [hlen]; omega, ?_⟩
    rw [List.drop_zero, List.take_take, Nat.min_eq_left hsize]
  obtain ⟨hkind, hshift, -⟩ := decode_size hlt hsize
  simp only [loadTable, hkind]
  rcases hc with rfl | rfl | rfl | rfl
  all_goals
    refine Eq.trans ?_ hslice
    change storeTable _ _ = _
    simp only [storeTable, hkind, hshift]
    rfl

/-- A result that is not in memory has at most sixteen bytes. -/
theorem Natural.size_le_of_examined {rtype : FfiType .linuxX64} (h : Natural rtype) {e : Examined}
    (he : examineArgument rtype true = some e) (hn : ¬e.n = 0) : rtype.size.toNat ≤ 16 := by
  refine Nat.le_of_not_lt fun hbig => hn ?_
  obtain ⟨e', he', hzero⟩ := h.examine_inMemory (.inl hbig) true
  rw [he, Option.some.injEq] at he'
  exact he' ▸ hzero (.inr hbig)

/-- A struct of at most sixteen bytes comes back through the registers of the two tables as the
bytes that were at the result. -/
theorem structFlags_tables (e : Examined) {size : SizeT .linuxX64} (hsize : size.toNat ≤ 16)
    {rvalue : List Cell} (hlen : rvalue.length = 32) :
    structFlags e size &&& UNIX64_FLAG_RET_IN_MEM = 0 ∧
      (loadTable (structFlags e size) rvalue).bind (storeTable (structFlags e size)) =
        some (rvalue.take size.toNat) := by
  rw [structFlags]
  split
  case isTrue h =>
    obtain ⟨rfl, -⟩ := h
    refine ⟨by decide, ?_⟩
    change some ((rvalue.take 4 ++ List.replicate 4 (Cell.byte 0)).take 4) = _
    rw [List.take_append_of_le_length (by simp [hlen]), List.take_take]
    rfl
  case isFalse =>
    split
    case isTrue h =>
      subst h
      split
      · exact ⟨by decide, rfl⟩
      · exact ⟨by decide, rfl⟩
    case isFalse =>
      simp only
      split
      · exact ⟨(decode_size (by decide) hsize).2.2, sized_tables (by decide) hsize hlen⟩
      split
      · exact ⟨(decode_size (by decide) hsize).2.2, sized_tables (by decide) hsize hlen⟩
      split
      · exact ⟨(decode_size (by decide) hsize).2.2, sized_tables (by decide) hsize hlen⟩
      · exact ⟨(decode_size (by decide) hsize).2.2, sized_tables (by decide) hsize hlen⟩

/-- The bytes that are stored of a result: of a `long double` ten. -/
def storedDigits (t : FFIType) (result : List Cell) : List Cell :=
  if t = .longdouble then result.take 10 else returnDigits .linuxX64 t result

theorem storedDigits_of_isIntegral {t : FFIType} (ht : t.isIntegral = true) {rvalue : List Cell}
    (hlen : rvalue.length = 32) :
    storedDigits t rvalue = rvalue.take (t.size .linuxX64) ++
      List.replicate (8 - t.size .linuxX64)
        (extension t.isSigned (rvalue.take (t.size .linuxX64))) := by
  have hle : t.size .linuxX64 ≤ 8 := FFIType.size_le_of_isIntegral ht
  have hne : t ≠ .longdouble := by
    rintro rfl
    cases ht
  rw [storedDigits, if_neg hne, returnDigits, FFIType.valueSize_of_isIntegral ht,
    fitResult_of_le (by omega)]
  simp only [if_pos ht, List.length_take, Nat.min_eq_left (show t.size .linuxX64 ≤ rvalue.length by
    omega)]
  rfl

theorem storedDigits_of_not_isIntegral {t : FFIType} (ht : t.isIntegral = false)
    (hne : t ≠ .longdouble) {rvalue : List Cell} (hle : t.valueSize .linuxX64 ≤ rvalue.length) :
    storedDigits t rvalue = rvalue.take (t.valueSize .linuxX64) := by
  rw [storedDigits, if_neg hne, returnDigits, fitResult_of_le hle]
  exact if_neg (Bool.eq_false_iff.mp ht)

/-- **A result in registers** is loaded by the trampoline and stored by the call. -/
theorem storeTable_loadTable {t : FFIType} {rtype : FfiType .linuxX64} (h : Describes t rtype)
    {flags : BitVec 32} (hflags : returnFlags rtype = some flags)
    (hmem : flags &&& UNIX64_FLAG_RET_IN_MEM = 0) {rvalue : List Cell}
    (hlen : rvalue.length = 32) :
    (loadTable flags rvalue).bind (storeTable flags) = some (storedDigits t rvalue) := by
  -- an integer is loaded without its sign, and widened when it is stored
  have hwiden (ht : t.isIntegral = true) (signed : Bool) :
      some (extendLow t.isSigned (t.size .linuxX64) (loadLow signed (t.size .linuxX64) rvalue)) =
        some (storedDigits t rvalue) := by
    have hle : t.size .linuxX64 ≤ 8 := FFIType.size_le_of_isIntegral ht
    rw [extendLow_loadLow _ _ (by omega), storedDigits_of_isIntegral ht hlen]
  have hword (ht : t.isIntegral = true) (hsize : t.size .linuxX64 = 8) :
      some (rvalue.take 8) = some (storedDigits t rvalue) := by
    rw [storedDigits_of_isIntegral ht hlen, hsize]
    exact congrArg some (List.append_nil _).symm
  cases h with
  | void =>
    cases hflags
    rfl
  | scalar _ hs =>
    cases t with
    | void => cases hs
    | struct => cases hs
    | uint8 | uint16 | uint32 | sint8 | sint16 =>
      cases hflags
      exact hwiden rfl _
    | sint32 =>
      cases hflags
      exact hwiden rfl false
    | uint64 | sint64 | pointer =>
      cases hflags
      exact hword rfl rfl
    | float =>
      cases hflags
      rw [storedDigits_of_not_isIntegral rfl (by decide) (by rw [hlen]; decide)]
      change some ((rvalue.take 4 ++ List.replicate 4 (Cell.byte 0)).take 4) = _
      rw [List.take_append_of_le_length (by simp [hlen]), List.take_take]
      rfl
    | double =>
      cases hflags
      rw [storedDigits_of_not_isIntegral rfl (by decide) (by rw [hlen]; decide)]
      rfl
    | longdouble =>
      cases hflags
      rfl
  | struct hnatural hstruct =>
    rw [returnFlags, hstruct] at hflags
    obtain ⟨e, he, rfl⟩ := Option.map_eq_some_iff.mp hflags
    split at hmem
    case isTrue => exact absurd hmem (by decide)
    case isFalse hn =>
      have hsize := hnatural.size_le_of_examined he hn
      rw [if_neg hn, (structFlags_tables e hsize hlen).2,
        storedDigits_of_not_isIntegral rfl (by simp)
          (by simp only [FFIType.valueSize, FFIType.size]; omega)]
      rfl

/-- Only the result of a struct is returned in memory, and then the flags say that there is nothing
in the registers. -/
theorem Describes.of_inMemory {t : FFIType} {rtype : FfiType .linuxX64} (h : Describes t rtype)
    {flags : BitVec 32} (hflags : returnFlags rtype = some flags)
    (hmem : flags &&& UNIX64_FLAG_RET_IN_MEM ≠ 0) :
    flags = UNIX64_RET_VOID ||| UNIX64_FLAG_RET_IN_MEM ∧ ∃ n a, t = .struct n a := by
  cases h with
  | void =>
    cases hflags
    exact absurd (by decide) hmem
  | scalar _ hs =>
    cases t with
    | void => cases hs
    | struct => cases hs
    | _ =>
      cases hflags
      exact absurd (by decide) hmem
  | struct hnatural hstruct =>
    rw [returnFlags, hstruct] at hflags
    obtain ⟨e, he, rfl⟩ := Option.map_eq_some_iff.mp hflags
    refine ⟨if_pos ?_, _, _, rfl⟩
    by_contra hn
    have hsize : rtype.size.toNat ≤ 16 := hnatural.size_le_of_examined he hn
    rw [if_neg hn] at hmem
    exact hmem (structFlags_tables e hsize (List.length_replicate (n := 32) (a := Cell.undef))).1

/-! ### The return buffer -/

/-- The same bytes, where the first list has any. -/
def Refines (spec cells : List Cell) : Prop :=
  cells.length = spec.length ∧
    ∀ (i : ℕ) (c : Cell), spec[i]? = some c → c = .undef ∨ cells[i]? = some c

theorem Refines.refl (cells : List Cell) : Refines cells cells := ⟨rfl, fun _ _ h => .inr h⟩

/-- Fewer bytes at the beginning, of which none but undefined ones are missing. -/
theorem refines_of_splice {retval spec xs r r' : List Cell} (hr : splice retval 0 spec = some r)
    (hr' : splice retval 0 xs = some r') (hle : xs.length ≤ spec.length)
    (h : ∀ (i : ℕ) (c : Cell), spec[i]? = some c → c = .undef ∨ xs[i]? = some c) :
    Refines r r' := by
  refine ⟨(length_of_splice hr').trans (length_of_splice hr).symm, fun i c hc => ?_⟩
  rw [getElem?_of_splice hr] at hc
  rw [getElem?_of_splice hr']
  simp only [Nat.zero_le, true_and, Nat.zero_add, Nat.sub_zero] at hc ⊢
  by_cases hi : i < spec.length
  · rw [if_pos hi] at hc
    refine (h i c hc).imp_right fun hx => ?_
    rw [if_pos (List.getElem?_eq_some_iff.mp hx).1, hx]
  · rw [if_neg hi] at hc
    rw [if_neg (by omega)]
    exact .inr hc

/-- Each byte of a fitted result is one of the result's or undefined: none is made up. -/
theorem undef_or_of_fitResult {n : ℕ} {result : List Cell} {i : ℕ} {c : Cell}
    (h : (fitResult n result)[i]? = some c) : c = .undef ∨ result[i]? = some c := by
  have hlt := (List.getElem?_eq_some_iff.mp h).1
  rw [fitResult, List.length_take] at hlt
  rw [fitResult, List.getElem?_take_of_lt (by omega)] at h
  rcases Nat.lt_or_ge i result.length with hi | hi
  · rw [List.getElem?_append_left hi] at h
    exact .inr h
  · rw [List.getElem?_append_right hi] at h
    exact .inl (List.eq_of_mem_replicate (List.mem_of_getElem? h))

/-- The bytes a function may supply for a result: an integer is stored as a whole `ffi_arg`, and a
`long double` has ten. -/
def resultRoom (t : FFIType) : ℕ :=
  if t = .longdouble then 10 else if t.isIntegral then 8 else t.valueSize .linuxX64

theorem Describes.resultRoom_le {t : FFIType} {rtype : FfiType .linuxX64} (h : Describes t rtype)
    {flags : BitVec 32} (hflags : returnFlags rtype = some flags)
    (hmem : flags &&& UNIX64_FLAG_RET_IN_MEM = 0) :
    resultRoom t ≤ 16 ∧ t.valueSize .linuxX64 ≤ 16 := by
  cases h with
  | void => decide
  | scalar _ hs =>
    cases t with
    | struct => cases hs
    | _ => decide
  | struct hnatural hstruct =>
    rw [returnFlags, hstruct] at hflags
    obtain ⟨e, he, rfl⟩ := Option.map_eq_some_iff.mp hflags
    split at hmem
    case isTrue => exact absurd hmem (by decide)
    case isFalse hn =>
      have hsize := hnatural.size_le_of_examined he hn
      exact ⟨hsize, hsize⟩

/-- A result that lies in the frame of the trampoline, with undefined bytes behind it, fits its type
as before. -/
theorem fitResult_frame {n : ℕ} (hn : n ≤ 32) (result : List Cell) :
    fitResult n (result ++ List.replicate (32 - result.length) Cell.undef) =
      fitResult n result := by
  refine (fitResult_of_le (by simp; omega)).trans ?_
  rw [fitResult, List.take_append, List.take_append, List.take_replicate, List.take_replicate]
  congr 2
  omega

/-- What the closure's function stores arrives in the return buffer: every byte that `storeResult`
specifies is there after the tables of both sides. -/
theorem returnClosure_spec {t : FFIType} {rtype : FfiType .linuxX64} (h : Describes t rtype)
    {flags : BitVec 32} (hflags : returnFlags rtype = some flags) {cif : Cif64}
    (hcif : cif.flags = flags ∨ cif.flags = flags ||| UNIX64_FLAG_XMM_ARGS) {result : List Cell}
    (hresult : result.length ≤ resultRoom t) {retval retval' : List Cell}
    (hstore : storeResult .linuxX64 t result retval = some retval') (raddr : Ptr) :
    ∃ retval'', returnClosure cif raddr
        (if cif.flags &&& UNIX64_FLAG_RET_IN_MEM ≠ 0 then some raddr else none) result retval =
          some retval'' ∧ Refines retval' retval'' := by
  have hstore : splice retval 0 (returnDigits .linuxX64 t result) = some retval' := hstore
  have hroom := (splice_eq_some.mp hstore).1
  have htables : ∀ rvalue, loadTable cif.flags rvalue = loadTable flags rvalue := fun rvalue => by
    rcases hcif with hcif | hcif
    · rw [hcif]
    · rw [hcif, loadTable_or]
  have hstores : ∀ regs, storeTable cif.flags regs = storeTable flags regs := fun regs => by
    rcases hcif with hcif | hcif
    · rw [hcif]
    · rw [hcif, storeTable_or]
  have hmemory : cif.flags &&& UNIX64_FLAG_RET_IN_MEM = flags &&& UNIX64_FLAG_RET_IN_MEM := by
    rcases hcif with hcif | hcif
    · rw [hcif]
    · rw [hcif, and_or_flag]
  rw [hmemory]
  by_cases hmem : flags &&& UNIX64_FLAG_RET_IN_MEM = 0
  · obtain ⟨hroom16, hsize⟩ := h.resultRoom_le hflags hmem
    have hle := hresult.trans hroom16
    have hframe : splice (List.replicate 32 Cell.undef) 0 result =
        some (result ++ List.replicate (32 - result.length) Cell.undef) := by
      rw [splice, if_pos (by rw [List.length_replicate]; omega), List.drop_replicate, Nat.zero_add]
      rfl
    have htable := storeTable_loadTable h hflags hmem
      (show (result ++ List.replicate (32 - result.length) Cell.undef).length = 32 by simp; omega)
    obtain ⟨regs, hload, hstored⟩ := Option.bind_eq_some_iff.mp htable
    rw [if_neg (not_not_intro hmem), returnClosure]
    simp only [Option.bind_eq_bind, hframe, Option.bind_some, htables, hload, hstores, hstored]
    by_cases hlong : t = .longdouble
    · -- ten bytes of sixteen
      subst hlong
      have hten : storedDigits .longdouble
          (result ++ List.replicate (32 - result.length) Cell.undef) = fitResult 10 result := by
        rw [← fitResult_frame (by decide), fitResult_of_le (by simp; omega)]
        rfl
      have hsixteen : returnDigits .linuxX64 .longdouble result = fitResult 16 result := rfl
      rw [hten]
      obtain ⟨retval'', hretval⟩ : ∃ retval'', splice retval 0 (fitResult 10 result) =
          some retval'' := exists_splice (by
        rw [hsixteen, length_fitResult] at hroom
        rw [length_fitResult]
        omega)
      rw [hsixteen] at hstore
      refine ⟨retval'', hretval, refines_of_splice hstore hretval ?_ fun i c hc => ?_⟩
      · rw [length_fitResult, length_fitResult]
        decide
      · refine (undef_or_of_fitResult hc).imp_right fun hget => ?_
        have hlt := (List.getElem?_eq_some_iff.mp hget).1
        have hlen : result.length ≤ 10 := hresult
        rw [fitResult, List.getElem?_take_of_lt (by omega), List.getElem?_append_left hlt, hget]
    · rw [storedDigits, if_neg hlong, returnDigits, fitResult_frame (by omega)]
      exact ⟨retval', hstore, .refl _⟩
  · -- nothing is left to store
    obtain ⟨rfl, n, a, rfl⟩ := h.of_inMemory hflags hmem
    have hdigits : returnDigits .linuxX64 (.struct n a) result = fitResult n result := rfl
    rw [hdigits] at hstore hroom
    have hlen : result.length ≤ n := hresult
    have hfit : (fitResult n result).length = n := by simp [fitResult]; omega
    obtain ⟨retval'', hretval⟩ : ∃ retval'', splice retval 0 result = some retval'' :=
      exists_splice (by omega)
    have hframe : splice (List.replicate 32 Cell.undef) 0 (raddr.image .linuxX64) =
        some (raddr.image .linuxX64 ++ List.replicate 24 Cell.undef) := by
      have himage : (raddr.image .linuxX64).length = 8 := raddr.length_image .linuxX64
      simp [splice, himage]
    rw [if_pos hmem, returnClosure]
    simp only [Option.bind_eq_bind, hframe, Option.bind_some, if_true, hretval, hstores]
    refine ⟨retval'', ?_, refines_of_splice hstore hretval (by omega)
      fun i c hc => undef_or_of_fitResult hc⟩
    change splice retval'' 0 [] = _
    exact splice_of_slice (slice_eq_some.mpr ⟨Nat.zero_le _, rfl⟩)

/-! ### A call of a closure -/

theorem length_load {f : Frame} {m : Memory} {p : ArgPtr} {n : ℕ} {ds : List Cell}
    (h : f.load m p n = some ds) : ds.length = n := by
  cases p with
  | slot off => exact length_of_slice h
  | mem p =>
    cases p with
    | addr a =>
      simp only [Frame.load, Memory.load] at h
      split at h
      · cases h
      · cases h
        rw [List.length_map, List.length_range]
    | block b off =>
      obtain ⟨blk, -, h⟩ := Option.bind_eq_some_iff.mp h
      split at h
      · exact length_of_slice h
      · cases h
    | array r off =>
      obtain ⟨a, -, h⟩ := Option.bind_eq_some_iff.mp h
      split at h
      · exact length_of_slice h
      · cases h
    | env => cases h
    | handle o => cases h

/-- The arguments that libffi reads from the frame have the sizes of their types, since `void` is
not among them. -/
theorem sized_readArgs {f : Frame} {m : Memory} {argTypes : List FFIType}
    {types : List (FfiType .linuxX64)} (htypes : List.Forall₂ Describes argTypes types)
    (hvoid : .void ∉ argTypes) (hframe : f.ffiArgs.length = argTypes.length)
    {args : List (List Cell)} (h : readArgs .linuxX64 f m argTypes = some args) :
    Sized types args := by
  obtain ⟨tmpBuffer, ffiArgs⟩ := f
  rw [readArgs] at h
  induction htypes generalizing ffiArgs args with
  | nil =>
    cases h
    exact .nil
  | @cons t rtype argTypes types hhead htail ih =>
    rw [List.mem_cons, not_or] at hvoid
    cases ffiArgs with
    | nil => cases hframe
    | cons p ps =>
      rw [List.zip_cons_cons, List.mapM_cons] at h
      obtain ⟨ds, hds, h⟩ := Option.bind_eq_some_iff.mp h
      obtain ⟨rest, hrest, h⟩ := Option.bind_eq_some_iff.mp h
      cases h
      obtain ⟨ds', hload, rfl⟩ := Option.map_eq_some_iff.mp hds
      refine .cons ?_ (ih hvoid.2 ps (Nat.succ.inj hframe) hrest)
      have hlen : ds'.length = t.valueSize .linuxX64 := length_load hload
      rw [ByteOrder.length_arrange, hlen]
      cases hhead with
      | void => exact absurd rfl hvoid.1
      | scalar _ hs =>
        refine ⟨.scalar t hs, ?_⟩
        rw [(scalar_size hs).1]
        exact valueSize_scalar hs
      | struct hnatural => exact ⟨hnatural, rfl⟩

/-- A call of a function that looks at nothing but the numbers and pointers of its arguments. -/
theorem ffiCallClosure_spec {t : FFIType} {rtype : FfiType .linuxX64} (hrtype : Describes t rtype)
    {types : List (FfiType .linuxX64)} {args : List (List Cell)} (hsized : Sized types args)
    (hroom : Position.room types < 2 ^ 32 - 8) {area : SizeT .linuxX64}
    (harea : 16 ∣ area.toNat) (hspace : area.toNat + 2 ^ 32 ≤ 2 ^ 64) {raddr : Ptr}
    (hraddr : ∀ a, raddr = .addr a → a < 2 ^ 64) {callee : Callee} {m : Memory}
    (hblind : ∀ found, AllSameLeaves types args found → callee found m = callee args m)
    (hresult : (callee args m).result.length ≤ resultRoom t) {retval retval' : List Cell}
    (hstored : storeResult .linuxX64 t (callee args m).result retval = some retval') :
    ∃ cif retval'', prepCifMachdep rtype types = some cif ∧
      ffiCallClosure cif callee raddr area args retval m = some (callee args m, retval'') ∧
      Refines retval' retval'' := by
  obtain ⟨flags, hflags⟩ := hrtype.returnsNaturally.flags
  obtain ⟨cif, entry, sources, found, hprep, hflag, hentry, hinner, hvalues, hsame⟩ :=
    exists_closureInner hflags hsized hroom harea hspace hraddr
  obtain ⟨retval'', hreturn, hrefines⟩ := returnClosure_spec hrtype hflags hflag hresult hstored
    raddr
  refine ⟨cif, retval'', hprep, ?_, hrefines⟩
  rw [ffiCallClosure, hentry]
  simp only [Option.bind_eq_bind, Option.bind_some, hinner, hvalues]
  rw [hblind found hsame, hreturn]
  rfl

/-- **`ffi_call` of a closure**: libffi hands the function behind it arguments with the numbers and
pointers that the argument pointers lead to, and stores its result in the return buffer. What may be
lost is the padding, at which the function does not look. -/
theorem ffiCall_closure {cif : Cif} {callee : Callee} {f : Frame} {retval retval' : List Cell}
    {s s' : Native} {call : Call}
    (h : ffiCall .linuxX64 cif callee f retval s = some (call, retval', s'))
    (hframe : f.ffiArgs.length = cif.argTypes.length) (hvoid : .void ∉ cif.argTypes)
    {rtype : FfiType .linuxX64} (hrtype : Describes cif.rtype rtype)
    {types : List (FfiType .linuxX64)} (htypes : List.Forall₂ Describes cif.argTypes types)
    (hroom : Position.room types < 2 ^ 32 - 8) {area : SizeT .linuxX64}
    (harea : 16 ∣ area.toNat) (hspace : area.toNat + 2 ^ 32 ≤ 2 ^ 64) {raddr : Ptr}
    (hraddr : ∀ a, raddr = .addr a → a < 2 ^ 64)
    (hblind : ∀ found, AllSameLeaves types call.args found →
      callee found s.toMemory = callee call.args s.toMemory)
    (hresult : (callee call.args s.toMemory).result.length ≤ resultRoom cif.rtype) :
    ∃ cif64 r retval'', prepCifMachdep rtype types = some cif64 ∧
      ffiCallClosure cif64 callee raddr area call.args retval s.toMemory = some (r, retval'') ∧
      s' = s.returned r ∧ Refines retval' retval'' := by
  obtain ⟨args, hargs, h⟩ := Option.bind_eq_some_iff.mp h
  obtain ⟨stored, hstored, h⟩ := Option.bind_eq_some_iff.mp h
  cases h
  obtain ⟨cif64, retval'', hprep, hcall, hrefines⟩ := ffiCallClosure_spec hrtype
    (sized_readArgs htypes hvoid hframe hargs) hroom harea hspace hraddr hblind hresult hstored
  exact ⟨cif64, callee args s.toMemory, retval'', hprep, hcall, rfl, hrefines⟩

/-- A function that returns its argument, one byte. -/
def firstByte : Callee := fun args m => ⟨m, (args.headD []).take 1, none, none⟩

/-- A fresh thread, without arrays. -/
def freshThread : Native := ⟨⟨[], [], fun _ => .undef, ⟨0, 0⟩⟩, none, 0, 0, 0, []⟩

/-- A closure that returns its argument is called with -2, which comes back as eight bytes. -/
theorem ffiCall_closure_firstByte :
    ∃ cif64 r retval, prepCifMachdep FFIType.sint8.scalarType [FFIType.sint8.scalarType] =
        some cif64 ∧
      ffiCallClosure cif64 firstByte (.addr 0x8000) 0x7000 [[.byte 0xfe]]
        (List.replicate 8 .undef) freshThread.toMemory = some (r, retval) ∧
      freshThread = freshThread.returned r ∧
      Refines (.byte 0xfe :: List.replicate 7 (.byte 0xff)) retval := by
  have hcall : ffiCall .linuxX64 ⟨.defaultAbi, none, [.sint8], .sint8⟩ firstByte
      ⟨.byte 0xfe :: List.replicate 7 (.byte 0), [.slot 0]⟩ (List.replicate 8 .undef) freshThread =
      some (⟨⟨.byte 0xfe :: List.replicate 7 (.byte 0), [.slot 0]⟩, [[.byte 0xfe]],
        freshThread.toMemory⟩, .byte 0xfe :: List.replicate 7 (.byte 0xff), freshThread) := rfl
  refine ffiCall_closure hcall rfl (by decide) (.scalar .sint8 rfl)
    (.cons (.scalar .sint8 rfl) .nil) (by decide) (by decide) (by decide)
    (fun a ha => by cases ha; decide) (fun found hsame => ?_) (by decide)
  -- the byte is all there is of the argument
  cases hsame with
  | cons hhead htail =>
    cases htail
    have hbyte := hhead ⟨0, 1, .sint8⟩ (by decide)
    obtain ⟨-, htake⟩ := slice_eq_some.mp (hbyte.trans (slice_all [Cell.byte 0xfe]))
    rw [List.drop_zero] at htake
    simp only [firstByte, List.headD_cons, ← htake]
    rfl

end Jffi
