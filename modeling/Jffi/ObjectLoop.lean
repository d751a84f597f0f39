import Jffi.HeldCopies
import Jffi.Invoke

/-!
# One object, one parameter

What a round of the object loop does to the frame and to memory: it passes a pointer in the place
of its own parameter and leaves the places of the others alone. Memory only grows: an array is
copied into a block that was not there before.

## Main definitions

* `Passes` — how a pointer is passed as a parameter
* `copyArray` — the buffer chosen for an array and filled
* `KeepsOthers` — what a round for one parameter leaves alone

## Main results

* `copyArgs_spec` — the argument pointers before the loop
* `setArg_spec` — passing a pointer
* `exists_readArgs` — what libffi reads
* `arrayStep_copied`, `bufferStep_direct` — the rounds that resolve an array or a buffer
* `Frame.loadArg_keepsOthers` — what was passed stays passed
-/

namespace Jffi

open ObjectBuffer

variable {pf : Platform} {jvm : Jvm}

/-! ### Argument pointers -/

/-- Read `n` bytes of argument `i`. -/
def Frame.loadArg (f : Frame) (m : Memory) (i n : ℕ) : Option (List Cell) := do
  let p ← f.ffiArgs[i]?
  f.load m p n

/-- The arguments libffi reads, when each argument pointer leads to a value. -/
theorem exists_readArgs {f : Frame} {m : Memory} {types : List FFIType}
    (hlen : f.ffiArgs.length = types.length)
    (h : ∀ (i : ℕ) (t : FFIType), types[i]? = some t →
      ∃ xs, f.loadArg m i (t.valueSize pf) = some xs) :
    ∃ args, readArgs pf f m types = some args ∧ args.length = types.length ∧
      ∀ (i : ℕ) (t : FFIType), types[i]? = some t →
        args[i]? = (f.loadArg m i (t.valueSize pf)).map pf.nativeOrder.arrange := by
  have hload : ∀ (i : ℕ) (x : FFIType × ArgPtr), (types.zip f.ffiArgs)[i]? = some x →
      types[i]? = some x.1 ∧
        f.load m x.2 (x.1.valueSize pf) = f.loadArg m i (x.1.valueSize pf) := by
    intro i x hx
    obtain ⟨ht, hp⟩ := List.getElem?_zip_eq_some.mp hx
    refine ⟨ht, ?_⟩
    rw [Frame.loadArg, hp]
    rfl
  obtain ⟨args, hargs, hcount, hget⟩ := @exists_mapM _ _ (fun x : FFIType × ArgPtr =>
    (f.load m x.2 (x.1.valueSize pf)).map pf.nativeOrder.arrange) (types.zip f.ffiArgs)
    (by
      intro x hx
      obtain ⟨i, hi⟩ := List.mem_iff_getElem?.mp hx
      obtain ⟨ht, hread⟩ := hload i x hi
      obtain ⟨xs, hxs⟩ := h i x.1 ht
      exact ⟨pf.nativeOrder.arrange xs, by rw [hread, hxs, Option.map_some]⟩)
  refine ⟨args, hargs, by rw [hcount, List.length_zip, hlen, Nat.min_self], fun i t ht => ?_⟩
  have hi : i < f.ffiArgs.length := hlen ▸ (List.getElem?_eq_some_iff.mp ht).1
  have hx : (types.zip f.ffiArgs)[i]? = some (t, f.ffiArgs[i]) :=
    List.getElem?_zip_eq_some.mpr ⟨ht, List.getElem?_eq_getElem hi⟩
  rw [hget i _ hx, (hload i _ hx).2]

theorem Ptr.exists_ofDigits (pf : Platform) (bs : List Byte) :
    ∃ p, Ptr.ofDigits pf (bs.map .byte) = some p := by
  have h := Ptr.mapM_toByte? bs
  cases bs with
  | nil => exact ⟨_, rfl⟩
  | cons b bs =>
    refine ⟨.addr (leNat (b :: bs)), ?_⟩
    rw [List.map_cons] at h ⊢
    simp only [Ptr.ofDigits, h, Option.map_some]

/-- The argument pointers `COPY_ARGS` sets up: into the slots, and for a struct the pointer its
slot holds. -/
theorem copyArgs_spec (pf : Platform) {bs : List Byte} {idx : ℕ} {types : List FFIType}
    (h : (idx + types.length) * slotSize ≤ bs.length) :
    ∃ args, copyArgs pf (bs.map .byte) idx types = some args ∧ args.length = types.length ∧
      ∀ i t, types[i]? = some t →
        (t.code pf ≠ .struct → args[i]? = some (.slot ((idx + i) * slotSize))) ∧
        (t.code pf = .struct → ∃ image p, slice bs ((idx + i) * slotSize) pf.ptrSize = some image ∧
          Ptr.ofDigits pf ((pf.nativeOrder.arrange image).map .byte) = some p ∧
          args[i]? = some (.mem p)) := by
  induction types generalizing idx with
  | nil => exact ⟨[], rfl, rfl, fun i t ht => by simp at ht⟩
  | cons t types ih =>
    rw [List.length_cons] at h
    obtain ⟨args, hargs, hlen, hspec⟩ := @ih (idx + 1) (by rwa [Nat.add_assoc, Nat.add_comm 1])
    have hptr := pf.ptrSize_le
    obtain ⟨image, himage⟩ : ∃ image, slice bs (idx * slotSize) pf.ptrSize = some image := by
      refine exists_slice ?_
      rw [Nat.add_mul, Nat.add_mul] at h
      simp only [slotSize] at h ⊢
      omega
    obtain ⟨p, hp⟩ := Ptr.exists_ofDigits pf (pf.nativeOrder.arrange image)
    have hmap : pf.nativeOrder.arrange (image.map Cell.byte) =
        (pf.nativeOrder.arrange image).map .byte := (ByteOrder.map_arrange _ _ _).symm
    have htail : ∀ first : ArgPtr, ∀ i t', types[i]? = some t' →
        (t'.code pf ≠ .struct →
          (first :: args)[i + 1]? = some (.slot ((idx + (i + 1)) * slotSize))) ∧
        (t'.code pf = .struct → ∃ image p,
          slice bs ((idx + (i + 1)) * slotSize) pf.ptrSize = some image ∧
          Ptr.ofDigits pf ((pf.nativeOrder.arrange image).map .byte) = some p ∧
          (first :: args)[i + 1]? = some (.mem p)) := by
      intro first i t' ht'
      rw [List.getElem?_cons_succ, show idx + (i + 1) = idx + 1 + i by omega]
      exact hspec i t' ht'
    by_cases hstruct : t.code pf = .struct
    · refine ⟨.mem p :: args, ?_, by simp [hlen], fun i t' ht' => ?_⟩
      · simp only [copyArgs, if_pos hstruct, slice_map, himage, Option.map_some, hmap, hp, hargs,
          Option.bind_eq_bind, Option.bind_some]
      · cases i with
        | zero =>
          obtain rfl : t = t' := by simpa using ht'
          exact ⟨fun h => absurd hstruct h, fun _ => ⟨image, p, himage, hp, rfl⟩⟩
        | succ i => exact htail _ i t' (by simpa using ht')
    · refine ⟨.slot (idx * slotSize) :: args, ?_, by simp [hlen], fun i t' ht' => ?_⟩
      · simp only [copyArgs, if_neg hstruct, hargs, Option.bind_eq_bind, Option.bind_some]
      · cases i with
        | zero =>
          obtain rfl : t = t' := by simpa using ht'
          exact ⟨fun _ => rfl, fun h => absurd h hstruct⟩
        | succ i => exact htail _ i t' (by simpa using ht')

/-! ### What a round leaves alone -/

/-- A round for parameter `k` changes its slot and its argument pointer, and adds memory. -/
structure KeepsOthers (k : ℕ) (l l' : ObjectLoop) : Prop where
  tmpBuffer_length : l'.frame.tmpBuffer.length = l.frame.tmpBuffer.length
  ffiArgs_length : l'.frame.ffiArgs.length = l.frame.ffiArgs.length
  slots : ∀ i n, i ≠ k → n ≤ slotSize →
    slice l'.frame.tmpBuffer (i * slotSize) n = slice l.frame.tmpBuffer (i * slotSize) n
  args : ∀ i, i ≠ k → l'.frame.ffiArgs[i]? = l.frame.ffiArgs[i]?
  /-- Memory only grows. -/
  blocks : l.native.blocks <+: l'.native.blocks
  heap : l.native.KeepsHeap l'.native
  pinned_eq : l'.pinned = l.pinned

theorem KeepsOthers.trans {k : ℕ} {l₁ l₂ l₃ : ObjectLoop} (h : KeepsOthers k l₁ l₂)
    (h' : KeepsOthers k l₂ l₃) : KeepsOthers k l₁ l₃ where
  tmpBuffer_length := h'.tmpBuffer_length.trans h.tmpBuffer_length
  ffiArgs_length := h'.ffiArgs_length.trans h.ffiArgs_length
  slots i n hi hn := (h'.slots i n hi hn).trans (h.slots i n hi hn)
  args i hi := (h'.args i hi).trans (h.args i hi)
  blocks := h.blocks.trans h'.blocks
  heap := h.heap.trans h'.heap
  pinned_eq := h'.pinned_eq.trans h.pinned_eq

/-- The argument pointer of parameter `i` leads to its slot or out of the frame. -/
def Frame.Owns (f : Frame) (i n : ℕ) : Prop :=
  (f.ffiArgs[i]? = some (.slot (i * slotSize)) ∧ n ≤ slotSize) ∨ ∃ p, f.ffiArgs[i]? = some (.mem p)

/-- The pointer is passed as parameter `k` of type `t`: in its slot when the type is `pointer`, in
the place of the slot otherwise. -/
def Passes (pf : Platform) (t : FFIType) (k : ℕ) (ptr : Ptr) (f : Frame) : Prop :=
  (t = .pointer → f.ffiArgs[k]? = some (.slot (k * slotSize)) ∧
    slice f.tmpBuffer (k * slotSize) pf.ptrSize = some (ptr.image pf)) ∧
  (t ≠ .pointer → f.ffiArgs[k]? = some (.mem ptr))

/-- The place of parameter `k` is as `COPY_ARGS` left it. -/
structure Untouched (ctx : NativeCallContext) (k : ℕ) (f : Frame) : Prop where
  lt : k < f.ffiArgs.length
  room : (k + 1) * slotSize ≤ f.tmpBuffer.length
  slot : ctx.cif.argTypes[k]? = some .pointer → f.ffiArgs[k]? = some (.slot (k * slotSize))

theorem setArg_spec (pf : Platform) {ctx : NativeCallContext} {k : ℕ} {t : FFIType} {l : ObjectLoop}
    (ht : ctx.cif.argTypes[k]? = some t) (h : Untouched ctx k l.frame) (ptr : Ptr) :
    ∃ l', setArg pf ctx k ptr l = some (.next l') ∧ Passes pf t k ptr l'.frame ∧
      KeepsOthers k l l' ∧ l'.native = l.native ∧ l'.arrays = l.arrays := by
  have hptr := pf.ptrSize_le
  have hroom := h.room
  rw [Nat.succ_mul] at hroom
  by_cases hpointer : t = .pointer
  · subst hpointer
    have hslot := h.slot ht
    obtain ⟨tmp, htmp⟩ : ∃ tmp, splice l.frame.tmpBuffer (k * slotSize) (ptr.image pf) = some tmp :=
      exists_splice (by rw [Ptr.length_image]; simp only [slotSize] at hroom ⊢; omega)
    have hself := slice_splice_self htmp
    rw [Ptr.length_image] at hself
    refine ⟨{ l with frame := { l.frame with tmpBuffer := tmp } }, ?_,
      ⟨fun _ => ⟨hslot, hself⟩, fun h => absurd rfl h⟩, ⟨length_of_splice htmp, rfl, ?_,
      fun _ _ => rfl, List.prefix_rfl, .refl _, rfl⟩, rfl, rfl⟩
    · simp only [setArg, ht, hslot, htmp, Option.bind_eq_bind, Option.bind_some,
        FFIType.code_eq_pointer, if_true]
    · intro i n hi hn
      refine slice_splice_disjoint htmp ?_
      rw [Ptr.length_image]
      simp only [slotSize] at hn ⊢
      omega
  · refine ⟨{ l with frame := { l.frame with ffiArgs := l.frame.ffiArgs.set k (.mem ptr) } }, ?_,
      ⟨fun h => absurd h hpointer, fun _ => ?_⟩, ⟨rfl, by simp, fun _ _ _ _ => rfl, fun i hi => ?_,
      List.prefix_rfl, .refl _, rfl⟩, rfl, rfl⟩
    · simp only [setArg, ht, Option.bind_eq_bind, Option.bind_some, FFIType.code_eq_pointer,
        if_neg hpointer]
    · exact List.getElem?_set_self h.lt
    · exact List.getElem?_set_ne (Ne.symm hi)

/-! ### Resolving an object -/

section Step

variable {ctx : NativeCallContext} {k : ℕ} {t : FFIType} {l : ObjectLoop} {e : ObjectEntry}

/-- The branch of an array that is not pinned, up to the passing of the pointer. -/
def copyArray (pf : Platform) (jvm : Jvm) (object : Option Obj) (offset length : ℤ)
    (type : BitVec 32) (s : Native) : Option (Option NativeArray × Native) :=
  if length < MAX_STACK_ARRAY then do
    let (ptr, s) ← s.alloca (arraySize (length + 1) type)
    getArrayBuffer pf object offset length type ptr s
  else getArrayHeap pf jvm object offset length type s

/-- The round of an array that is not pinned copies it into the buffer chosen for it, and then
passes a pointer to the copy or gives up. -/
theorem arrayStep_eq_copyArray (ctx : NativeCallContext) {o : Obj} (ho : e.object = some o)
    (hpinned : isPinned e.flags = false) (l : ObjectLoop) :
    arrayStep pf jvm ctx e l =
      (copyArray pf jvm e.object e.offset.toInt e.length.toInt e.flags l.native).bind
        (addArray pf ctx (descriptorIndex e.flags) l) := by
  simp only [arrayStep, ho, hpinned, copyArray, Bool.false_eq_true, if_false]
  split
  · cases l.native.alloca (arraySize (e.length.toInt + 1) e.flags) with
    | none => rfl
    | some p => rfl
  · rfl

/-- A copied array whose elements are there is acquired, on the stack or from `malloc`. -/
theorem arrayStep_acquires (pf : Platform) (ctx : NativeCallContext) {r : ℕ} {a : JavaArray}
    (hmalloc : ∀ n, jvm.mallocFails n = false)
    (hpinned : isPinned e.flags = false) (htype : componentOf e.flags = some a.component)
    (hobject : e.object = some (.array r)) (ha : l.native.arrays[r]? = some a)
    (hrange : Native.inRange e.offset.toInt e.length.toInt a.length)
    (hsize : (e.length.toInt + 1) * a.component.size < 2 ^ 31)
    (hpending : l.native.pending = none) :
    ∃ release s blk, arrayStep pf jvm ctx e l =
        addArray pf ctx (descriptorIndex e.flags) l
          (some ⟨some (.array r), .block l.native.blocks.length 0, e.offset.toInt, e.length.toInt,
            e.flags, if isOutArray e.flags then some a.component else none, release⟩, s) ∧
      s.blocks = l.native.blocks ++ [blk] ∧ blk.live = true ∧
      (isInArray e.flags = true →
        slice blk.cells 0 (e.length.toInt.toNat * a.component.size) =
          slice a.cells (e.offset.toInt.toNat * a.component.size)
            (e.length.toInt.toNat * a.component.size)) ∧
      l.native.KeepsHeap s ∧ e.length.toInt.toNat * a.component.size ≤ blk.cells.length ∧
      (release = none ∨ release = some .heapArray ∧ blk.storage = .heap) := by
  rw [arrayStep_eq_copyArray ctx hobject hpinned, copyArray, hobject]
  split
  · let size := (e.length.toInt.toNat + 1) * a.component.size
    have halloca : l.native.alloca (arraySize (e.length.toInt + 1) e.flags) =
        some (.block l.native.blocks.length 0, l.native.newBlock .stack size) := by
      simp only [arraySize, htype, toJint_copySize hrange.2.1 hsize, Native.alloca]
      rw [if_pos (Int.natCast_nonneg _), Int.toNat_natCast]
    have htop : (l.native.newBlock .stack size).blocks =
        l.native.blocks ++ [⟨.stack, true, List.replicate size .undef⟩] := rfl
    have hgrow : l.native.KeepsHeap (l.native.newBlock .stack size) := ⟨rfl, rfl, rfl, rfl, rfl⟩
    obtain ⟨s, cells, hbuffer, hblocks, hlen, hin, hkeep⟩ := getArrayBuffer_copied pf e.flags htop
      rfl ha hrange (by simp [size]) hpending htype
    refine ⟨none, s, _, ?_, hblocks, rfl, hin, hgrow.trans hkeep, ?_, .inl rfl⟩
    · simp only [halloca, Option.bind_eq_bind, Option.bind_some, hbuffer]
    · rw [hlen, List.length_replicate]
      exact Nat.mul_le_mul_right _ (Nat.le_succ _)
  · obtain ⟨s, cells, hheap, hblocks, hlen, hin, hkeep⟩ := getArrayHeap_copied pf jvm e.flags ha
      hrange hsize (hmalloc _) hpending htype
    refine ⟨some .heapArray, s, _, ?_, hblocks, rfl, hin, hkeep, ?_, .inr ⟨rfl, rfl⟩⟩
    · simp only [hheap, Option.bind_some]
    · rw [hlen]
      exact Nat.mul_le_mul_right _ (Nat.le_succ _)

end Step

end Jffi
