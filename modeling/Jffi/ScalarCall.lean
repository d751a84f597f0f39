import Jffi.ObjectLoop

/-!
# Calls whose parameters are numbers

Where no parameter is a struct and each fits its slot, every argument pointer leads to its slot and
stays there: a pointer for an object goes into the slot of its parameter. The frame is then its
`tmpBuffer`, and reading the arguments cannot fail.

## Main results

* `newFrame_scalar`, `setArg_scalar` — the frame is set up, and a pointer is passed
* `readArgs_scalar` — libffi reads the slots
* `finishCall_scalar` — the end of an invocation
-/

namespace Jffi

variable {pf : Platform} {ctx : NativeCallContext}

/-- No parameter is a struct, and each fits its slot. -/
def NativeCallContext.Scalar (pf : Platform) (ctx : NativeCallContext) : Prop :=
  ∀ t ∈ ctx.cif.argTypes, t.code pf ≠ .struct ∧ t.valueSize pf ≤ slotSize

/-- A frame of `n` slots, each the place of its argument. -/
structure Frame.InSlots (n : ℕ) (f : Frame) : Prop where
  tmpBuffer_length : f.tmpBuffer.length = n * slotSize
  ffiArgs_eq : f.ffiArgs = (List.range n).map fun i => .slot (i * slotSize)

theorem Frame.InSlots.ffiArgs_getElem? {n i : ℕ} {f : Frame} (h : f.InSlots n) (hi : i < n) :
    f.ffiArgs[i]? = some (.slot (i * slotSize)) := by
  rw [h.ffiArgs_eq, List.getElem?_map, List.getElem?_range hi]
  rfl

/-- The first bytes of each slot lie inside the buffer, up to the size of a slot. -/
theorem Frame.InSlots.room {n i m : ℕ} {f : Frame} (h : f.InSlots n) (hi : i < n)
    (hm : m ≤ slotSize) : i * slotSize + m ≤ f.tmpBuffer.length := by
  have hmul := Nat.mul_le_mul_right slotSize (Nat.succ_le_of_lt hi)
  rw [Nat.succ_mul] at hmul
  rw [h.tmpBuffer_length]
  omega

/-! ### The frame -/

theorem copyArgs_scalar (tmpBuffer : List Cell) {types : List FFIType}
    (h : ∀ t ∈ types, t.code pf ≠ .struct) (idx : ℕ) :
    copyArgs pf tmpBuffer idx types =
      some ((List.range types.length).map fun i => .slot ((idx + i) * slotSize)) := by
  induction types generalizing idx with
  | nil => rfl
  | cons t types ih =>
    have htail := ih (fun u hu => h u (List.mem_cons_of_mem t hu)) (idx + 1)
    simp only [copyArgs, if_neg (h t (List.mem_cons_self ..)), htail, Option.bind_eq_bind,
      Option.bind_some, List.length_cons, List.range_succ_eq_map, List.map_cons, List.map_map,
      Nat.add_zero]
    congr 3
    funext i
    rw [Function.comp_apply, Nat.succ_eq_add_one, Nat.add_assoc, Nat.add_comm 1]

/-- A function of integers is one of scalars, whatever the platform. -/
theorem NativeCallContext.Scalar.of_integral
    (h : ∀ t ∈ ctx.cif.argTypes, t.isIntegral = true) : ctx.Scalar pf := by
  intro t ht
  refine ⟨fun hstruct => ?_, ?_⟩
  · obtain ⟨n, a, rfl⟩ := FFIType.code_eq_struct.mp hstruct
    cases h _ ht
  · rw [FFIType.valueSize_of_isIntegral (h t ht)]
    exact FFIType.size_le_of_isIntegral (h t ht)

/-- **The frame of a call** before any object is looked at. -/
theorem newFrame_scalar (h : ctx.Scalar pf) {bs : List Byte} (s : Native)
    (hbs : bs.length = ctx.cif.argTypes.length * slotSize) :
    ∃ frame s', newFrame pf ctx bs s = some (frame, s') ∧ frame.InSlots ctx.cif.argTypes.length ∧
      frame.tmpBuffer = bs.map .byte ∧ s.KeepsHeap s' ∧ s'.blocks = s.blocks := by
  by_cases hpos : 0 < ctx.cif.argTypes.length
  · have hargs := copyArgs_scalar (bs.map Cell.byte) (fun t ht => (h t ht).1) 0
    simp only [Nat.zero_add] at hargs
    have htake : bs.take (ctx.cif.argTypes.length * slotSize) = bs :=
      List.take_of_length_le (Nat.le_of_eq hbs)
    refine ⟨⟨bs.map .byte, (List.range ctx.cif.argTypes.length).map fun i => .slot (i * slotSize)⟩,
      s.logged (.jni .getArrayRegion), ?_, ⟨?_, rfl⟩, rfl, Native.keepsHeap_logged s _, rfl⟩
    · simp only [newFrame, if_pos hpos, if_pos (Nat.le_of_eq hbs.symm), htake, hargs,
        Option.bind_eq_bind, Option.bind_some]
    · rw [List.length_map, hbs]
  · have hzero : ctx.cif.argTypes.length = 0 := by omega
    rw [hzero, Nat.zero_mul] at hbs
    refine ⟨⟨[], []⟩, s, ?_, ?_, ?_, .refl s, rfl⟩
    · rw [newFrame, if_neg hpos]
    · rw [hzero]
      exact ⟨rfl, rfl⟩
    · rw [List.eq_nil_of_length_eq_zero hbs]
      rfl

/-- **Passing a pointer** for a parameter of type `pointer` writes it to its slot. -/
theorem setArg_scalar (pf : Platform) {k : ℕ} (l : ObjectLoop)
    (ht : ctx.cif.argTypes[k]? = some .pointer) (hslots : l.frame.InSlots ctx.cif.argTypes.length)
    (ptr : Ptr) :
    ∃ tmpBuffer, splice l.frame.tmpBuffer (k * slotSize) (ptr.image pf) = some tmpBuffer ∧
      setArg pf ctx k ptr l = some (.next { l with frame := ⟨tmpBuffer, l.frame.ffiArgs⟩ }) ∧
      Frame.InSlots ctx.cif.argTypes.length ⟨tmpBuffer, l.frame.ffiArgs⟩ := by
  have hk : k < ctx.cif.argTypes.length := (List.getElem?_eq_some_iff.mp ht).1
  have hroom := hslots.room hk pf.ptrSize_le
  obtain ⟨tmpBuffer, htmp⟩ : ∃ tmpBuffer,
      splice l.frame.tmpBuffer (k * slotSize) (ptr.image pf) = some tmpBuffer :=
    exists_splice (by rw [Ptr.length_image]; exact hroom)
  refine ⟨tmpBuffer, htmp, ?_, ?_, hslots.ffiArgs_eq⟩
  · simp only [setArg, ht, hslots.ffiArgs_getElem? hk, htmp, Option.bind_eq_bind, Option.bind_some,
      FFIType.code_eq_pointer, if_true]
  · exact (length_of_splice htmp).trans hslots.tmpBuffer_length

/-! ### The call -/

/-- When each parameter is in its slot, libffi reads the arguments from the slots, each as long as
its type. -/
theorem readArgs_scalar (h : ctx.Scalar pf) {f : Frame} (hslots : f.InSlots ctx.cif.argTypes.length)
    (m : Memory) :
    ∃ args, readArgs pf f m ctx.cif.argTypes = some args ∧
      args.length = ctx.cif.argTypes.length ∧ ∀ (i : ℕ) (t : FFIType),
        ctx.cif.argTypes[i]? = some t →
        args[i]? = (slice f.tmpBuffer (i * slotSize) (t.valueSize pf)).map
          pf.nativeOrder.arrange := by
  have hlength : f.ffiArgs.length = ctx.cif.argTypes.length := by simp [hslots.ffiArgs_eq]
  have hslot : ∀ (i : ℕ) (t : FFIType), ctx.cif.argTypes[i]? = some t →
      f.loadArg m i (t.valueSize pf) = slice f.tmpBuffer (i * slotSize) (t.valueSize pf) := by
    intro i t ht
    rw [Frame.loadArg, hslots.ffiArgs_getElem? (List.getElem?_eq_some_iff.mp ht).1]
    rfl
  obtain ⟨args, hargs, hlen, hget⟩ := @exists_readArgs pf f m _ hlength fun i t ht => by
    rw [hslot i t ht]
    exact exists_slice
      (hslots.room (List.getElem?_eq_some_iff.mp ht).1 (h t (List.mem_of_getElem? ht)).2)
  refine ⟨args, hargs, hlen, fun i t ht => ?_⟩
  rw [hget i t ht, hslot i t ht]

/-- The room an entry point has for a result. -/
def returnBuffer (pf : Platform) (rtype : FFIType) : List Cell :=
  List.replicate (max (rtype.valueSize pf) pf.ptrSize) .undef

theorem length_fitResult (n : ℕ) (result : List Cell) : (fitResult n result).length = n := by
  rw [fitResult, List.length_take, List.length_append, List.length_replicate]
  omega

theorem length_returnDigits_le (pf : Platform) (rtype : FFIType) (result : List Cell) :
    (returnDigits pf rtype result).length ≤ max (rtype.valueSize pf) pf.ptrSize := by
  simp only [returnDigits]
  split
  · rw [List.length_append, List.length_replicate, length_fitResult]
    omega
  · rw [length_fitResult]
    exact Nat.le_max_left ..

/-- A buffer of `room` bytes has room for every result of the type. -/
def RoomForResult (pf : Platform) (rtype : FFIType) (room : ℕ) : Prop :=
  ∀ result, (returnDigits pf rtype result).length ≤ room

theorem RoomForResult.of_max {rtype : FFIType} {room : ℕ}
    (h : max (rtype.valueSize pf) pf.ptrSize ≤ room) : RoomForResult pf rtype room :=
  fun result => Nat.le_trans (length_returnDigits_le pf rtype result) h

theorem exists_storeResult {rtype : FFIType} {retval : List Cell}
    (hroom : RoomForResult pf rtype retval.length) (result : List Cell) :
    ∃ retval', storeResult pf rtype result retval = some retval' := by
  refine exists_splice ?_
  rw [ByteOrder.length_arrange, Nat.zero_add]
  exact hroom result

/-- **The end of an invocation**: the call takes place, and the arrays are released. -/
theorem finishCall_scalar (h : ctx.Scalar pf) {l : ObjectLoop}
    (hslots : l.frame.InSlots ctx.cif.argTypes.length) (retval : List Cell)
    (hroom : RoomForResult pf ctx.cif.rtype retval.length) (callee : Callee) :
    ∃ args retval', readArgs pf l.frame l.native.toMemory ctx.cif.argTypes = some args ∧
      storeResult pf ctx.cif.rtype (callee args l.native.toMemory).result retval = some retval' ∧
      finishCall pf ctx callee retval (.next l) =
        (releaseArrays l.arrays
          (saveErrno pf ctx (l.native.returned (callee args l.native.toMemory)))).map fun s =>
            ⟨some ⟨l.frame, args, l.native.toMemory⟩, retval', s⟩ := by
  obtain ⟨args, hargs, -, -⟩ := readArgs_scalar h hslots l.native.toMemory
  obtain ⟨retval', hretval⟩ := exists_storeResult hroom (callee args l.native.toMemory).result
  refine ⟨args, retval', hargs, hretval, ?_⟩
  simp only [finishCall, ffiCall, hargs, hretval, Option.bind_eq_bind, Option.bind_some]
  cases releaseArrays l.arrays _ <;> rfl

end Jffi
