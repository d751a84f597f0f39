import Jffi.FastNumeric
import Jffi.Marshalling

/-!
# Numeric calls through a `HeapInvocationBuffer`

The generic way to call a function whose parameters and result are numbers: the values are put one
by one, with the put for the type of each parameter, and the result is asked for by its type. This
is what the fast numeric entry points are measured against.

## Main definitions

* `numericPut` — the put for a number
* `genericResult` — the `Invoker` method for a result
* `invokeNumbers` — the whole call

## Main results

* `readsBack_genericResult` — results of at most eight bytes are read back
* `conveys_invokeNumbers` — the arguments arrive and the result comes back
-/

namespace Jffi

open HeapInvocationBuffer

variable (pf : Platform)

/-! ### Results -/

/-- `return_int`. -/
def returnInt (retval : List Cell) : List Cell :=
  match pf.nativeOrder with
  | .little => pf.nativeOrder.arrange (retval.take 4)
  | .big => (pf.nativeOrder.arrange (retval.take pf.ptrSize)).take 4

/-- `retval.s64` and `retval.d`. -/
def returnLong (retval : List Cell) : List Cell := pf.nativeOrder.arrange (retval.take 8)

/-- `retval.f`. -/
def returnFloat (retval : List Cell) : List Cell := pf.nativeOrder.arrange (retval.take 4)

/-- The result by the method of `Invoker` for its type: `invokeFloat`, `invokeDouble`,
`invokeLong`, `invokeAddress` or else `invokeInt`. -/
def genericResult (rtype : FFIType) (retval : List Cell) : List Cell :=
  match rtype with
  | .float => returnFloat pf retval
  | .double | .longdouble | .sint64 | .uint64 => returnLong pf retval
  | .pointer => if pf.ptrSize = 4 then returnInt pf retval else returnLong pf retval
  | _ => returnInt pf retval

/-! ### The call -/

/-- The put for the number `n` as a parameter of type `type`. -/
def numericPut (type : FFIType) (n : BitVec 64) : Put :=
  match type with
  | .float => .float (n.setWidth 32)
  | .double | .longdouble => .double n
  | .void | .sint8 | .uint8 => .byte (n.setWidth 32)
  | .sint16 | .uint16 => .short (n.setWidth 32)
  | .sint32 | .uint32 => .int (n.setWidth 32)
  | .sint64 | .uint64 => .long n
  | .pointer => .address n
  | .struct _ _ => .structAddress n

/-- The bytes of a `jlong`. -/
def jlongCells (n : BitVec 64) : List Cell := (leBytes 8 n).map .byte

theorem length_jlongCells (ns : List (BitVec 64)) : ∀ v ∈ ns.map jlongCells, v.length = 8 := by
  intro v hv
  obtain ⟨n, -, rfl⟩ := List.mem_map.mp hv
  rw [jlongCells, List.length_map, length_leBytes]

/-- A call with the numbers `ns` through a buffer. -/
def invokeNumbers (jvm : Jvm) (ctx : CallContext pf) (ld : LongDoubles pf) (callee : Callee)
    (ns : List (BitVec 64)) (s : Native) : Option NumericCall := do
  let (b, _) ← puts ld (List.zipWith numericPut ctx.native.cif.argTypes ns) (.new ctx) s.arrays
  let o ← invokeHeapBuffer jvm callee b (List.replicate 8 .undef) s
  let c ← o.called
  some ⟨c.args, c.memory, genericResult pf ctx.native.cif.rtype o.retval, o.native⟩

variable {pf}

/-! ### Results, read back -/

/-- A field of the union that covers the value: on a big endian machine just what was stored. -/
theorem take_arrange_of_stored {rtype : FFIType} {result retval retval' : List Cell} {n : ℕ}
    (h : storeResult pf rtype result retval = some retval') (hn : rtype.valueSize pf ≤ n)
    (hbig : pf.nativeOrder = .big → (returnDigits pf rtype result).length = n) :
    (pf.nativeOrder.arrange (retval'.take n)).take (rtype.valueSize pf) =
      fitResult (rtype.valueSize pf) result := by
  have hstored := take_storeResult h
  have hlow := take_returnDigits pf rtype result
  have hle := congrArg List.length hlow
  rw [List.length_take, length_fitResult] at hle
  cases ho : pf.nativeOrder with
  | little =>
    rw [ho, ByteOrder.arrange] at hstored
    rw [ByteOrder.arrange, List.take_take, Nat.min_eq_left hn, ← hlow, ← hstored,
      List.take_take, Nat.min_eq_left (by omega)]
  | big =>
    rw [hbig ho, ho] at hstored
    rw [hstored, ByteOrder.arrange_arrange, hlow]

section ReadsBack

variable {rtype : FFIType} {room : ℕ}

theorem readsBack_returnFloat (h : rtype.isIntegral = false) (hsize : rtype.valueSize pf = 4) :
    ReadsBack pf rtype room (returnFloat pf) := by
  intro result retval hretval
  refine take_arrange_of_stored hretval (Nat.le_of_eq hsize) fun _ => ?_
  rw [length_returnDigits, h, hsize]
  rfl

theorem readsBack_returnLong (hsize : rtype.valueSize pf = 8) :
    ReadsBack pf rtype room (returnLong pf) := by
  intro result retval hretval
  refine take_arrange_of_stored hretval (Nat.le_of_eq hsize) fun _ => ?_
  have hptr := pf.ptrSize_le
  rw [length_returnDigits, hsize]
  split <;> omega

theorem readsBack_returnInt (h : rtype.valueSize pf = 0 ∨ rtype.isIntegral = true)
    (hsize : rtype.valueSize pf ≤ 4) : ReadsBack pf rtype room (returnInt pf) := by
  intro result retval hretval
  rcases h with hzero | hint
  · rw [hzero, List.take_zero]
    rfl
  cases ho : pf.nativeOrder with
  | little =>
    have hread := take_arrange_of_stored hretval hsize fun hbig => absurd (ho.symm.trans hbig)
      (by decide)
    simpa only [returnInt, ho] using hread
  | big =>
    have hptr : 4 ≤ pf.ptrSize := by
      rcases pf.ptrSize_eq with hptr | hptr <;> omega
    have hread := take_arrange_of_stored hretval (Nat.le_trans hsize hptr) fun _ => by
      rw [length_returnDigits, if_pos hint]
      omega
    rw [ho] at hread
    simp only [returnInt, ho]
    rw [List.take_take, Nat.min_eq_left hsize, hread]

end ReadsBack

/-- **Results of at most eight bytes** are read back, whatever their type. -/
theorem readsBack_genericResult {rtype : FFIType} (hstruct : rtype.code pf ≠ .struct)
    (hsize : rtype.valueSize pf ≤ 8) : ReadsBack pf rtype 8 (genericResult pf rtype) := by
  cases rtype with
  | float => exact readsBack_returnFloat rfl rfl
  | double | sint64 | uint64 => exact readsBack_returnLong rfl
  | longdouble =>
    have hnone : pf.longDouble.isSome = false := by
      by_contra hsome
      have hgt := FFIType.size_longdouble_gt (Bool.not_eq_false _ ▸ hsome)
      exact absurd hsize (Nat.not_le.mpr hgt)
    refine readsBack_returnLong ?_
    rw [Option.isSome_eq_false_iff, Option.isNone_iff_eq_none] at hnone
    simp [FFIType.valueSize, FFIType.size, hnone]
  | pointer =>
    by_cases hptr : pf.ptrSize = 4
    · have hread := @readsBack_returnInt pf .pointer 8 (.inr rfl) (Nat.le_of_eq hptr)
      intro result retval hretval
      rw [genericResult, if_pos hptr]
      exact hread result retval hretval
    · have hptr8 : pf.ptrSize = 8 := by
        rcases pf.ptrSize_eq with h | h <;> omega
      have hread := @readsBack_returnLong pf .pointer 8 hptr8
      intro result retval hretval
      rw [genericResult, if_neg hptr]
      exact hread result retval hretval
  | struct n a => exact absurd rfl hstruct
  | void => exact readsBack_returnInt (.inl rfl) (Nat.zero_le 4)
  | _ => exact readsBack_returnInt (.inr rfl) (by simp [FFIType.valueSize, FFIType.size])

/-! ### Arguments -/

/-- The bytes of the put for a number are the low ones of the number. -/
theorem digits_numericPut {t : FFIType} (hvoid : t ≠ .void) (hstruct : t.code pf ≠ .struct)
    (hsize : t.valueSize pf ≤ slotSize) (n : BitVec 64) :
    (numericPut t n).digits pf = leBytes (t.valueSize pf) n := by
  cases t with
  | void => exact absurd rfl hvoid
  | struct n a => exact absurd rfl hstruct
  | longdouble =>
    have hnone : pf.longDouble = none := by
      cases hld : pf.longDouble with
      | none => rfl
      | some m =>
        have hgt := @FFIType.size_longdouble_gt pf (by rw [hld]; rfl)
        exact absurd hsize (Nat.not_le.mpr hgt)
    simp [numericPut, Put.digits, FFIType.valueSize, FFIType.size, hnone]
  | double | sint64 | uint64 | pointer => rfl
  | _ => exact leBytes_setWidth n (by decide)

/-- The slot of a number that was put has, from its start, the bytes that libffi reads for its type.
-/
theorem slice_numericPut {ts : List FFIType} {ns : List (BitVec 64)} {rest : List Byte} {i : ℕ}
    {t : FFIType} {n : BitVec 64} (ht : ts[i]? = some t) (hn : ns[i]? = some n)
    (hstruct : t.code pf ≠ .struct) (hsize : t.valueSize pf ≤ slotSize) :
    slice ((List.zipWith numericPut ts ns).flatMap (Put.slot pf) ++ rest) (i * slotSize)
        (t.valueSize pf) = some (pf.nativeOrder.arrange (leBytes (t.valueSize pf) n)) := by
  have hput : (List.zipWith numericPut ts ns)[i]? = some (numericPut t n) := by
    rw [List.getElem?_zipWith, ht, hn]
  have hslot := slice_slot pf hput rest
  by_cases hvoid : t = .void
  · have hbound := (slice_eq_some.mp hslot).1
    rw [hvoid]
    refine slice_eq_some.mpr ⟨by change i * PARAM_SIZE + 0 ≤ _; omega, ?_⟩
    cases pf.nativeOrder <;> rfl
  · rw [digits_numericPut hvoid hstruct hsize n, length_leBytes] at hslot
    exact hslot

/-- Puts of numbers make no entry in the object buffer. -/
theorem putEntries_numericPut (ctx : CallContext pf) (ld : LongDoubles pf) (i n : ℕ)
    (ts : List FFIType) (ns : List (BitVec 64)) :
    putEntries ctx ld i n (List.zipWith numericPut ts ns) = [] := by
  induction ts generalizing i n ns with
  | nil => rfl
  | cons t ts ih =>
    cases ns with
    | nil => rfl
    | cons v ns =>
      have hentry : (numericPut t v).entry ctx ld i n = none := by
        cases t <;> rfl
      rw [List.zipWith_cons_cons, putEntries, hentry, ih]
      rfl

/-- Without objects nothing is left to resolve: the call is made with the slots as they were filled,
and nothing was added to memory but the frame. -/
theorem prepareCall_nil {ctx : NativeCallContext} (h : ctx.Scalar pf) (jvm : Jvm) {bs : List Byte}
    (hbs : bs.length = ctx.cif.argTypes.length * slotSize) (s : Native) :
    ∃ frame s', prepareCall pf jvm ctx bs [] s = some (.next ⟨frame, [], [], s'⟩) ∧
      frame.InSlots ctx.cif.argTypes.length ∧ frame.tmpBuffer = bs.map .byte ∧ s.KeepsHeap s' ∧
      s'.toMemory = s.toMemory := by
  obtain ⟨frame, s', hframe, hslots, htmp, hkeep, hblocks⟩ := newFrame_scalar h s hbs
  refine ⟨frame, s', ?_, hslots, htmp, hkeep, Native.toMemory_eq hkeep hblocks⟩
  rw [prepareCall, hframe]
  rfl

/-- What libffi reads from the slots of a call of numbers are the numbers that were put. -/
theorem readArgs_numericPut {ctx : NativeCallContext} (h : ctx.Scalar pf) {ns : List (BitVec 64)}
    {f : Frame} {rest : List Byte} (hslots : f.InSlots ctx.cif.argTypes.length)
    (hlen : ns.length = ctx.cif.argTypes.length) (m : Memory)
    (htmp : f.tmpBuffer =
      ((List.zipWith numericPut ctx.cif.argTypes ns).flatMap (Put.slot pf) ++ rest).map .byte) :
    readArgs pf f m ctx.cif.argTypes =
      some (numericArgs pf ctx.cif.argTypes (ns.map jlongCells)) := by
  obtain ⟨args, hargs, hcount, hget⟩ := readArgs_scalar h hslots m
  rw [hargs, Option.some.injEq]
  refine List.ext_getElem? fun i => ?_
  cases ht : ctx.cif.argTypes[i]? with
  | none =>
    have hle := List.getElem?_eq_none_iff.mp ht
    rw [List.getElem?_eq_none (by omega), List.getElem?_eq_none]
    rw [numericArgs, List.length_map, List.length_zip, List.length_map]
    omega
  | some t =>
    have hi := (List.getElem?_eq_some_iff.mp ht).1
    obtain ⟨n, hn⟩ : ∃ n, ns[i]? = some n := ⟨_, List.getElem?_eq_getElem (by omega)⟩
    obtain ⟨hstruct, hsize⟩ := h t (List.mem_of_getElem? ht)
    have hzip : (ctx.cif.argTypes.zip (ns.map jlongCells))[i]? = some (t, jlongCells n) := by
      rw [List.getElem?_zip_eq_some, List.getElem?_map, hn]
      exact ⟨ht, rfl⟩
    rw [hget i t ht, htmp, slice_map, slice_numericPut ht hn hstruct hsize, numericArgs,
      List.getElem?_map, hzip]
    simp only [Option.map_some, Option.some.injEq]
    have hlow : (leBytes 8 n).take (t.valueSize pf) = leBytes (t.valueSize pf) n :=
      take_leBytes hsize n
    rw [← ByteOrder.map_arrange, ByteOrder.arrange_arrange, jlongCells, ← List.map_take, hlow]

/-- **The generic way** conveys numbers and results of at most eight bytes. -/
theorem conveys_invokeNumbers (jvm : Jvm) (ctx : CallContext pf) (ld : LongDoubles pf)
    (callee : Callee) {ns : List (BitVec 64)} (s : Native) (h : ctx.native.Scalar pf)
    (hstruct : ctx.native.cif.rtype.code pf ≠ .struct)
    (hsize : ctx.native.cif.rtype.valueSize pf ≤ 8) (hlen : ns.length = ctx.getParameterCount) :
    ∃ d s', invokeNumbers pf jvm ctx ld callee ns s = some d ∧ s.KeepsHeap s' ∧
      s'.toMemory = s.toMemory ∧ Conveys pf ctx.native callee (ns.map jlongCells) s' d := by
  have htypes := ctx.length_argTypes
  have hputs : (List.zipWith numericPut ctx.native.cif.argTypes ns).length =
      ctx.getParameterCount := by
    rw [List.length_zipWith]
    omega
  obtain ⟨b, heap, hb, hfilled⟩ := filled_puts ctx ld s.arrays
    (List.zipWith numericPut ctx.native.cif.argTypes ns) (Nat.le_of_eq hputs)
  have hbs : b.buffer.length = ctx.native.cif.argTypes.length * slotSize := by
    rw [hfilled.buffer_eq, List.length_append, length_flatMap_slot, List.length_replicate, hputs,
      htypes, Nat.sub_self, Nat.mul_comm]
    rfl
  obtain ⟨frame, s', hprepare, hslots, htmp, hkeep, hmemory⟩ := prepareCall_nil h jvm hbs s
  rw [hfilled.buffer_eq] at htmp
  have hread := readArgs_numericPut h hslots (hlen.trans htypes.symm) s'.toMemory htmp
  have hroom : max (ctx.native.cif.rtype.valueSize pf) pf.ptrSize ≤
      (List.replicate 8 Cell.undef).length := by
    have hptr := pf.ptrSize_le
    rw [List.length_replicate]
    omega
  obtain ⟨args, retval, hargs, hretval, hfinish⟩ := @finishCall_scalar pf ctx.native h
    ⟨frame, [], [], s'⟩ hslots (List.replicate 8 .undef) (.of_max hroom) callee
  obtain rfl : args = numericArgs pf ctx.native.cif.argTypes (ns.map jlongCells) :=
    Option.some.inj (hargs.symm.trans hread)
  have hresult := readsBack_genericResult hstruct hsize _ _ hretval
  let r := callee (numericArgs pf ctx.native.cif.argTypes (ns.map jlongCells)) s'.toMemory
  refine ⟨⟨numericArgs pf ctx.native.cif.argTypes (ns.map jlongCells), s'.toMemory,
    genericResult pf ctx.native.cif.rtype retval, saveErrno pf ctx.native (s'.returned r)⟩, s', ?_,
    hkeep, hmemory, ⟨rfl, rfl, hresult, rfl⟩⟩
  · simp only [invokeNumbers, hb, Option.bind_eq_bind, Option.bind_some,
      invokeHeapBuffer_filled hfilled, putEntries_numericPut, invokeArrayWithObjects_, hprepare,
      hfinish]
    rfl

end Jffi
