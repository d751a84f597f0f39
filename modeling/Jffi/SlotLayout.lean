import Jffi.HeapInvocationBuffer

/-!
# What a filled buffer holds

The abstract view of a sequence of puts: the slot each put leaves in the byte array, the entry it
leaves in the object buffer, and the arrays it allocates. `Filled` says that a buffer is what the
sequence so far describes, `filled_put` that one more put keeps it so.

## Main results

* `filled_put` — one put
* `filled_puts` — a whole sequence, started on a new buffer
-/

namespace Jffi

open ObjectBuffer HeapInvocationBuffer

variable {pf : Platform}

/-! ### The traces of one put -/

namespace Put

/-- The bytes a put writes into its slot, least significant first; an object writes none. -/
def digits (pf : Platform) : Put → List Byte
  | .byte v => leBytes 1 v
  | .short v => leBytes 2 v
  | .int v | .float v => leBytes 4 v
  | .long v | .double v => leBytes 8 v
  | .address v | .structAddress v => leBytes pf.ptrSize v
  | .jniEnvironment | .jniObject _ => leBytes pf.ptrSize (0 : BitVec 64)
  | .longDouble _ | .bigDecimal _ | .array .. | .directBuffer .. | .struct .. => []

theorem length_digits_le (pf : Platform) (p : Put) : (p.digits pf).length ≤ PARAM_SIZE := by
  have := pf.ptrSize_le
  cases p <;> simp [digits, PARAM_SIZE, this]

/-- The slot of a put: its bytes in native order, and zeros up to the next slot. -/
def slot (pf : Platform) (p : Put) : List Byte :=
  pf.nativeOrder.arrange (p.digits pf) ++ List.replicate (PARAM_SIZE - (p.digits pf).length) 0

@[simp] theorem length_slot (p : Put) : (p.slot pf).length = PARAM_SIZE := by
  have := length_digits_le pf p
  simp [slot, Nat.add_sub_cancel' this]

/-- The arrays a put allocates. -/
def allocs (ld : LongDoubles pf) : Put → List JavaArray
  | .longDouble v => [⟨.byte, (ld.fromDouble v).map .byte⟩]
  | .bigDecimal v => [⟨.byte, (ld.fromNumeral v).map .byte⟩]
  | _ => []

/-- The descriptor of an object at position `i`. -/
def arrayFlags (t : ComponentType) (flags : BitVec 32) (i : ℕ) : BitVec 32 :=
  makeObjectFlags flags (primType t ||| ARRAY) (BitVec.ofNat 32 i)

/-- The entry of a put at position `i`, with `n` arrays on the heap. -/
def entry (ctx : CallContext pf) (ld : LongDoubles pf) (i n : ℕ) : Put → Option ObjectEntry
  | .longDouble v =>
    some ⟨some (.array n), arrayFlags .byte IN i, 0,
      BitVec.ofNat 32 (ld.fromDouble v).length⟩
  | .bigDecimal v =>
    some ⟨some (.array n), arrayFlags .byte IN i, 0,
      BitVec.ofNat 32 (ld.fromNumeral v).length⟩
  | .array t a offset length flags => some ⟨a, arrayFlags t flags i, offset, length⟩
  | .directBuffer v offset length => some ⟨v, makeBufferFlags (BitVec.ofNat 32 i), offset, length⟩
  | .struct v offset =>
    (ctx.getParameterType i).map fun type =>
      ⟨v, arrayFlags .byte IN i, offset, BitVec.ofNat 32 (type.size pf)⟩
  | .jniEnvironment => some ⟨none, makeJNIFlags (BitVec.ofNat 32 i) JNIENV, 0, 0⟩
  | .jniObject o => some ⟨o, makeJNIFlags (BitVec.ofNat 32 i) JNIOBJECT, 0, 0⟩
  | .byte _ | .short _ | .int _ | .long _ | .float _ | .double _ | .address _
  | .structAddress _ => none

end Put

/-- The entries of a sequence of puts that starts at position `i` with `n` arrays on the heap. -/
def putEntries (ctx : CallContext pf) (ld : LongDoubles pf) : ℕ → ℕ → List Put → List ObjectEntry
  | _, _, [] => []
  | i, n, p :: ps =>
    (p.entry ctx ld i n).toList ++ putEntries ctx ld (i + 1) (n + (p.allocs ld).length) ps

theorem putEntries_concat (ctx : CallContext pf) (ld : LongDoubles pf) (i n : ℕ) (ps : List Put)
    (p : Put) :
    putEntries ctx ld i n (ps ++ [p]) =
      putEntries ctx ld i n ps ++
        (p.entry ctx ld (i + ps.length) (n + (ps.flatMap (Put.allocs ld)).length)).toList := by
  induction ps generalizing i n with
  | nil => simp [putEntries]
  | cons q ps ih =>
    rw [List.cons_append, putEntries, putEntries, ih, List.append_assoc, List.length_cons,
      List.flatMap_cons, List.length_append]
    congr 4 <;> omega

theorem length_putEntries_le (ctx : CallContext pf) (ld : LongDoubles pf) (i n : ℕ)
    (ps : List Put) : (putEntries ctx ld i n ps).length ≤ ps.length := by
  induction ps generalizing i n with
  | nil => exact Nat.le_refl 0
  | cons p ps ih =>
    have htail := ih (i + 1) (n + (p.allocs ld).length)
    have hhead : (p.entry ctx ld i n).toList.length ≤ 1 := by
      cases p.entry ctx ld i n <;> simp
    rw [putEntries, List.length_append, List.length_cons]
    omega

/-! ### Filled buffers -/

/-- The buffer is what the puts `ps` make of a new one, started with the arrays `heap₀`. -/
structure Filled (ctx : CallContext pf) (ld : LongDoubles pf) (heap₀ : List JavaArray)
    (ps : List Put) (b : HeapInvocationBuffer pf) (heap : List JavaArray) : Prop where
  callContext_eq : b.callContext = ctx
  /-- Slot after slot, then the zeros of a new array. -/
  buffer_eq : b.buffer = ps.flatMap (Put.slot pf) ++
    List.replicate (PARAM_SIZE * (ctx.getParameterCount - ps.length)) 0
  paramOffset_eq : b.paramOffset = PARAM_SIZE * ps.length
  paramIndex_eq : b.paramIndex = ps.length
  holds : b.getObjectBuffer.Holds (putEntries ctx ld 0 heap₀.length ps)
  heap_eq : heap = heap₀ ++ ps.flatMap (Put.allocs ld)

theorem filled_new (ctx : CallContext pf) (ld : LongDoubles pf) (heap : List JavaArray) :
    Filled ctx ld heap [] (HeapInvocationBuffer.new ctx) heap where
  callContext_eq := rfl
  buffer_eq := by simp [HeapInvocationBuffer.new, Encoder.getBufferSize, Nat.mul_comm]
  paramOffset_eq := rfl
  paramIndex_eq := rfl
  holds := holds_new
  heap_eq := by simp

theorem length_flatMap_slot (pf : Platform) (ps : List Put) :
    (ps.flatMap (Put.slot pf)).length = PARAM_SIZE * ps.length := by
  induction ps with
  | nil => rfl
  | cons p ps ih =>
    rw [List.flatMap_cons, List.length_append, Put.length_slot, ih, List.length_cons,
      Nat.mul_succ, Nat.add_comm]

/-- The bytes that a put of a number wrote are at the start of its slot, in the order of the
machine. -/
theorem slice_slot (pf : Platform) {ps : List Put} {p : Put} {i : ℕ} (hp : ps[i]? = some p)
    (rest : List Byte) :
    slice (ps.flatMap (Put.slot pf) ++ rest) (i * PARAM_SIZE) (p.digits pf).length =
      some (pf.nativeOrder.arrange (p.digits pf)) := by
  obtain ⟨hi, rfl⟩ := List.getElem?_eq_some_iff.mp hp
  have hsplit : ps = ps.take i ++ ps[i] :: ps.drop (i + 1) := by simp
  have hlen : ((ps.take i).flatMap (Put.slot pf)).length = i * PARAM_SIZE := by
    rw [length_flatMap_slot, List.length_take, Nat.min_eq_left (Nat.le_of_lt hi), Nat.mul_comm]
  generalize ps[i] = p at *
  rw [hsplit, List.flatMap_append, List.flatMap_cons, Put.slot, slice_eq_some]
  simp only [List.append_assoc]
  refine ⟨?_, ?_⟩
  · rw [List.length_append, List.length_append, hlen, ByteOrder.length_arrange]
    omega
  · rw [← hlen, List.drop_left, List.take_left' (by simp)]

/-- Writing a put into the next slot gives the layout of one more put. -/
theorem splice_slot (pf : Platform) {n : ℕ} (ps : List Put) (p : Put) (h : ps.length < n) :
    splice (ps.flatMap (Put.slot pf) ++ List.replicate (PARAM_SIZE * (n - ps.length)) 0)
        (PARAM_SIZE * ps.length) (pf.nativeOrder.arrange (p.digits pf)) =
      some ((ps ++ [p]).flatMap (Put.slot pf) ++
        List.replicate (PARAM_SIZE * (n - (ps ++ [p]).length)) 0) := by
  have hslots := length_flatMap_slot pf ps
  have hdigits := Put.length_digits_le pf p
  obtain ⟨m, hm⟩ : ∃ m, n - ps.length = m + 1 := ⟨n - ps.length - 1, by omega⟩
  have hm' : n - (ps ++ [p]).length = m := by
    rw [List.length_append, List.length_singleton]
    omega
  have hzeros : PARAM_SIZE * (m + 1) - (p.digits pf).length =
      (PARAM_SIZE - (p.digits pf).length) + PARAM_SIZE * m := by
    rw [Nat.mul_succ]
    omega
  rw [hm, hm', splice_eq_some]
  refine ⟨?_, ?_⟩
  · rw [List.length_append, hslots, List.length_replicate, ByteOrder.length_arrange, Nat.mul_succ]
    omega
  · rw [← hslots, List.take_left, ByteOrder.length_arrange, ← List.drop_drop, List.drop_left,
      List.drop_replicate, hzeros, List.replicate_add, List.flatMap_append, List.flatMap_singleton,
      Put.slot]
    simp only [List.append_assoc]

section Step

variable {ctx : CallContext pf} {ld : LongDoubles pf} {heap₀ heap : List JavaArray}
  {ps : List Put} {p : Put} {b : HeapInvocationBuffer pf}

/-- A put of a number through an encoder fills the next slot and leaves the objects as they are. -/
theorem filled_putNumber (h : Filled ctx ld heap₀ ps b heap)
    (hlt : ps.length < ctx.getParameterCount) {w n : ℕ}
    {encode : List Byte → ℕ → BitVec w → Option (List Byte)} {v : BitVec w}
    (hencode : ArrayIo.Encodes pf n encode) (hdigits : p.digits pf = leBytes n v)
    (hentry : p.entry ctx ld ps.length (heap₀.length + (ps.flatMap (Put.allocs ld)).length) = none)
    (hallocs : p.allocs ld = []) :
    ∃ b', b.putNumber (Encoder.putSlot (encode b.buffer b.paramOffset v) b.paramOffset) = some b' ∧
      Filled ctx ld heap₀ (ps ++ [p]) b' heap := by
  have hsplice := splice_slot pf ps p hlt
  have hfit : b.paramOffset + n ≤ b.buffer.length := by
    have := (splice_eq_some.mp hsplice).1
    rw [hdigits, ByteOrder.length_arrange, length_leBytes] at this
    rwa [h.buffer_eq, h.paramOffset_eq]
  have hput : encode b.buffer b.paramOffset v = _ := hencode _ _ _ hfit
  rw [← hdigits, h.buffer_eq, h.paramOffset_eq, hsplice] at hput
  rw [h.buffer_eq, h.paramOffset_eq, hput]
  refine ⟨_, rfl, h.callContext_eq, rfl, ?_, ?_, ?_, ?_⟩
  · simp [Nat.mul_succ]
  · simp [h.paramIndex_eq]
  · rw [putEntries_concat, Nat.zero_add, hentry, Option.toList_none, List.append_nil]
    exact h.holds
  · simp [h.heap_eq, hallocs]

/-- A put that leaves its slot alone and stores one entry. -/
theorem filled_putEntry (h : Filled ctx ld heap₀ ps b heap)
    (hlt : ps.length < ctx.getParameterCount) (hn : ps.length < 2 ^ 28) (e : ObjectEntry)
    (put : ObjectBuffer → BitVec 32 → Except ObjectBuffer ObjectBuffer)
    (hput : ∀ objects, put objects (BitVec.ofNat 32 ps.length) =
      objects.putObject e.object e.offset e.length e.flags)
    (hdigits : p.digits pf = [])
    (hentry : p.entry ctx ld ps.length (heap₀.length + (ps.flatMap (Put.allocs ld)).length) =
      some e) :
    ∃ b', b.putEntry put = some b' ∧
      Filled ctx ld heap₀ (ps ++ [p]) b' (heap ++ p.allocs ld) := by
  have hentries : (putEntries ctx ld 0 heap₀.length ps).length < 2 ^ 28 :=
    Nat.lt_of_le_of_lt (length_putEntries_le ..) hn
  obtain ⟨objects, hobjects, hholds⟩ := holds_putObject h.holds hentries e
  refine ⟨{ b with
    objectBuffer := some objects
    paramOffset := Encoder.skipAddress b.paramOffset
    paramIndex := b.paramIndex + 1 }, ?_, h.callContext_eq, ?_, ?_, ?_, ?_, ?_⟩
  · rw [putEntry, h.paramIndex_eq, hput, hobjects]
    rfl
  · have hsplice := splice_slot pf ps p hlt
    have hnil : pf.nativeOrder.arrange ([] : List Byte) = [] := by
      cases pf.nativeOrder <;> rfl
    rw [hdigits, hnil, ← h.buffer_eq] at hsplice
    obtain ⟨-, hbuffer⟩ := splice_eq_some.mp hsplice
    rw [← hbuffer.symm]
    simp
  · simp [h.paramOffset_eq, Encoder.skipAddress, Nat.mul_succ]
  · simp [h.paramIndex_eq]
  · rw [putEntries_concat, Nat.zero_add, hentry]
    exact hholds
  · simp [h.heap_eq]

/-- A put of the bytes of a `long double` stores an entry for a new array, which has these bytes. -/
theorem filled_putFilled (h : Filled ctx ld heap₀ ps b heap)
    (hlt : ps.length < ctx.getParameterCount) (hn : ps.length < 2 ^ 28) {bytes : List Byte}
    (hdigits : p.digits pf = [])
    (hentry : p.entry ctx ld ps.length (heap₀.length + (ps.flatMap (Put.allocs ld)).length) =
      some ⟨some (.array (heap₀.length + (ps.flatMap (Put.allocs ld)).length)),
        Put.arrayFlags .byte IN ps.length, 0, BitVec.ofNat 32 bytes.length⟩)
    (hallocs : p.allocs ld = [⟨.byte, bytes.map .byte⟩]) :
    ∃ b', b.putFilled bytes heap = some (b', heap ++ p.allocs ld) ∧
      Filled ctx ld heap₀ (ps ++ [p]) b' (heap ++ p.allocs ld) := by
  have hheap : heap.length = heap₀.length + (ps.flatMap (Put.allocs ld)).length := by
    rw [h.heap_eq, List.length_append]
  obtain ⟨b', hb, hf⟩ := filled_putEntry (p := p) h hlt hn
    ⟨some (.array heap.length), Put.arrayFlags .byte IN ps.length, 0,
      BitVec.ofNat 32 bytes.length⟩
    (fun objects index => objects.putArray .byte index (some (.array heap.length)) 0
      (BitVec.ofNat 32 bytes.length) IN) (fun _ => rfl) hdigits (by rw [hheap]; exact hentry)
  refine ⟨b', ?_, hf⟩
  simp only [putFilled, newByteArray, hb, hallocs]
  rfl

/-- A put for a JNI parameter clears its slot and stores one entry. -/
theorem filled_putJNI (h : Filled ctx ld heap₀ ps b heap)
    (hlt : ps.length < ctx.getParameterCount) (hn : ps.length < 2 ^ 28) {obj : Option Obj}
    {type : BitVec 32} (hdigits : p.digits pf = leBytes pf.ptrSize (0 : BitVec 64))
    (hentry : p.entry ctx ld ps.length (heap₀.length + (ps.flatMap (Put.allocs ld)).length) =
      some ⟨obj, makeJNIFlags (BitVec.ofNat 32 ps.length) type, 0, 0⟩)
    (hallocs : p.allocs ld = []) :
    ∃ b', b.putJNI obj type = some b' ∧ Filled ctx ld heap₀ (ps ++ [p]) b' heap := by
  have hentries : (putEntries ctx ld 0 heap₀.length ps).length < 2 ^ 28 :=
    Nat.lt_of_le_of_lt (length_putEntries_le ..) hn
  obtain ⟨objects, hobjects, hholds⟩ := holds_putObject h.holds hentries
    ⟨obj, makeJNIFlags (BitVec.ofNat 32 ps.length) type, 0, 0⟩
  have hsplice := splice_slot pf ps p hlt
  have hfit : b.paramOffset + pf.ptrSize ≤ b.buffer.length := by
    have := (splice_eq_some.mp hsplice).1
    rw [hdigits, ByteOrder.length_arrange, length_leBytes] at this
    rwa [h.buffer_eq, h.paramOffset_eq]
  have hput := ArrayIo.encodes_putAddress pf b.buffer b.paramOffset 0 hfit
  rw [← hdigits, h.buffer_eq, h.paramOffset_eq, hsplice] at hput
  refine ⟨{ b with
    buffer := (ps ++ [p]).flatMap (Put.slot pf) ++
      List.replicate (PARAM_SIZE * (ctx.getParameterCount - (ps ++ [p]).length)) 0
    objectBuffer := some objects
    paramOffset := PARAM_SIZE * ps.length + PARAM_SIZE
    paramIndex := b.paramIndex + 1 }, ?_, h.callContext_eq, rfl, ?_, ?_, ?_, ?_⟩
  · rw [HeapInvocationBuffer.putJNI, Encoder.putAddress, h.buffer_eq, h.paramOffset_eq, hput,
      h.paramIndex_eq]
    simp only [Encoder.putSlot, Option.map_some, Option.bind_eq_bind, Option.bind_some,
      ObjectBuffer.putJNI, hobjects]
    rfl
  · simp [Nat.mul_succ]
  · simp [h.paramIndex_eq]
  · rw [putEntries_concat, Nat.zero_add, hentry]
    exact hholds
  · simp [h.heap_eq, hallocs]

/-- One more put succeeds as long as there is a parameter for it, and the buffer is what the longer
sequence describes. -/
theorem filled_put (h : Filled ctx ld heap₀ ps b heap) (hlt : ps.length < ctx.getParameterCount)
    (hn : ps.length < 2 ^ 28) (p : Put) :
    ∃ b' heap', put ld p b heap = some (b', heap') ∧ Filled ctx ld heap₀ (ps ++ [p]) b' heap' := by
  have hcontext := h.callContext_eq
  cases p with
  | byte v =>
    obtain ⟨b', hb, hf⟩ := filled_putNumber (p := .byte v) h hlt (ArrayIo.encodes_putByte pf) rfl
      rfl rfl
    exact ⟨b', heap, by rw [HeapInvocationBuffer.put, putByte, Encoder.putByte, hb]; rfl, hf⟩
  | short v =>
    obtain ⟨b', hb, hf⟩ := filled_putNumber (p := .short v) h hlt (ArrayIo.encodes_putShort pf) rfl
      rfl rfl
    exact ⟨b', heap, by rw [HeapInvocationBuffer.put, putShort, Encoder.putShort, hb]; rfl, hf⟩
  | int v =>
    obtain ⟨b', hb, hf⟩ := filled_putNumber (p := .int v) h hlt (ArrayIo.encodes_putInt pf) rfl
      rfl rfl
    exact ⟨b', heap, by rw [HeapInvocationBuffer.put, putInt, Encoder.putInt, hb]; rfl, hf⟩
  | long v =>
    obtain ⟨b', hb, hf⟩ := filled_putNumber (p := .long v) h hlt (ArrayIo.encodes_putLong pf) rfl
      rfl rfl
    exact ⟨b', heap, by rw [HeapInvocationBuffer.put, putLong, Encoder.putLong, hb]; rfl, hf⟩
  | float v =>
    obtain ⟨b', hb, hf⟩ := filled_putNumber (p := .float v) h hlt (ArrayIo.encodes_putInt pf) rfl
      rfl rfl
    refine ⟨b', heap, ?_, hf⟩
    rw [HeapInvocationBuffer.put, putFloat, Encoder.putFloat, ArrayIo.putFloat, hb]
    rfl
  | double v =>
    obtain ⟨b', hb, hf⟩ := filled_putNumber (p := .double v) h hlt (ArrayIo.encodes_putLong pf) rfl
      rfl rfl
    refine ⟨b', heap, ?_, hf⟩
    rw [HeapInvocationBuffer.put, putDouble, Encoder.putDouble, ArrayIo.putDouble, hb]
    rfl
  | address v =>
    obtain ⟨b', hb, hf⟩ := filled_putNumber (p := .address v) h hlt (ArrayIo.encodes_putAddress pf)
      rfl rfl rfl
    exact ⟨b', heap, by rw [HeapInvocationBuffer.put, putAddress, Encoder.putAddress, hb]; rfl, hf⟩
  | structAddress v =>
    obtain ⟨b', hb, hf⟩ := filled_putNumber (p := .structAddress v) h hlt
      (ArrayIo.encodes_putAddress pf) rfl rfl rfl
    have htype : b.callContext.getParameterType b.paramIndex =
        some ctx.parameterTypes[ps.length] := by
      rw [hcontext, h.paramIndex_eq]
      exact List.getElem?_eq_getElem hlt
    refine ⟨b', heap, ?_, hf⟩
    rw [HeapInvocationBuffer.put, putStructAddress, htype, Option.bind_eq_bind, Option.bind_some,
      Encoder.putAddress, hb]
    rfl
  | longDouble v =>
    obtain ⟨b', hb, hf⟩ := filled_putFilled (p := .longDouble v) h hlt hn rfl rfl rfl
    exact ⟨b', _, by rw [HeapInvocationBuffer.put, putLongDouble_eq, hb], hf⟩
  | bigDecimal v =>
    obtain ⟨b', hb, hf⟩ := filled_putFilled (p := .bigDecimal v) h hlt hn rfl rfl rfl
    exact ⟨b', _, by rw [HeapInvocationBuffer.put, putBigDecimal_eq, hb], hf⟩
  | array t a offset length flags =>
    obtain ⟨b', hb, hf⟩ := filled_putEntry (p := .array t a offset length flags) h hlt hn
      ⟨a, Put.arrayFlags t flags ps.length, offset, length⟩
      (fun objects index => objects.putArray t index a offset length flags) (fun _ => rfl) rfl rfl
    exact ⟨b', heap, by rw [HeapInvocationBuffer.put, HeapInvocationBuffer.putArray, hb]; rfl,
      by simpa only [Put.allocs, List.append_nil] using hf⟩
  | directBuffer v offset length =>
    obtain ⟨b', hb, hf⟩ := filled_putEntry (p := .directBuffer v offset length) h hlt hn
      ⟨v, makeBufferFlags (BitVec.ofNat 32 ps.length), offset, length⟩
      (fun objects index => objects.putDirectBuffer index v offset length) (fun _ => rfl) rfl rfl
    exact ⟨b', heap,
      by rw [HeapInvocationBuffer.put, HeapInvocationBuffer.putDirectBuffer, hb]; rfl,
      by simpa only [Put.allocs, List.append_nil] using hf⟩
  | struct v offset =>
    have htype : ctx.getParameterType ps.length = some ctx.parameterTypes[ps.length] :=
      List.getElem?_eq_getElem hlt
    obtain ⟨b', hb, hf⟩ := filled_putEntry (p := .struct v offset) h hlt hn
      ⟨v, Put.arrayFlags .byte IN ps.length, offset,
        BitVec.ofNat 32 (ctx.parameterTypes[ps.length].size pf)⟩
      (fun objects index => objects.putArray .byte index v offset
        (BitVec.ofNat 32 (ctx.parameterTypes[ps.length].size pf)) IN) (fun _ => rfl) rfl
      (by rw [Put.entry, htype]; rfl)
    refine ⟨b', heap, ?_, by simpa only [Put.allocs, List.append_nil] using hf⟩
    rw [HeapInvocationBuffer.put, putStruct, hcontext, h.paramIndex_eq, htype, Option.bind_eq_bind,
      Option.bind_some, hb]
    rfl
  | jniEnvironment =>
    obtain ⟨b', hb, hf⟩ := filled_putJNI (p := .jniEnvironment) h hlt hn rfl rfl rfl
    exact ⟨b', heap, by rw [HeapInvocationBuffer.put, putJNIEnvironment, hb]; rfl, hf⟩
  | jniObject o =>
    obtain ⟨b', hb, hf⟩ := filled_putJNI (p := .jniObject o) h hlt hn rfl rfl rfl
    exact ⟨b', heap, by rw [HeapInvocationBuffer.put, putJNIObject, hb]; rfl, hf⟩

end Step

/-- A sequence of puts succeeds as long as there are parameters left, and the buffer is what the
sequence describes. -/
theorem filled_puts_of_filled {ctx : CallContext pf} {ld : LongDoubles pf}
    {heap₀ heap : List JavaArray} {ps : List Put} {b : HeapInvocationBuffer pf}
    (h : Filled ctx ld heap₀ ps b heap) (qs : List Put)
    (hlen : ps.length + qs.length ≤ ctx.getParameterCount) :
    ∃ b' heap', puts ld qs b heap = some (b', heap') ∧ Filled ctx ld heap₀ (ps ++ qs) b' heap' := by
  induction qs generalizing ps b heap with
  | nil => exact ⟨b, heap, rfl, by simpa using h⟩
  | cons q qs ih =>
    have hn : ctx.getParameterCount < 2 ^ 28 := ctx.parameterCount_lt
    rw [List.length_cons] at hlen
    obtain ⟨b₁, heap₁, hput, h₁⟩ := filled_put h (by omega) (by omega) q
    obtain ⟨b', heap', hputs, h'⟩ :=
        ih h₁ (by rw [List.length_append, List.length_singleton]; omega)
    refine ⟨b', heap', ?_, by simpa using h'⟩
    rw [puts, hput]
    exact hputs

theorem filled_puts (ctx : CallContext pf) (ld : LongDoubles pf) (heap : List JavaArray)
    (ps : List Put) (hlen : ps.length ≤ ctx.getParameterCount) :
    ∃ b heap', puts ld ps (HeapInvocationBuffer.new ctx) heap = some (b, heap') ∧
      Filled ctx ld heap ps b heap' :=
  filled_puts_of_filled (filled_new ctx ld heap) ps (by simpa using hlen)

end Jffi
