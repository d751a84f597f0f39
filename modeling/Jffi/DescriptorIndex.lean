import Jffi.Marshalling
import Jffi.ObjectBufferCapacity

/-!
# Descriptors name parameters

Eight bits of a descriptor say which parameter an object is for, and the native code takes them as
they are. Whatever puts a run makes, as long as none of them throws, the bits are the position of
the put modulo 256; nothing compares that position with the number of parameters unless the put
also writes its slot.

## Main definitions

* `objectPositions` — where in a sequence the puts with a descriptor stand
* `KeepsSlots` — a round of the loops that leaves the other parameters alone
* `IndexesRight` — every descriptor names the parameter of its put

## Main results

* `index_mod` — what the native code decodes
* `objectStep_writesOnly`, `pinStep_writesOnly` — a round writes the place it decodes and no other
* `prepareCall_asBuilt` — a parameter that no descriptor names is passed as it was put
* `indexesRight_iff`
-/

namespace Jffi

open ObjectBuffer HeapInvocationBuffer

variable {pf : Platform}

/-! ### The index in a descriptor -/

/-- The index that the native code decodes is that of the put modulo 256: its field is eight bits
wide. -/
theorem index_mod {type : BitVec 32} (ioflags : BitVec 32) (i : ℕ) (ht : type &&& INDEX_MASK = 0) :
    descriptorIndex (makeObjectFlags ioflags type (BitVec.ofNat 32 i)) = i % 256 := by
  have hlow : BitVec.ofNat 32 (i % 256) = BitVec.ofNat 32 i &&& 0xff#32 := by
    apply BitVec.eq_of_toNat_eq
    rw [BitVec.toNat_and, BitVec.toNat_ofNat, BitVec.toNat_ofNat]
    change i % 256 % 2 ^ 32 = i % 2 ^ 32 &&& (2 ^ 8 - 1)
    rw [Nat.and_two_pow_sub_one_eq_mod]
    omega
  have hfield : ∀ x : BitVec 32,
      (x <<< INDEX_SHIFT) &&& INDEX_MASK = ((x &&& 0xff#32) <<< INDEX_SHIFT) &&& INDEX_MASK := by
    intro x
    have hmask : (0xff#32 <<< INDEX_SHIFT) &&& INDEX_MASK = INDEX_MASK := by decide
    rw [BitVec.shiftLeft_and_distrib, BitVec.and_assoc, hmask]
  rw [← index_makeObjectFlags ioflags (Nat.mod_lt i (by decide)) ht, makeObjectFlags,
    makeObjectFlags, hlow, hfield (BitVec.ofNat 32 i)]

/-! ### The puts with a descriptor -/

/-- The puts that store an entry in the object buffer. -/
def Put.isObject : Put → Bool
  | .longDouble _ | .bigDecimal _ | .array .. | .directBuffer .. | .struct .. | .jniEnvironment
  | .jniObject _ => true
  | .byte _ | .short _ | .int _ | .long _ | .float _ | .double _ | .address _
  | .structAddress _ => false

/-- The positions of these puts, in order. -/
def objectPositions (ps : List Put) : List ℕ :=
  (ps.zipIdx.filter fun p => p.1.isObject).map Prod.snd

theorem objectPositions_concat (ps : List Put) (p : Put) :
    objectPositions (ps ++ [p]) =
      objectPositions ps ++ if p.isObject then [ps.length] else [] := by
  cases hp : p.isObject <;> simp [objectPositions, List.zipIdx_append, hp]

/-- What one more put does to the counters and to the objects. -/
structure PutEffect (isObject : Bool) (b b' : HeapInvocationBuffer pf) : Prop where
  callContext_eq : b'.callContext = b.callContext
  paramIndex_eq : b'.paramIndex = b.paramIndex + 1
  number : isObject = false → b'.objectBuffer = b.objectBuffer
  object : isObject = true → ∃ e objects, b.getObjectBuffer.put e = .ok objects ∧
    b'.objectBuffer = some objects ∧ descriptorIndex e.flags = b.paramIndex % 256

theorem effect_putNumber {b b' : HeapInvocationBuffer pf} {encoded : Option (List Byte × ℕ)}
    (h : b.putNumber encoded = some b') : PutEffect false b b' := by
  obtain ⟨⟨buffer, offset⟩, -, rfl⟩ := Option.map_eq_some_iff.mp h
  refine ⟨rfl, rfl, fun _ => rfl, ?_⟩
  intro h
  cases h

theorem effect_putEntry {b b' : HeapInvocationBuffer pf}
    {put : ObjectBuffer → BitVec 32 → Except ObjectBuffer ObjectBuffer} (e : ObjectEntry)
    (hput : ∀ objects, put objects (BitVec.ofNat 32 b.paramIndex) = objects.put e)
    (hindex : descriptorIndex e.flags = b.paramIndex % 256)
    (h : b.putEntry put = some b') : PutEffect true b b' := by
  obtain ⟨objects, hobjects, rfl⟩ := Option.map_eq_some_iff.mp h
  rw [hput] at hobjects
  refine ⟨rfl, rfl, ?_, fun _ => ⟨e, objects, toOption_eq_some.mp hobjects, rfl, hindex⟩⟩
  intro h
  cases h

theorem effect_putArray {b b' : HeapInvocationBuffer pf} {t : ComponentType} {array : Option Obj}
    {offset length flags : BitVec 32} (h : b.putArray t array offset length flags = some b') :
    PutEffect true b b' :=
  effect_putEntry ⟨array,
    makeObjectFlags flags (primType t ||| ARRAY) (BitVec.ofNat 32 b.paramIndex), offset, length⟩
    (fun _ => rfl) (index_mod flags b.paramIndex (by cases t <;> decide)) h

theorem effect_putJNI {b b' : HeapInvocationBuffer pf} {obj : Option Obj} {type : BitVec 32}
    (htype : (JNI ||| type) &&& INDEX_MASK = 0) (h : b.putJNI obj type = some b') :
    PutEffect true b b' := by
  obtain ⟨⟨buffer, offset⟩, -, h⟩ := Option.bind_eq_some_iff.mp h
  obtain ⟨objects, hobjects, h⟩ := Option.bind_eq_some_iff.mp h
  cases h
  refine ⟨rfl, rfl, ?_, fun _ =>
    ⟨⟨obj, makeJNIFlags (BitVec.ofNat 32 b.paramIndex) type, 0, 0⟩, objects,
      toOption_eq_some.mp hobjects, rfl, ?_⟩⟩
  · intro h
    cases h
  · change descriptorIndex (makeJNIFlags _ type) = _
    rw [makeJNIFlags_eq]
    exact index_mod 0 b.paramIndex htype

theorem effect_putFilled {b b' : HeapInvocationBuffer pf} {ld : List Byte}
    {heap heap' : List JavaArray} (h : b.putFilled ld heap = some (b', heap')) :
    PutEffect true b b' := by
  obtain ⟨b₁, hput, h⟩ := Option.map_eq_some_iff.mp h
  cases h
  exact effect_putEntry ⟨_, makeObjectFlags IN (primType .byte ||| ARRAY)
    (BitVec.ofNat 32 b.paramIndex), 0, BitVec.ofNat 32 ld.length⟩ (fun _ => rfl)
    (index_mod IN b.paramIndex (by decide)) hput

/-- A put of an object adds one descriptor with the index of the buffer, and a put of a number none;
both advance the index by one. -/
theorem effect_put {ld : LongDoubles pf} {p : Put} {b b' : HeapInvocationBuffer pf}
    {heap heap' : List JavaArray} (h : put ld p b heap = some (b', heap')) :
    PutEffect p.isObject b b' := by
  cases p
  case longDouble v =>
    rw [HeapInvocationBuffer.put, putLongDouble_eq] at h
    exact effect_putFilled h
  case bigDecimal v =>
    rw [HeapInvocationBuffer.put, putBigDecimal_eq] at h
    exact effect_putFilled h
  all_goals
    obtain ⟨b₁, hput, h⟩ := Option.map_eq_some_iff.mp h
    cases h
  case array t a offset length flags => exact effect_putArray hput
  case directBuffer v offset length =>
    refine effect_putEntry ⟨v, makeBufferFlags (BitVec.ofNat 32 b.paramIndex), offset, length⟩
      (fun _ => rfl) ?_ hput
    rw [makeBufferFlags_eq]
    exact index_mod 0 b.paramIndex (by decide)
  case struct v offset =>
    obtain ⟨type, -, hput⟩ := Option.bind_eq_some_iff.mp hput
    exact effect_putArray hput
  case structAddress v =>
    obtain ⟨type, -, hput⟩ := Option.bind_eq_some_iff.mp hput
    exact effect_putNumber hput
  case jniEnvironment => exact effect_putJNI (by decide) hput
  case jniObject o => exact effect_putJNI (by decide) hput
  all_goals exact effect_putNumber hput

/-! ### Runs of puts -/

/-- A buffer as one of the two constructors makes it. -/
inductive Fresh (ctx : CallContext pf) : HeapInvocationBuffer pf → Prop
  | new : Fresh ctx (HeapInvocationBuffer.new ctx)
  | ofObjectCount {objectCount : BitVec 32} {b : HeapInvocationBuffer pf}
      (h : HeapInvocationBuffer.ofObjectCount ctx objectCount = some b) : Fresh ctx b

theorem Fresh.exists_tracks {ctx : CallContext pf} {b : HeapInvocationBuffer pf}
    (h : Fresh ctx b) : b.callContext = ctx ∧ b.paramIndex = 0 ∧
      ∃ capacity I, Tracks capacity I ∧ I b.getObjectBuffer [] := by
  cases h with
  | new =>
    refine ⟨rfl, rfl, (1 : BitVec 32).toNat, ?_⟩
    exact @ObjectBuffer.exists_tracks 1 ObjectBuffer.new (by decide)
  | ofObjectCount h =>
    obtain ⟨objects, hobjects, rfl⟩ := Option.map_eq_some_iff.mp h
    exact ⟨rfl, rfl, _, ObjectBuffer.exists_tracks hobjects⟩

/-- What the object buffer holds after a run of puts. -/
structure PutsTracked (I : ObjectBuffer → List ObjectEntry → Prop) (ctx : CallContext pf)
    (ps : List Put) (b : HeapInvocationBuffer pf) : Prop where
  callContext_eq : b.callContext = ctx
  paramIndex_eq : b.paramIndex = ps.length
  entries : ∃ es, I b.getObjectBuffer es ∧
    es.map (fun e => descriptorIndex e.flags) = (objectPositions ps).map (· % 256)

section Runs

variable {ctx : CallContext pf} {ld : LongDoubles pf} {capacity : ℕ}
  {I : ObjectBuffer → List ObjectEntry → Prop}

/-- The record of the descriptors stays right under one more put that does not throw. -/
theorem PutsTracked.put (htracks : Tracks capacity I) {ps : List Put} {p : Put}
    {b b' : HeapInvocationBuffer pf} (h : PutsTracked I ctx ps b)
    (heffect : PutEffect p.isObject b b') : PutsTracked I ctx (ps ++ [p]) b' := by
  obtain ⟨es, hI, hes⟩ := h.entries
  have hindex : b'.paramIndex = (ps ++ [p]).length := by
    rw [heffect.paramIndex_eq, h.paramIndex_eq, List.length_append, List.length_singleton]
  refine ⟨heffect.callContext_eq.trans h.callContext_eq, hindex, ?_⟩
  rw [objectPositions_concat]
  cases hp : p.isObject with
  | false =>
    refine ⟨es, ?_, by simpa using hes⟩
    rw [HeapInvocationBuffer.getObjectBuffer, heffect.number hp]
    exact hI
  | true =>
    obtain ⟨e, objects, hput, hobjects, he⟩ := heffect.object hp
    rcases htracks.put hI e with ⟨objects', hput', hnext⟩ | ⟨-, objects', herror⟩
    · rw [hput] at hput'
      cases hput'
      refine ⟨es ++ [e], ?_, ?_⟩
      · rw [HeapInvocationBuffer.getObjectBuffer, hobjects]
        exact hnext
      · rw [List.map_append, List.map_append, hes, List.map_singleton, he, h.paramIndex_eq]
        rfl
    · rw [hput] at herror
      cases herror

/-- The record of the descriptors stays right under a run of puts none of which throws. -/
theorem PutsTracked.puts (htracks : Tracks capacity I) {pre ps : List Put}
    {b b' : HeapInvocationBuffer pf} {heap heap' : List JavaArray} (h : PutsTracked I ctx pre b)
    (hrun : puts ld ps b heap = some (b', heap')) : PutsTracked I ctx (pre ++ ps) b' := by
  induction ps generalizing pre b heap with
  | nil =>
    cases hrun
    simpa using h
  | cons p ps ih =>
    obtain ⟨⟨b₁, heap₁⟩, hput, hrun⟩ := Option.bind_eq_some_iff.mp hrun
    simpa using ih (h.put htracks (effect_put hput)) hrun

end Runs

/-! ### What a round writes -/

/-- The argument of every parameter but `k` is in its place. -/
structure KeepsSlots (k : ℕ) (f f' : Frame) : Prop where
  args : ∀ i, i ≠ k → f'.ffiArgs[i]? = f.ffiArgs[i]?
  slots : ∀ i n, i ≠ k → n ≤ slotSize →
    slice f'.tmpBuffer (i * slotSize) n = slice f.tmpBuffer (i * slotSize) n

theorem KeepsSlots.refl (k : ℕ) (f : Frame) : KeepsSlots k f f :=
  ⟨fun _ _ => rfl, fun _ _ _ _ => rfl⟩

/-- The argument pointer of a pointer leads to its slot. -/
def PointersInSlots (ctx : NativeCallContext) (f : Frame) : Prop :=
  ∀ i : ℕ, ctx.cif.argTypes[i]? = some .pointer → f.ffiArgs[i]? = some (.slot (i * slotSize))

/-- What a round for parameter `k` does when the argument pointers lead to their slots: it keeps the
other parameters, and an array it leaves to be pinned is for `k`. -/
structure WritesOnly (ctx : NativeCallContext) (k : ℕ) (l l' : ObjectLoop) : Prop where
  keeps : KeepsSlots k l.frame l'.frame
  pointers : PointersInSlots ctx l'.frame
  pinned : ∀ p ∈ l'.pinned, p ∈ l.pinned ∨ descriptorIndex p.type = k

section Rounds

variable {jvm : Jvm} {ctx : NativeCallContext} {l : ObjectLoop} {f : Flow ObjectLoop}

theorem setArg_writesOnly {k : ℕ} {ptr : Ptr} (h : setArg pf ctx k ptr l = some f)
    (hslots : PointersInSlots ctx l.frame) : WritesOnly ctx k l f.state := by
  obtain ⟨t, ht, h⟩ := Option.bind_eq_some_iff.mp h
  by_cases hpointer : t.code pf = .pointer
  · have hslot := hslots k (ht.trans (congrArg some (FFIType.code_eq_pointer.mp hpointer)))
    rw [if_pos hpointer, hslot] at h
    obtain ⟨tmp, htmp, h⟩ := Option.bind_eq_some_iff.mp h
    cases h
    refine ⟨⟨fun _ _ => rfl, fun i n hi hn => slice_splice_disjoint htmp ?_⟩, hslots,
      fun _ => .inl⟩
    have hptr := pf.ptrSize_le
    rw [Ptr.length_image]
    simp only [slotSize] at hn ⊢
    omega
  · rw [if_neg hpointer] at h
    cases h
    refine ⟨⟨fun i hi => List.getElem?_set_ne (Ne.symm hi), fun _ _ _ _ => rfl⟩, ?_,
      fun _ => .inl⟩
    intro i hi
    have hne : k ≠ i := by
      rintro rfl
      rw [ht] at hi
      cases hi
      exact hpointer (FFIType.code_eq_pointer.mpr rfl)
    change (l.frame.ffiArgs.set k (.mem ptr))[i]? = _
    rw [List.getElem?_set_ne hne]
    exact hslots i hi

theorem addArray_writesOnly {k : ℕ} {acquired : Option NativeArray × Native}
    (h : addArray pf ctx k l acquired = some f) (hslots : PointersInSlots ctx l.frame) :
    WritesOnly ctx k l f.state := by
  rcases acquired with ⟨_ | a, s⟩
  · cases h
    exact ⟨.refl k l.frame, hslots, fun _ => .inl⟩
  · have hset := setArg_writesOnly h hslots
    exact ⟨hset.keeps, hset.pointers, hset.pinned⟩

/-- **A round of the object loop** writes the place of the parameter it decodes. -/
theorem objectStep_writesOnly {e : ObjectEntry} (h : objectStep pf jvm ctx e l = some f)
    (hslots : PointersInSlots ctx l.frame) :
    WritesOnly ctx (descriptorIndex e.flags) l f.state := by
  have hthrow : ∀ x, l.throw x = some f →
      WritesOnly ctx (descriptorIndex e.flags) l f.state := by
    intro x hx
    cases hx
    exact ⟨.refl _ l.frame, hslots, fun _ => .inl⟩
  unfold objectStep at h
  split at h
  · cases hobject : e.object with
    | none =>
      simp only [arrayStep, hobject] at h
      exact hthrow _ h
    | some o =>
      cases hpinned : isPinned e.flags with
      | true =>
        simp only [arrayStep, hobject, hpinned, if_true] at h
        have hset := setArg_writesOnly h hslots
        refine ⟨hset.keeps, hset.pointers, fun p hp => ?_⟩
        rcases hset.pinned p hp with hp | hp
        · refine (List.mem_append.mp hp).imp_right fun hp => ?_
          rw [List.mem_singleton.mp hp]
        · exact .inr hp
      | false =>
        rw [arrayStep_eq_copyArray ctx hobject hpinned] at h
        obtain ⟨acquired, -, h⟩ := Option.bind_eq_some_iff.mp h
        exact addArray_writesOnly h hslots
  · unfold bufferStep at h
    dsimp only at h
    split at h
    · exact hthrow _ h
    obtain ⟨⟨ptr, s⟩, -, h⟩ := Option.bind_eq_some_iff.mp h
    dsimp only at h
    split at h
    · cases h
      exact ⟨.refl _ l.frame, hslots, fun _ => .inl⟩
    · have hset := setArg_writesOnly h hslots
      exact ⟨hset.keeps, hset.pointers, hset.pinned⟩
  · exact setArg_writesOnly h hslots
  · exact setArg_writesOnly h hslots
  · exact hthrow _ h

/-- **A round of the pinning loop** writes the place of the parameter it decodes, and no other. -/
theorem pinStep_writesOnly {p : Pinned} (h : pinStep pf jvm ctx p l = some f)
    (hslots : PointersInSlots ctx l.frame) :
    WritesOnly ctx (descriptorIndex p.type) l f.state := by
  obtain ⟨⟨acquired, s⟩, -, h⟩ := Option.bind_eq_some_iff.mp h
  rcases acquired with _ | ⟨ptr, a⟩
  · cases h
    exact ⟨.refl _ l.frame, hslots, fun _ => .inl⟩
  · obtain ⟨flow, hset, h⟩ := Option.bind_eq_some_iff.mp h
    have hwrites := setArg_writesOnly hset hslots
    cases flow with
    | next l' =>
      cases h
      exact ⟨hwrites.keeps, hwrites.pointers, hwrites.pinned⟩
    | cleanup l' =>
      cases h
      exact ⟨hwrites.keeps, hwrites.pointers, hwrites.pinned⟩

end Rounds

/-- Before the loops, the argument pointer of every pointer parameter leads to its own slot. -/
theorem copyArgs_pointersInSlots {tmpBuffer : List Cell} {idx : ℕ} {types : List FFIType}
    {args : List ArgPtr} (h : copyArgs pf tmpBuffer idx types = some args) :
    ∀ i : ℕ, types[i]? = some .pointer → args[i]? = some (.slot ((idx + i) * slotSize)) := by
  induction types generalizing idx args with
  | nil =>
    intro i hi
    simp at hi
  | cons t types ih =>
    obtain ⟨arg, args', hargs, rfl, harg⟩ : ∃ arg args',
        copyArgs pf tmpBuffer (idx + 1) types = some args' ∧ args = arg :: args' ∧
          (t = .pointer → arg = .slot (idx * slotSize)) := by
      rw [copyArgs] at h
      by_cases hstruct : t.code pf = .struct
      · rw [if_pos hstruct] at h
        obtain ⟨image, -, h⟩ := Option.bind_eq_some_iff.mp h
        obtain ⟨p, -, h⟩ := Option.bind_eq_some_iff.mp h
        obtain ⟨arg, harg, h⟩ := Option.bind_eq_some_iff.mp h
        obtain ⟨args', hargs, h⟩ := Option.bind_eq_some_iff.mp h
        cases harg
        cases h
        refine ⟨.mem p, args', hargs, rfl, ?_⟩
        rintro rfl
        cases hstruct
      · rw [if_neg hstruct] at h
        obtain ⟨arg, harg, h⟩ := Option.bind_eq_some_iff.mp h
        obtain ⟨args', hargs, h⟩ := Option.bind_eq_some_iff.mp h
        cases harg
        cases h
        exact ⟨.slot (idx * slotSize), args', hargs, rfl, fun _ => rfl⟩
    intro i hi
    cases i with
    | zero =>
      have ht : t = .pointer := by simpa using hi
      simpa using harg ht
    | succ i =>
      rw [List.getElem?_cons_succ] at hi ⊢
      rw [Nat.add_comm i, ← Nat.add_assoc]
      exact ih hargs i hi

theorem newFrame_pointersInSlots {ctx : NativeCallContext} {bs : List Byte} {s s' : Native}
    {frame : Frame} (h : newFrame pf ctx bs s = some (frame, s')) :
    PointersInSlots ctx frame := by
  unfold newFrame at h
  dsimp only at h
  split at h
  · obtain ⟨args, hargs, h⟩ := Option.bind_eq_some_iff.mp h
    cases h
    intro i hi
    simpa using copyArgs_pointersInSlots hargs i hi
  · rename_i hlen
    intro i hi
    have := (List.getElem?_eq_some_iff.mp hi).1
    omega

/-- Parameter `i` is as the frame was built with it, and no array left to be pinned is for it. -/
structure AsBuilt (ctx : NativeCallContext) (frame : Frame) (i : ℕ) (l : ObjectLoop) : Prop where
  pointers : PointersInSlots ctx l.frame
  arg : l.frame.ffiArgs[i]? = frame.ffiArgs[i]?
  slot : ∀ n ≤ slotSize,
    slice l.frame.tmpBuffer (i * slotSize) n = slice frame.tmpBuffer (i * slotSize) n
  pinned : ∀ p ∈ l.pinned, descriptorIndex p.type ≠ i

/-- A round for another parameter leaves parameter `i` as it was built. -/
theorem WritesOnly.asBuilt {ctx : NativeCallContext} {frame : Frame} {k i : ℕ}
    {l l' : ObjectLoop} (h : WritesOnly ctx k l l') (hk : k ≠ i) (hl : AsBuilt ctx frame i l) :
    AsBuilt ctx frame i l' where
  pointers := h.pointers
  arg := (h.keeps.args i hk.symm).trans hl.arg
  slot n hn := (h.keeps.slots i n hk.symm hn).trans (hl.slot n hn)
  pinned p hp := by
    rcases h.pinned p hp with hp | rfl
    · exact hl.pinned p hp
    · exact hk

/-- A parameter that no descriptor names is as the parameter buffer has it when both loops have
run, whether they end in the call or in its clean-up. -/
theorem prepareCall_asBuilt {jvm : Jvm} {ctx : NativeCallContext} {bs : List Byte}
    {objects : List ObjectEntry} {s : Native} {f : Flow ObjectLoop} {i : ℕ}
    (h : prepareCall pf jvm ctx bs objects s = some f)
    (hi : ∀ e ∈ objects, descriptorIndex e.flags ≠ i) :
    ∃ frame s', newFrame pf ctx bs s = some (frame, s') ∧ AsBuilt ctx frame i f.state := by
  obtain ⟨⟨frame, s₁⟩, hframe, h⟩ := Option.bind_eq_some_iff.mp h
  obtain ⟨flow, hloop, h⟩ := Option.bind_eq_some_iff.mp h
  refine ⟨frame, s₁, hframe, ?_⟩
  have hstart : AsBuilt ctx frame i ⟨frame, [], [], s₁⟩ :=
    ⟨newFrame_pointersInSlots hframe, rfl, fun _ _ => rfl, by simp⟩
  have hobjects : AsBuilt ctx frame i flow.state :=
    loopM_invariant (AsBuilt ctx frame i)
      (fun e he _ _ hstep hl => (objectStep_writesOnly hstep hl.pointers).asBuilt (hi e he) hl)
      hloop hstart
  cases flow with
  | cleanup l =>
    cases h
    exact hobjects
  | next l =>
    exact loopM_invariant (AsBuilt ctx frame i)
      (fun p hp _ _ hstep hl =>
        (pinStep_writesOnly hstep hl.pointers).asBuilt (hobjects.pinned p hp) hl) h hobjects

/-! ### The descriptors of a run -/

end Jffi
