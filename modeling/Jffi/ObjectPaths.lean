import Jffi.DirectCalls
import Jffi.ObjectFates
import Jffi.ScalarCall
import Jffi.Trace

/-!
# The two ways of a call with objects

The fast entry points decide what becomes of an object as `invokeArrayWithObjects_` does, but for a
null where a short array is expected. Where the objects are arrays and buffers that are there, and
each is for a parameter that is a pointer, the loops of both do the same, round by round: what one
writes to the slot of a parameter, the other writes to its element of `v[]`. The parameters that no
object is for keep what they had.

## Main definitions

* `Readable`, `NullArray` — an object both paths know the kind of; the one they differ in
* `Resolvable` — an object both paths handle
* `Mirrors` — the local variables of the one path are those of the other

## Main results

* `callFate_eq`, `callFate_of_reachesNull` — the decisions about all objects
* `alongside_objectStep`, `alongside_pinStep` — a round
* `mirrors_of_passes` — everything before a call
-/

namespace Jffi

open ObjectBuffer Native

variable {pf : Platform} {jvm : Jvm} {ctx : NativeCallContext} {e : ObjectEntry}

/-! ### Descriptors of arrays and buffers -/

/-- The kind that the generic path decodes is one that the fast path finds in the bits outside
`PRIM_MASK`. -/
theorem kind_eq (flags : BitVec 32) :
    (decodeKind flags = .array → flags &&& TYPE_MASK &&& ~~~PRIM_MASK = ARRAY) ∧
      (decodeKind flags = .buffer → flags &&& TYPE_MASK &&& ~~~PRIM_MASK = BUFFER) ∧
      (decodeKind flags = .jniEnvironment ∨ decodeKind flags = .jniObject →
        flags &&& TYPE_MASK &&& ~~~PRIM_MASK = JNI) := by
  simp only [decodeKind]
  split
  · rename_i harray
    exact ⟨fun _ => harray, (fun h => by cases h), (by rintro (h | h) <;> cases h)⟩
  · split
    · rename_i hbuffer
      exact ⟨(fun h => by cases h), fun _ => hbuffer, (by rintro (h | h) <;> cases h)⟩
    · split
      · rename_i hjni
        refine ⟨?_, ?_, fun _ => hjni⟩
        · intro h
          split at h
          · cases h
          · split at h <;> cases h
        · intro h
          split at h
          · cases h
          · split at h <;> cases h
      · exact ⟨(fun h => by cases h), (fun h => by cases h), (by rintro (h | h) <;> cases h)⟩

/-- An object of a kind other than array has no array's bit, so that the tests for arrays fail. -/
theorem not_isPinnedArray {kind : BitVec 32} (h : e.flags &&& TYPE_MASK &&& ~~~PRIM_MASK = kind)
    (hkind : kind &&& ARRAY = 0) :
    isPinnedArray e.flags = false ∧ isUnpinnedArray e.flags = false ∧ isArray e.flags = false := by
  have hbit : e.flags &&& ARRAY = 0 := (and_kind h (by decide)).trans hkind
  have hne : ∀ x, x &&& ARRAY = ARRAY → e.flags &&& (ARRAY ||| PINNED) ≠ x := by
    intro x hx heq
    have hand : e.flags &&& (ARRAY ||| PINNED) &&& ARRAY = e.flags &&& ARRAY := by
      rw [BitVec.and_assoc]
      rfl
    rw [heq, hx, hbit] at hand
    exact absurd hand (by decide)
  refine ⟨beq_eq_false_iff_ne.mpr (hne _ rfl), beq_eq_false_iff_ne.mpr (hne _ rfl),
    beq_eq_false_iff_ne.mpr ?_⟩
  rw [h]
  rintro rfl
  exact absurd hkind (by decide)

/-- An object that both paths handle: there is an array or a buffer, for a pointer. -/
structure Resolvable (ctx : NativeCallContext) (e : ObjectEntry) : Prop where
  object_ne : e.object ≠ none
  kind : decodeKind e.flags = .array ∨ decodeKind e.flags = .buffer
  type : ctx.cif.argTypes[descriptorIndex e.flags]? = some .pointer

/-! ### The same decisions -/

/-- A descriptor that means the same to both paths: of an array, of a buffer, or of nothing they
know. -/
def Decodable (flags : BitVec 32) : Prop :=
  decodeKind flags = .array ∨ decodeKind flags = .buffer ∨ flags &&& TYPE_MASK &&& ~~~PRIM_MASK = 0

/-- The object is for a parameter of a function of `n`, and its descriptor means the same to both
paths. -/
structure Readable (n : ℕ) (e : ObjectEntry) : Prop where
  decodable : Decodable e.flags
  index_lt : descriptorIndex e.flags < n

section Decisions

variable {n : ℕ} {heap : List JavaArray} {fails : Bool}

/-- What a descriptor of each sort is to the fast path. -/
theorem Decodable.fast (h : Decodable e.flags) :
    (decodeKind e.flags = .array ∧ isArray e.flags = true ∧
        isPinnedArray e.flags = isPinned e.flags ∧ isUnpinnedArray e.flags = !isPinned e.flags) ∨
      (decodeKind e.flags = .buffer ∧ isArray e.flags = false ∧ isPinnedArray e.flags = false ∧
        isUnpinnedArray e.flags = false ∧ isBuffer e.flags = true) ∨
      (decodeKind e.flags = .unsupported ∧ isArray e.flags = false ∧
        isPinnedArray e.flags = false ∧ isUnpinnedArray e.flags = false ∧
        isBuffer e.flags = false) := by
  rcases h with hkind | hkind | hkind
  · have harray := beq_iff_eq.mpr ((kind_eq e.flags).1 hkind)
    exact .inl ⟨hkind, harray, isPinnedArray_eq harray⟩
  · have hbits := (kind_eq e.flags).2.1 hkind
    obtain ⟨hpinned, hunpinned, harray⟩ := not_isPinnedArray hbits (by decide)
    exact .inr (.inl ⟨hkind, harray, hpinned, hunpinned, beq_iff_eq.mpr hbits⟩)
  · obtain ⟨hpinned, hunpinned, harray⟩ := not_isPinnedArray hkind (by decide)
    refine .inr (.inr ⟨?_, harray, hpinned, hunpinned, ?_⟩)
    · rw [decodeKind, hkind]
      rfl
    · rw [isBuffer, hkind]
      rfl

theorem Readable.not_lt (h : Readable n e) : ¬n - 1 < descriptorIndex e.flags := by
  have := h.index_lt
  omega

theorem within_of_lt (h : descriptorIndex e.flags < n) (f : Fate) : f.within n e = f := by
  cases f with
  | passes => exact if_pos h
  | _ => rfl

/-- Null for an array that is to be copied to the stack. -/
def NullArray (e : ObjectEntry) : Prop :=
  e.object = none ∧ isUnpinnedArray e.flags = true ∧ e.length.toInt < MAX_STACK_ARRAY

/-- **Of an object**, or null where the fast path looks for it, both paths decide the same. -/
theorem fate_eq (h : Readable n e) (hnull : ¬NullArray e) :
    (fastDecisions n).fate heap fails e = (genericDecisions n).fate heap fails e := by
  simp only [fastDecisions, genericDecisions, if_neg h.not_lt]
  cases ho : e.object with
  | none =>
    rw [if_neg fun hshort => hnull ⟨ho, hshort⟩]
    rcases h.decodable.fast with ⟨hkind, -⟩ | ⟨hkind, -⟩ | ⟨hkind, -⟩
    · simp only [hkind, arrayFate, ho]
    · simp only [hkind, bufferFate, ho]
    · simp only [hkind]
  | some o =>
    rcases h.decodable.fast with ⟨hkind, harray, hpinned, hunpinned⟩ |
      ⟨hkind, harray, hpinned, hunpinned, hbuffer⟩ | ⟨hkind, harray, hpinned, hunpinned, hbuffer⟩
    · simp only [hkind, harray, hpinned, hunpinned, arrayFate, ho, within_of_lt h.index_lt]
      cases isPinned e.flags with
      | true => rfl
      | false => simp
    · simp [hkind, harray, hpinned, hunpinned, hbuffer, bufferFate, ho, within_of_lt h.index_lt]
    · simp [hkind, harray, hpinned, hunpinned, hbuffer]

/-- The generic path looks for null before anything else, and throws. -/
theorem fate_null (h : Readable n e) (hnull : NullArray e) :
    (genericDecisions n).fate heap fails e = .throws := by
  rcases h.decodable.fast with ⟨hkind, -⟩ | ⟨-, -, -, hunpinned, -⟩ | ⟨-, -, -, hunpinned, -⟩
  · simp only [genericDecisions, hkind, arrayFate, hnull.1]
  · cases hunpinned.symm.trans hnull.2.1
  · cases hunpinned.symm.trans hnull.2.1

theorem mallocs_eq (h : Readable n e) :
    (fastDecisions n).mallocs e = (genericDecisions n).mallocs e := by
  simp only [fastDecisions, genericDecisions, h.not_lt, not_false_eq_true, true_and]
  rcases h.decodable.fast with ⟨hkind, harray, hpinned, hunpinned⟩ |
    ⟨hkind, harray, hpinned, hunpinned, -⟩ | ⟨hkind, harray, hpinned, hunpinned, -⟩
  · rw [hkind, harray, hpinned, hunpinned]
    cases isPinned e.flags with
    | true => simp
    | false => simp
  · simp [hkind, harray]
  · simp [hkind, harray]

theorem pins_eq (h : Readable n e) : (fastDecisions n).pins e = (genericDecisions n).pins e := by
  simp only [fastDecisions, genericDecisions]
  rcases h.decodable.fast with ⟨hkind, -, hpinned, -⟩ | ⟨hkind, -, hpinned, -⟩ |
    ⟨hkind, -, hpinned, -⟩
  · simp [hkind, hpinned]
  · simp [hkind, hpinned]
  · simp [hkind, hpinned]

variable {objects : List ObjectEntry} {s : Native}

/-- After objects that pass there is a null that only the generic path looks for. -/
def ReachesNull (n : ℕ) (jvm : Jvm) (heap : List JavaArray) (m : ℕ) (objects : List ObjectEntry) :
    Prop :=
  ∃ pre e post, objects = pre ++ e :: post ∧ NullArray e ∧
    verdict (genericDecisions n) jvm heap m pre = .passes

/-- The first object is such a null, or it passes and there is one after it. -/
theorem reachesNull_cons {m : ℕ} : ReachesNull n jvm heap m (e :: objects) ↔
    NullArray e ∨ (genericDecisions n).fate heap (jvm.mallocFails m) e = .passes ∧
      ReachesNull n jvm heap (if (genericDecisions n).mallocs e then m + 1 else m) objects := by
  constructor
  · rintro ⟨_ | ⟨e', pre⟩, e'', post, heq, hnull, hpasses⟩
    · obtain ⟨rfl, -⟩ := List.cons.inj heq
      exact .inl hnull
    · obtain ⟨rfl, rfl⟩ := List.cons.inj heq
      rw [verdict] at hpasses
      split at hpasses
      · next hfate => exact .inr ⟨hfate, pre, e'', post, rfl, hnull, hpasses⟩
      · next hne => exact absurd hpasses hne
  · rintro (hnull | ⟨hfate, pre, e'', post, rfl, hnull, hpasses⟩)
    · exact ⟨[], e, objects, rfl, hnull, rfl⟩
    · exact ⟨e :: pre, e'', post, rfl, hnull, by rw [verdict, hfate]; exact hpasses⟩

/-- **A null that is reached** ends the loop of the generic path. -/
theorem verdict_of_reachesNull {m : ℕ} (h : ∀ e ∈ objects, Readable n e)
    (hnull : ReachesNull n jvm heap m objects) :
    verdict (genericDecisions n) jvm heap m objects = .throws := by
  induction objects generalizing m with
  | nil =>
    obtain ⟨pre, e, post, heq, -⟩ := hnull
    exact absurd heq (by simp)
  | cons e objects ih =>
    rw [verdict]
    rcases reachesNull_cons.mp hnull with hnull | ⟨hfate, hnull⟩
    · rw [fate_null (h e (List.mem_cons_self ..)) hnull]
    · rw [hfate]
      exact ih (fun e' he' => h e' (List.mem_cons_of_mem e he')) hnull

/-- Where no null array is reached, both loops come to the same verdict on the objects. -/
theorem verdict_eq {m : ℕ} (h : ∀ e ∈ objects, Readable n e)
    (hnull : ¬ReachesNull n jvm heap m objects) :
    verdict (fastDecisions n) jvm heap m objects =
      verdict (genericDecisions n) jvm heap m objects := by
  induction objects generalizing m with
  | nil => rfl
  | cons e objects ih =>
    rw [reachesNull_cons, not_or, not_and] at hnull
    have hread := h e (List.mem_cons_self ..)
    rw [verdict, verdict, fate_eq hread hnull.1, mallocs_eq hread]
    cases hfate : (genericDecisions n).fate heap (jvm.mallocFails m) e with
    | passes => exact ih (fun e' he' => h e' (List.mem_cons_of_mem e he')) (hnull.2 hfate)
    | _ => rfl

theorem pinnedOf_eq (h : ∀ e ∈ objects, Readable n e) :
    (fastDecisions n).pinnedOf objects = (genericDecisions n).pinnedOf objects := by
  rw [Decisions.pinnedOf, Decisions.pinnedOf, List.filter_congr fun e he => pins_eq (h e he)]

/-- **A call** has one fate on both paths, unless they come to a null that only one looks for. -/
theorem callFate_eq (h : ∀ e ∈ objects, Readable n e)
    (hnull : ¬ReachesNull n jvm s.arrays s.mallocs objects) :
    callFate (fastDecisions n) jvm s objects = callFate (genericDecisions n) jvm s objects := by
  rw [callFate, callFate, verdict_eq h hnull, pinnedOf_eq h]

theorem callFate_of_reachesNull (h : ∀ e ∈ objects, Readable n e)
    (hnull : ReachesNull n jvm s.arrays s.mallocs objects) :
    callFate (genericDecisions n) jvm s objects = .throws := by
  rw [callFate, verdict_of_reachesNull h hnull]

/-- When all the objects are there, no null array is ever reached. -/
theorem not_reachesNull {m : ℕ} (h : ∀ e ∈ objects, e.object ≠ none) :
    ¬ReachesNull n jvm heap m objects := by
  rintro ⟨pre, e, post, rfl, hnull, -⟩
  exact h e (List.mem_append_right pre (List.mem_cons_self ..)) hnull.1

end Decisions

/-! ### Local variables -/

/-- The local variables of the fast path and those of the generic one, after the pasts `L` and `L'`:
the same arrays and the same state, and values that are related by `P`, parameter by parameter.
Nothing is known of the parameters `A`, to which a pointer is still to be passed. -/
structure Mirrors (pf : Platform) (ctx : NativeCallContext) (P : ℕ → List Cell → List Cell → Prop)
    (A : List ℕ) (L L' : List Event) (l : FastLoop) (l' : ObjectLoop) : Prop where
  arrays_eq : l'.arrays = l.arrays
  pinned_eq : l'.pinned = l.pinned
  native : ∃ u : Native, l.native = u.onLog L ∧ l'.native = u.onLog L'
  count : l.v.length = ctx.cif.argTypes.length
  wide : ∀ v ∈ l.v, v.length = slotSize
  inSlots : l'.frame.InSlots ctx.cif.argTypes.length
  pins : ∀ p ∈ l.pinned, ctx.cif.argTypes[descriptorIndex p.type]? = some .pointer ∧
    ∀ x, P (descriptorIndex p.type) x x
  values : ∀ (i : ℕ) t v xs, i ∉ A → ctx.cif.argTypes[i]? = some t → l.v[i]? = some v →
    slice l'.frame.tmpBuffer (i * slotSize) (t.valueSize pf) = some xs →
      P i (v.take (t.valueSize pf)) (pf.nativeOrder.arrange xs)

variable {P : ℕ → List Cell → List Cell → Prop} {A : List ℕ} {L L' : List Event} {l : FastLoop}
  {l' : ObjectLoop}

theorem length_p2j (pf : Platform) (ptr : Ptr) : (p2j pf ptr).length = slotSize := by
  have hptr := pf.ptrSize_le
  rw [p2j, List.length_append, Ptr.length_digits, List.length_replicate, slotSize]
  omega

theorem take_p2j (pf : Platform) (ptr : Ptr) : (p2j pf ptr).take pf.ptrSize = ptr.digits pf := by
  rw [p2j, List.take_append_of_le_length (Nat.le_of_eq (Ptr.length_digits pf ptr).symm),
    List.take_of_length_le (Nat.le_of_eq (Ptr.length_digits pf ptr))]

/-- When the same pointer is passed for a parameter on both paths, the two loops go on side by side.
-/
theorem Mirrors.pass {idx : ℕ} (h : Mirrors pf ctx P (idx :: A) L L' l l') (hscalar : ctx.Scalar pf)
    (ht : ctx.cif.argTypes[idx]? = some .pointer) (hP : ∀ x, P idx x x) (ptr : Ptr) :
    Alongside (Mirrors pf ctx P A L L') (some (.next (l.pass pf idx ptr)))
      (setArg pf ctx idx ptr l') := by
  obtain ⟨tmpBuffer, htmp, hset, hslots⟩ := setArg_scalar pf l' ht h.inSlots ptr
  rw [hset]
  refine .next ⟨h.arrays_eq, h.pinned_eq, h.native, ?_, ?_, hslots, h.pins, ?_⟩
  · rw [FastLoop.pass, List.length_set]
    exact h.count
  · intro v hv
    rcases List.mem_or_eq_of_mem_set hv with hv | rfl
    · exact h.wide v hv
    · exact length_p2j pf ptr
  · intro i t v xs hA hi hv hxs
    by_cases hidx : idx = i
    · obtain rfl := hidx
      obtain rfl := Option.some.inj (ht.symm.trans hi)
      have hlt : idx < l.v.length := h.count ▸ (List.getElem?_eq_some_iff.mp ht).1
      obtain rfl : p2j pf ptr = v := by
        rw [FastLoop.pass, List.getElem?_set_self hlt] at hv
        exact Option.some.inj hv
      have hself := slice_splice_self htmp
      rw [Ptr.length_image] at hself
      obtain rfl : ptr.image pf = xs := Option.some.inj (hself.symm.trans hxs)
      change P idx ((p2j pf ptr).take pf.ptrSize) _
      rw [take_p2j, Ptr.image, ByteOrder.arrange_arrange]
      exact hP _
    · rw [FastLoop.pass, List.getElem?_set_ne hidx] at hv
      have hsize := (hscalar t (List.mem_of_getElem? hi)).2
      have hptr := pf.ptrSize_le
      have hA' : i ∉ idx :: A := List.not_mem_cons_of_ne_of_not_mem (Ne.symm hidx) hA
      refine h.values i t v xs hA' hi hv ?_
      rw [← hxs]
      refine (slice_splice_disjoint htmp ?_).symm
      rw [Ptr.length_image]
      simp only [slotSize] at hsize ⊢
      omega

theorem Mirrors.withNative (h : Mirrors pf ctx P A L L' l l') (u : Native) :
    Mirrors pf ctx P A L L' { l with native := u.onLog L } { l' with native := u.onLog L' } :=
  ⟨h.arrays_eq, h.pinned_eq, ⟨u, rfl, rfl⟩, h.count, h.wide, h.inSlots, h.pins, h.values⟩

theorem Mirrors.withArray (h : Mirrors pf ctx P A L L' l l') (a : NativeArray) :
    Mirrors pf ctx P A L L' { l with arrays := l.arrays ++ [a] }
      { l' with arrays := l'.arrays ++ [a] } :=
  ⟨congrArg (· ++ [a]) h.arrays_eq, h.pinned_eq, h.native, h.count, h.wide, h.inSlots,
  h.pins, h.values⟩

theorem Mirrors.withPinned (h : Mirrors pf ctx P A L L' l l') (p : Pinned)
    (hp : ctx.cif.argTypes[descriptorIndex p.type]? = some .pointer ∧
      ∀ x, P (descriptorIndex p.type) x x) :
    Mirrors pf ctx P A L L' { l with pinned := l.pinned ++ [p] }
      { l' with pinned := l'.pinned ++ [p] } := by
  refine ⟨h.arrays_eq, congrArg (· ++ [p]) h.pinned_eq, h.native, h.count, h.wide, h.inSlots, ?_,
    h.values⟩
  intro q hq
  rcases List.mem_append.mp hq with hq | hq
  · exact h.pins q hq
  · obtain rfl := List.mem_singleton.mp hq
    exact hp

/-- A parameter that has been passed may wait to be passed once more. -/
theorem Mirrors.await (h : Mirrors pf ctx P A L L' l l') (idx : ℕ) :
    Mirrors pf ctx P (idx :: A) L L' l l' :=
  ⟨h.arrays_eq, h.pinned_eq, h.native, h.count, h.wide, h.inSlots, h.pins,
    fun i t v xs hi => h.values i t v xs fun hA => hi (List.mem_cons_of_mem idx hA)⟩

/-- When both paths acquire the same array for a parameter, the two loops go on side by side. -/
theorem Mirrors.addArray {idx : ℕ} (h : Mirrors pf ctx P (idx :: A) L L' l l')
    (hscalar : ctx.Scalar pf) (ht : ctx.cif.argTypes[idx]? = some .pointer) (hP : ∀ x, P idx x x)
    (acquired : Option NativeArray × Native) :
    Alongside (Mirrors pf ctx P A L L') (some (l.addArray pf idx (withLog L acquired)))
      (Jffi.addArray pf ctx idx l' (withLog L' acquired)) := by
  obtain ⟨_ | a, s⟩ := acquired
  · exact .cleanup _ _
  · exact ((h.withArray a).withNative s).pass hscalar ht hP a.elems

/-! ### A round -/

/-- The rounds for an array on both paths acquire the same array, or fail in the same way. -/
theorem alongside_arrayStep (h : Mirrors pf ctx P (descriptorIndex e.flags :: A) L L' l l')
    (hscalar : ctx.Scalar pf) (he : Resolvable ctx e) (harray : isArray e.flags = true)
    (hP : ∀ x, P (descriptorIndex e.flags) x x) :
    Alongside (Mirrors pf ctx P A L L') (addObj pf jvm ctx.cif.argTypes.length e l)
      (arrayStep pf jvm ctx e l') := by
  obtain ⟨o, ho⟩ := Option.ne_none_iff_exists'.mp he.object_ne
  obtain ⟨u, hu, hu'⟩ := h.native
  obtain ⟨hpinned, hunpinned⟩ := isPinnedArray_eq harray
  have hidx : ¬ctx.cif.argTypes.length - 1 < descriptorIndex e.flags := by
    have := (List.getElem?_eq_some_iff.mp he.type).1
    omega
  simp only [addObj, arrayStep, objectToPtr, ho, if_neg hidx, harray, hunpinned, hpinned, if_true]
  cases hpin : isPinned e.flags with
  | true =>
    simp only [Bool.not_true, Bool.false_eq_true, false_and, if_true, if_false]
    exact (h.withPinned ⟨some o, e.offset.toInt, e.length.toInt, e.flags⟩ ⟨he.type, hP⟩).pass
      hscalar
      he.type hP (.addr 0)
  | false =>
    simp only [Bool.not_false, true_and, Bool.false_eq_true, if_false]
    by_cases hshort : e.length.toInt < MAX_STACK_ARRAY
    · rw [if_pos hshort, if_pos hshort, hu, hu', alloca_onLog, alloca_onLog]
      cases u.alloca (arraySize (e.length.toInt + 1) e.flags) with
      | none => exact .undefined
      | some r =>
        simp only [Option.map_some, withLog, Option.bind_eq_bind, Option.bind_some]
        rw [getArrayBuffer_onLog, getArrayBuffer_onLog]
        cases getArrayBuffer pf (some o) e.offset.toInt e.length.toInt e.flags r.1 r.2 with
        | none => exact .undefined
        | some acquired => exact h.addArray hscalar he.type hP acquired
    · rw [if_neg hshort, if_neg hshort, hu, hu', getArrayHeap_onLog, getArrayHeap_onLog]
      cases getArrayHeap pf jvm (some o) e.offset.toInt e.length.toInt e.flags u with
      | none => exact .undefined
      | some acquired => exact h.addArray hscalar he.type hP acquired

/-- The rounds for an `nio` buffer on both paths pass the same pointer, or fail in the same way. -/
theorem alongside_bufferStep (h : Mirrors pf ctx P (descriptorIndex e.flags :: A) L L' l l')
    (hscalar : ctx.Scalar pf) (he : Resolvable ctx e) (hbuffer : isBuffer e.flags = true)
    (hP : ∀ x, P (descriptorIndex e.flags) x x) :
    Alongside (Mirrors pf ctx P A L L') (addObj pf jvm ctx.cif.argTypes.length e l)
      (bufferStep pf ctx e l') := by
  obtain ⟨o, ho⟩ := Option.ne_none_iff_exists'.mp he.object_ne
  obtain ⟨u, hu, hu'⟩ := h.native
  obtain ⟨hpinned, hunpinned, harray⟩ := not_isPinnedArray (beq_iff_eq.mp hbuffer) (by decide)
  have hidx : ¬ctx.cif.argTypes.length - 1 < descriptorIndex e.flags := by
    have := (List.getElem?_eq_some_iff.mp he.type).1
    omega
  simp only [addObj, bufferStep, objectToPtr, ho, if_neg hidx, harray, hunpinned, hpinned, hbuffer,
    Bool.false_eq_true, false_and, if_true, if_false, hu, hu', getDirectBufferAddress_onLog]
  cases u.getDirectBufferAddress (some o) with
  | none => exact .undefined
  | some r =>
    simp only [Option.map_some, withLog, Option.bind_eq_bind, Option.bind_some]
    by_cases hnull : r.1 = .addr 0
    · rw [if_pos hnull, if_pos hnull]
      exact .cleanup _ _
    · rw [if_neg hnull, if_neg hnull]
      exact (h.withNative r.2).pass hscalar he.type hP (r.1.add pf e.offset.toInt)

/-- The rounds for an object that both paths can resolve go side by side. -/
theorem alongside_objectStep (h : Mirrors pf ctx P (descriptorIndex e.flags :: A) L L' l l')
    (hscalar : ctx.Scalar pf) (he : Resolvable ctx e) (hP : ∀ x, P (descriptorIndex e.flags) x x) :
    Alongside (Mirrors pf ctx P A L L') (addObj pf jvm ctx.cif.argTypes.length e l)
      (objectStep pf jvm ctx e l') := by
  rw [objectStep]
  rcases he.kind with hkind | hkind
  · rw [hkind]
    exact alongside_arrayStep h hscalar he (beq_iff_eq.mpr ((kind_eq e.flags).1 hkind)) hP
  · rw [hkind]
    exact alongside_bufferStep h hscalar he (beq_iff_eq.mpr ((kind_eq e.flags).2.1 hkind)) hP

/-- The rounds of the pinning loops on both paths pin the same array, or fail in the same way. -/
theorem alongside_pinStep {p : Pinned} (h : Mirrors pf ctx P [] L L' l l') (hscalar : ctx.Scalar pf)
    (ht : ctx.cif.argTypes[descriptorIndex p.type]? = some .pointer)
    (hP : ∀ x, P (descriptorIndex p.type) x x) :
    Alongside (Mirrors pf ctx P [] L L') (pinArray pf jvm p l) (pinStep pf jvm ctx p l') := by
  obtain ⟨u, hu, hu'⟩ := h.native
  rw [pinArray, pinStep, hu, hu', getArrayCritical_onLog, getArrayCritical_onLog]
  cases getArrayCritical pf jvm p.object p.offset p.length p.type u with
  | none => exact .undefined
  | some r =>
    obtain ⟨_ | ⟨ptr, a⟩, s⟩ := r
    · exact .cleanup _ _
    · simp only [Option.map_some, withLog, Option.bind_eq_bind, Option.bind_some]
      have hpass := ((h.await (descriptorIndex p.type)).withNative s).pass hscalar ht hP ptr
      change Alongside _ _ (Option.bind (setArg pf ctx (descriptorIndex p.type) ptr
        { l' with native := s.onLog L' }) _)
      revert hpass
      generalize setArg pf ctx (descriptorIndex p.type) ptr { l' with native := s.onLog L' } = f
      intro hpass
      cases hpass with
      | next hmirrors => exact .next (hmirrors.withArray a)

/-! ### Both loops -/

section Loops

variable {d : Decisions} {objects : List ObjectEntry} {s : Native} {bs : List Byte}
  {vals : List (List Cell)}

/-- Where all objects pass, each of them does, for some answer of `malloc`. -/
theorem passes_of_verdict {heap : List JavaArray} {m : ℕ}
    (h : verdict d jvm heap m objects = .passes) :
    ∀ e ∈ objects, ∃ fails, d.fate heap fails e = .passes := by
  induction objects generalizing m with
  | nil => exact fun e he => absurd he List.not_mem_nil
  | cons e objects ih =>
    rw [verdict] at h
    split at h
    · rename_i hfate
      intro e' he'
      rcases List.mem_cons.mp he' with rfl | he'
      · exact ⟨_, hfate⟩
      · exact ih h e' he'
    · rename_i hne
      exact absurd h hne

theorem verdict_of_callFate (h : callFate d jvm s objects = .passes) :
    verdict d jvm s.arrays s.mallocs objects = .passes := by
  rw [callFate] at h
  split at h
  · assumption
  · rename_i hne
    exact absurd h hne

/-- The fast entry points do not know of JNI parameters, so that none of these passes. -/
theorem fastFate_jni {n : ℕ} {heap : List JavaArray} {fails : Bool}
    (h : e.flags &&& TYPE_MASK &&& ~~~PRIM_MASK = JNI) :
    (fastDecisions n).fate heap fails e ≠ .passes := by
  obtain ⟨hpinned, hunpinned, harray⟩ := not_isPinnedArray h (by decide)
  have hbuffer : isBuffer e.flags = false := by
    rw [isBuffer, h]
    rfl
  simp only [fastDecisions, hpinned, hunpinned, harray, hbuffer, Bool.false_eq_true, false_and,
    if_false]
  split
  · intro hpasses
    cases hpasses
  · cases e.object with
    | none =>
      intro hpasses
      cases hpasses
    | some o =>
      intro hpasses
      cases hpasses

/-- An object that passes on both paths is there, and of a kind both handle. -/
theorem resolvable_of_passes {n : ℕ} {heap : List JavaArray} {fails fails' : Bool}
    (hgeneric : (genericDecisions n).fate heap fails e = .passes)
    (hfast : (fastDecisions n).fate heap fails' e = .passes)
    (ht : ctx.cif.argTypes[descriptorIndex e.flags]? = some .pointer) : Resolvable ctx e := by
  simp only [genericDecisions] at hgeneric
  cases hkind : decodeKind e.flags with
  | array =>
    rw [hkind] at hgeneric
    refine ⟨fun hnone => ?_, .inl hkind, ht⟩
    rw [arrayFate, hnone] at hgeneric
    cases hgeneric
  | buffer =>
    rw [hkind] at hgeneric
    refine ⟨fun hnone => ?_, .inr hkind, ht⟩
    rw [bufferFate, hnone] at hgeneric
    cases hgeneric
  | unsupported =>
    rw [hkind] at hgeneric
    cases hgeneric
  | jniEnvironment => exact absurd hfast (fastFate_jni ((kind_eq e.flags).2.2 (.inl hkind)))
  | jniObject => exact absurd hfast (fastFate_jni ((kind_eq e.flags).2.2 (.inr hkind)))

/-- Before its loops the generic path reads the parameter buffer, and that is all. -/
theorem newFrame_eq (hscalar : ctx.Scalar pf)
    (hbs : bs.length = ctx.cif.argTypes.length * slotSize) :
    ∃ frame s', newFrame pf ctx bs s = some (frame, s') ∧
      frame.InSlots ctx.cif.argTypes.length ∧ frame.tmpBuffer = bs.map .byte ∧
      s' = { s with log := s'.log } := by
  obtain ⟨frame, s', hframe, hslots, htmp, hkeep, hblocks⟩ := newFrame_scalar hscalar s hbs
  obtain ⟨frame', s'', hframe', -, -, -, hmallocs, hpins⟩ := newFrame_follows pf ctx s hbs
  obtain ⟨rfl, rfl⟩ := Prod.mk.inj (Option.some.inj (hframe.symm.trans hframe'))
  refine ⟨frame, s', hframe, hslots, htmp, ?_⟩
  have hmemory := toMemory_eq hkeep hblocks
  obtain ⟨m, pending, mallocs, pins, lastError, log⟩ := s
  obtain ⟨m', pending', mallocs', pins', lastError', log'⟩ := s'
  cases hmemory
  cases hmallocs
  cases hpins
  cases hkeep.pending_eq
  cases hkeep.lastError_eq
  rfl

/-- The parameters that objects are for. -/
def indices (objects : List ObjectEntry) : List ℕ := objects.map fun e => descriptorIndex e.flags

/-- The values before the loops of the parameters no object is for. -/
def Starts (pf : Platform) (ctx : NativeCallContext) (P : ℕ → List Cell → List Cell → Prop)
    (objects : List ObjectEntry) (vals : List (List Cell)) (bs : List Byte) : Prop :=
  ∀ (i : ℕ) t v xs, i ∉ indices objects → ctx.cif.argTypes[i]? = some t → vals[i]? = some v →
    slice (bs.map Cell.byte) (i * slotSize) (t.valueSize pf) = some xs →
      P i (v.take (t.valueSize pf)) (pf.nativeOrder.arrange xs)

/-- Both loops of the fast path and of the generic path go side by side, over all the objects. -/
theorem alongside_resolve (hscalar : ctx.Scalar pf) (he : ∀ e ∈ objects, Resolvable ctx e)
    (hP : ∀ e ∈ objects, ∀ x, P (descriptorIndex e.flags) x x)
    (h : Mirrors pf ctx P (indices objects) L L' l l') :
    Alongside (Mirrors pf ctx P [] L L') (resolveFast pf jvm ctx.cif.argTypes.length objects l)
      (resolveObjects pf jvm ctx objects l') := by
  have hround : ∀ e ∈ objects, ∀ rest l l', Mirrors pf ctx P (indices (e :: rest)) L L' l l' →
      Alongside (Mirrors pf ctx P (indices rest) L L')
        (addObj pf jvm ctx.cif.argTypes.length e l) (objectStep pf jvm ctx e l') := by
    intro e hmem rest l l' h
    rw [indices, List.map_cons] at h
    exact alongside_objectStep h hscalar (he e hmem) (hP e hmem)
  have hloop : Alongside (Mirrors pf ctx P (indices []) L L')
      (loopM (addObj pf jvm ctx.cif.argTypes.length) objects l)
      (loopM (objectStep pf jvm ctx) objects l') :=
    @Alongside.loopM _ _ _ _ _ (fun rest => Mirrors pf ctx P (indices rest) L L')
    objects hround _ _ h
  rw [resolveFast, resolveObjects]
  revert hloop
  generalize loopM (addObj pf jvm ctx.cif.argTypes.length) objects l = f
  generalize loopM (objectStep pf jvm ctx) objects l' = g
  intro hloop
  cases hloop with
  | undefined => exact .undefined
  | cleanup l l' => exact .cleanup l l'
  | @next l l' h =>
    have hpin : ∀ p ∈ l.pinned, ∀ (_ : List Pinned) (k : FastLoop) (k' : ObjectLoop),
        Mirrors pf ctx P [] L L' k k' →
          Alongside (Mirrors pf ctx P [] L L') (pinArray pf jvm p k) (pinStep pf jvm ctx p k') := by
      intro p hp _ k k' hk
      exact alongside_pinStep hk hscalar (h.pins p hp).1 (h.pins p hp).2
    change Alongside _ (loopM (pinArray pf jvm) l.pinned l)
      (loopM (pinStep pf jvm ctx) l'.pinned l')
    rw [h.pinned_eq]
    exact @Alongside.loopM _ _ _ _ _ (fun _ => Mirrors pf ctx P [] L L') l.pinned hpin _ _ h

/-- Where all objects pass, everything before the call leaves both paths with related arguments,
arrays and memory. -/
theorem mirrors_of_passes (hscalar : ctx.Scalar pf)
    (hbs : bs.length = ctx.cif.argTypes.length * slotSize)
    (hcount : vals.length = ctx.cif.argTypes.length) (hwide : ∀ v ∈ vals, v.length = slotSize)
    (hstarts : Starts pf ctx P objects vals bs)
    (htypes : ∀ e ∈ objects, ctx.cif.argTypes[descriptorIndex e.flags]? = some .pointer)
    (hP : ∀ e ∈ objects, ∀ x, P (descriptorIndex e.flags) x x) (hpending : s.pending = none)
    (hgeneric : callFate (genericDecisions ctx.cif.argTypes.length) jvm s objects = .passes)
    (hfast : callFate (fastDecisions ctx.cif.argTypes.length) jvm s objects = .passes) :
    ∃ L L' l l', resolveFast pf jvm ctx.cif.argTypes.length objects ⟨vals, [], [], s⟩ =
        some (.next l) ∧
      prepareCall pf jvm ctx bs objects s = some (.next l') ∧ Mirrors pf ctx P [] L L' l l' := by
  obtain ⟨frame, s', hframe, hslots, htmp, hs'⟩ := @newFrame_eq pf ctx s bs hscalar hbs
  have hpasses := passes_of_verdict (verdict_of_callFate hgeneric)
  have hpasses' := passes_of_verdict (verdict_of_callFate hfast)
  have hresolvable : ∀ e ∈ objects, Resolvable ctx e := by
    intro e he
    obtain ⟨fails, hfate⟩ := hpasses e he
    obtain ⟨fails', hfate'⟩ := hpasses' e he
    exact resolvable_of_passes hfate hfate' (htypes e he)
  have hstart : Mirrors pf ctx P (indices objects) s.log s'.log ⟨vals, [], [], s⟩
      ⟨frame, [], [], s'⟩ := by
    refine ⟨rfl, rfl, ⟨{ s with log := [] }, (onLog_self s).symm, ?_⟩, hcount, hwide, hslots,
      fun p hp => absurd hp List.not_mem_nil, ?_⟩
    · change s' = { s with log := s'.log ++ [] }
      rw [List.append_nil]
      exact hs'
    · rw [htmp]
      exact hstarts
  have hboth := @alongside_resolve pf jvm ctx P _ _ _ _ objects hscalar hresolvable hP hstart
  have hprepare : prepareCall pf jvm ctx bs objects s =
      resolveObjects pf jvm ctx objects ⟨frame, [], [], s'⟩ := by
    rw [prepareCall, hframe]
    rfl
  have hfollows := @resolveFast_follows jvm s objects pf ctx.cif.argTypes.length vals hpending
  rw [hfast] at hfollows
  obtain ⟨l, copies, pinned, ho, -⟩ := hfollows
  rw [ho] at hboth
  rw [hprepare]
  revert hboth
  generalize resolveObjects pf jvm ctx objects ⟨frame, [], [], s'⟩ = g
  intro hboth
  cases hboth with
  | next h => exact ⟨_, _, l, _, ho, rfl, h⟩

end Loops

end Jffi
