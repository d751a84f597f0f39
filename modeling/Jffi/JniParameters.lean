import Jffi.Exceptions
import Jffi.Marshalling

/-!
# JNI parameters

`putJNIEnvironment` and `putJNIObject` pack `JNI | JNIENV` and `JNI | JNIOBJECT` into the type bits
of a descriptor. The native code compares all of the type bits with `JNIENV` and `JNIOBJECT`, which
lack the bit of `JNI`, so no descriptor reaches either of its cases.

## Main definitions

* `JniReaches` — what putting a JNI parameter is for

## Main results

* `decodeKind_makeJNIFlags` — the descriptor of a JNI parameter is of no known kind
* `not_called_of_jni` — a buffer that holds one is never passed to the callee
* `jniReaches_iff` — all is well exactly where there are none
-/

namespace Jffi

open ObjectBuffer HeapInvocationBuffer

variable {pf : Platform} {jvm : Jvm} {ctx : CallContext pf} {ld : LongDoubles pf}
  {heap heap' : List JavaArray} {ps : List Put} {b : HeapInvocationBuffer pf}

/-! ### Descriptors -/

/-- **The descriptor of a JNI parameter** is of no kind the native code knows. -/
theorem decodeKind_makeJNIFlags (i : BitVec 32) {type : BitVec 32}
    (htype : type = JNIENV ∨ type = JNIOBJECT) :
    decodeKind (makeJNIFlags i type) = .unsupported := by
  have hmask : makeJNIFlags i type &&& TYPE_MASK = (JNI ||| type) &&& TYPE_MASK := by
    rw [makeJNIFlags_eq, makeObjectFlags_and_type _ _ (by decide) (by decide)]
  rw [decodeKind, hmask]
  rcases htype with rfl | rfl <;> decide

/-- The kind of a JNI parameter and the pointer the callee is to receive for it. -/
def Put.jni? : Put → Option (ObjectKind × Ptr)
  | .jniEnvironment => some (.jniEnvironment, .env)
  | .jniObject o => some (.jniObject, handleOf o)
  | _ => none

/-- The same puts, with a null address for each JNI parameter. -/
def Put.withoutJni (p : Put) : Put := if p.jni?.isSome then .address 0 else p

theorem Put.kind_of_jni {p : Put} {kind : ObjectKind} {ptr : Ptr} (h : p.jni? = some (kind, ptr)) :
    kind = .jniEnvironment ∨ kind = .jniObject := by
  cases p <;> cases h
  · exact .inl rfl
  · exact .inr rfl

/-- The entry that a put of a JNI parameter makes has a descriptor of no kind that the native code
knows. -/
theorem Put.entry_of_jni (ctx : CallContext pf) (ld : LongDoubles pf) {p : Put}
    {kind : ObjectKind} {ptr : Ptr} (h : p.jni? = some (kind, ptr)) (i n : ℕ) :
    ∃ e, p.entry ctx ld i n = some e ∧ decodeKind e.flags = .unsupported := by
  cases p <;> cases h
  · exact ⟨_, rfl, decodeKind_makeJNIFlags _ (.inl rfl)⟩
  · exact ⟨_, rfl, decodeKind_makeJNIFlags _ (.inr rfl)⟩

/-- The entries of all other puts are of a known kind. -/
theorem Put.decodeKind_of_entry {p : Put} {e : ObjectEntry} {i n : ℕ} (hp : p.jni? = none)
    (h : p.entry ctx ld i n = some e) : decodeKind e.flags ≠ .unsupported := by
  have harray : ∀ t flags, decodeKind (Put.arrayFlags t flags i) ≠ .unsupported := by
    intro t flags
    rw [decodeKind_arrayFlags]
    decide
  cases p with
  | longDouble v => cases h; exact harray _ _
  | bigDecimal v => cases h; exact harray _ _
  | array t a offset length flags => cases h; exact harray _ _
  | directBuffer v offset length =>
    cases h
    rw [decodeKind_makeBufferFlags]
    decide
  | struct v offset =>
    obtain ⟨type, -, rfl⟩ := Option.map_eq_some_iff.mp h
    exact harray _ _
  | jniEnvironment => cases hp
  | jniObject o => cases hp
  | _ => cases h

theorem mem_putEntries {e : ObjectEntry} {i n : ℕ} (h : e ∈ putEntries ctx ld i n ps) :
    ∃ p ∈ ps, ∃ i' n', p.entry ctx ld i' n' = some e := by
  induction ps generalizing i n with
  | nil => cases h
  | cons p ps ih =>
    rw [putEntries, List.mem_append, Option.mem_toList] at h
    rcases h with h | h
    · exact ⟨p, List.mem_cons_self .., i, n, h⟩
    · obtain ⟨q, hq, hentry⟩ := ih h
      exact ⟨q, List.mem_cons_of_mem p hq, hentry⟩

theorem entry_mem_putEntries (ctx : CallContext pf) (ld : LongDoubles pf) {p : Put} (hp : p ∈ ps)
    (i n : ℕ) :
    ∃ i' n', ∀ e, p.entry ctx ld i' n' = some e → e ∈ putEntries ctx ld i n ps := by
  induction ps generalizing i n with
  | nil => cases hp
  | cons q ps ih =>
    rcases List.mem_cons.mp hp with rfl | hp
    · refine ⟨i, n, fun e he => ?_⟩
      rw [putEntries, he]
      exact List.mem_append_left _ (List.mem_singleton_self e)
    · obtain ⟨i', n', hmem⟩ := ih hp (i + 1) (n + (q.allocs ld).length)
      exact ⟨i', n', fun e he => List.mem_append_right _ (hmem e he)⟩

/-! ### What becomes of the call -/

/-- A round over an object of no known kind throws that its type is not supported. -/
theorem objectStep_unsupported {native : NativeCallContext} {e : ObjectEntry}
    (h : decodeKind e.flags = .unsupported) (l : ObjectLoop) :
    objectStep pf jvm native e l = l.throw (.unsupportedObjectType (e.flags &&& TYPE_MASK)) := by
  rw [objectStep, h]

/-- An invocation with an object of no known kind makes no call. -/
theorem not_called_of_unsupported {native : NativeCallContext} {callee : Callee} {bs : List Byte}
    {objects : List ObjectEntry} {retval : List Cell} {s : Native} {o : Outcome} {e : ObjectEntry}
    (he : e ∈ objects) (hkind : decodeKind e.flags = .unsupported)
    (h : invokeArrayWithObjects_ pf jvm native callee bs objects retval s = some o) :
    o.called = none := by
  obtain ⟨flow, hprepare, h⟩ := Option.bind_eq_some_iff.mp h
  obtain ⟨⟨frame, s₁⟩, -, hresolve⟩ := Option.bind_eq_some_iff.mp hprepare
  obtain ⟨flow', hloop, hresolve⟩ := Option.bind_eq_some_iff.mp hresolve
  have hstep : ∀ x y, objectStep pf jvm native e x ≠ some (.next y) := by
    intro x y
    rw [objectStep_unsupported hkind]
    intro hthrow
    cases hthrow
  obtain ⟨l, rfl⟩ := loopM_cleanup he hstep hloop
  cases hresolve
  obtain ⟨s₂, -, h⟩ := Option.bind_eq_some_iff.mp h
  cases h
  rfl

/-- **A buffer with a JNI parameter** is never passed to the callee, whatever else it holds. -/
theorem not_called_of_jni {callee : Callee} {retval : List Cell} {s : Native} {o : Outcome}
    {p : Put} {kind : ObjectKind} {ptr : Ptr} (hfilled : Filled ctx ld heap ps b heap')
    (hp : p ∈ ps) (hjni : p.jni? = some (kind, ptr))
    (h : invokeHeapBuffer jvm callee b retval s = some o) : o.called = none := by
  obtain ⟨i, n, hmem⟩ := entry_mem_putEntries ctx ld hp 0 heap.length
  obtain ⟨e, hentry, hkind⟩ := Put.entry_of_jni ctx ld hjni i n
  rw [invokeHeapBuffer_filled hfilled] at h
  exact not_called_of_unsupported (hmem e hentry) hkind h

/-- No call was made, and the exception is that of an unsupported object. -/
def Outcome.Rejected (o : Outcome) : Prop :=
  o.called = none ∧ ∃ t, o.native.pending = some (.unsupportedObjectType t)

/-- **A buffer without JNI parameters** is not rejected over the type of an object. -/
theorem not_rejected {callee : Callee} {retval : List Cell} {s : Native} {o : Outcome}
    (hfilled : Filled ctx ld heap ps b heap') (hps : ∀ p ∈ ps, p.jni? = none)
    (hpending : s.pending = none) (h : invokeHeapBuffer jvm callee b retval s = some o) :
    ¬ o.Rejected := by
  rintro ⟨hcalled, t, ht⟩
  rw [invokeHeapBuffer_filled hfilled] at h
  rcases raises_invoke_uncalled h hcalled with hsame | ⟨x, hx, hraised⟩
  · rw [hsame, hpending] at ht
    cases ht
  · rw [hraised, Option.some.injEq] at ht
    subst ht
    rcases hx with harray | ⟨e, he, harray | hnull | hnull | ⟨hkind, -⟩⟩
    · exact harray
    · exact harray
    · cases hnull
    · cases hnull
    · obtain ⟨p, hp, i, n, hentry⟩ := mem_putEntries he
      exact Put.decodeKind_of_entry (hps p hp) hentry hkind

/-! ### JNI parameters reach the callee -/

/-- What putting a JNI parameter is for, said of the puts `ps` on a new buffer. -/
structure JniReaches (ctx : CallContext pf) (ld : LongDoubles pf) (heap : List JavaArray)
    (ps : List Put) : Prop where
  /-- The native code decodes the descriptor of a JNI put to its kind. -/
  decoded : ∀ (k : ℕ) p kind ptr b₁ heap₁ b₂ heap₂, ps[k]? = some p → p.jni? = some (kind, ptr) →
    puts ld (ps.take k) (HeapInvocationBuffer.new ctx) heap = some (b₁, heap₁) →
    put ld p b₁ heap₁ = some (b₂, heap₂) →
    ∃ es e, b₁.objectEntries = some es ∧ b₂.objectEntries = some (es ++ [e]) ∧
      decodeKind e.flags = kind
  /-- The call is not rejected over the type of an object. -/
  called : ∀ jvm callee retval b heap' (s : Native) o,
    puts ld ps (HeapInvocationBuffer.new ctx) heap = some (b, heap') → s.arrays = heap' →
    s.pending = none → invokeHeapBuffer jvm callee b retval s = some o → ¬ o.Rejected
  /-- The callee receives a JNI parameter in its position. -/
  received : ∀ jvm callee retval b heap' (s : Native) o call,
    puts ld ps (HeapInvocationBuffer.new ctx) heap = some (b, heap') → s.arrays = heap' →
    s.pending = none → invokeHeapBuffer jvm callee b retval s = some o → o.called = some call →
    ∀ (i : ℕ) p kind ptr t, ps[i]? = some p → p.jni? = some (kind, ptr) →
      ctx.parameterTypes[i]? = some t → t.type pf = .pointer → call.args[i]? = some (ptr.digits pf)
  /-- What it receives in the other positions does not depend on the JNI parameters. -/
  others : ∀ jvm callee retval b heap' b' heap'' (s : Native) o o' call,
    puts ld ps (HeapInvocationBuffer.new ctx) heap = some (b, heap') →
    puts ld (ps.map Put.withoutJni) (HeapInvocationBuffer.new ctx) heap = some (b', heap'') →
    s.arrays = heap' → s.pending = none → invokeHeapBuffer jvm callee b retval s = some o →
    invokeHeapBuffer jvm callee b' retval s = some o' → o.called = some call →
    ∃ call', o'.called = some call' ∧
      ∀ (i : ℕ) p, ps[i]? = some p → p.jni? = none → call.args[i]? = call'.args[i]?

/-- A single JNI parameter is enough for its descriptor not to be understood. -/
theorem not_jniReaches_of_mem {p : Put} {kind : ObjectKind} {ptr : Ptr}
    (hlen : ps.length ≤ ctx.getParameterCount) (hp : p ∈ ps) (hjni : p.jni? = some (kind, ptr)) :
    ¬ JniReaches ctx ld heap ps := by
  intro h
  obtain ⟨k, hk, rfl⟩ := List.getElem_of_mem hp
  have htake : (ps.take k).length = k := by
    rw [List.length_take]
    omega
  obtain ⟨b₁, heap₁, hputs, hfilled₁⟩ := filled_puts ctx ld heap (ps.take k) (by omega)
  have hcount := ctx.parameterCount_lt
  have hlt : k < ctx.getParameterCount := by omega
  obtain ⟨b₂, heap₂, hput, hfilled₂⟩ := filled_put hfilled₁ (by omega)
    (by rw [htake]; exact Nat.lt_trans hlt hcount) ps[k]
  obtain ⟨es, e, hes, hes', hkind⟩ := h.decoded k _ kind ptr b₁ heap₁ b₂ heap₂
    (List.getElem?_eq_getElem hk) hjni hputs hput
  obtain ⟨e', hentry, hunsupported⟩ := Put.entry_of_jni ctx ld hjni
    (0 + (ps.take k).length) (heap.length + ((ps.take k).flatMap (Put.allocs ld)).length)
  have hnew := readEntries_of_stores hfilled₂.holds.stores
  rw [putEntries_concat, hentry] at hnew
  obtain rfl : es = putEntries ctx ld 0 heap.length (ps.take k) :=
    Option.some.inj (hes.symm.trans (readEntries_of_stores hfilled₁.holds.stores))
  have hsame := Option.some.inj (hes'.symm.trans hnew)
  obtain rfl : e = e' := by simpa using hsame
  rw [hunsupported] at hkind
  rcases Put.kind_of_jni hjni with rfl | rfl <;> cases hkind

theorem map_withoutJni (hps : ∀ p ∈ ps, p.jni? = none) : ps.map Put.withoutJni = ps := by
  refine (List.map_congr_left fun p hp => ?_).trans (List.map_id ps)
  rw [Put.withoutJni, hps p hp]
  rfl

/-- **JNI parameters reach the callee** exactly where there are none: a buffer filled with as many
puts as there are parameters behaves as it should if no put is of a JNI parameter. -/
theorem jniReaches_iff (ctx : CallContext pf) (ld : LongDoubles pf) (heap : List JavaArray)
    (ps : List Put) (hlen : ps.length = ctx.getParameterCount) :
    JniReaches ctx ld heap ps ↔ ∀ p ∈ ps, p.jni? = none := by
  constructor
  · intro h p hp
    by_contra hne
    obtain ⟨⟨kind, ptr⟩, hjni⟩ := Option.ne_none_iff_exists'.mp hne
    exact not_jniReaches_of_mem (Nat.le_of_eq hlen) hp hjni h
  · intro hps
    constructor
    · intro k p kind ptr b₁ heap₁ b₂ heap₂ hp hjni
      rw [hps p (List.mem_of_getElem? hp)] at hjni
      cases hjni
    · intro jvm callee retval b heap' s o hputs harrays hpending ho
      obtain ⟨b', heap'', hputs', hfilled⟩ := filled_puts ctx ld heap ps (Nat.le_of_eq hlen)
      obtain ⟨rfl, rfl⟩ : b = b' ∧ heap' = heap'' := by
        rw [hputs', Option.some.injEq, Prod.mk.injEq] at hputs
        exact ⟨hputs.1.symm, hputs.2.symm⟩
      exact not_rejected hfilled hps hpending ho
    · intro jvm callee retval b heap' s o call _ _ _ _ _ i p kind ptr t hp hjni
      rw [hps p (List.mem_of_getElem? hp)] at hjni
      cases hjni
    · intro jvm callee retval b heap' b' heap'' s o o' call hputs hputs' _ _ ho ho' hcall
      rw [map_withoutJni hps, hputs] at hputs'
      cases hputs'
      rw [ho] at ho'
      cases ho'
      exact ⟨call, hcall, fun _ _ _ _ => rfl⟩

theorem jniReaches_address :
    JniReaches onePointer (.nearest .linuxX64) [] [.address 0] ↔
      ∀ p ∈ [Put.address 0], p.jni? = none :=
  jniReaches_iff onePointer (.nearest .linuxX64) [] [.address 0] (by decide)

/-- The `JNIEnv *` of a call does not reach a function of one pointer: the call is rejected. -/
theorem not_jniReaches_environment :
    ¬ JniReaches onePointer (.nearest .linuxX64) [] [.jniEnvironment] := by
  intro h
  refine h.called .reliable (fun _ m => ⟨m, [], none, none⟩) [.undef]
    ⟨onePointer, List.replicate 8 0, some ⟨[none, none], [0x41000000, 0, 0, 0, 0, 0], 3, 1⟩, 8, 1⟩
    []
    ⟨⟨[], [], fun _ => .undef, ⟨0, 0⟩⟩, none, 0, 0, 0, []⟩ _ rfl rfl rfl rfl ⟨rfl, 0x41000000, rfl⟩

end Jffi
