import Jffi.Invoke

/-!
# The exceptions of an invocation

Which exceptions each function can leave pending. `Raises E s s'` says that between two states
nothing but an exception of the set `E` can have become pending; every function has a lemma that
names its set, and the sets of a loop are those of its rounds.

## Main results

* `raises_releaseArrays`, `raises_objectStep`, `raises_pinStep` — the functions and the rounds
* `raises_resolveObjects` — both loops: besides what the virtual machine throws, an exception names
  the first object that cannot be passed
* `raises_invoke_uncalled` — the whole function, when it does not get to the call
-/

namespace Jffi

variable {pf : Platform} {jvm : Jvm}

/-- The exceptions that accessing a Java array can end with. -/
def Exn.OfArray : Exn → Prop
  | .arrayIndexOutOfBounds | .outOfMemory _ | .invalidHeapArrayType _ | .invalidBufferArrayType _
  | .pinFailed | .virtualMachine => True
  | _ => False

namespace Native

/-- At most an exception of `E` has become pending. -/
def Raises (E : Exn → Prop) (s s' : Native) : Prop :=
  s'.pending = s.pending ∨ ∃ e, E e ∧ s'.pending = some e

variable {E E' : Exn → Prop} {s s' s₁ s₂ s₃ : Native}

theorem Raises.refl (E : Exn → Prop) (s : Native) : Raises E s s := .inl rfl

theorem raises_of_pending (E : Exn → Prop) (h : s'.pending = s.pending) : Raises E s s' := .inl h

theorem Raises.trans (h : Raises E s₁ s₂) (h' : Raises E s₂ s₃) : Raises E s₁ s₃ := by
  rcases h' with h' | h'
  · rcases h with h | ⟨e, he, h⟩
    · exact .inl (h'.trans h)
    · exact .inr ⟨e, he, h'.trans h⟩
  · exact .inr h'

theorem Raises.mono (hE : ∀ e, E e → E' e) (h : Raises E s₁ s₂) : Raises E' s₁ s₂ := by
  rcases h with h | ⟨e, he, h⟩
  · exact .inl h
  · exact .inr ⟨e, hE e he, h⟩

theorem raises_throw {e : Exn} (he : E e) (s : Native) : Raises E s (s.throw e) :=
  .inr ⟨e, he, rfl⟩

/-! ### The functions of JNI and of the C library -/

theorem pending_store {p : Ptr} {xs : List Cell} (h : s.store p xs = some s₁) :
    s₁.pending = s.pending := by
  obtain ⟨m, -, rfl⟩ := Option.map_eq_some_iff.mp h
  rfl

theorem pending_alloca {size : ℤ} {p : Ptr} (h : s.alloca size = some (p, s₁)) :
    s₁.pending = s.pending := by
  unfold alloca at h
  split at h
  · cases h
    rfl
  · cases h

theorem pending_malloc (jvm : Jvm) (size : ℤ) (s : Native) :
    (s.malloc jvm size).2.pending = s.pending := by
  rw [malloc]
  split <;> rfl

theorem pending_free {p : Ptr} (h : s.free p = some s₁) : s₁.pending = s.pending := by
  unfold free at h
  split at h
  · cases h
    rfl
  · obtain ⟨blk, -, h⟩ := Option.bind_eq_some_iff.mp h
    split at h
    · cases h
      rfl
    · cases h
  · cases h

theorem pending_memset {p : Ptr} {size : ℤ} (h : s.memset p size = some s₁) :
    s₁.pending = s.pending := by
  unfold memset at h
  split at h
  · exact pending_store h
  · cases h

theorem raises_getArrayRegion {t : ComponentType} {o : Option Obj} {offset length : ℤ} {dst : Ptr}
    (h : s.getArrayRegion t o offset length dst = some s₁) : Raises Exn.OfArray s s₁ := by
  obtain ⟨⟨r, a⟩, -, h⟩ := Option.bind_eq_some_iff.mp h
  dsimp only at h
  split at h
  · obtain ⟨xs, -, h⟩ := Option.bind_eq_some_iff.mp h
    exact raises_of_pending _ (pending_store (s := s.logged _) h)
  · cases h
    exact .inr ⟨.arrayIndexOutOfBounds, trivial, rfl⟩

theorem raises_setArrayRegion {t : ComponentType} {o : Option Obj} {offset length : ℤ} {src : Ptr}
    (h : s.setArrayRegion t o offset length src = some s₁) : Raises Exn.OfArray s s₁ := by
  obtain ⟨⟨r, a⟩, -, h⟩ := Option.bind_eq_some_iff.mp h
  dsimp only at h
  split at h
  · obtain ⟨xs, -, h⟩ := Option.bind_eq_some_iff.mp h
    obtain ⟨cells, -, h⟩ := Option.bind_eq_some_iff.mp h
    cases h
    exact .inl rfl
  · cases h
    exact .inr ⟨.arrayIndexOutOfBounds, trivial, rfl⟩

theorem raises_getPrimitiveArrayCritical {o : Option Obj} {p : Option Ptr}
    (h : getPrimitiveArrayCritical jvm o s = some (p, s₁)) : Raises Exn.OfArray s s₁ := by
  unfold getPrimitiveArrayCritical at h
  split at h
  · obtain ⟨a, -, h⟩ := Option.bind_eq_some_iff.mp h
    split at h
    · cases h
      by_cases hthrows : jvm.pinThrows s.pins = true
      · refine .inr ⟨.virtualMachine, trivial, ?_⟩
        simp only [hthrows, if_true]
      · refine .inl ?_
        simp only [hthrows, Bool.false_eq_true, if_false]
    · cases h
      exact .inl rfl
  · cases h

theorem pending_releasePrimitiveArrayCritical {o : Option Obj}
    (h : releasePrimitiveArrayCritical o s = some s₁) : s₁.pending = s.pending := by
  unfold releasePrimitiveArrayCritical at h
  split at h
  · cases h
    rfl
  · cases h

theorem pending_getDirectBufferAddress {o : Option Obj} {p : Ptr}
    (h : getDirectBufferAddress o s = some (p, s₁)) : s₁.pending = s.pending := by
  unfold getDirectBufferAddress at h
  split at h <;> cases h <;> rfl

end Native

open Native

/-! ### `Array.c` -/

section Arrays

variable {s s' : Native}

theorem raises_copyData {t : ComponentType} {flags : BitVec 32} {obj : Option Obj}
    {offset length : ℤ} {elems : Ptr} {copied : Bool}
    (h : copyData t flags obj offset length elems s = some (copied, s')) :
    Raises Exn.OfArray s s' := by
  unfold copyData at h
  split at h
  · obtain ⟨s₁, hget, h⟩ := Option.bind_eq_some_iff.mp h
    cases h
    have hraises := raises_getArrayRegion hget
    exact hraises
  · split at h
    · obtain ⟨s₁, hset, h⟩ := Option.bind_eq_some_iff.mp h
      cases h
      exact .inl (pending_memset hset)
    · cases h
      exact .refl _ s

theorem pending_terminate {t : ComponentType} {type : BitVec 32} {elems : Ptr} {length : ℤ}
    (h : terminate pf t type elems length s = some s') : s'.pending = s.pending := by
  unfold terminate at h
  split at h
  · exact pending_store h
  · cases h
    rfl

theorem raises_fillArray {t : ComponentType} {buf : Option Obj} {offset length : ℤ}
    {type : BitVec 32} {elems : Ptr} {release : Option Release} {a : Option NativeArray}
    (h : fillArray pf t buf offset length type elems release s = some (a, s')) :
    Raises Exn.OfArray s s' := by
  obtain ⟨⟨copied, s₁⟩, hcopy, h⟩ := Option.bind_eq_some_iff.mp h
  have hraises := raises_copyData hcopy
  dsimp only at h
  split at h
  · obtain ⟨s₂, hterm, h⟩ := Option.bind_eq_some_iff.mp h
    cases h
    exact hraises.trans (.inl (pending_terminate hterm))
  · cases h
    exact hraises

theorem raises_getArrayBuffer {buf : Option Obj} {offset length : ℤ} {type : BitVec 32}
    {buffer : Ptr} {a : Option NativeArray}
    (h : getArrayBuffer pf buf offset length type buffer s = some (a, s')) :
    Raises Exn.OfArray s s' := by
  unfold getArrayBuffer at h
  split at h
  · exact raises_fillArray h
  · cases h
    exact raises_throw trivial s

theorem raises_getArrayHeap {buf : Option Obj} {offset length : ℤ} {type : BitVec 32}
    {a : Option NativeArray} (h : getArrayHeap pf jvm buf offset length type s = some (a, s')) :
    Raises Exn.OfArray s s' := by
  unfold getArrayHeap at h
  split at h
  · rename_i t _
    split at h
    · have hpending := pending_malloc jvm (toJint (t.size * (length + 1))) s
      dsimp only at h
      split at h
      · rename_i hmalloc
        rw [hmalloc] at hpending
        exact (raises_of_pending _ hpending).trans (raises_fillArray h)
      · rename_i hmalloc
        rw [hmalloc] at hpending
        cases h
        refine (raises_of_pending _ hpending).trans (raises_throw ?_ _)
        trivial
    · cases h
  · cases h
    exact raises_throw trivial s

theorem raises_getArrayCritical {buf : Option Obj} {offset length : ℤ} {type : BitVec 32}
    {a : Option (Ptr × NativeArray)}
    (h : getArrayCritical pf jvm buf offset length type s = some (a, s')) :
    Raises Exn.OfArray s s' := by
  obtain ⟨⟨elems, s₁⟩, hpin, h⟩ := Option.bind_eq_some_iff.mp h
  have hraises := raises_getPrimitiveArrayCritical hpin
  cases elems with
  | some elems =>
    cases h
    exact hraises
  | none =>
    by_cases hthrown : s₁.pending.isSome = true
    · simp only [exceptionCheck, hthrown, if_true] at h
      cases h
      exact hraises
    · simp only [exceptionCheck, hthrown] at h
      cases h
      refine hraises.trans ?_
      exact raises_throw (s := s₁.logged _) trivial

theorem raises_copyOut {a : NativeArray} (h : copyOut a s = some s') :
    Raises Exn.OfArray s s' := by
  unfold copyOut at h
  split at h
  · split at h
    · dsimp only [exceptionCheck] at h
      split at h
      · cases h
        exact raises_of_pending _ rfl
      · have hraises := raises_setArrayRegion h
        exact hraises
    · cases h
      exact .refl _ s
  · cases h
    exact .refl _ s

theorem pending_releaseElems {a : NativeArray} (h : releaseElems a s = some s') :
    s'.pending = s.pending := by
  unfold releaseElems at h
  split at h
  · exact pending_free h
  · exact pending_releasePrimitiveArrayCritical h
  · cases h
    rfl

theorem raises_releaseArray {a : NativeArray} (h : releaseArray a s = some s') :
    Raises Exn.OfArray s s' := by
  obtain ⟨s₁, hout, h⟩ := Option.bind_eq_some_iff.mp h
  exact (raises_copyOut hout).trans (raises_of_pending _ (pending_releaseElems h))

theorem raises_releaseArrays {arrays : List NativeArray} (h : releaseArrays arrays s = some s') :
    Raises Exn.OfArray s s' := by
  induction arrays generalizing s' with
  | nil =>
    cases h
    exact .refl _ s
  | cons a arrays ih =>
    obtain ⟨s₁, hrest, h⟩ := Option.bind_eq_some_iff.mp h
    exact (ih hrest).trans (raises_releaseArray h)

end Arrays

/-! ### The rounds of the loops -/

/-- The exceptions that looking at the object of an entry can end with: besides those of an array,
each names the parameter or the type of the entry. -/
def Exn.OfEntry (e : ObjectEntry) (x : Exn) : Prop :=
  x.OfArray ∨ x = .nullObject (descriptorIndex e.flags) ∨
    x = .nullDirectBuffer (descriptorIndex e.flags) ∨
    decodeKind e.flags = .unsupported ∧
      x = .unsupportedObjectType (e.flags &&& ObjectBuffer.TYPE_MASK)

section Rounds

variable {ctx : NativeCallContext} {l : ObjectLoop} {f : Flow ObjectLoop} {E : Exn → Prop}

theorem pending_setArg {idx : ℕ} {ptr : Ptr} (h : setArg pf ctx idx ptr l = some f) :
    f.state.native.pending = l.native.pending := by
  obtain ⟨type, -, h⟩ := Option.bind_eq_some_iff.mp h
  dsimp only at h
  split at h
  · split at h
    · obtain ⟨tmpBuffer, -, h⟩ := Option.bind_eq_some_iff.mp h
      cases h
      rfl
    · obtain ⟨s, hstore, h⟩ := Option.bind_eq_some_iff.mp h
      cases h
      exact pending_store hstore
    · cases h
  · cases h
    rfl

theorem raises_loopThrow {x : Exn} (hx : E x) (h : l.throw x = some f) :
    Raises E l.native f.state.native := by
  cases h
  exact raises_throw hx _

theorem raises_addArray {idx : ℕ} {acquired : Option NativeArray × Native}
    (hacquired : Raises E l.native acquired.2) (h : addArray pf ctx idx l acquired = some f) :
    Raises E l.native f.state.native := by
  unfold addArray at h
  split at h
  · exact hacquired.trans (raises_of_pending _ (pending_setArg h))
  · cases h
    exact hacquired

theorem raises_arrayStep {e : ObjectEntry} (h : arrayStep pf jvm ctx e l = some f) :
    Raises (Exn.OfEntry e) l.native f.state.native := by
  unfold arrayStep at h
  dsimp only at h
  split at h
  · exact raises_loopThrow (.inr (.inl rfl)) h
  · split at h
    · have hset := pending_setArg h
      exact raises_of_pending _ hset
    · split at h
      · obtain ⟨⟨ptr, s⟩, halloca, h⟩ := Option.bind_eq_some_iff.mp h
        obtain ⟨⟨a, s'⟩, hbuffer, h⟩ := Option.bind_eq_some_iff.mp h
        have hs : Raises Exn.OfArray l.native s := .inl (pending_alloca halloca)
        exact raises_addArray ((hs.trans (raises_getArrayBuffer hbuffer)).mono fun _ => .inl) h
      · obtain ⟨⟨a, s⟩, hheap, h⟩ := Option.bind_eq_some_iff.mp h
        exact raises_addArray ((raises_getArrayHeap hheap).mono fun _ => .inl) h

theorem raises_bufferStep {e : ObjectEntry} (h : bufferStep pf ctx e l = some f) :
    Raises (Exn.OfEntry e) l.native f.state.native := by
  unfold bufferStep at h
  dsimp only at h
  split at h
  · exact raises_loopThrow (.inr (.inl rfl)) h
  · obtain ⟨⟨ptr, s⟩, haddress, h⟩ := Option.bind_eq_some_iff.mp h
    have hs : Raises (Exn.OfEntry e) l.native s := .inl (pending_getDirectBufferAddress haddress)
    dsimp only at h
    split at h
    · exact hs.trans (raises_loopThrow (.inr (.inr (.inl rfl))) h)
    · exact hs.trans (raises_of_pending _ (pending_setArg h))

/-- A round of the object loop leaves pending what was pending before it, or an exception that its
entry gives reason for. -/
theorem raises_objectStep {e : ObjectEntry} (h : objectStep pf jvm ctx e l = some f) :
    Raises (Exn.OfEntry e) l.native f.state.native := by
  unfold objectStep at h
  split at h
  · exact raises_arrayStep h
  · exact raises_bufferStep h
  · exact raises_of_pending _ (pending_setArg h)
  · exact raises_of_pending _ (pending_setArg h)
  · rename_i hkind
    exact raises_loopThrow (.inr (.inr (.inr ⟨hkind, rfl⟩))) h

/-- A round of the pinning loop leaves pending what was pending before it, or that an array could
not be had. -/
theorem raises_pinStep {p : Pinned} (h : pinStep pf jvm ctx p l = some f) :
    Raises Exn.OfArray l.native f.state.native := by
  obtain ⟨⟨a, s⟩, hpin, h⟩ := Option.bind_eq_some_iff.mp h
  have hraises := raises_getArrayCritical hpin
  split at h
  · rename_i heq
    cases heq
    obtain ⟨flow, hset, h⟩ := Option.bind_eq_some_iff.mp h
    have hset' : Raises Exn.OfArray s flow.state.native :=
      raises_of_pending _ (pending_setArg hset)
    cases flow <;> cases h <;> exact hraises.trans hset'
  · rename_i heq
    cases heq
    cases h
    exact hraises

theorem raises_loopM {α : Type} {step : α → ObjectLoop → Option (Flow ObjectLoop)} {as : List α}
    (hstep : ∀ a ∈ as, ∀ x f, step a x = some f → Raises E x.native f.state.native)
    (h : loopM step as l = some f) : Raises E l.native f.state.native :=
  @loopM_rel _ _ step (fun l l' => Raises E l.native l'.native) (fun l => .refl E l.native)
    (fun h h' => h.trans h') as hstep l f h

/-- Both loops together leave pending what was pending before them, or an exception that one of the
entries gives reason for, or that an array could not be had. -/
theorem raises_resolveObjects {objects : List ObjectEntry}
    (h : resolveObjects pf jvm ctx objects l = some f) :
    Raises (fun x => x.OfArray ∨ ∃ e ∈ objects, x.OfEntry e) l.native f.state.native := by
  obtain ⟨flow, hloop, h⟩ := Option.bind_eq_some_iff.mp h
  have hobjects : Raises (fun x => x.OfArray ∨ ∃ e ∈ objects, x.OfEntry e) l.native
      flow.state.native := by
    refine raises_loopM (fun e he x f hstep => ?_) hloop
    exact (raises_objectStep hstep).mono fun x hx => .inr ⟨e, he, hx⟩
  cases flow with
  | cleanup l' =>
    cases h
    exact hobjects
  | next l' =>
    refine Raises.trans hobjects (raises_loopM (fun p _ x f hstep => ?_) h)
    exact (raises_pinStep hstep).mono fun x => .inl

theorem raises_newFrame {bs : List Byte} {s s' : Native} {frame : Frame}
    (h : newFrame pf ctx bs s = some (frame, s')) : Raises Exn.OfArray s s' := by
  unfold newFrame at h
  dsimp only at h
  split at h
  · split at h
    · obtain ⟨args, -, h⟩ := Option.bind_eq_some_iff.mp h
      cases h
      exact raises_of_pending _ rfl
    · obtain ⟨args, -, h⟩ := Option.bind_eq_some_iff.mp h
      cases h
      exact .inr ⟨.arrayIndexOutOfBounds, trivial, rfl⟩
  · cases h
    exact .refl _ s

/-- An invocation that makes no call leaves an exception pending that says why: an entry that gives
reason for it, or an array that could not be had. -/
theorem raises_invoke_uncalled {callee : Callee} {bs : List Byte} {objects : List ObjectEntry}
    {retval : List Cell} {s : Native} {o : Outcome}
    (h : invokeArrayWithObjects_ pf jvm ctx callee bs objects retval s = some o)
    (hcalled : o.called = none) :
    Raises (fun x => x.OfArray ∨ ∃ e ∈ objects, x.OfEntry e) s o.native := by
  obtain ⟨flow, hprepare, h⟩ := Option.bind_eq_some_iff.mp h
  obtain ⟨⟨frame, s₁⟩, hframe, hresolve⟩ := Option.bind_eq_some_iff.mp hprepare
  have hflow := ((raises_newFrame hframe).mono fun x => .inl).trans (raises_resolveObjects hresolve)
  cases flow with
  | next l =>
    obtain ⟨⟨call, retval', s₂⟩, -, h⟩ := Option.bind_eq_some_iff.mp h
    obtain ⟨s₃, -, h⟩ := Option.bind_eq_some_iff.mp h
    cases h
    cases hcalled
  | cleanup l =>
    obtain ⟨s₂, hrelease, h⟩ := Option.bind_eq_some_iff.mp h
    cases h
    exact hflow.trans ((raises_releaseArrays hrelease).mono fun x => .inl)

end Rounds

end Jffi
