import Jffi.InvokeDynamicSupport
import Jffi.ObjectOutcomes

/-!
# The fast path with objects against the generic one

A function of integers and pointers is called with numbers and objects by a fast entry point
`invokeN1O1`, …, `invokeN6O6`, or by `invokeArrayWithObjects_`, the numbers in a parameter buffer.
The two take their decisions about the objects apart from each other, and differ in one: a null for
an array of fewer than `MAX_STACK_ARRAY` elements that is not pinned. `ADDOBJ` hands it to the
functions of `Array.c` as it is.

Of results the fast path knows how to read an integer, and others only where they lie like one.

## Main definitions

* `genericRetval`, `readRetval` — results of `invokeArrayWithObjects_`
* `invokeThroughBuffer` — the generic way
* `PathsAgree` — what is seen of a call is the same on both ways

## Main results

* `not_same_of_reachesNull`, `not_same_of_unread` — calls that can be told apart
* `pathsAgree_iff` — when no function can tell the two ways apart
-/

namespace Jffi

open HeapInvocationBuffer ObjectBuffer

variable (pf : Platform)

/-! ### The generic way -/

/-- The size of `retval` in the callers of `invokeArrayWithObjects_`: that of an `FFIValue`, and for
a result in an array of bytes `ctx->cif.rtype->size`. -/
def retvalSize (rtype : FFIType) : ℕ :=
  match rtype with
  | .struct _ _ | .longdouble => rtype.size pf
  | _ => 8

/-- The result, by its digits. -/
def readRetval (rtype : FFIType) (retval : List Cell) : List Cell :=
  match rtype with
  | .struct _ _ | .longdouble => pf.nativeOrder.arrange retval
  | _ => genericResult pf rtype retval

variable {pf}

/-- A call with the numbers `ns` in a parameter buffer. The slot of an object is overwritten with a
pointer. -/
def invokeThroughBuffer (jvm : Jvm) (ctx : CallContext pf) (ld : LongDoubles pf) (callee : Callee)
    (ns : List (BitVec 64)) (objects : List ObjectEntry) (s : Native) : Option Outcome := do
  let (b, _) ← puts ld (List.zipWith numericPut ctx.native.cif.argTypes ns) (.new ctx) s.arrays
  invokeArrayWithObjects_ pf jvm ctx.native callee b.buffer objects
    (List.replicate (retvalSize pf ctx.native.cif.rtype) .undef) s

/-- **The two ways of a call** show the same to every function and to the Java program. -/
def PathsAgree (jvm : Jvm) (ctx : CallContext pf) (ld : LongDoubles pf) (ns : List (BitVec 64))
    (objects : List ObjectEntry) (s : Native) : Prop :=
  ∀ callee, Option.Rel (Seen.Same pf ctx.native.cif.rtype)
    ((invokeNO pf jvm ctx.native callee ns objects s).map FastOutcome.seen)
    ((invokeThroughBuffer jvm ctx ld callee ns objects s).map
      (Outcome.seen (readRetval pf ctx.native.cif.rtype)))

/-! ### Results -/

theorem roomForResult_retvalSize (rtype : FFIType) :
    RoomForResult pf rtype (retvalSize pf rtype) := by
  have hptr := pf.ptrSize_le
  have hslot (t : FFIType) (h : t.valueSize pf ≤ 8) : RoomForResult pf t 8 :=
    .of_max (Nat.max_le.mpr ⟨h, hptr⟩)
  cases rtype with
  | struct n a =>
    intro result
    rw [length_returnDigits]
    exact Nat.le_refl _
  | longdouble =>
    intro result
    rw [length_returnDigits]
    exact Nat.le_refl _
  | _ => exact hslot _ (by simp [FFIType.valueSize, FFIType.size, hptr])

/-- **Results** are read back on the generic way, whatever their type. -/
theorem readsBack_readRetval (rtype : FFIType) :
    ReadsBack pf rtype (retvalSize pf rtype) (readRetval pf rtype) := by
  have hbytes (h : rtype.isIntegral = false) (hsize : rtype.size pf = rtype.valueSize pf) :
      ReadsBack pf rtype (rtype.size pf) pf.nativeOrder.arrange := by
    intro result retval hretval
    have hlen := length_of_splice hretval
    have hstored := take_storeResult hretval
    rw [length_returnDigits, h, if_neg Bool.false_ne_true, ← hsize] at hstored
    rw [List.length_replicate] at hlen
    rw [List.take_of_length_le (Nat.le_of_eq hlen)] at hstored
    rw [hstored, ByteOrder.arrange_arrange, take_returnDigits]
  cases rtype with
  | struct n a => exact hbytes rfl rfl
  | longdouble => exact hbytes rfl rfl
  | _ =>
    refine readsBack_genericResult (fun hstruct => ?_) ?_
    · obtain ⟨n, a, h⟩ := FFIType.code_eq_struct.mp hstruct
      cases h
    · simp [FFIType.valueSize, FFIType.size, pf.ptrSize_le]

/-- A result that has been stored had room: the return buffer has at least the bytes of the value.
-/
theorem valueSize_le_of_storeResult {rtype : FFIType} {result retval : List Cell} {room : ℕ}
    (h : storeResult pf rtype result (List.replicate room .undef) = some retval) :
    rtype.valueSize pf ≤ room := by
  have hlen := congrArg List.length (take_storeResult h)
  have hlow := congrArg List.length (take_returnDigits pf rtype result)
  rw [List.length_take, length_fitResult] at hlow
  rw [List.length_take, ByteOrder.length_arrange, length_of_splice h, List.length_replicate] at hlen
  omega

/-- A direct call is of a function whose result can be read. -/
theorem callN_eq_throughFfi {ctx : CallContext pf}
    (hunread : ¬ReturnsInSlot pf ctx.native.cif.rtype) (callee : Callee) (vals : List (List Cell))
    (s : Native) : callN pf ctx.native callee vals s =
      throughFfi pf ctx.native 8 (RETVAL pf ctx.native.cif.rtype) callee vals s := by
  have hbuilt := built_native ctx
  rw [callN, if_neg, if_neg]
  · rintro ⟨hint, hflag⟩
    have hcpu : pf.cpu.isX86 = true := (Bool.and_eq_true_iff.mp hint).1
    exact hunread (integral_of_fast hcpu hbuilt (.inl hflag)).2
  · rintro ⟨hlong, hflag⟩
    have hcpu : pf.cpu = .x86_64 := by simpa using (Bool.and_eq_true_iff.mp hlong).1
    exact hunread (integral_of_fast (by rw [hcpu]; rfl) hbuilt (.inr hflag)).2

section Calls

variable {jvm : Jvm} {ctx : CallContext pf} {ld : LongDoubles pf} {callee : Callee}
  {ns : List (BitVec 64)} {objects : List ObjectEntry} {s : Native}

/-! ### The parameter buffer -/

/-- The parameter buffer with the numbers in it, slot by slot. -/
def numberBuffer (ctx : CallContext pf) (ns : List (BitVec 64)) : List Byte :=
  (List.zipWith numericPut ctx.native.cif.argTypes ns).flatMap (Put.slot pf)

theorem length_zipWith_numericPut (hns : ns.length = ctx.native.cif.argTypes.length) :
    (List.zipWith numericPut ctx.native.cif.argTypes ns).length = ctx.getParameterCount := by
  rw [List.length_zipWith, hns, Nat.min_self, ctx.length_argTypes]

theorem length_numberBuffer (hns : ns.length = ctx.native.cif.argTypes.length) :
    (numberBuffer ctx ns).length = ctx.native.cif.argTypes.length * slotSize := by
  rw [numberBuffer, length_flatMap_slot, length_zipWith_numericPut hns, ctx.length_argTypes,
    Nat.mul_comm]
  rfl

/-- The puts of the numbers fill the buffer, and what is invoked is the entry point on the slots of
these numbers. -/
theorem invokeThroughBuffer_eq (hns : ns.length = ctx.native.cif.argTypes.length) :
    invokeThroughBuffer jvm ctx ld callee ns objects s =
      invokeArrayWithObjects_ pf jvm ctx.native callee (numberBuffer ctx ns) objects
        (List.replicate (retvalSize pf ctx.native.cif.rtype) .undef) s := by
  have hputs := @length_zipWith_numericPut pf ctx ns hns
  obtain ⟨b, heap, hb, hfilled⟩ := filled_puts ctx ld s.arrays
    (List.zipWith numericPut ctx.native.cif.argTypes ns) (Nat.le_of_eq hputs)
  have hbuffer : b.buffer = numberBuffer ctx ns := by
    rw [hfilled.buffer_eq, hputs, Nat.sub_self, Nat.mul_zero, List.replicate_zero, List.append_nil]
    rfl
  rw [invokeThroughBuffer, hb, ← hbuffer]
  rfl

/-- Before any object is looked at, both ways have the same numbers for all parameters. -/
theorem starts_numberBuffer (hscalar : ctx.native.Scalar pf) :
    Starts pf ctx.native (fun _ x y => x = y) objects (ns.map jlongCells)
    (numberBuffer ctx ns) := by
  intro i t v xs _ ht hv hxs
  obtain ⟨hstruct, hsize⟩ := hscalar t (List.mem_of_getElem? ht)
  rw [List.getElem?_map] at hv
  obtain ⟨n, hn, rfl⟩ := Option.map_eq_some_iff.mp hv
  have hslot := @slice_numericPut pf _ _ [] i t n ht hn hstruct hsize
  rw [List.append_nil] at hslot
  rw [slice_map, numberBuffer, hslot] at hxs
  obtain rfl := Option.some.inj hxs
  rw [← ByteOrder.map_arrange, ByteOrder.arrange_arrange, jlongCells, ← List.map_take]
  exact congrArg (List.map Cell.byte) (take_leBytes hsize n)

/-! ### Calls that can be told apart -/

/-- A fast entry point that ends and whose objects pass has made the call, and its result is that of
the call. -/
theorem called_of_passes (hpending : s.pending = none)
    (hfast : callFate (fastDecisions ns.length) jvm s objects = .passes) {o : FastOutcome}
    (ho : invokeNO pf jvm ctx.native callee ns objects s = some o) :
    ∃ (l : FastLoop) (c : NumericCall), callN pf ctx.native callee l.v l.native = some c ∧
      o.called = some c ∧ o.result = c.result := by
  have hfollows := @resolveFast_follows jvm s objects pf ns.length (ns.map jlongCells) hpending
  rw [hfast] at hfollows
  obtain ⟨l, copies, pinned, hresolve, -⟩ := hfollows
  change Option.bind (resolveFast pf jvm ns.length objects ⟨ns.map jlongCells, [], [], s⟩) _ =
    some o at ho
  rw [hresolve] at ho
  change finishFast pf ctx.native callee (.next l) = some o at ho
  obtain ⟨c, hc, ho⟩ := Option.bind_eq_some_iff.mp ho
  obtain ⟨s', -, ho⟩ := Option.bind_eq_some_iff.mp ho
  cases ho
  exact ⟨l, c, hc, rfl, rfl⟩

section Objects

variable (hns : ns.length = ctx.native.cif.argTypes.length) (hpending : s.pending = none)

include hns hpending

/-- **A null that is reached**: the generic way throws, and the fast one is to do so too. -/
theorem not_same_of_reachesNull
    (hread : ∀ e ∈ objects, Readable ctx.native.cif.argTypes.length e)
    (hnull : ReachesNull ctx.native.cif.argTypes.length jvm s.arrays s.mallocs objects)
    (hfast : ¬(callFate (fastDecisions ctx.native.cif.argTypes.length) jvm s objects).Stops) :
    ¬Option.Rel (Seen.Same pf ctx.native.cif.rtype)
      ((invokeNO pf jvm ctx.native callee ns objects s).map FastOutcome.seen)
      ((invokeThroughBuffer jvm ctx ld callee ns objects s).map
        (Outcome.seen (readRetval pf ctx.native.cif.rtype))) := by
  intro hsame
  obtain ⟨o', ho', hcalled', -⟩ := @invokeArrayWithObjects_stops pf jvm ctx.native callee
    (numberBuffer ctx ns) objects s (length_numberBuffer hns) hpending
    (List.replicate (retvalSize pf ctx.native.cif.rtype) .undef)
    (.inl (callFate_of_reachesNull hread hnull))
  rw [invokeThroughBuffer_eq hns, ho'] at hsame
  rw [← hns] at hfast
  cases hfate : callFate (fastDecisions ns.length) jvm s objects with
  | throws => exact hfast (.inl hfate)
  | leaks => exact hfast (.inr hfate)
  | undefined =>
    rw [invokeNO_undefined hpending hfate] at hsame
    cases hsame
  | passes =>
    cases ho : invokeNO pf jvm ctx.native callee ns objects s with
    | none =>
      rw [ho] at hsame
      cases hsame
    | some o =>
      rw [ho] at hsame
      obtain ⟨-, c, -, hcalled, -⟩ := called_of_passes hpending hfate ho
      cases hsame with
      | some h =>
        have hsome := h.called_eq
        rw [FastOutcome.seen, Outcome.seen, hcalled, hcalled'] at hsome
        cases hsome

/-- What the generic way shows of a function that throws, and returns `result`. -/
theorem seen_of_thrown {result : List Cell} (hscalar : ctx.native.Scalar pf)
    (htypes : ∀ e ∈ objects, ctx.native.cif.argTypes[descriptorIndex e.flags]? = some .pointer)
    (hgeneric : callFate (genericDecisions ctx.native.cif.argTypes.length) jvm s objects = .passes)
    (hfast : callFate (fastDecisions ctx.native.cif.argTypes.length) jvm s objects = .passes) :
    ∃ o, invokeThroughBuffer jvm ctx ld (fun _ m => ⟨m, result, some .callback, none⟩) ns objects
        s =
        some o ∧ o.called.isSome = true ∧
      (readRetval pf ctx.native.cif.rtype o.retval).take (ctx.native.cif.rtype.valueSize pf) =
        fitResult (ctx.native.cif.rtype.valueSize pf) result := by
  have hbs := length_numberBuffer hns
  obtain ⟨L, L', l, l', -, hprepare, h⟩ := mirrors_of_passes hscalar hbs
    (by rw [List.length_map, hns]) (length_jlongCells ns) (starts_numberBuffer hscalar) htypes
    (fun _ _ _ => rfl) hpending hgeneric hfast
  have hfollows := @prepareCall_follows jvm s objects pf ctx.native _ hbs hpending
  rw [hgeneric] at hfollows
  obtain ⟨l'', copies, pinned, ho, -, hp, -⟩ := hfollows
  cases hprepare.symm.trans ho
  obtain ⟨args, retval, -, hretval, hfinish⟩ := @finishCall_scalar pf ctx.native hscalar l'
    h.inSlots (List.replicate (retvalSize pf ctx.native.cif.rtype) .undef)
    (by rw [List.length_replicate]; exact roomForResult_retvalSize _)
    (fun _ m => ⟨m, result, some .callback, none⟩)
  obtain ⟨s', hs'⟩ := @Holdings.Prepared.releases_returned pf _ _ l'.native _ _ _ _ _
    ⟨l'.native.toMemory, result, some .callback, none⟩ hp ctx.native rfl rfl
  refine ⟨⟨some ⟨l'.frame, args, l'.native.toMemory⟩, retval, s'⟩, ?_, rfl,
    readsBack_readRetval _ _ _ hretval⟩
  rw [invokeThroughBuffer_eq hns, invokeArrayWithObjects_, hprepare]
  refine hfinish.trans ?_
  rw [show releaseArrays l'.arrays _ = some s' from hs']
  rfl

/-- Zero, from a function that throws. -/
def throwingZero : Callee := fun _ m => ⟨m, List.replicate 8 (.byte 0), some .callback, none⟩

/-- **A result that the fast path cannot read** tells the two ways apart. -/
theorem not_same_of_unread (hscalar : ctx.native.Scalar pf)
    (htypes : ∀ e ∈ objects, ctx.native.cif.argTypes[descriptorIndex e.flags]? = some .pointer)
    (hgeneric : callFate (genericDecisions ctx.native.cif.argTypes.length) jvm s objects = .passes)
    (hfast : callFate (fastDecisions ctx.native.cif.argTypes.length) jvm s objects = .passes)
    (hunread : ¬ReturnsInSlot pf ctx.native.cif.rtype) :
    ¬Option.Rel (Seen.Same pf ctx.native.cif.rtype)
      ((invokeNO pf jvm ctx.native throwingZero ns objects s).map FastOutcome.seen)
      ((invokeThroughBuffer jvm ctx ld throwingZero ns objects s).map
        (Outcome.seen (readRetval pf ctx.native.cif.rtype))) := by
  intro hsame
  obtain ⟨o', ho', -, hresult'⟩ := @seen_of_thrown pf jvm ctx ld ns objects s hns hpending
    (List.replicate 8 (.byte 0)) hscalar htypes hgeneric hfast
  have hgenericCall : invokeThroughBuffer jvm ctx ld throwingZero ns objects s = some o' := ho'
  rw [hgenericCall] at hsame
  cases ho : invokeNO pf jvm ctx.native throwingZero ns objects s with
  | none =>
    rw [ho] at hsame
    cases hsame
  | some o =>
    rw [ho] at hsame
    obtain ⟨l, c, hc, hcalled, hresult⟩ := called_of_passes hpending (hns ▸ hfast) ho
    -- a direct call is of a function of integers only
    rw [callN_eq_throughFfi hunread] at hc
    obtain ⟨args, retval, hretval, hread⟩ := throughFfi_eq_some hc
    have hsize := valueSize_le_of_storeResult hretval
    have hpos : 0 < ctx.native.cif.rtype.valueSize pf :=
      Nat.pos_of_ne_zero fun hzero => hunread ⟨hsize, .inr (.inr (.inl hzero))⟩
    cases hsame with
    | some h =>
      have hsome : o.seen.called.isSome = true := by rw [FastOutcome.seen, hcalled]; rfl
      have hfirst : o.result.take (ctx.native.cif.rtype.valueSize pf) =
          fitResult (ctx.native.cif.rtype.valueSize pf) (List.replicate 8 (.byte 0)) :=
        (h.result_eq hsome).trans hresult'
      have hcell := congrArg (fun cells : List Cell => cells[0]?) hfirst
      rw [hresult, hread] at hcell
      simp only [List.getElem?_take, getElem?_fitResult, if_pos hpos,
        getElem?_RETVAL_zero hsize hunread hretval] at hcell
      cases hcell

end Objects

/-! ### Agreement -/

section Agreement

variable (htypes : ∀ t ∈ ctx.native.cif.argTypes, t.isIntegral = true)
  (hns : ns.length = ctx.native.cif.argTypes.length)
  (hobjects : ∀ e ∈ objects, Decodable e.flags ∧
    ctx.native.cif.argTypes[descriptorIndex e.flags]? = some .pointer)
  (hpending : s.pending = none)

include hobjects in
theorem readable_of_pointer : ∀ e ∈ objects, Readable ctx.native.cif.argTypes.length e := by
  intro e he
  obtain ⟨hdecodable, ht⟩ := hobjects e he
  exact ⟨hdecodable, (List.getElem?_eq_some_iff.mp ht).1⟩

theorem callsThroughBuffer (htypes : ∀ t ∈ ctx.native.cif.argTypes, t.isIntegral = true)
    (hrtype : ReturnsInSlot pf ctx.native.cif.rtype) :
    CallsBothWays pf ctx.native (retvalSize pf ctx.native.cif.rtype)
      (readRetval pf ctx.native.cif.rtype) where
  scalar := .of_integral htypes
  size_le t ht := FFIType.size_le_of_isIntegral (htypes t ht)
  built := built_native ctx
  returns := hrtype
  roomFor := roomForResult_retvalSize _
  readsBack := readsBack_readRetval _

include htypes hns hobjects hpending

/-- **Where both calls have one fate**, and results can be read, they cannot be told apart. -/
theorem pathsAgree_of_callFate_eq
    (hfate : callFate (fastDecisions ctx.native.cif.argTypes.length) jvm s objects =
      callFate (genericDecisions ctx.native.cif.argTypes.length) jvm s objects)
    (hrtype : callFate (genericDecisions ctx.native.cif.argTypes.length) jvm s objects = .passes →
      ReturnsInSlot pf ctx.native.cif.rtype) : PathsAgree jvm ctx ld ns objects s := by
  intro callee
  have hbs := length_numberBuffer hns
  rw [invokeThroughBuffer_eq hns]
  cases hcase : callFate (genericDecisions ctx.native.cif.argTypes.length) jvm s objects with
  | undefined => exact sameEnd_of_undefined hbs hpending _ _ (by rw [hns, hfate, hcase]) hcase
  | throws =>
    exact sameEnd_of_stops hbs hpending _ _ (.inl (by rw [hns, hfate, hcase])) (.inl hcase)
  | leaks =>
    exact sameEnd_of_stops hbs hpending _ _ (.inr (by rw [hns, hfate, hcase])) (.inr hcase)
  | passes =>
    have hctx := callsThroughBuffer htypes (hrtype hcase)
    exact sameEnd_of_passes hctx hns hbs (fun e he => (hobjects e he).2) hpending hcase
      (hfate.trans hcase) (starts_numberBuffer hctx.scalar) callee

end Agreement

end Calls

/-- **The fast path agrees with the generic one** for every function, if and only if a null for an
unpinned array of fewer than `MAX_STACK_ARRAY` elements is never the first object that does not
pass, or another object makes the fast path throw as well; and where all objects pass, the result is
one that `RETVAL` reads. -/
theorem pathsAgree_iff (pf : Platform) (jvm : Jvm) (ctx : CallContext pf) (ld : LongDoubles pf)
    (ns : List (BitVec 64)) (objects : List ObjectEntry) (s : Native)
    (htypes : ∀ t ∈ ctx.native.cif.argTypes, t.isIntegral = true)
    (hns : ns.length = ctx.native.cif.argTypes.length)
    (hobjects : ∀ e ∈ objects, Decodable e.flags ∧
      ctx.native.cif.argTypes[descriptorIndex e.flags]? = some .pointer)
    (hpending : s.pending = none) :
    PathsAgree jvm ctx ld ns objects s ↔
      (ReachesNull ctx.native.cif.argTypes.length jvm s.arrays s.mallocs objects →
        (callFate (fastDecisions ctx.native.cif.argTypes.length) jvm s objects).Stops) ∧
      (callFate (genericDecisions ctx.native.cif.argTypes.length) jvm s objects = .passes →
        ReturnsInSlot pf ctx.native.cif.rtype) := by
  have hread := readable_of_pointer hobjects
  constructor
  · intro hagree
    constructor
    · intro hnull
      by_contra hfast
      exact not_same_of_reachesNull hns hpending hread hnull hfast (hagree throwing)
    · intro hpasses
      have hnull : ¬ReachesNull ctx.native.cif.argTypes.length jvm s.arrays s.mallocs objects := by
        intro hnull
        cases hpasses.symm.trans (callFate_of_reachesNull hread hnull)
      have hfast := (callFate_eq hread hnull).trans hpasses
      by_contra hunread
      exact not_same_of_unread hns hpending (.of_integral htypes) (fun e he => (hobjects e he).2)
        hpasses hfast hunread (hagree throwingZero)
  · rintro ⟨hstops, hrtype⟩
    by_cases hnull : ReachesNull ctx.native.cif.argTypes.length jvm s.arrays s.mallocs objects
    · intro callee
      rw [invokeThroughBuffer_eq hns]
      exact sameEnd_of_stops (length_numberBuffer hns) hpending _ _ (hns ▸ hstops hnull)
        (.inl (callFate_of_reachesNull hread hnull))
    · exact pathsAgree_of_callFate_eq htypes hns hobjects hpending (callFate_eq hread hnull) hrtype

/-- All of the `byte[1]`, passed `IN`. -/
def wholeByte : ObjectEntry := ⟨some (.array 0), Put.arrayFlags .byte IN 0, 0, 1⟩

theorem pathsAgree_wholeByte :
    PathsAgree .reliable onePointer (.nearest .linuxX64) [0] [wholeByte] withOneByte ↔
      (ReachesNull 1 .reliable withOneByte.arrays 0 [wholeByte] →
        (callFate (fastDecisions 1) .reliable withOneByte [wholeByte]).Stops) ∧
      (callFate (genericDecisions 1) .reliable withOneByte [wholeByte] = .passes →
        ReturnsInSlot .linuxX64 .void) :=
  pathsAgree_iff .linuxX64 .reliable onePointer (.nearest .linuxX64) [0] [wholeByte] withOneByte
    (by decide) rfl
    (by simp only [List.mem_singleton, forall_eq]; exact ⟨.inl (by decide), by decide⟩) rfl

/-- Null for an array of one `byte`, passed `OUT`. -/
def nullByte : ObjectEntry := ⟨none, Put.arrayFlags .byte OUT 0, 0, 1⟩

/-- The fast path calls the function with the address of a buffer on the stack, which nothing has
been written to. The generic path throws a `NullPointerException`. -/
theorem not_pathsAgree_nullByte :
    ¬PathsAgree .reliable onePointer (.nearest .linuxX64) [0] [nullByte] withOneByte := by
  intro h
  refine not_same_of_reachesNull rfl rfl ?_ ?_ (by decide) (h throwing)
  · intro e he
    obtain rfl := List.mem_singleton.mp he
    exact ⟨.inl (by decide), by decide⟩
  · exact ⟨[], nullByte, [], rfl, ⟨rfl, by decide, by decide⟩, rfl⟩

end Jffi
