import Jffi.ArrayResources
import Jffi.HeapCalls
import Jffi.ObjectPaths

/-!
# How the two ways of a call with objects end

What a call shows to the outside: to the callee its arguments and memory, to the Java program a
result, the contents of its arrays, and whether an exception is thrown. Where the objects stop both
ways of a call, what they show is the same; where the objects pass on both, it is the same if the
local variables were.

## Main definitions

* `Seen` — what is seen of a call
* `Seen.Same` — two calls that cannot be told apart

## Main results

* `sameEnd_of_stops`, `sameEnd_of_undefined` — where no call is made
* `Mirrors.sameEnd` — where one is
* `Mirrors.seen_of_thrown` — what the two calls of a function that throws show
-/

namespace Jffi

open Native

/-! ### What is seen -/

/-- What is seen of a call: the arguments and memory as the callee finds them, the result by its
bytes, the arrays, and whether an exception is pending. -/
structure Seen where
  called : Option (List (List Cell) × Memory)
  result : List Cell
  arrays : List JavaArray
  thrown : Bool

/-- Two calls of a function that returns `rtype` are the same to the callee and to the Java program.
A result is that of the type, and there is one only where the call was made. -/
structure Seen.Same (pf : Platform) (rtype : FFIType) (a b : Seen) : Prop where
  called_eq : a.called = b.called
  result_eq : a.called.isSome = true →
    a.result.take (rtype.valueSize pf) = b.result.take (rtype.valueSize pf)
  arrays_eq : a.arrays = b.arrays
  thrown_eq : a.thrown = b.thrown

/-- The end of a fast entry point. -/
def FastOutcome.seen (o : FastOutcome) : Seen :=
  ⟨o.called.map fun c => (c.args, c.memory), o.result, o.native.arrays, o.native.pending.isSome⟩

/-- The end of the generic entry point, whose result is read from the return buffer by `read`. -/
def Outcome.seen (read : List Cell → List Cell) (o : Outcome) : Seen :=
  ⟨o.called.map fun c => (c.args, c.memory), read o.retval, o.native.arrays,
    o.native.pending.isSome⟩

variable {pf : Platform} {jvm : Jvm} {ctx : NativeCallContext} {callee : Callee}

/-! ### Calls that are not made -/

/-- The call is not made, and an exception says why. -/
def Fate.Stops (f : Fate) : Prop := f = .throws ∨ f = .leaks

instance (f : Fate) : Decidable f.Stops := by
  unfold Fate.Stops
  infer_instance

section Stops

variable {β ω : Type} {view : β → Holdings} {finish : Flow β → Option ω}
  {result : ω → Option CallResult} {native : ω → Native} {I : β → Prop} {d : Decisions}
  {objects : List ObjectEntry} {flow : Option (Flow β)} {s : Native}

/-- Where the objects stop a call, the callee is not called, no array has changed, and an exception
is pending. -/
theorem Finishes.stops (hfinish : Finishes view finish result native)
    (hfollows : FollowsCall view I d jvm s objects flow (callFate d jvm s objects))
    (hstops : (callFate d jvm s objects).Stops) :
    ∃ o, flow.bind finish = some o ∧ result o = none ∧ (native o).arrays = s.arrays ∧
      (native o).pending.isSome = true := by
  obtain ⟨l, copies, pinned, lost, tail, rfl, hp, hthrown⟩ :
      ∃ l copies pinned lost tail, flow = some (.cleanup l) ∧
        (view l).Prepared s objects copies pinned lost tail ∧
        (view l).native.pending.isSome = true := by
    rcases hstops with hfate | hfate
    · rw [hfate] at hfollows
      obtain ⟨l, copies, pinned, tail, hflow, hp, -, hthrown, -⟩ := hfollows
      exact ⟨l, copies, pinned, [], tail, hflow, hp, hthrown⟩
    · rw [hfate] at hfollows
      obtain ⟨l, copies, b, hflow, hp, hthrown⟩ := hfollows
      exact ⟨l, copies, [], [b], [], hflow, hp, hthrown⟩
  obtain ⟨s', hs'⟩ := hp.releases rfl hthrown
  obtain ⟨o, ho⟩ := hfinish.defined l s' hs'
  obtain ⟨hresult, hs⟩ := hfinish.cleanup l o ho
  obtain ⟨h₁, -, hacq, -, hpins⟩ := hp
  obtain ⟨harrays, hpending⟩ := (releaseArrays_arrays hs).1 hthrown
  refine ⟨o, ho, hresult, ?_, ?_⟩
  · rw [harrays, hpins.heap_eq, hacq.arrays_eq]
  · rw [hpending]
    exact hthrown

end Stops

section NotMade

variable {ns : List (BitVec 64)} {bs : List Byte} {objects : List ObjectEntry} {s : Native}

theorem invokeNO_stops (hpending : s.pending = none)
    (hstops : (callFate (fastDecisions ns.length) jvm s objects).Stops) :
    ∃ o, invokeNO pf jvm ctx callee ns objects s = some o ∧ o.called = none ∧
      o.native.arrays = s.arrays ∧ o.native.pending.isSome = true := by
  obtain ⟨o, ho, hresult, hrest⟩ := (finishFast_finishes pf ctx callee).stops
    (resolveFast_follows pf ns.length (ns.map jlongCells) hpending) hstops
  exact ⟨o, ho, Option.map_eq_none_iff.mp hresult, hrest⟩

theorem invokeArrayWithObjects_stops (hbs : bs.length = ctx.cif.argTypes.length * slotSize)
    (hpending : s.pending = none) (retval : List Cell)
    (hstops : (callFate (genericDecisions ctx.cif.argTypes.length) jvm s objects).Stops) :
    ∃ o, invokeArrayWithObjects_ pf jvm ctx callee bs objects retval s = some o ∧ o.called = none ∧
      o.native.arrays = s.arrays ∧ o.native.pending.isSome = true := by
  obtain ⟨o, ho, hresult, hrest⟩ := (finishCall_finishes pf ctx callee retval).stops
    (prepareCall_follows pf ctx hbs hpending) hstops
  exact ⟨o, ho, Option.map_eq_none_iff.mp hresult, hrest⟩

theorem invokeNO_undefined (hpending : s.pending = none)
    (hfate : callFate (fastDecisions ns.length) jvm s objects = .undefined) :
    invokeNO pf jvm ctx callee ns objects s = none := by
  have hfollows := @resolveFast_follows jvm s objects pf ns.length (ns.map jlongCells) hpending
  rw [hfate] at hfollows
  have hnone : resolveFast pf jvm ns.length objects ⟨ns.map jlongCells, [], [], s⟩ = none :=
    hfollows
  change Option.bind (resolveFast pf jvm ns.length objects ⟨ns.map jlongCells, [], [], s⟩) _ = none
  rw [hnone]
  rfl

theorem invokeArrayWithObjects_undefined (hbs : bs.length = ctx.cif.argTypes.length * slotSize)
    (hpending : s.pending = none) (retval : List Cell)
    (hfate : callFate (genericDecisions ctx.cif.argTypes.length) jvm s objects = .undefined) :
    invokeArrayWithObjects_ pf jvm ctx callee bs objects retval s = none := by
  have hfollows := @prepareCall_follows jvm s objects pf ctx bs hbs hpending
  rw [hfate] at hfollows
  have hnone : prepareCall pf jvm ctx bs objects s = none := hfollows
  rw [invokeArrayWithObjects_, hnone]
  rfl

/-- **Where the objects stop both**, the two ways of a call cannot be told apart. -/
theorem sameEnd_of_stops {rtype : FFIType} (hbs : bs.length = ctx.cif.argTypes.length * slotSize)
    (hpending : s.pending = none) (retval : List Cell) (read : List Cell → List Cell)
    (hfast : (callFate (fastDecisions ns.length) jvm s objects).Stops)
    (hgeneric : (callFate (genericDecisions ctx.cif.argTypes.length) jvm s objects).Stops) :
    Option.Rel (Seen.Same pf rtype)
      ((invokeNO pf jvm ctx callee ns objects s).map FastOutcome.seen)
      ((invokeArrayWithObjects_ pf jvm ctx callee bs objects retval s).map
        (Outcome.seen read)) := by
  obtain ⟨o, ho, hcalled, harrays, hthrown⟩ :=
    @invokeNO_stops pf jvm ctx callee ns objects s hpending hfast
  obtain ⟨o', ho', hcalled', harrays', hthrown'⟩ :=
    @invokeArrayWithObjects_stops pf jvm ctx callee bs objects s hbs hpending retval hgeneric
  rw [ho, ho']
  refine .some ⟨?_, fun h => ?_, harrays.trans harrays'.symm, hthrown.trans hthrown'.symm⟩
  · rw [FastOutcome.seen, Outcome.seen, hcalled, hcalled']
    rfl
  · rw [FastOutcome.seen, hcalled] at h
    cases h

/-- Where the objects have no meaning to both paths, neither comes to an end. -/
theorem sameEnd_of_undefined {rtype : FFIType}
    (hbs : bs.length = ctx.cif.argTypes.length * slotSize) (hpending : s.pending = none)
    (retval : List Cell) (read : List Cell → List Cell)
    (hfast : callFate (fastDecisions ns.length) jvm s objects = .undefined)
    (hgeneric : callFate (genericDecisions ctx.cif.argTypes.length) jvm s objects = .undefined) :
    Option.Rel (Seen.Same pf rtype)
      ((invokeNO pf jvm ctx callee ns objects s).map FastOutcome.seen)
      ((invokeArrayWithObjects_ pf jvm ctx callee bs objects retval s).map
        (Outcome.seen read)) := by
  rw [invokeNO_undefined hpending hfast,
    invokeArrayWithObjects_undefined hbs hpending retval hgeneric]
  exact .none

end NotMade

/-! ### Calls that are made -/

section Made

variable {P : ℕ → List Cell → List Cell → Prop} {L L' : List Event} {l : FastLoop} {l' : ObjectLoop}

/-- The arguments of both calls are related one by one, as their numbers and pointers are. -/
theorem Mirrors.args (h : Mirrors pf ctx P [] L L' l l') (hscalar : ctx.Scalar pf) (m : Memory) :
    ∃ args, readArgs pf l'.frame m ctx.cif.argTypes = some args ∧
      args.length = (numericArgs pf ctx.cif.argTypes l.v).length ∧
      ∀ (i : ℕ) x y, (numericArgs pf ctx.cif.argTypes l.v)[i]? = some x → args[i]? = some y →
        P i x y := by
  obtain ⟨args, hargs, hlen, hget⟩ := readArgs_scalar hscalar h.inSlots m
  refine ⟨args, hargs, ?_, ?_⟩
  · rw [hlen, numericArgs, List.length_map, List.length_zip, h.count, Nat.min_self]
  · intro i x y hx hy
    rw [numericArgs, List.getElem?_map, Option.map_eq_some_iff] at hx
    obtain ⟨⟨t, v⟩, htv, rfl⟩ := hx
    obtain ⟨ht, hv⟩ := List.getElem?_zip_eq_some.mp htv
    rw [hget i t ht, Option.map_eq_some_iff] at hy
    obtain ⟨xs, hxs, rfl⟩ := hy
    exact h.values i t v xs List.not_mem_nil ht hv hxs

theorem Mirrors.wideEnough (h : Mirrors pf ctx P [] L L' l l')
    (hsize : ∀ t ∈ ctx.cif.argTypes, t.size pf ≤ slotSize) : Wide pf ctx.cif.argTypes l.v :=
  .of_length h.count.symm hsize h.wide

/-- **Where the values are the same** on both paths, so is what is seen. -/
theorem Mirrors.sameEnd (h : Mirrors pf ctx P [] L L' l l') (hscalar : ctx.Scalar pf)
    (hsize : ∀ t ∈ ctx.cif.argTypes, t.size pf ≤ slotSize) (hbuilt : Built pf ctx)
    (hrtype : ReturnsInSlot pf ctx.cif.rtype) {room : ℕ} {read : List Cell → List Cell}
    (hroom : RoomForResult pf ctx.cif.rtype room)
    (hread : ReadsBack pf ctx.cif.rtype room read) (hP : ∀ i x y, P i x y → x = y) :
    Option.Rel (Seen.Same pf ctx.cif.rtype)
      ((finishFast pf ctx callee (.next l)).map FastOutcome.seen)
      ((finishCall pf ctx callee (List.replicate room .undef) (.next l')).map
        (Outcome.seen read)) := by
  obtain ⟨u, hu, hu'⟩ := h.native
  obtain ⟨args, hargs, hlen, hvalues⟩ := h.args hscalar l'.native.toMemory
  obtain ⟨c, hc, hconveys⟩ := @conveys_callN pf ctx callee l.v l.native hbuilt
    (h.wideEnough hsize) h.wide hrtype
  have hsame : c.args = args := by
    rw [hconveys.args_eq]
    refine List.ext_getElem hlen.symm fun i hi hi' => ?_
    exact hP i _ _ (hvalues i _ _ (List.getElem?_eq_getElem hi) (List.getElem?_eq_getElem hi'))
  have hmemory : c.memory = l'.native.toMemory := by
    rw [hconveys.memory_eq, hu, hu']
    rfl
  obtain ⟨args', retval, hargs', hretval, hfinish⟩ := @finishCall_scalar pf ctx hscalar l' h.inSlots
    (List.replicate room .undef) (by rwa [List.length_replicate]) callee
  obtain rfl : args = args' := Option.some.inj (hargs.symm.trans hargs')
  let w := saveErrno pf ctx (u.returned (callee args l'.native.toMemory))
  have hw : c.native = w.onLog L := by
    rw [hconveys.native_eq, hsame, hmemory, hu]
    exact saveErrno_onLog L (u.returned _) ctx
  have hw' : saveErrno pf ctx (l'.native.returned (callee args l'.native.toMemory)) =
      w.onLog L' := by
    change _ = (saveErrno pf ctx (u.returned _)).onLog L'
    rw [← saveErrno_onLog L' (u.returned _) ctx, hu']
    rfl
  rw [hfinish, hw', h.arrays_eq]
  simp only [finishFast, hc, hw, Option.bind_eq_bind, Option.bind_some, releaseArrays_onLog]
  cases releaseArrays l.arrays w with
  | none => exact .none
  | some s' =>
    refine .some ⟨?_, fun _ => ?_, rfl, rfl⟩
    · change some (c.args, c.memory) = some (args, l'.native.toMemory)
      rw [hsame, hmemory]
    · change c.result.take _ = (read retval).take _
      rw [hconveys.result_eq, hsame, hmemory, hread _ _ hretval]

/-- **After a function that throws** everything that was acquired can be given back. -/
theorem Holdings.Prepared.releases_returned {h : Holdings} {s u : Native}
    {objects : List ObjectEntry} {copies pinned : List NativeArray} {lost : List ℕ}
    {tail : List Event} {r : CallResult} (hp : h.Prepared s objects copies pinned lost tail)
    (ctx : NativeCallContext) (hblocks : r.memory.blocks = h.native.blocks)
    (hthrown : r.thrown.isSome = true) :
    ∃ s', releaseArrays h.arrays (saveErrno pf ctx (u.returned r)) = some s' := by
  refine hp.releases ?_ ?_
  · rw [toMemory_saveErrno]
    exact hblocks
  · rw [pending_saveErrno, Native.returned, Option.or_of_isSome hthrown]
    exact hthrown

/-- A function that throws, and does nothing else. -/
def throwing : Callee := fun _ m => ⟨m, [], some .callback, none⟩

/-- **Both calls of a function that throws** come to an end, and show their arguments. -/
theorem Mirrors.seen_of_thrown (h : Mirrors pf ctx P [] L L' l l') (hscalar : ctx.Scalar pf)
    (hsize : ∀ t ∈ ctx.cif.argTypes, t.size pf ≤ slotSize) (hbuilt : Built pf ctx)
    (hrtype : ReturnsInSlot pf ctx.cif.rtype) {room : ℕ}
    (hroom : RoomForResult pf ctx.cif.rtype room)
    {s : Native} {objects : List ObjectEntry} {copies pinned : List NativeArray} {lost : List ℕ}
    {tail : List Event} (hp : l.holdings.Prepared s objects copies pinned lost tail) :
    ∃ o o' args, finishFast pf ctx throwing (.next l) = some o ∧
      finishCall pf ctx throwing (List.replicate room .undef) (.next l') = some o' ∧
      (o.called.map fun c => c.args) = some (numericArgs pf ctx.cif.argTypes l.v) ∧
      (o'.called.map fun c => c.args) = some args ∧
      args.length = (numericArgs pf ctx.cif.argTypes l.v).length ∧
      ∀ (i : ℕ) x y, (numericArgs pf ctx.cif.argTypes l.v)[i]? = some x → args[i]? = some y →
        P i x y := by
  obtain ⟨u, hu, hu'⟩ := h.native
  obtain ⟨args, hargs, hlen, hvalues⟩ := h.args hscalar l'.native.toMemory
  obtain ⟨c, hc, hconveys⟩ := @conveys_callN pf ctx throwing l.v l.native hbuilt
    (h.wideEnough hsize) h.wide hrtype
  obtain ⟨args', retval, hargs', -, hfinish⟩ := @finishCall_scalar pf ctx hscalar l' h.inSlots
    (List.replicate room .undef) (by rwa [List.length_replicate]) throwing
  obtain rfl : args = args' := Option.some.inj (hargs.symm.trans hargs')
  let w := saveErrno pf ctx (u.returned (throwing [] u.toMemory))
  have hw : c.native = w.onLog L := by
    rw [hconveys.native_eq, hconveys.memory_eq, hu]
    exact saveErrno_onLog L (u.returned (throwing [] u.toMemory)) ctx
  have hw' : saveErrno pf ctx (l'.native.returned (throwing args l'.native.toMemory)) =
      w.onLog L' := by
    change _ = (saveErrno pf ctx (u.returned _)).onLog L'
    rw [← saveErrno_onLog L' (u.returned _) ctx, hu']
    rfl
  have hblocks : u.blocks = l.native.blocks := by
    rw [hu]
    rfl
  obtain ⟨s', hs'⟩ := @Holdings.Prepared.releases_returned pf _ _ u _ _ _ _ _
    (throwing [] u.toMemory) hp ctx hblocks rfl
  have hrelease : releaseArrays l.arrays w = some s' := hs'
  refine ⟨⟨some c, c.result, s'.onLog L⟩,
    ⟨some ⟨l'.frame, args, l'.native.toMemory⟩, retval, s'.onLog L'⟩, args, ?_, ?_, ?_, rfl, hlen,
    hvalues⟩
  · simp only [finishFast, hc, hw, Option.bind_eq_bind, Option.bind_some,
      releaseArrays_onLog, hrelease, Option.map_some]
  · rw [hfinish, hw', h.arrays_eq, releaseArrays_onLog, hrelease]
    rfl
  · exact congrArg some hconveys.args_eq

end Made

/-! ### Whole invocations -/

/-- A context that both ways of a call are made for: a function of up to eight bytes a parameter,
whose result `RETVAL` and `read` know how to read. -/
structure CallsBothWays (pf : Platform) (ctx : NativeCallContext) (room : ℕ)
    (read : List Cell → List Cell) : Prop where
  scalar : ctx.Scalar pf
  size_le : ∀ t ∈ ctx.cif.argTypes, t.size pf ≤ slotSize
  built : Built pf ctx
  returns : ReturnsInSlot pf ctx.cif.rtype
  roomFor : RoomForResult pf ctx.cif.rtype room
  readsBack : ReadsBack pf ctx.cif.rtype room read

section Whole

variable {room : ℕ} {read : List Cell → List Cell} {ns : List (BitVec 64)} {bs : List Byte}
  {objects : List ObjectEntry} {s : Native}

section Passes

variable (hctx : CallsBothWays pf ctx room read) (hns : ns.length = ctx.cif.argTypes.length)
  (hbs : bs.length = ctx.cif.argTypes.length * slotSize)
  (htypes : ∀ e ∈ objects, ctx.cif.argTypes[descriptorIndex e.flags]? = some .pointer)
  (hpending : s.pending = none)
  (hgeneric : callFate (genericDecisions ctx.cif.argTypes.length) jvm s objects = .passes)
  (hfast : callFate (fastDecisions ctx.cif.argTypes.length) jvm s objects = .passes)

include hctx hns hbs htypes hpending hgeneric hfast

/-- **Where all objects pass**, and the other parameters have the same values, the two ways of a
call cannot be told apart. -/
theorem sameEnd_of_passes
    (hstarts : Starts pf ctx (fun _ x y => x = y) objects (ns.map jlongCells) bs)
    (callee : Callee) :
    Option.Rel (Seen.Same pf ctx.cif.rtype)
      ((invokeNO pf jvm ctx callee ns objects s).map FastOutcome.seen)
      ((invokeArrayWithObjects_ pf jvm ctx callee bs objects (List.replicate room .undef) s).map
        (Outcome.seen read)) := by
  obtain ⟨L, L', l, l', hresolve, hprepare, h⟩ := mirrors_of_passes hctx.scalar hbs
    (by rw [List.length_map, hns]) (length_jlongCells ns) hstarts htypes (fun _ _ _ => rfl) hpending
    hgeneric hfast
  have hinvoke : invokeNO pf jvm ctx callee ns objects s = finishFast pf ctx callee (.next l) := by
    rw [← hns] at hresolve
    change Option.bind (resolveFast pf jvm ns.length objects ⟨ns.map jlongCells, [], [], s⟩) _ = _
    rw [hresolve]
    rfl
  rw [hinvoke, invokeArrayWithObjects_, hprepare]
  exact h.sameEnd hctx.scalar hctx.size_le hctx.built hctx.returns hctx.roomFor hctx.readsBack
    fun _ _ _ => id

/-- **Where a parameter has different values**, a function that throws is enough to tell the two
ways of a call apart. -/
theorem not_sameEnd_of_ne {k : ℕ} {X Y : List Cell} (hne : X ≠ Y)
    (hk : k < ctx.cif.argTypes.length) (hfree : k ∉ indices objects)
    (hstarts : Starts pf ctx (fun i x y => i = k → x = X ∧ y = Y) objects (ns.map jlongCells) bs) :
    ¬Option.Rel (Seen.Same pf ctx.cif.rtype)
      ((invokeNO pf jvm ctx throwing ns objects s).map FastOutcome.seen)
      ((invokeArrayWithObjects_ pf jvm ctx throwing bs objects (List.replicate room .undef) s).map
        (Outcome.seen read)) := by
  obtain ⟨L, L', l, l', hresolve, hprepare, h⟩ := mirrors_of_passes hctx.scalar hbs
    (by rw [List.length_map, hns]) (length_jlongCells ns) hstarts htypes
    (fun e he x hx => absurd (hx ▸ List.mem_map_of_mem he) hfree) hpending hgeneric hfast
  have hfollows := @resolveFast_follows jvm s objects pf ctx.cif.argTypes.length (ns.map jlongCells)
    hpending
  rw [hfast] at hfollows
  obtain ⟨l'', copies, pinned, ho, -, hp, -⟩ := hfollows
  cases hresolve.symm.trans ho
  obtain ⟨o, o', args, hfinish, hfinish', hargs, hargs', hlen, hvalues⟩ :=
    h.seen_of_thrown hctx.scalar hctx.size_le hctx.built hctx.returns hctx.roomFor hp
  have hinvoke : invokeNO pf jvm ctx throwing ns objects s = some o := by
    rw [← hns] at hresolve
    change Option.bind (resolveFast pf jvm ns.length objects ⟨ns.map jlongCells, [], [], s⟩) _ = _
    rw [hresolve]
    exact hfinish
  rw [hinvoke, invokeArrayWithObjects_, hprepare]
  change ¬Option.Rel _ (some o.seen) (Option.map _ (finishCall pf ctx throwing _ (.next l')))
  rw [hfinish']
  intro hsame
  cases hsame with
  | some hsame =>
    have hcalled : o.called.map (fun c => (c.args, c.memory)) =
        o'.called.map (fun c => (c.args, c.memory)) := hsame.called_eq
    have hsameArgs : numericArgs pf ctx.cif.argTypes l.v = args := by
      have hfst := congrArg (Option.map Prod.fst) hcalled
      rw [Option.map_map, Option.map_map] at hfst
      exact Option.some.inj (hargs.symm.trans (hfst.trans hargs'))
    have hkn : k < (numericArgs pf ctx.cif.argTypes l.v).length := by
      rw [numericArgs, List.length_map, List.length_zip, h.count, Nat.min_self]
      exact hk
    obtain ⟨hx, hy⟩ := hvalues k _ _ (List.getElem?_eq_getElem hkn)
      (List.getElem?_eq_getElem (by rw [hlen]; exact hkn)) rfl
    refine hne (hx.symm.trans (Eq.trans ?_ hy))
    simp only [hsameArgs]

end Passes

end Whole

end Jffi
