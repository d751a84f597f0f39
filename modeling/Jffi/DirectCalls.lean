import Jffi.FastNumeric

/-!
# Direct calls

On x86 a context may carry `CALL_CTX_FAST_INT` or `CALL_CTX_FAST_LONG`, and the fast numeric entry
points then call the function without libffi, as one of `jint`s or of `jlong`s. The flags are what
is left of `isFastInt` and `isFastLong` when the types of the result and of all parameters have been
looked at. Each of them rules out the types such a call would get wrong.

## Main definitions

* `Built` — the flags of a context are those `newCallContext` computes
* `throughFfi` — an entry point whose call is always libffi's

## Main results

* `intOnly_of_fastInt`, `integral_of_fastLong` — what the flags say about the types
* `conveys_callN` — the numeric entry points, whichever call they make
* `direct_calls_agree` — a direct call is as good as libffi's
-/

namespace Jffi

variable {pf : Platform} {ctx : NativeCallContext} {callee : Callee} {vals : List (List Cell)}
  {s : Native}

/-! ### The flags -/

/-- The flags of a context say of each of the two fast paths whether `newCallContext` has found the
types fit for it. -/
theorem and_contextFlags (flags : BitVec 32) (fast : FastFlags) :
    (contextFlags flags fast &&& CALL_CTX_FAST_INT ≠ 0 ↔ fast.int = true) ∧
      (contextFlags flags fast &&& CALL_CTX_FAST_LONG ≠ 0 ↔ fast.long = true) := by
  obtain ⟨int, long⟩ := fast
  rw [contextFlags]
  by_cases herrno : flags &&& F_NOERRNO = 0
  · by_cases hprot : flags &&& F_PROTECT ≠ 0
    · rw [if_pos herrno, if_pos hprot]
      revert int long
      decide
    · rw [if_pos herrno, if_neg hprot]
      revert int long
      decide
  · by_cases hprot : flags &&& F_PROTECT ≠ 0
    · rw [if_neg herrno, if_pos hprot]
      revert int long
      decide
    · rw [if_neg herrno, if_neg hprot]
      revert int long
      decide

theorem code_eq_void {t : FFIType} : t.code pf = .void ↔ t = .void := by
  cases t <;> simp [FFIType.code]
  split <;> simp

/-- The code of a type tells which flags its parameters leave. -/
theorem fastParam_int (hcpu : pf.cpu.isX86 = true) {f : FastFlags} {t : FFIType}
    (h : (fastParam pf f t).int = true) :
    f.int = true ∧ t.isIntegral = true ∧ t.size pf ≤ 4 := by
  rw [fastParam, if_pos hcpu] at h
  cases t
  case longdouble => cases hld : pf.longDouble.isSome <;> simp [FFIType.code, hld] at h
  case pointer =>
    by_cases hi386 : pf.cpu = .i386
    · have hptr : pf.ptrSize = 4 := by simp [Platform.ptrSize, hi386, CPU.dataModel]
      simp only [FFIType.code, if_pos hi386] at h
      exact ⟨h, rfl, Nat.le_of_eq hptr⟩
    · simp [FFIType.code, hi386] at h
  all_goals
    simp only [FFIType.code, Bool.false_eq_true] at h
    try split at h
    all_goals exact ⟨h, rfl, by simp [FFIType.size]⟩

theorem fastParam_long (hcpu : pf.cpu.isX86 = true) {f : FastFlags} {t : FFIType}
    (h : (fastParam pf f t).long = true) : f.long = true ∧ t.isIntegral = true := by
  rw [fastParam, if_pos hcpu] at h
  cases t
  case longdouble => cases hld : pf.longDouble.isSome <;> simp [FFIType.code, hld] at h
  all_goals
    simp only [FFIType.code, Bool.false_eq_true] at h
    try split at h
    all_goals first | exact ⟨h, rfl⟩ | cases h

/-- The `switch` on the return type is that on a parameter, but for `void`. -/
theorem fastReturn_eq (hcpu : pf.cpu.isX86 = true) (t : FFIType) :
    fastReturn pf t = if t = .void then ⟨true, true⟩ else fastParam pf ⟨true, true⟩ t := by
  rw [fastReturn, if_pos hcpu]
  by_cases hvoid : t = .void
  · rw [if_pos hvoid, hvoid]
    rfl
  · rw [if_neg hvoid]
    split
    · next hcode => exact absurd (code_eq_void.mp hcode) hvoid
    · rfl

theorem fastReturn_int (hcpu : pf.cpu.isX86 = true) {t : FFIType}
    (h : (fastReturn pf t).int = true) : IntegerOrVoid pf 4 t := by
  by_cases hvoid : t = .void
  · rw [hvoid]
    exact ⟨Nat.zero_le 4, .inl rfl⟩
  · rw [fastReturn_eq hcpu, if_neg hvoid] at h
    obtain ⟨-, hint, hsize⟩ := fastParam_int hcpu h
    exact ⟨Nat.le_trans (FFIType.valueSize_le_size pf t) hsize, .inr hint⟩

theorem fastReturn_long (hcpu : pf.cpu.isX86 = true) {t : FFIType}
    (h : (fastReturn pf t).long = true) : IntegerOrVoid pf 8 t := by
  by_cases hvoid : t = .void
  · rw [hvoid]
    exact ⟨Nat.zero_le 8, .inl rfl⟩
  · rw [fastReturn_eq hcpu, if_neg hvoid] at h
    obtain ⟨-, hint⟩ := fastParam_long hcpu h
    exact ⟨Nat.le_trans (FFIType.valueSize_le_size pf t) (FFIType.size_le_of_isIntegral hint),
      .inr hint⟩

/-- The flags of the context are those `newCallContext` computes. -/
def Built (pf : Platform) (ctx : NativeCallContext) : Prop :=
  ∃ flags, ctx.flags = contextFlags flags (fastFlags pf ctx.cif.rtype ctx.cif.argTypes flags)

/-- **`CALL_CTX_FAST_INT`**: the function is one of integers an `int` has room for. -/
theorem intOnly_of_fastInt (hcpu : pf.cpu.isX86 = true) (hbuilt : Built pf ctx)
    (h : ctx.flags &&& CALL_CTX_FAST_INT ≠ 0) :
    IntOnly pf ctx.cif.argTypes ∧ IntegerOrVoid pf 4 ctx.cif.rtype := by
  obtain ⟨flags, hflags⟩ := hbuilt
  rw [hflags, (and_contextFlags flags _).1, fastFlags] at h
  split at h
  · obtain ⟨hrtype, htypes⟩ :=
        foldl_flag (fun f : FastFlags => f.int = true) (fun f t => @fastParam_int pf hcpu f t) h
    exact ⟨htypes, fastReturn_int hcpu hrtype⟩
  · cases h

/-- A function whose context has `CALL_CTX_FAST_LONG` takes integers only, and returns one that fits
a `long` or nothing. -/
theorem integral_of_fastLong (hcpu : pf.cpu.isX86 = true) (hbuilt : Built pf ctx)
    (h : ctx.flags &&& CALL_CTX_FAST_LONG ≠ 0) :
    (∀ t ∈ ctx.cif.argTypes, t.isIntegral = true) ∧ IntegerOrVoid pf 8 ctx.cif.rtype := by
  obtain ⟨flags, hflags⟩ := hbuilt
  rw [hflags, (and_contextFlags flags _).2, fastFlags] at h
  split at h
  · obtain ⟨hrtype, htypes⟩ :=
        foldl_flag (fun f : FastFlags => f.long = true) (fun f t => @fastParam_long pf hcpu f t) h
    exact ⟨htypes, fastReturn_long hcpu hrtype⟩
  · cases h

/-! ### The calls -/

/-- On the branch of `CALL_CTX_FAST_INT` the call passes the numbers that `ffi_call` would pass, and
gets the result that it would get. -/
theorem conveys_callInt (hcpu : pf.cpu.isX86 = true) (hbuilt : Built pf ctx)
    (h : ctx.flags &&& CALL_CTX_FAST_INT ≠ 0) (hlen : ctx.cif.argTypes.length = vals.length)
    (hvals : ∀ v ∈ vals, v.length = 8) :
    ∃ c, callInt pf ctx callee vals s = some c ∧ Conveys pf ctx callee vals s c := by
  obtain ⟨htypes, hrtype⟩ := intOnly_of_fastInt hcpu hbuilt h
  have ho := pf.x86_little hcpu
  obtain ⟨c, hc, hconveys⟩ := @conveys_invokeI pf ctx callee (vals.map castInt) s 8 _
    (by rw [List.length_map, hlen]) htypes hrtype (length_castInt hvals) ho pf.ptrSize_le
    (keepsLow_RETVAL ho (FFIType.valueSize_le_size pf ctx.cif.rtype))
  refine ⟨c, hc, hconveys.of_castInt fun t ht => ?_⟩
  exact Nat.le_trans (FFIType.valueSize_le_size pf t) (htypes t ht).2

/-- On the branch of `CALL_CTX_FAST_LONG` the call passes the numbers that `ffi_call` would pass,
and gets the result that it would get. -/
theorem conveys_callLong (hcpu : pf.cpu.isX86 = true) (hbuilt : Built pf ctx)
    (h : ctx.flags &&& CALL_CTX_FAST_LONG ≠ 0) (hlen : ctx.cif.argTypes.length = vals.length)
    (hvals : ∀ v ∈ vals, v.length = 8) :
    ∃ c, callLong pf ctx callee vals s = some c ∧ Conveys pf ctx callee vals s c := by
  obtain ⟨htypes, hrtype⟩ := integral_of_fastLong hcpu hbuilt h
  have ho := pf.x86_little hcpu
  exact conveys_invokeL hlen htypes hrtype hvals ho
    (keepsLow_RETVAL ho (FFIType.valueSize_le_size pf ctx.cif.rtype))

/-- Whichever call a numeric entry point makes, it passes the numbers that `ffi_call` would pass,
and gets the result that it would get. -/
theorem conveys_callN (hbuilt : Built pf ctx) (hwide : Wide pf ctx.cif.argTypes vals)
    (hvals : ∀ v ∈ vals, v.length = 8) (hrtype : ReturnsInSlot pf ctx.cif.rtype) :
    ∃ c, callN pf ctx callee vals s = some c ∧ Conveys pf ctx callee vals s c := by
  by_cases hlong : longBypass pf = true ∧ ctx.flags &&& CALL_CTX_FAST_LONG ≠ 0
  · have hcpu : pf.cpu = .x86_64 := by simpa using (Bool.and_eq_true_iff.mp hlong.1).1
    rw [callN, if_pos hlong]
    exact conveys_callLong (by rw [hcpu]; rfl) hbuilt hlong.2 hwide.1 hvals
  · rw [callN, if_neg hlong]
    by_cases hint : intBypass pf = true ∧ ctx.flags &&& CALL_CTX_FAST_INT ≠ 0
    · have hcpu : pf.cpu.isX86 = true := (Bool.and_eq_true_iff.mp hint.1).1
      rw [if_pos hint]
      exact conveys_callInt hcpu hbuilt hint.2 hwide.1 hvals
    · rw [if_neg hint]
      have hptr := pf.ptrSize_le
      exact conveys_throughFfi hwide (Nat.max_le.mpr ⟨hrtype.1, hptr⟩) (readsBack_RETVAL hrtype)

/-! ### Agreement -/

/-- The calls of an entry point with arguments of `n` bytes do what the same entry point does
through libffi. -/
def AgreesWithFfi (pf : Platform) (ctx : NativeCallContext) (n room : ℕ)
    (read : List Cell → List Cell)
    (call : Callee → List (List Cell) → Native → Option NumericCall) : Prop :=
  ∀ (callee : Callee) (vals : List (List Cell)) (s : Native),
    vals.length = ctx.cif.argTypes.length → vals.length ≤ 6 → (∀ v ∈ vals, v.length = n) →
      ∃ c d, call callee vals s = some c ∧ throughFfi pf ctx room read callee vals s = some d ∧
        SameNumericCall pf ctx.cif.rtype c d

theorem AgreesWithFfi.of_conveys {n room : ℕ} {read : List Cell → List Cell}
    {call : Callee → List (List Cell) → Native → Option NumericCall}
    (hcall : ∀ (callee : Callee) (vals : List (List Cell)) (s : Native),
      ctx.cif.argTypes.length = vals.length → (∀ v ∈ vals, v.length = n) →
        ∃ c, call callee vals s = some c ∧ Conveys pf ctx callee vals s c)
    (hsize : ∀ t ∈ ctx.cif.argTypes, t.size pf ≤ n)
    (hroom : max (ctx.cif.rtype.valueSize pf) pf.ptrSize ≤ room)
    (hread : ReadsBack pf ctx.cif.rtype room read) : AgreesWithFfi pf ctx n room read call := by
  intro callee vals s hlen _ hvals
  have hwide : Wide pf ctx.cif.argTypes vals := .of_length hlen.symm hsize hvals
  obtain ⟨c, hc, hconveys⟩ := hcall callee vals s hlen.symm hvals
  obtain ⟨d, hd, hffi⟩ := @conveys_throughFfi pf ctx callee vals s room read hwide hroom hread
  exact ⟨c, d, hc, hd, hconveys.same hffi⟩

section Agreement

variable (hcpu : pf.cpu.isX86 = true) (hbuilt : Built pf ctx)

include hcpu hbuilt

/-- Under `CALL_CTX_FAST_INT` the `int` entry points agree with `ffi_call` on arguments and result.
-/
theorem agrees_fastInt (h : ctx.flags &&& CALL_CTX_FAST_INT ≠ 0) :
    AgreesWithFfi pf ctx 4 pf.ptrSize (intResult pf) (fastIntInvoke pf ctx) := by
  obtain ⟨htypes, hrtype⟩ := intOnly_of_fastInt hcpu hbuilt h
  have ho := pf.x86_little hcpu
  have hkeeps := @keepsLow_intResult pf pf.ptrSize _ ho hrtype.1
  have hptr := pf.ptrSize_eq
  have hvalue := hrtype.1
  refine .of_conveys (fun callee vals s hlen hvals => ?_) (fun t ht => (htypes t ht).2) (by omega)
    (hkeeps.readsBack ho)
  exact conveys_invokeI hlen htypes hrtype hvals ho (Nat.le_refl _) hkeeps

/-- Under `CALL_CTX_FAST_LONG` the `long` entry points agree with `ffi_call` on arguments and
result. -/
theorem agrees_fastLong (h : ctx.flags &&& CALL_CTX_FAST_LONG ≠ 0) :
    AgreesWithFfi pf ctx 8 8 (longResult pf ctx.cif.rtype) (fastLongInvoke pf ctx) := by
  obtain ⟨htypes, hrtype⟩ := integral_of_fastLong hcpu hbuilt h
  have ho := pf.x86_little hcpu
  have hkeeps := @keepsLow_longResult pf 8 (ctx.cif.rtype.valueSize pf) ctx.cif.rtype ho
  refine .of_conveys (fun callee vals s hlen hvals => ?_)
    (fun t ht => FFIType.size_le_of_isIntegral (htypes t ht))
    (Nat.max_le.mpr ⟨hrtype.1, pf.ptrSize_le⟩) (hkeeps.readsBack ho)
  exact conveys_invokeL hlen htypes hrtype hvals ho hkeeps

/-- Under either flag no type is wider than a `jlong`, or read back wrong. -/
theorem integral_of_fast
    (h : ctx.flags &&& CALL_CTX_FAST_INT ≠ 0 ∨ ctx.flags &&& CALL_CTX_FAST_LONG ≠ 0) :
    (∀ t ∈ ctx.cif.argTypes, t.size pf ≤ 8) ∧ ReturnsInSlot pf ctx.cif.rtype := by
  have ho := pf.x86_little hcpu
  rcases h with h | h
  · obtain ⟨htypes, hrtype⟩ := intOnly_of_fastInt hcpu hbuilt h
    exact ⟨fun t ht => FFIType.size_le_of_isIntegral (htypes t ht).1,
      Nat.le_trans hrtype.1 (by decide), .inl ho⟩
  · obtain ⟨htypes, hrtype⟩ := integral_of_fastLong hcpu hbuilt h
    exact ⟨fun t ht => FFIType.size_le_of_isIntegral (htypes t ht), hrtype.1, .inl ho⟩

/-- **The numeric entry points**, and the branches of their own they have for the flags. -/
theorem agrees_numeric
    (h : ctx.flags &&& CALL_CTX_FAST_INT ≠ 0 ∨ ctx.flags &&& CALL_CTX_FAST_LONG ≠ 0)
    {call : Callee → List (List Cell) → Native → Option NumericCall}
    (hcall : ∀ (callee : Callee) (vals : List (List Cell)) (s : Native),
      ctx.cif.argTypes.length = vals.length → (∀ v ∈ vals, v.length = 8) →
        ∃ c, call callee vals s = some c ∧ Conveys pf ctx callee vals s c) :
    AgreesWithFfi pf ctx 8 8 (RETVAL pf ctx.cif.rtype) call := by
  obtain ⟨hsize, hrtype⟩ := integral_of_fast hcpu hbuilt h
  exact .of_conveys hcall hsize (Nat.max_le.mpr ⟨hrtype.1, pf.ptrSize_le⟩) (readsBack_RETVAL hrtype)

theorem agrees_callN
    (h : ctx.flags &&& CALL_CTX_FAST_INT ≠ 0 ∨ ctx.flags &&& CALL_CTX_FAST_LONG ≠ 0) :
    AgreesWithFfi pf ctx 8 8 (RETVAL pf ctx.cif.rtype) (callN pf ctx) := by
  obtain ⟨hsize, hrtype⟩ := integral_of_fast hcpu hbuilt h
  refine agrees_numeric hcpu hbuilt h fun callee vals s hlen hvals => ?_
  exact conveys_callN hbuilt (.of_length hlen hsize hvals) hvals hrtype

end Agreement

/-- **Direct calls agree with libffi.** On x86 a context that carries one of the flags is of a
function without floating point numbers, structs and integers too wide for the cast, and every call
the fast numeric entry points make of it is as good as one through libffi. -/
theorem direct_calls_agree (pf : Platform) (hcpu : pf.cpu.isX86 = true) (libs : ContextLibs)
    (returnType : FFIType) (paramArray : List (Option FFIType)) (flags : BitVec 32)
    (ctx : NativeCallContext)
    (h : (newCallContext pf libs returnType paramArray flags).handle = some ctx) :
    ctx.cif.argTypes.map some = paramArray ∧ ctx.cif.rtype = returnType ∧
      (ctx.flags &&& CALL_CTX_FAST_INT ≠ 0 →
        IntOnly pf ctx.cif.argTypes ∧ IntegerOrVoid pf 4 ctx.cif.rtype ∧
        AgreesWithFfi pf ctx 4 pf.ptrSize (intResult pf) (fastIntInvoke pf ctx) ∧
        AgreesWithFfi pf ctx 4 pf.ptrSize (intResult pf) (fun callee ns s =>
          (fastIntInvokeNoErrno pf ctx callee ns s).map fun c =>
            { c with native := saveErrno pf ctx c.native }) ∧
        AgreesWithFfi pf ctx 8 8 (RETVAL pf ctx.cif.rtype) (callInt pf ctx) ∧
        AgreesWithFfi pf ctx 8 8 (RETVAL pf ctx.cif.rtype) (callN pf ctx)) ∧
      (ctx.flags &&& CALL_CTX_FAST_LONG ≠ 0 →
        (∀ t ∈ ctx.cif.argTypes, t.isIntegral = true) ∧ IntegerOrVoid pf 8 ctx.cif.rtype ∧
        AgreesWithFfi pf ctx 8 8 (longResult pf ctx.cif.rtype) (fastLongInvoke pf ctx) ∧
        AgreesWithFfi pf ctx 8 8 (RETVAL pf ctx.cif.rtype) (callLong pf ctx) ∧
        AgreesWithFfi pf ctx 8 8 (RETVAL pf ctx.cif.rtype) (callN pf ctx)) := by
  obtain ⟨types, rfl⟩ := exists_types pf h
  obtain ⟨htypes, hrtype, -, hflags⟩ := newCallContext_handle pf h
  have hbuilt : Built pf ctx := ⟨flags, by rw [htypes, hrtype]; exact hflags⟩
  refine ⟨by rw [htypes], hrtype, fun hint => ?_, fun hlong => ?_⟩
  · obtain ⟨honly, hvoid⟩ := intOnly_of_fastInt hcpu hbuilt hint
    have hfast := agrees_fastInt hcpu hbuilt hint
    refine ⟨honly, hvoid, hfast, ?_, ?_, agrees_callN hcpu hbuilt (.inl hint)⟩
    · intro callee vals s hlen hsix hvals
      dsimp only
      rw [← fastIntInvoke_eq]
      exact hfast callee vals s hlen hsix hvals
    · exact agrees_numeric hcpu hbuilt (.inl hint) fun _ _ _ => conveys_callInt hcpu hbuilt hint
  · obtain ⟨hintegral, hvoid⟩ := integral_of_fastLong hcpu hbuilt hlong
    refine ⟨hintegral, hvoid, agrees_fastLong hcpu hbuilt hlong, ?_,
      agrees_callN hcpu hbuilt (.inr hlong)⟩
    exact agrees_numeric hcpu hbuilt (.inr hlong) fun _ _ _ => conveys_callLong hcpu hbuilt hlong

/-- A function of a pointer and a short, for which both flags of 64 bit x86 are in question. -/
theorem direct_calls_agree_pointerShort :
    ∃ ctx, (newCallContext .linuxX64 .accepting .sint32 [some .pointer, some .sint16] 0).handle =
        some ctx ∧ ctx.flags &&& CALL_CTX_FAST_INT = 0 ∧ ctx.flags &&& CALL_CTX_FAST_LONG ≠ 0 ∧
      AgreesWithFfi .linuxX64 ctx 8 8 (longResult .linuxX64 ctx.cif.rtype)
        (fastLongInvoke .linuxX64 ctx) := by
  refine ⟨_, rfl, by decide, by decide, ?_⟩
  exact ((direct_calls_agree .linuxX64 rfl .accepting .sint32 [some .pointer, some .sint16] 0 _
    rfl).2.2.2 (by decide)).2.2.1

end Jffi
