import Jffi.DirectCalls
import Jffi.HeapCalls

/-!
# `InvokeDynamicSupport`

`getFastNumericInvoker` picks a fast numeric entry point for a context, so that a method handle can
be bound to it. It runs through the types of the parameters with two flags, and gives up as soon as
both are cleared: the parameters after that are not looked at, and on a processor other than x86
none is. An aggregate or a `long double` among them goes unnoticed, and so does a result the entry
points cannot read.

## Main definitions

* `getFastNumericInvoker` — the selection
* `ForeignMethod.invoke` — a call of the selected method
* `SoundInvoker` — the selected method is as good as a call through a buffer

## Main results

* `selectLoop_eq_none_iff`, `int_of_selectLoop`, `long_of_selectLoop` — what the loop has seen
* `getFastNumericInvoker_eq_none_iff` — which contexts are refused
* `invoker_sound_iff` — when the selection is sound
-/

namespace Jffi

variable (pf : Platform)

/-! ### The selection -/

/-- The classes of the numeric parameters of a method. -/
inductive NumericClass
  | int | long
  deriving DecidableEq, Repr

inductive InvokeFamily
  | invokeI | invokeL | invokeN
  deriving DecidableEq, Repr

/-- The method `invokeI0`, …, `invokeN6` of the class `Foreign`, by the parts of its name and the
class of its parameters. -/
structure ForeignMethod where
  family : InvokeFamily
  parameterCount : ℕ
  noErrno : Bool
  parameterClass : NumericClass
  deriving DecidableEq, Repr

/-- The methods the class declares. -/
def ForeignMethod.isDeclared (m : ForeignMethod) : Bool :=
  m.parameterCount ≤ 6 &&
    match m.family with
    | .invokeI => m.parameterClass = .int
    | .invokeL => m.parameterClass = .long
    | .invokeN => m.parameterClass = .long && !m.noErrno

/-- The `switch` on the return type; `none` is a returned `null`. -/
def selectReturn (cpu : CPU) (type : FFICode) : Option FastFlags :=
  match type with
  | .sint8 | .uint8 | .sint16 | .uint16 | .sint32 | .uint32 => some ⟨true, cpu.dataModel = 64⟩
  | .pointer => some ⟨cpu.dataModel = 32, cpu.dataModel = 64⟩
  | .sint64 | .uint64 => some ⟨false, true⟩
  | .struct => none
  | .void => some ⟨true, true⟩
  | _ => some ⟨false, false⟩

/-- The `switch` on a parameter type. -/
def selectParam (cpu : CPU) (f : FastFlags) (type : FFICode) : Option FastFlags :=
  match type with
  | .sint8 | .uint8 | .sint16 | .uint16 | .sint32 | .uint32 =>
    some { f with long := f.long && cpu.dataModel = 64 }
  | .sint64 | .uint64 => some { f with int := false }
  | .pointer => some ⟨f.int && cpu.dataModel = 32, f.long && cpu.dataModel = 64⟩
  | .struct => none
  | _ => some ⟨false, false⟩

/-- The loop over the parameters, which ends when both flags are cleared. -/
def selectLoop : List JType → FastFlags → Option FastFlags
  | [], f => some f
  | t :: ts, f =>
    if f.int || f.long then
      if t.isBuiltin then do
        let f ← selectParam pf.cpu f (t.type pf)
        selectLoop ts f
      else none
    else some f

/-- The method the flags stand for. -/
def selectMethod (ctx : CallContext pf) (f : FastFlags) : ForeignMethod where
  family := if f.int then .invokeI else if f.long then .invokeL else .invokeN
  parameterCount := ctx.getParameterCount
  noErrno := ctx.flags &&& F_NOERRNO ≠ 0 && (f.int || f.long)
  parameterClass := if f.int then .int else .long

/-- `InvokeDynamicSupport.getFastNumericInvoker`, up to the method handle it binds to the context;
`jsr292` tells whether the virtual machine has method handles. -/
def getFastNumericInvoker (jsr292 : Bool) (ctx : CallContext pf) : Option ForeignMethod :=
  if ctx.returnType.isBuiltin = false then none
  else if ctx.flags &&& F_STDCALL ≠ 0 then none
  else if 6 < ctx.getParameterCount then none
  else do
    let f ← selectReturn pf.cpu (ctx.returnType.type pf)
    let f ← selectLoop pf ctx.parameterTypes ⟨f.int && pf.cpu.isX86, f.long && pf.cpu.isX86⟩
    let method := selectMethod pf ctx f
    if method.isDeclared = true ∧ jsr292 = true then some method else none

/-- A call of the method with the numbers `ns`. -/
def ForeignMethod.invoke (m : ForeignMethod) (ctx : NativeCallContext) (callee : Callee)
    (ns : List (BitVec 64)) (s : Native) : Option NumericCall :=
  let ns := ns.map jlongCells
  if ns.length = m.parameterCount then
    match m.family with
    | .invokeI =>
      if m.noErrno then fastIntInvokeNoErrno pf ctx callee (ns.map castInt) s
      else fastIntInvoke pf ctx callee (ns.map castInt) s
    | .invokeL => fastLongInvoke pf ctx callee ns s
    | .invokeN => callN pf ctx callee ns s
  else none

/-! ### What the loop has seen -/

/-- The types that leave `isFastInt` set. -/
def fastIntType (cpu : CPU) : FFICode → Bool
  | .sint8 | .uint8 | .sint16 | .uint16 | .sint32 | .uint32 => true
  | .pointer => cpu.dataModel = 32
  | _ => false

/-- The types that leave `isFastLong` set. -/
def fastLongType (cpu : CPU) : FFICode → Bool
  | .sint8 | .uint8 | .sint16 | .uint16 | .sint32 | .uint32 | .pointer => cpu.dataModel = 64
  | .sint64 | .uint64 => true
  | _ => false

theorem selectParam_eq (cpu : CPU) (f : FastFlags) {type : FFICode} (h : type ≠ .struct) :
    selectParam cpu f type =
      some ⟨f.int && fastIntType cpu type, f.long && fastLongType cpu type⟩ := by
  cases type <;> simp [selectParam, fastIntType, fastLongType] at h ⊢

theorem selectReturn_eq (cpu : CPU) {type : FFICode} (h : type ≠ .struct) :
    selectReturn cpu type =
      some ⟨type = .void || fastIntType cpu type, type = .void || fastLongType cpu type⟩ := by
  cases type <;> simp [selectReturn, fastIntType, fastLongType] at h ⊢

theorem JType.type_ne_struct {t : JType} (h : t.isBuiltin = true) : t.type pf ≠ .struct := by
  intro hstruct
  rw [JType.type_eq_struct, h] at hstruct
  cases hstruct

variable {pf}

/-- A round of the loop lowers each of the two flags that the type of the parameter is not fit for,
and goes on while one is up. -/
theorem selectLoop_cons {t : JType} {ts : List JType} {f : FastFlags}
    (hf : (f.int || f.long) = true)
    (ht : t.isBuiltin = true) :
    selectLoop pf (t :: ts) f = selectLoop pf ts
      ⟨f.int && fastIntType pf.cpu (t.type pf), f.long && fastLongType pf.cpu (t.type pf)⟩ := by
  rw [selectLoop, if_pos hf, if_pos ht, selectParam_eq _ _ (JType.type_ne_struct pf ht)]
  rfl

/-- A flag that is set after the loop was set all along, so every type has been looked at. -/
theorem flag_of_selectLoop {flag : FastFlags → Bool} {fast : FFICode → Bool}
    (hgoes : ∀ f : FastFlags, flag f = true → (f.int || f.long) = true)
    (hflag : ∀ (f : FastFlags) (type : FFICode), flag ⟨f.int && fastIntType pf.cpu type,
      f.long && fastLongType pf.cpu type⟩ = (flag f && fast type))
    {ts : List JType} {f g : FastFlags} (h : selectLoop pf ts f = some g) (hg : flag g = true) :
    flag f = true ∧ ∀ t ∈ ts, fast (t.type pf) = true := by
  induction ts generalizing f with
  | nil =>
    cases h
    exact ⟨hg, fun t ht => absurd ht List.not_mem_nil⟩
  | cons t ts ih =>
    by_cases hf : (f.int || f.long) = true
    · by_cases ht : t.isBuiltin = true
      · rw [selectLoop_cons hf ht] at h
        obtain ⟨hnext, hts⟩ := ih h
        rw [hflag, Bool.and_eq_true] at hnext
        refine ⟨hnext.1, fun u hu => ?_⟩
        rcases List.mem_cons.mp hu with rfl | hu
        · exact hnext.2
        · exact hts u hu
      · rw [selectLoop, if_pos hf, if_neg ht] at h
        cases h
    · rw [selectLoop, if_neg hf] at h
      cases h
      exact absurd (hgoes _ hg) hf

/-- If `isFastInt` is up after the loop, it was up before it and every parameter is one for the
`int` methods. -/
theorem int_of_selectLoop {ts : List JType} {f g : FastFlags} (h : selectLoop pf ts f = some g)
    (hg : g.int = true) : f.int = true ∧ ∀ t ∈ ts, fastIntType pf.cpu (t.type pf) = true :=
  flag_of_selectLoop (fun f hf => by rw [hf, Bool.true_or]) (fun _ _ => rfl) h hg

/-- If `isFastLong` is up after the loop, it was up before it and every parameter is one for the
`long` methods. -/
theorem long_of_selectLoop {ts : List JType} {f g : FastFlags} (h : selectLoop pf ts f = some g)
    (hg : g.long = true) : f.long = true ∧ ∀ t ∈ ts, fastLongType pf.cpu (t.type pf) = true :=
  flag_of_selectLoop (fun f hf => by rw [hf, Bool.or_true]) (fun _ _ => rfl) h hg

/-- One of the flags of `f` is still set when the loop comes to parameter `i`. -/
def Reaches (pf : Platform) (ts : List JType) (f : FastFlags) (i : ℕ) : Prop :=
  (f.int = true ∧ ∀ u ∈ ts.take i, fastIntType pf.cpu (u.type pf) = true) ∨
    (f.long = true ∧ ∀ u ∈ ts.take i, fastLongType pf.cpu (u.type pf) = true)

theorem reaches_succ {t : JType} {ts : List JType} {f : FastFlags} {i : ℕ} :
    Reaches pf (t :: ts) f (i + 1) ↔ Reaches pf ts
      ⟨f.int && fastIntType pf.cpu (t.type pf), f.long && fastLongType pf.cpu (t.type pf)⟩ i := by
  simp only [Reaches, List.take_succ_cons, List.forall_mem_cons, Bool.and_eq_true, and_assoc]

theorem reaches_zero {ts : List JType} {f : FastFlags} :
    Reaches pf ts f 0 ↔ (f.int || f.long) = true := by
  simp [Reaches]

/-- A later parameter is reached only if the first one is. -/
theorem Reaches.goes {ts : List JType} {f : FastFlags} {i : ℕ} (h : Reaches pf ts f i) :
    (f.int || f.long) = true := by
  rcases h with ⟨h, -⟩ | ⟨h, -⟩
  · rw [h, Bool.true_or]
  · rw [h, Bool.or_true]

/-- **The loop gives up the selection** at an aggregate it comes to. -/
theorem selectLoop_eq_none_iff {ts : List JType} {f : FastFlags} :
    selectLoop pf ts f = none ↔
      ∃ (i : ℕ) (t : JType), ts[i]? = some t ∧ t.isBuiltin = false ∧ Reaches pf ts f i := by
  induction ts generalizing f with
  | nil => simp [selectLoop]
  | cons t ts ih =>
    by_cases hf : (f.int || f.long) = true
    · by_cases ht : t.isBuiltin = true
      · rw [selectLoop_cons hf ht, ih]
        constructor
        · rintro ⟨i, u, hu, hbuiltin, hreaches⟩
          exact ⟨i + 1, u, hu, hbuiltin, reaches_succ.mpr hreaches⟩
        · rintro ⟨i, u, hu, hbuiltin, hreaches⟩
          cases i with
          | zero =>
            cases hu
            rw [ht] at hbuiltin
            cases hbuiltin
          | succ i => exact ⟨i, u, hu, hbuiltin, reaches_succ.mp hreaches⟩
      · rw [selectLoop, if_pos hf, if_neg ht]
        exact iff_of_true rfl ⟨0, t, rfl, Bool.not_eq_true _ ▸ ht, reaches_zero.mpr hf⟩
    · rw [selectLoop, if_neg hf]
      refine iff_of_false (by simp) ?_
      rintro ⟨i, u, -, -, hreaches⟩
      exact hf hreaches.goes

/-! ### Which contexts are refused -/

/-- The flags the loop starts with. -/
def startFlags (pf : Platform) (rtype : JType) : FastFlags :=
  ⟨(rtype.type pf = .void || fastIntType pf.cpu (rtype.type pf)) && pf.cpu.isX86,
    (rtype.type pf = .void || fastLongType pf.cpu (rtype.type pf)) && pf.cpu.isX86⟩

/-- What keeps a context from being given an invoker: no method handles, an aggregate as the result,
the flag of `stdcall`, too many parameters, or an aggregate among the parameters that the loop comes
to. -/
def Refused (pf : Platform) (jsr292 : Bool) (ctx : CallContext pf) : Prop :=
  jsr292 = false ∨ ctx.returnType.isBuiltin = false ∨ ctx.flags &&& F_STDCALL ≠ 0 ∨
    6 < ctx.getParameterCount ∨
    ∃ (i : ℕ) (t : JType), ctx.parameterTypes[i]? = some t ∧ t.isBuiltin = false ∧
      Reaches pf ctx.parameterTypes (startFlags pf ctx.returnType) i

theorem isDeclared_selectMethod {ctx : CallContext pf} (h : ctx.getParameterCount ≤ 6)
    (f : FastFlags) : (selectMethod pf ctx f).isDeclared = true := by
  obtain ⟨_ | _, _ | _⟩ := f <;> simp [selectMethod, ForeignMethod.isDeclared, h]

/-- The selection, where nothing before the loop is in the way. -/
theorem getFastNumericInvoker_eq {jsr292 : Bool} {ctx : CallContext pf}
    (hreturn : ctx.returnType.isBuiltin = true) (hstdcall : ¬ ctx.flags &&& F_STDCALL ≠ 0)
    (hcount : ctx.getParameterCount ≤ 6) :
    getFastNumericInvoker pf jsr292 ctx =
      (selectLoop pf ctx.parameterTypes (startFlags pf ctx.returnType)).bind fun f =>
        if jsr292 = true then some (selectMethod pf ctx f) else none := by
  rw [getFastNumericInvoker, if_neg (by rw [hreturn]; decide), if_neg hstdcall,
    if_neg (Nat.not_lt.mpr hcount), selectReturn_eq _ (JType.type_ne_struct pf hreturn)]
  simp only [Option.bind_eq_bind, Option.bind_some, isDeclared_selectMethod hcount, true_and]
  rfl

/-- No invoker is selected just for the contexts that are to be refused, by their types, their
number of parameters and the machine. -/
theorem getFastNumericInvoker_eq_none_iff {jsr292 : Bool} {ctx : CallContext pf} :
    getFastNumericInvoker pf jsr292 ctx = none ↔ Refused pf jsr292 ctx := by
  by_cases hreturn : ctx.returnType.isBuiltin = true
  · by_cases hstdcall : ctx.flags &&& F_STDCALL ≠ 0
    · rw [getFastNumericInvoker, if_neg (by rw [hreturn]; decide), if_pos hstdcall]
      exact iff_of_true rfl (.inr (.inr (.inl hstdcall)))
    · by_cases hcount : ctx.getParameterCount ≤ 6
      · rw [getFastNumericInvoker_eq hreturn hstdcall hcount, Refused, ← selectLoop_eq_none_iff]
        cases hloop : selectLoop pf ctx.parameterTypes (startFlags pf ctx.returnType) with
        | none => simp
        | some f =>
          have hclear := not_not.mp hstdcall
          cases jsr292 <;> simp [hreturn, hclear, Nat.not_lt.mpr hcount]
      · rw [getFastNumericInvoker, if_neg (by rw [hreturn]; decide), if_neg hstdcall,
          if_pos (Nat.not_le.mp hcount)]
        exact iff_of_true rfl (.inr (.inr (.inr (.inl (Nat.not_le.mp hcount)))))
  · rw [getFastNumericInvoker, if_pos (Bool.not_eq_true _ ▸ hreturn)]
    exact iff_of_true rfl (.inr (.inl (Bool.not_eq_true _ ▸ hreturn)))

/-- A method that is selected is the one for the flags that the loop has left up, for a function
that returns a builtin type. -/
theorem getFastNumericInvoker_eq_some {jsr292 : Bool} {ctx : CallContext pf} {m : ForeignMethod}
    (h : getFastNumericInvoker pf jsr292 ctx = some m) :
    ctx.returnType.isBuiltin = true ∧ ∃ f,
      selectLoop pf ctx.parameterTypes (startFlags pf ctx.returnType) = some f ∧
      m = selectMethod pf ctx f := by
  have hrefused : ¬ Refused pf jsr292 ctx := by
    rw [← getFastNumericInvoker_eq_none_iff, h]
    exact Option.some_ne_none m
  simp only [Refused, not_or, Bool.not_eq_false, Nat.not_lt] at hrefused
  obtain ⟨hjsr, hreturn, hstdcall, hcount, -⟩ := hrefused
  refine ⟨hreturn, ?_⟩
  rw [getFastNumericInvoker_eq hreturn hstdcall hcount] at h
  obtain ⟨f, hloop, hf⟩ := Option.bind_eq_some_iff.mp h
  rw [if_pos hjsr] at hf
  exact ⟨f, hloop, (Option.some.inj hf).symm⟩

/-! ### A sound selection -/

/-- Two calls with the same arguments, the same result narrowed to its type, and the same state
after them, but for what they have logged. -/
structure SameNumbers (pf : Platform) (rtype : FFIType) (c d : NumericCall) : Prop where
  args_eq : c.args = d.args
  memory_eq : c.memory = d.memory
  result_eq : c.result.take (rtype.valueSize pf) = d.result.take (rtype.valueSize pf)
  native : c.native.KeepsHeap d.native
  blocks_eq : d.native.blocks = c.native.blocks

/-- What the caller of an invoker relies on: all types are builtin and fit a slot, and a call does
what one through a buffer does. -/
structure SoundInvoker (pf : Platform) (ctx : CallContext pf) (m : ForeignMethod) : Prop where
  fits : ∀ t ∈ ctx.returnType :: ctx.parameterTypes,
    t.isBuiltin = true ∧ (t.ffiType pf).valueSize pf ≤ 8
  agrees : ∀ (jvm : Jvm) (ld : LongDoubles pf) (callee : Callee) (ns : List (BitVec 64))
    (s : Native), ns.length = ctx.getParameterCount →
      ∃ c d, m.invoke pf ctx.native callee ns s = some c ∧
        invokeNumbers pf jvm ctx ld callee ns s = some d ∧
        SameNumbers pf (ctx.returnType.ffiType pf) c d

/-- The types of the context are builtin and fit a slot, and the entry points can read its
result. -/
def FitsSlots (pf : Platform) (ctx : CallContext pf) : Prop :=
  (∀ t ∈ ctx.parameterTypes, t.isBuiltin = true ∧ (t.ffiType pf).valueSize pf ≤ 8) ∧
    ReturnsInSlot pf (ctx.returnType.ffiType pf)

theorem integral_of_fastIntType {t : FFIType} (h : fastIntType pf.cpu (t.code pf) = true) :
    t.isIntegral = true ∧ t.size pf ≤ 4 := by
  cases t
  case longdouble => cases hld : pf.longDouble.isSome <;> simp [FFIType.code, hld, fastIntType] at h
  case pointer =>
    simp only [FFIType.code, fastIntType, decide_eq_true_eq] at h
    refine ⟨rfl, ?_⟩
    simp [FFIType.size, Platform.ptrSize, h]
  all_goals first | (cases h; done) | exact ⟨rfl, by simp [FFIType.size]⟩

theorem integral_of_fastLongType {t : FFIType} (h : fastLongType pf.cpu (t.code pf) = true) :
    t.isIntegral = true := by
  cases t
  case longdouble =>
    cases hld : pf.longDouble.isSome <;> simp [FFIType.code, hld, fastLongType] at h
  all_goals first | rfl | cases h

theorem integerOrVoid_of_start {n : ℕ} {fast : FFICode → Bool} {t : FFIType}
    (hfast : fast (t.code pf) = true → t.isIntegral = true ∧ t.size pf ≤ n)
    (h : (decide (t.code pf = .void) || fast (t.code pf)) = true) : IntegerOrVoid pf n t := by
  rcases Bool.or_eq_true_iff.mp h with hvoid | h
  · rw [decide_eq_true_eq, code_eq_void] at hvoid
    rw [hvoid]
    exact ⟨Nat.zero_le n, .inl rfl⟩
  · obtain ⟨hint, hsize⟩ := hfast h
    exact ⟨Nat.le_trans (FFIType.valueSize_le_size pf t) hsize, .inr hint⟩

section Selected

variable {ctx : CallContext pf} {f : FastFlags}

/-- **`invokeI…` is selected** for a function of integers an `int` has room for. -/
theorem intOnly_of_selected
    (h : selectLoop pf ctx.parameterTypes (startFlags pf ctx.returnType) = some f)
    (hf : f.int = true) :
    pf.cpu.isX86 = true ∧ IntOnly pf ctx.native.cif.argTypes ∧
      IntegerOrVoid pf 4 ctx.native.cif.rtype := by
  obtain ⟨hstart, htypes⟩ := int_of_selectLoop h hf
  obtain ⟨hreturn, hcpu⟩ := Bool.and_eq_true_iff.mp hstart
  refine ⟨hcpu, ?_, ?_⟩
  · rw [ctx.argTypes_eq]
    intro t ht
    obtain ⟨u, hu, rfl⟩ := List.mem_map.mp ht
    exact integral_of_fastIntType (htypes u hu)
  · rw [ctx.rtype_eq]
    exact integerOrVoid_of_start integral_of_fastIntType hreturn

/-- Where an `invokeL…` method is selected, the machine is an x86 and the function takes and returns
integers. -/
theorem integral_of_selected
    (h : selectLoop pf ctx.parameterTypes (startFlags pf ctx.returnType) = some f)
    (hf : f.long = true) :
    pf.cpu.isX86 = true ∧ (∀ t ∈ ctx.native.cif.argTypes, t.isIntegral = true) ∧
      IntegerOrVoid pf 8 ctx.native.cif.rtype := by
  obtain ⟨hstart, htypes⟩ := long_of_selectLoop h hf
  obtain ⟨hreturn, hcpu⟩ := Bool.and_eq_true_iff.mp hstart
  refine ⟨hcpu, ?_, ?_⟩
  · rw [ctx.argTypes_eq]
    intro t ht
    obtain ⟨u, hu, rfl⟩ := List.mem_map.mp ht
    exact integral_of_fastLongType (htypes u hu)
  · rw [ctx.rtype_eq]
    refine integerOrVoid_of_start (fun h => ?_) hreturn
    have hint := integral_of_fastLongType h
    exact ⟨hint, FFIType.size_le_of_isIntegral hint⟩

end Selected

theorem built_native (ctx : CallContext pf) : Built pf ctx.native := by
  refine ⟨ctx.flags ||| ctx.fixedParamCount <<< 16, ?_⟩
  rw [ctx.rtype_eq, ctx.argTypes_eq]
  exact ctx.flags_eq

/-- The count of fixed parameters is kept out of the flag bits. -/
theorem shiftLeft_and_noErrno (n : BitVec 32) : n <<< 16 &&& F_NOERRNO = 0#32 := by
  ext i hi
  simp only [BitVec.getElem_and, BitVec.getElem_shiftLeft, BitVec.getElem_zero]
  by_cases hlow : i < 16
  · rw [decide_eq_true hlow, Bool.not_true, Bool.false_and, Bool.false_and]
  · have hpow : F_NOERRNO.toNat < 2 ^ i :=
      Nat.lt_of_lt_of_le (by decide) (Nat.pow_le_pow_right (by decide) (Nat.not_lt.mp hlow))
    rw [BitVec.getElem_eq_testBit_toNat F_NOERRNO, Nat.testBit_lt_two_pow hpow, Bool.and_false]

/-- A context made without `saveErrno` saves no error after a call. -/
theorem saveErrno_of_noErrno {ctx : CallContext pf} (h : ctx.flags &&& F_NOERRNO ≠ 0) (s : Native) :
    saveErrno pf ctx.native s = s := by
  have hflags : (ctx.flags ||| ctx.fixedParamCount <<< 16) &&& F_NOERRNO ≠ 0 := by
    rw [BitVec.and_or_distrib_right, shiftLeft_and_noErrno, BitVec.or_zero]
    exact h
  have hclear : ctx.native.flags &&& CALL_CTX_SAVE_ERRNO = 0 := by
    rw [ctx.flags_eq]
    generalize fastFlags pf _ _ _ = fast
    obtain ⟨int, long⟩ := fast
    rw [contextFlags, if_neg hflags]
    by_cases hprot : (ctx.flags ||| ctx.fixedParamCount <<< 16) &&& F_PROTECT ≠ 0
    · rw [if_pos hprot]
      revert int long
      decide
    · rw [if_neg hprot]
      revert int long
      decide
  rw [saveErrno, if_neg (not_not.mpr hclear)]

/-- The selected method passes the low bytes of the numbers and gets the result back, where the
types fit the slots of a `long`. -/
theorem conveys_invoke {jsr292 : Bool} {ctx : CallContext pf} {m : ForeignMethod}
    (h : getFastNumericInvoker pf jsr292 ctx = some m) (hfits : FitsSlots pf ctx) (callee : Callee)
    {ns : List (BitVec 64)} (hlen : ns.length = ctx.getParameterCount) (s : Native) :
    ∃ c, m.invoke pf ctx.native callee ns s = some c ∧
      Conveys pf ctx.native callee (ns.map jlongCells) s c := by
  obtain ⟨-, f, hloop, rfl⟩ := getFastNumericInvoker_eq_some h
  have hcount : (ns.map jlongCells).length = (selectMethod pf ctx f).parameterCount := by
    rw [List.length_map]
    exact hlen
  have hargs : ctx.native.cif.argTypes.length = (ns.map jlongCells).length := by
    rw [ctx.length_argTypes, List.length_map, hlen]
  have hvals := length_jlongCells ns
  rw [ForeignMethod.invoke, if_pos hcount]
  by_cases hint : f.int = true
  · obtain ⟨hcpu, htypes, hrtype⟩ := intOnly_of_selected hloop hint
    have ho := pf.x86_little hcpu
    obtain ⟨c, hc, hconveys⟩ : ∃ c, fastIntInvoke pf ctx.native callee
        ((ns.map jlongCells).map castInt) s = some c ∧
        Conveys pf ctx.native callee ((ns.map jlongCells).map castInt) s c :=
      conveys_invokeI (by rw [List.length_map, hargs]) htypes hrtype (length_castInt hvals) ho
        (Nat.le_refl _) (keepsLow_intResult ho hrtype.1)
    refine ⟨c, ?_, hconveys.of_castInt fun t ht =>
      Nat.le_trans (FFIType.valueSize_le_size pf t) (htypes t ht).2⟩
    have hfamily : (selectMethod pf ctx f).family = .invokeI := if_pos hint
    rw [hfamily]
    dsimp only
    split
    · next hno =>
      have hnoErrno := of_decide_eq_true (Bool.and_eq_true_iff.mp hno).1
      rw [fastIntInvoke_eq] at hc
      simpa only [saveErrno_of_noErrno hnoErrno, Option.map_id'] using hc
    · exact hc
  · by_cases hlong : f.long = true
    · obtain ⟨hcpu, htypes, hrtype⟩ := integral_of_selected hloop hlong
      have ho := pf.x86_little hcpu
      have hfamily : (selectMethod pf ctx f).family = .invokeL := by
        rw [selectMethod, if_neg hint, if_pos hlong]
      rw [hfamily]
      exact conveys_invokeL hargs htypes hrtype hvals ho (keepsLow_longResult ho)
    · have hfamily : (selectMethod pf ctx f).family = .invokeN := by
        rw [selectMethod, if_neg hint, if_neg hlong]
      rw [hfamily]
      refine conveys_callN (built_native ctx) (.of_length hargs ?_ hvals) hvals ?_
      · rw [ctx.argTypes_eq]
        intro t ht
        obtain ⟨u, hu, rfl⟩ := List.mem_map.mp ht
        exact FFIType.size_le_of_valueSize (hfits.1 u hu).2
      · rw [ctx.rtype_eq]
        exact hfits.2

/-- Two calls that convey the same, from states that differ in what was logged. -/
theorem Conveys.sameNumbers {ctx : NativeCallContext} {callee : Callee} {vals : List (List Cell)}
    {s s' : Native} {c d : NumericCall} (hc : Conveys pf ctx callee vals s c)
    (hd : Conveys pf ctx callee vals s' d) (hkeep : s.KeepsHeap s')
    (hmemory : s'.toMemory = s.toMemory) : SameNumbers pf ctx.cif.rtype c d := by
  have hargs : c.args = d.args := hc.args_eq.trans hd.args_eq.symm
  have hcall : c.memory = d.memory := hc.memory_eq.trans (hmemory.symm.trans hd.memory_eq.symm)
  have hnative := hd.native_eq
  rw [← hargs, ← hcall] at hnative
  refine ⟨hargs, hcall, ?_, ?_, ?_⟩
  · rw [hc.result_eq, hd.result_eq, hargs, hcall]
  · rw [hc.native_eq, hnative]
    exact hkeep.saveErrno_returned pf ctx _
  · rw [hc.native_eq, hnative]
    rw [toMemory_saveErrno, toMemory_saveErrno]
    rfl

theorem scalar_of_fits {ctx : CallContext pf}
    (h : ∀ t ∈ ctx.parameterTypes, t.isBuiltin = true ∧ (t.ffiType pf).valueSize pf ≤ 8) :
    ctx.native.Scalar pf := by
  rw [NativeCallContext.Scalar, ctx.argTypes_eq]
  intro t ht
  obtain ⟨u, hu, rfl⟩ := List.mem_map.mp ht
  exact ⟨JType.type_ne_struct pf (h u hu).1, (h u hu).2⟩

/-- Where the types fit the slots of a `long`, the method that is selected is sound. -/
theorem soundInvoker_of_fits {jsr292 : Bool} {ctx : CallContext pf} {m : ForeignMethod}
    (h : getFastNumericInvoker pf jsr292 ctx = some m) (hfits : FitsSlots pf ctx) :
    SoundInvoker pf ctx m := by
  have hreturn := (getFastNumericInvoker_eq_some h).1
  constructor
  · intro t ht
    rcases List.mem_cons.mp ht with rfl | ht
    · exact ⟨hreturn, hfits.2.1⟩
    · exact hfits.1 t ht
  · intro jvm ld callee ns s hlen
    obtain ⟨c, hc, hconveys⟩ := conveys_invoke h hfits callee hlen s
    obtain ⟨d, s', hd, hkeep, hmemory, hgeneric⟩ := conveys_invokeNumbers jvm ctx ld callee s
      (scalar_of_fits hfits.1) (by rw [ctx.rtype_eq]; exact JType.type_ne_struct pf hreturn)
      (by rw [ctx.rtype_eq]; exact hfits.2.1) hlen
    have hsame := hconveys.sameNumbers hgeneric hkeep hmemory
    rw [ctx.rtype_eq] at hsame
    exact ⟨c, d, hc, hd, hsame⟩

/-! ### Results that cannot be read -/

/-- Behind the result that was stored, the variable has the bytes it had before. -/
theorem getElem?_storeResult {rtype : FFIType} {result retval : List Cell} {i : ℕ}
    (h : storeResult pf rtype result (List.replicate 8 .undef) = some retval)
    (hlo : (returnDigits pf rtype result).length ≤ i) (hi : i < 8) :
    retval[i]? = some Cell.undef := by
  rw [getElem?_of_splice h, ByteOrder.length_arrange, if_neg (by omega), List.getElem?_replicate,
    if_pos hi]

/-- **`RETVAL` misses a result** that is neither widened nor as wide as what it looks at. -/
theorem getElem?_RETVAL_zero {rtype : FFIType} (hsize : rtype.valueSize pf ≤ 8)
    (hunread : ¬ ReturnsInSlot pf rtype) {result retval : List Cell}
    (h : storeResult pf rtype result (List.replicate 8 .undef) = some retval) :
    (RETVAL pf rtype retval)[0]? = some Cell.undef := by
  simp only [ReturnsInSlot, hsize, true_and, not_or, Bool.not_eq_true] at hunread
  obtain ⟨hbig, hint, hzero, hne, height⟩ := hunread
  have ho : pf.nativeOrder = .big := by
    cases ho : pf.nativeOrder with
    | little => exact absurd ho hbig
    | big => rfl
  have hsame : rtype.size pf = rtype.valueSize pf := by
    cases rtype <;> first | rfl | exact absurd rfl hzero
  have hdigits : (returnDigits pf rtype result).length = rtype.valueSize pf := by
    rw [length_returnDigits, hint]
    rfl
  have hlen : retval.length = 8 := by simpa using length_of_splice h
  have hptr := pf.ptrSize_eq
  by_cases hlt : pf.ptrSize < rtype.size pf
  · rw [RETVAL, if_pos hlt, retvalJ, ho, ByteOrder.arrange, List.getElem?_reverse (by omega), hlen]
    exact getElem?_storeResult h (by omega) (by decide)
  · have htake : (retval.take pf.ptrSize).length = pf.ptrSize := by
      rw [List.length_take]
      omega
    rw [RETVAL, if_neg hlt, retvalSarg, ho]
    dsimp only [ByteOrder.arrange]
    rw [List.getElem?_append_left (by rw [List.length_reverse]; omega),
      List.getElem?_reverse (by omega), htake, List.getElem?_take, if_pos (by omega)]
    exact getElem?_storeResult h (by omega) (by omega)

theorem throughFfi_eq_some {ctx : NativeCallContext} {room : ℕ} {read : List Cell → List Cell}
    {callee : Callee} {vals : List (List Cell)} {s : Native} {c : NumericCall}
    (h : throughFfi pf ctx room read callee vals s = some c) :
    ∃ args retval, storeResult pf ctx.cif.rtype (callee args s.toMemory).result
      (List.replicate room .undef) = some retval ∧ c.result = read retval := by
  obtain ⟨i, hi, rfl⟩ := Option.map_eq_some_iff.mp h
  unfold ffiCallN at hi
  split at hi
  · obtain ⟨args, -, hi⟩ := Option.bind_eq_some_iff.mp hi
    obtain ⟨retval, hretval, hi⟩ := Option.bind_eq_some_iff.mp hi
    cases hi
    exact ⟨args, retval, hretval, rfl⟩
  · cases hi

/-- On a big-endian machine the selected method calls the function through libffi. -/
theorem invoke_of_big {ctx : CallContext pf} {f : FastFlags} (ho : pf.nativeOrder = .big)
    (hloop : selectLoop pf ctx.parameterTypes (startFlags pf ctx.returnType) = some f)
    {callee : Callee} {ns : List (BitVec 64)} (hlen : ns.length = ctx.getParameterCount)
    (s : Native) :
    (selectMethod pf ctx f).invoke pf ctx.native callee ns s =
      throughFfi pf ctx.native 8 (RETVAL pf ctx.native.cif.rtype) callee (ns.map jlongCells) s := by
  have hcpu : pf.cpu.isX86 = false := by
    by_contra hx86
    have hlittle := pf.x86_little (Bool.not_eq_false _ ▸ hx86)
    rw [ho] at hlittle
    cases hlittle
  have hstart : startFlags pf ctx.returnType = ⟨false, false⟩ := by
    rw [startFlags, hcpu, Bool.and_false, Bool.and_false]
  have hf : f = ⟨false, false⟩ := by
    rw [hstart] at hloop
    cases hts : ctx.parameterTypes with
    | nil =>
      rw [hts] at hloop
      exact (Option.some.inj hloop).symm
    | cons t ts =>
      rw [hts] at hloop
      exact (Option.some.inj hloop).symm
  have hint : intBypass pf = false := by rw [intBypass, hcpu, Bool.false_and]
  have hlong : longBypass pf = false := by
    rw [longBypass]
    cases hx : pf.cpu <;> first | rfl | (rw [hx] at hcpu; cases hcpu)
  have hcount : (ns.map jlongCells).length = (selectMethod pf ctx f).parameterCount := by
    rw [List.length_map]
    exact hlen
  rw [ForeignMethod.invoke, if_pos hcount, hf]
  change callN pf ctx.native callee (ns.map jlongCells) s = _
  rw [callN, if_neg (by rw [hlong]; simp), if_neg (by rw [hint]; simp)]

/-- Zero, as a result of any type. -/
def zeroCallee : Callee := fun _ m => ⟨m, List.replicate 8 (.byte 0), none, none⟩

/-- **A sound selection** is of a function whose result can be read. -/
theorem returnsInSlot_of_sound {jsr292 : Bool} {ctx : CallContext pf} {m : ForeignMethod}
    (h : getFastNumericInvoker pf jsr292 ctx = some m) (hsound : SoundInvoker pf ctx m) :
    ReturnsInSlot pf (ctx.returnType.ffiType pf) := by
  by_contra hunread
  obtain ⟨hreturn, hsize⟩ := hsound.fits ctx.returnType (List.mem_cons_self ..)
  have hbig : pf.nativeOrder = .big := by
    cases ho : pf.nativeOrder with
    | little => exact absurd ⟨hsize, .inl ho⟩ hunread
    | big => rfl
  have hpos : 0 < (ctx.returnType.ffiType pf).valueSize pf :=
    Nat.pos_of_ne_zero fun hzero => hunread ⟨hsize, .inr (.inr (.inl hzero))⟩
  obtain ⟨-, f, hloop, rfl⟩ := getFastNumericInvoker_eq_some h
  let ld : LongDoubles pf := .nearest pf
  let s : Native := ⟨⟨[], [], fun _ => .undef, ⟨0, 0⟩⟩, none, 0, 0, 0, []⟩
  have hlen : (List.replicate ctx.getParameterCount (0 : BitVec 64)).length =
      ctx.getParameterCount := List.length_replicate ..
  obtain ⟨c, d, hc, hd, hsame⟩ := hsound.agrees .reliable ld zeroCallee _ s hlen
  rw [invoke_of_big hbig hloop hlen] at hc
  obtain ⟨args, retval, hretval, hresult⟩ := throughFfi_eq_some hc
  rw [ctx.rtype_eq] at hretval hresult
  obtain ⟨d', s', hd', -, -, hgeneric⟩ := conveys_invokeNumbers .reliable ctx ld zeroCallee s
    (scalar_of_fits fun t ht => hsound.fits t (List.mem_cons_of_mem _ ht))
    (by rw [ctx.rtype_eq]; exact JType.type_ne_struct pf hreturn)
    (by rw [ctx.rtype_eq]; exact hsize) hlen
  obtain rfl := Option.some.inj (hd.symm.trans hd')
  have hnarrowed := hsame.result_eq.trans (ctx.rtype_eq ▸ hgeneric.result_eq)
  have hfirst := congrArg (fun cells : List Cell => cells[0]?) hnarrowed
  rw [hresult] at hfirst
  simp only [List.getElem?_take, getElem?_fitResult, if_pos hpos,
    getElem?_RETVAL_zero hsize hunread hretval] at hfirst
  change some Cell.undef = some (Cell.byte 0) at hfirst
  cases hfirst

/-- **The selection is sound** for the contexts it refuses, and for those whose types fit; the
others it should have refused. -/
theorem invoker_sound_iff (pf : Platform) (jsr292 : Bool) (ctx : CallContext pf) :
    (∀ m, getFastNumericInvoker pf jsr292 ctx = some m → SoundInvoker pf ctx m) ↔
      Refused pf jsr292 ctx ∨ FitsSlots pf ctx := by
  constructor
  · intro hsound
    cases h : getFastNumericInvoker pf jsr292 ctx with
    | none => exact .inl (getFastNumericInvoker_eq_none_iff.mp h)
    | some m =>
      have hm := hsound m h
      exact .inr ⟨fun t ht => hm.fits t (List.mem_cons_of_mem _ ht), returnsInSlot_of_sound h hm⟩
  · rintro (hrefused | hfits) m h
    · rw [getFastNumericInvoker_eq_none_iff.mpr hrefused] at h
      cases h
    · exact soundInvoker_of_fits h hfits

/-- A function of a struct that returns a `double`. -/
def doubleOfStruct : CallContext .linuxX64 :=
  (CallContext.create .linuxX64 .accepting (.builtin .double) 1 [.aggregate 16 8] .default true
    false).get (by decide)

/-- A `double` of a struct: both flags are down before the struct is looked at, so that a method for
numbers is selected. -/
theorem not_invoker_sound_doubleOfStruct :
    ¬ ∀ m, getFastNumericInvoker .linuxX64 true doubleOfStruct = some m →
      SoundInvoker .linuxX64 doubleOfStruct m := by
  intro hsound
  have hm := hsound ⟨.invokeN, 1, false, .long⟩ (by decide)
  exact absurd (hm.fits (.aggregate 16 8) (by decide)).1 (by decide)

end Jffi
