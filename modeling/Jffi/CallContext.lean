import Jffi.Memory

/-!
# Call contexts

`newCallContext` builds the native description of a function: it records the types for libffi and
decides in passing whether the fast numeric entry points may call the function directly. The Java
`CallContext` keeps the types together with the native structure, and carries the fact that the
two agree.

libffi's verdict on a description and the answers of `calloc` are parameters.

## Main definitions

* `NativeCallContext`, `newCallContext` — the structure `CallContext` of the C sources
* `FastFlags` — `isFastInt` and `isFastLong`, the running flags of the parameter loop
* `CallContext`, `CallContext.create` — the class of the Java sources

## Main results

* `newCallContext_handle` — what a returned handle points to
-/

namespace Jffi

/-! ### The native structure -/

inductive Abi
  | defaultAbi
  | stdcall
  deriving DecidableEq, Repr

/-- `ffi_cif`, as `ffi_prep_cif` and `ffi_prep_cif_var` fill it. -/
structure Cif where
  abi : Abi
  /-- The number of fixed arguments of a variadic call, `none` when the call is not variadic. -/
  nfixed : Option ℤ
  argTypes : List FFIType
  rtype : FFIType
  deriving DecidableEq, Repr

def CALL_CTX_SAVE_ERRNO : BitVec 32 := 0x1
def CALL_CTX_FAST_INT : BitVec 32 := 0x2
def CALL_CTX_FAST_LONG : BitVec 32 := 0x4
def CALL_CTX_FAULT_PROT : BitVec 32 := 0x8

def F_DEFAULT : BitVec 32 := 0x0
def F_STDCALL : BitVec 32 := 0x1
def F_NOERRNO : BitVec 32 := 0x2
def F_PROTECT : BitVec 32 := 0x4

/-- The C structure `CallContext`. -/
structure NativeCallContext where
  cif : Cif
  rawParameterSize : ℤ
  rawParamOffsets : List ℤ
  flags : BitVec 32
  /-- `error_fn`: the value the function answers, when one is set. -/
  errorFn : Option ℤ
  deriving DecidableEq, Repr

/-- The answers of libffi to a description. -/
inductive PrepStatus
  | ok | badTypedef | badAbi | badArgType | other
  deriving DecidableEq, Repr

/-- The three allocations of `newCallContext`. -/
inductive ContextPart
  | context | ffiParamTypes | rawParamOffsets
  deriving DecidableEq, Repr

/-- The exceptions `newCallContext` throws. -/
inductive ContextExn
  | allocation (part : ContextPart)
  | invalidParameterType
  | badTypedef
  | invalidAbi
  | badArgumentType
  | unknownError
  deriving DecidableEq, Repr

def ContextExn.className : ContextExn → String
  | .allocation _ => "java/lang/OutOfMemoryError"
  | .invalidParameterType | .badTypedef => "java/lang/IllegalArgumentException"
  | .invalidAbi | .badArgumentType | .unknownError => "java/lang/RuntimeException"

def ContextExn.message : ContextExn → String
  | .allocation .context => "Failed to allocate CallContext"
  | .allocation .ffiParamTypes => "Failed to allocate CallContext#ffiParamTypes"
  | .allocation .rawParamOffsets => "Failed to allocate CallContext#rawParamOffsets"
  | .invalidParameterType => "Invalid parameter type: " ++ hex 0
  | .badTypedef => "Bad typedef"
  | .invalidAbi => "Invalid ABI"
  | .badArgumentType => "Bad argument type"
  | .unknownError => "Unknown FFI error"

/-- What the libraries below answer while a context is built. -/
structure ContextLibs where
  callocFails : ContextPart → Bool
  /-- `ffi_prep_cif` and `ffi_prep_cif_var`. -/
  prep : Cif → PrepStatus

/-- Libraries that meet every request. -/
def ContextLibs.accepting : ContextLibs := ⟨fun _ => false, fun _ => .ok⟩

/-- A call of `newCallContext`: the handle it returns, what it throws, and its allocations. -/
structure NewContext where
  handle : Option NativeCallContext
  thrown : List ContextExn
  allocated : List ContextPart
  freed : List ContextPart
  deriving DecidableEq, Repr

/-! ### The fast flags -/

/-- `isFastInt` and `isFastLong`. -/
structure FastFlags where
  int : Bool
  long : Bool
  deriving DecidableEq, Repr

variable (pf : Platform)

/-- The `switch` on a parameter type, compiled on x86 only. -/
def fastParam (f : FastFlags) (type : FFIType) : FastFlags :=
  if pf.cpu.isX86 then
    match type.code pf with
    | .int | .sint8 | .uint8 | .sint16 | .uint16 | .sint32 | .uint32 =>
      if pf.cpu = .x86_64 then f else { f with long := false }
    | .sint64 | .uint64 => { f with int := false }
    | .pointer => if pf.cpu = .i386 then { f with long := false } else { f with int := false }
    | _ => ⟨false, false⟩
  else f

/-- The flags the return type starts the loop with: its `switch` is that of a parameter, but for
`void`, which leaves both set. -/
def fastReturn (returnType : FFIType) : FastFlags :=
  if pf.cpu.isX86 then
    match returnType.code pf with
    | .void => ⟨true, true⟩
    | _ => fastParam pf ⟨true, true⟩ returnType
  else ⟨false, false⟩

/-! ### `newCallContext` -/

/-- `FFI_ALIGN(v, a)` on a size, squeezed into an `int`. -/
def ffiAlign (v a : ℕ) : ℤ := toJint (if v = 0 then 0 else ((v - 1) ||| (a - 1) : ℕ) + 1)

/-- The variables of the parameter loop. -/
structure ParamLoop where
  ffiParamTypes : List FFIType
  rawParamOffsets : List ℤ
  rawOffset : ℤ
  fast : FastFlags

/-- One round of the loop; a `NULL` type ends it. -/
def paramStep (l : ParamLoop) (handle : Option FFIType) : Option ParamLoop :=
  handle.map fun type =>
    { ffiParamTypes := l.ffiParamTypes ++ [type]
      rawParamOffsets := l.rawParamOffsets ++ [l.rawOffset]
      rawOffset := toJint (l.rawOffset + ffiAlign (type.size pf) pf.ptrSize)
      fast := fastParam pf l.fast type }

/-- The ABI passed to libffi: only 32 bit Windows knows `stdcall`. -/
def contextAbi (flags : BitVec 32) : Abi :=
  if pf.windows = true ∧ pf.ptrSize = 4 ∧ flags &&& F_STDCALL ≠ 0 then .stdcall else .defaultAbi

/-- `ctx->flags`. -/
def contextFlags (flags : BitVec 32) (fast : FastFlags) : BitVec 32 :=
  (if flags &&& F_NOERRNO = 0 then CALL_CTX_SAVE_ERRNO else 0) |||
    (if fast.int then CALL_CTX_FAST_INT else 0) |||
    (if fast.long then CALL_CTX_FAST_LONG else 0) |||
    (if flags &&& F_PROTECT ≠ 0 then CALL_CTX_FAULT_PROT else 0)

/-- What a filled structure leads to: libffi is asked, and every verdict but an unknown one ends
the call. -/
def prepContext (libs : ContextLibs) (ctx : NativeCallContext) : NewContext :=
  let allocated := [.context, .ffiParamTypes, .rawParamOffsets]
  let cleanup (e : ContextExn) : NewContext :=
    ⟨none, [e], allocated, [.rawParamOffsets, .ffiParamTypes, .context]⟩
  match libs.prep ctx.cif with
  | .ok => ⟨some ctx, [], allocated, []⟩
  | .badTypedef => cleanup .badTypedef
  | .badAbi => cleanup .invalidAbi
  | .badArgType => cleanup .badArgumentType
  | .other => ⟨some ctx, [.unknownError], allocated, []⟩

def newCallContext (libs : ContextLibs) (returnType : FFIType) (paramArray : List (Option FFIType))
    (flags : BitVec 32) : NewContext :=
  let fixedParamCount := (flags.sshiftRight 16).toInt
  if libs.callocFails .context then ⟨none, [.allocation .context], [], []⟩
  else if libs.callocFails .ffiParamTypes then
    ⟨none, [.allocation .ffiParamTypes], [.context], [.context]⟩
  else if libs.callocFails .rawParamOffsets then
    ⟨none, [.allocation .rawParamOffsets], [.context, .ffiParamTypes], [.ffiParamTypes, .context]⟩
  else
    match paramArray.foldlM (paramStep pf) ⟨[], [], 0, fastReturn pf returnType⟩ with
    | none =>
      ⟨none, [.invalidParameterType], [.context, .ffiParamTypes, .rawParamOffsets],
        [.rawParamOffsets, .ffiParamTypes, .context]⟩
    | some l =>
      let abi := contextAbi pf flags
      -- Cannot bypass FFI unless ABI is cdecl
      let fast := if abi = .defaultAbi then l.fast else ⟨false, false⟩
      prepContext libs
        { cif :=
            { abi := abi
              nfixed := if fixedParamCount = paramArray.length then none else some fixedParamCount
              argTypes := l.ffiParamTypes
              rtype := returnType }
          rawParameterSize := l.rawOffset
          rawParamOffsets := l.rawParamOffsets
          flags := contextFlags flags fast
          errorFn := none }

/-- For types none of which is `NULL` the loop runs to its end: it has collected them in order, and
looked at each for the fast paths. -/
theorem foldlM_paramStep (types : List FFIType) (l : ParamLoop) :
    ∃ l', (types.map some).foldlM (paramStep pf) l = some l' ∧
      l'.ffiParamTypes = l.ffiParamTypes ++ types ∧
      l'.fast = types.foldl (fastParam pf) l.fast := by
  induction types generalizing l with
  | nil => exact ⟨l, rfl, by simp, rfl⟩
  | cons t ts ih =>
    obtain ⟨l', hl, htypes, hfast⟩ :=
        ih ⟨l.ffiParamTypes ++ [t], l.rawParamOffsets ++ [l.rawOffset],
      toJint (l.rawOffset + ffiAlign (t.size pf) pf.ptrSize), fastParam pf l.fast t⟩
    exact ⟨l', hl, by simpa using htypes, hfast⟩

/-- The flags `newCallContext` computes for a signature. -/
def fastFlags (returnType : FFIType) (types : List FFIType) (flags : BitVec 32) : FastFlags :=
  if contextAbi pf flags = .defaultAbi then types.foldl (fastParam pf) (fastReturn pf returnType)
  else ⟨false, false⟩

theorem handle_prepContext {libs : ContextLibs} {ctx ctx' : NativeCallContext}
    (h : (prepContext libs ctx).handle = some ctx') : ctx' = ctx := by
  unfold prepContext at h
  cases hprep : libs.prep ctx.cif <;> simp_all

/-- **What a handle points to**: the types that `newCallContext` was given, no error function yet,
and flags that depend on the types and on what was asked for. -/
theorem newCallContext_handle {libs : ContextLibs} {returnType : FFIType} {types : List FFIType}
    {flags : BitVec 32} {ctx : NativeCallContext}
    (h : (newCallContext pf libs returnType (types.map some) flags).handle = some ctx) :
    ctx.cif.argTypes = types ∧ ctx.cif.rtype = returnType ∧ ctx.errorFn = none ∧
      ctx.flags = contextFlags flags (fastFlags pf returnType types flags) := by
  obtain ⟨l, hl, htypes, hfast⟩ :=
    foldlM_paramStep pf types ⟨[], [], 0, fastReturn pf returnType⟩
  simp only [newCallContext, hl] at h
  split at h
  · cases h
  split at h
  · cases h
  split at h
  · cases h
  rw [handle_prepContext h]
  refine ⟨by simpa using htypes, rfl, rfl, ?_⟩
  simp only [fastFlags, hfast]

/-- A `NULL` among the types ends the loop with an exception, and no context is returned. -/
theorem foldlM_paramStep_none {paramArray : List (Option FFIType)} (h : none ∈ paramArray)
    (l : ParamLoop) : paramArray.foldlM (paramStep pf) l = none := by
  induction paramArray generalizing l with
  | nil => cases h
  | cons t ts ih =>
    rw [List.foldlM_cons]
    cases t with
    | none => rfl
    | some t => exact ih (by simpa using h) _

/-- A description that is accepted has a type for every parameter. -/
theorem exists_types {libs : ContextLibs} {returnType : FFIType} {flags : BitVec 32}
    {paramArray : List (Option FFIType)} {ctx : NativeCallContext}
    (h : (newCallContext pf libs returnType paramArray flags).handle = some ctx) :
    ∃ types : List FFIType, paramArray = types.map some := by
  by_cases hnone : none ∈ paramArray
  · simp only [newCallContext, foldlM_paramStep_none pf hnone] at h
    split at h
    · cases h
    split at h
    · cases h
    split at h
    · cases h
    · cases h
  · refine ⟨paramArray.filterMap id, ?_⟩
    clear h
    induction paramArray with
    | nil => rfl
    | cons t ts ih =>
      have htail := ih fun hmem => hnone (List.mem_cons_of_mem t hmem)
      cases t with
      | none => exact absurd (List.mem_cons_self ..) hnone
      | some t => simpa using htail

/-! ### The Java class -/

inductive CallingConvention
  | default
  | stdcall
  deriving DecidableEq, Repr

/-- The class `CallContext`, together with the native structure at its `contextAddress`. -/
structure CallContext where
  returnType : JType
  parameterTypes : List JType
  fixedParamCount : BitVec 32
  flags : BitVec 32
  native : NativeCallContext
  /-- `newCallContext` had to find room for the handles of the types on the stack. -/
  parameterCount_lt : parameterTypes.length < 2 ^ 28
  argTypes_eq : native.cif.argTypes = parameterTypes.map (JType.ffiType pf)
  rtype_eq : native.cif.rtype = returnType.ffiType pf
  flags_eq : native.flags = contextFlags (flags ||| fixedParamCount <<< 16)
    (fastFlags pf (returnType.ffiType pf) (parameterTypes.map (JType.ffiType pf))
      (flags ||| fixedParamCount <<< 16))

namespace CallContext

/-- The `flags` of the constructor. -/
def javaFlags (convention : CallingConvention) (saveErrno faultProtect : Bool) : BitVec 32 :=
  (if saveErrno then 0 else F_NOERRNO) |||
    (if convention = .stdcall then F_STDCALL else F_DEFAULT) |||
    (if faultProtect then F_PROTECT else 0)

/-- `new CallContext(…)`: `none` when it throws, be it the exception native code left pending or
the one for a handle of zero, and when there is no stack for the types. -/
def create (libs : ContextLibs) (returnType : JType) (fixedParamCount : BitVec 32)
    (parameterTypes : List JType) (convention : CallingConvention)
    (saveErrno faultProtect : Bool) : Option (CallContext pf) :=
  let flags := javaFlags convention saveErrno faultProtect
  let result := newCallContext pf libs (returnType.ffiType pf)
    ((parameterTypes.map (JType.ffiType pf)).map some) (flags ||| fixedParamCount <<< 16)
  if hroom : parameterTypes.length < 2 ^ 28 then
    if result.thrown = [] then
      match h : result.handle with
      | none => none
      | some ctx =>
        some
          { returnType := returnType
            parameterTypes := parameterTypes
            fixedParamCount := fixedParamCount
            flags := flags
            native := ctx
            parameterCount_lt := hroom
            argTypes_eq := (newCallContext_handle pf h).1
            rtype_eq := (newCallContext_handle pf h).2.1
            flags_eq := (newCallContext_handle pf h).2.2.2 }
    else none
  else none

variable {pf}

def getParameterCount (ctx : CallContext pf) : ℕ := ctx.parameterTypes.length

/-- `getParameterType(index)`: throws past the end. -/
def getParameterType (ctx : CallContext pf) (index : ℕ) : Option JType := ctx.parameterTypes[index]?

@[simp] theorem length_argTypes (ctx : CallContext pf) :
    ctx.native.cif.argTypes.length = ctx.getParameterCount := by
  rw [ctx.argTypes_eq, List.length_map, getParameterCount]

end CallContext

/-- The context of a function of one pointer. -/
def onePointer : CallContext .linuxX64 :=
  (CallContext.create .linuxX64 .accepting (.builtin .void) 1 [.builtin .pointer] .default true
    false).get (by decide)

end Jffi
