import Jffi.Libffi.ArgumentPassing
import Jffi.Libffi.InitializeAggregate
import Mathlib.Data.List.Forall2

/-!
# Which signatures libffi accepts

`newCallContext` asks libffi to prepare the description of a function. What comes back decides
whether there is a `CallContext`. On x86-64 nothing is refused but parameters behind the fixed ones
of a variadic function, which C would have promoted: libffi wants no `float` there, and no integer
shorter than an `int`.

The number of fixed parameters arrives in the upper half of an `int` and is shifted out of it with
its sign. What reaches libffi is thus its low 16 bits with their sign: a number from 2¹⁵ to 2¹⁶ - 1
becomes a negative one, which is a large one to libffi, and 65537 becomes 1.

## Main definitions

* `ffiPrepCifCore`, `ffiPrepCif`, `ffiPrepCifVar`
* `fixedArgs` — the number of fixed parameters that reaches libffi
* `Unpromoted` — a parameter that cannot follow the fixed ones

## Main results

* `newCallContext_linuxX64` — what `newCallContext` does
* `create_eq_none_iff` — when there is no `CallContext`
-/

namespace Jffi

/-! ### `prep_cif.c` -/

/-- Initialize any uninitialized aggregate type definitions. -/
def initializeType (t : FfiType .linuxX64) : Option (FfiType .linuxX64) :=
  if t.size = 0 then (initializeAggregate t).map Prod.fst else some t

/-- `ffi_prep_cif_core`. There is no result where the machine dependent part aborts. -/
def ffiPrepCifCore (rtype : FfiType .linuxX64) (atypes : List (FfiType .linuxX64)) :
    Option (Except PrepStatus Cif64) :=
  match initializeType rtype, atypes.mapM initializeType with
  | some rtype, some atypes => (prepCifMachdep rtype atypes).map .ok
  | _, _ => some (.error .badTypedef)

/-- `ffi_prep_cif`. -/
def ffiPrepCif (rtype : FfiType .linuxX64) (atypes : List (FfiType .linuxX64)) :
    Option (Except PrepStatus Cif64) := ffiPrepCifCore rtype atypes

/-- The condition of the loop of `ffi_prep_cif_var`. No `ffi_type` but `ffi_type_float` has its type
code. -/
def isUnpromotable (argType : FfiType .linuxX64) : Bool :=
  decide (argType.type = .float ∨ (argType.type ≠ .struct ∧ argType.size < 4))

/-- `ffi_prep_cif_var`. -/
def ffiPrepCifVar (nfixedargs : BitVec 32) (rtype : FfiType .linuxX64)
    (atypes : List (FfiType .linuxX64)) : Option (Except PrepStatus Cif64) :=
  (ffiPrepCifCore rtype atypes).map fun rc => do
    let cif ← rc
    if (atypes.drop nfixedargs.toNat).any isUnpromotable then .error .badArgType else .ok cif

def statusOf : Except PrepStatus Cif64 → PrepStatus
  | .error e => e
  | .ok _ => .ok

/-- The status that `newCallContext` sees. -/
def prepStatus (nfixed : Option ℤ) (rtype : FfiType .linuxX64)
    (atypes : List (FfiType .linuxX64)) : Option PrepStatus :=
  match nfixed with
  | none => (ffiPrepCif rtype atypes).map statusOf
  | some n => (ffiPrepCifVar (BitVec.ofInt 32 n) rtype atypes).map statusOf

/-! ### Types that can be prepared -/

theorem Describes.size_ne_zero {t : FFIType} {ft : FfiType .linuxX64} (h : Describes t ft) :
    ft.size ≠ 0 := by
  intro hzero
  have hnat : ft.size.toNat = 0 := congrArg BitVec.toNat hzero
  cases h with
  | void => cases hnat
  | scalar _ hs => exact absurd hnat (Nat.ne_of_gt (Natural.scalar t hs).size_pos)
  | struct hnatural => exact absurd hnat (Nat.ne_of_gt hnatural.size_pos)

theorem Describes.initializeType {t : FFIType} {ft : FfiType .linuxX64} (h : Describes t ft) :
    initializeType ft = some ft := if_neg h.size_ne_zero

theorem Describes.exists_examined {t : FFIType} {ft : FfiType .linuxX64} (h : Describes t ft) :
    ∃ e, examineArgument ft false = some e := by
  cases h with
  | void => exact ⟨_, rfl⟩
  | scalar _ hs => exact ⟨_, (Natural.scalar t hs).examineArgument_eq⟩
  | struct hnatural => exact ⟨_, hnatural.examineArgument_eq⟩

theorem exists_foldlM_prepStep {argTypes : List FFIType} {types : List (FfiType .linuxX64)}
    (h : List.Forall₂ Describes argTypes types) (l : RegCounts × SizeT .linuxX64) :
    ∃ l', types.foldlM prepStep l = some l' := by
  induction h generalizing l with
  | nil => exact ⟨l, rfl⟩
  | @cons t ft ts fts hhead htail ih =>
    obtain ⟨e, he⟩ := hhead.exists_examined
    obtain ⟨l₁, hstep⟩ : ∃ l₁, prepStep l ft = some l₁ := by
      rw [prepStep, he]
      simp only [Option.bind_eq_bind, Option.bind_some]
      split
      · exact ⟨_, rfl⟩
      · exact ⟨_, rfl⟩
    obtain ⟨l', hloop⟩ := ih l₁
    exact ⟨l', by rw [List.foldlM_cons, hstep]; exact hloop⟩

theorem mapM_initializeType {argTypes : List FFIType} {types : List (FfiType .linuxX64)}
    (h : List.Forall₂ Describes argTypes types) : types.mapM initializeType = some types := by
  induction h with
  | nil => rfl
  | cons hhead htail ih =>
    rw [List.mapM_cons, hhead.initializeType]
    simp only [Option.bind_eq_bind, Option.bind_some, ih]
    rfl

/-- `ffi_prep_cif_core` succeeds for every function over types that `Describes` knows. -/
theorem ffiPrepCifCore_spec {returnType : FFIType} {rtype : FfiType .linuxX64}
    (hrtype : Describes returnType rtype) {argTypes : List FFIType}
    {types : List (FfiType .linuxX64)} (htypes : List.Forall₂ Describes argTypes types) :
    ∃ cif, ffiPrepCifCore rtype types = some (.ok cif) := by
  obtain ⟨flags, hflags⟩ := hrtype.returnsNaturally.flags
  obtain ⟨l, hl⟩ := exists_foldlM_prepStep htypes (firstCounts flags, 0)
  rw [ffiPrepCifCore, hrtype.initializeType, mapM_initializeType htypes]
  simp only [prepCifMachdep, hflags, Option.bind_eq_bind, Option.bind_some, hl]
  exact ⟨_, rfl⟩

/-- C promotes it behind the fixed parameters of a variadic function. -/
def Unpromoted (t : FFIType) : Prop :=
  t = .float ∨ (t.code .linuxX64 ≠ .struct ∧ t.size .linuxX64 < 4)

instance (t : FFIType) : Decidable (Unpromoted t) := inferInstanceAs (Decidable (_ ∨ _))

theorem Describes.unpromotable_iff {t : FFIType} {ft : FfiType .linuxX64} (h : Describes t ft) :
    isUnpromotable ft = true ↔ Unpromoted t := by
  cases h with
  | void => decide
  | scalar _ hs =>
    cases t with
    | struct => cases hs
    | _ => decide
  | struct hnatural hstruct =>
    simp [isUnpromotable, Unpromoted, hstruct, FFIType.code]

/-! ### The number of fixed parameters -/

/-- What reaches libffi of the number of fixed parameters, as an unsigned number. -/
def fixedArgs (fixedParamCount : BitVec 32) : BitVec 32 :=
  (fixedParamCount.setWidth 16).signExtend 32

/-- The upper half of the flags, shifted out with its sign. -/
theorem sshiftRight_or_shiftLeft {flags : BitVec 32} (hflags : flags.toNat < 2 ^ 16)
    (fixedParamCount : BitVec 32) :
    (flags ||| fixedParamCount <<< 16).sshiftRight 16 = fixedArgs fixedParamCount := by
  have hhigh (k : ℕ) (hk : 16 ≤ k) (h : k < 32) : flags[k] = false := by
    rw [← BitVec.getLsbD_eq_getElem]
    exact Nat.testBit_lt_two_pow
      (Nat.lt_of_lt_of_le hflags (Nat.pow_le_pow_right (by decide) hk))
  refine BitVec.eq_of_getLsbD_eq fun i hi => ?_
  rw [fixedArgs, BitVec.getLsbD_sshiftRight, BitVec.getLsbD_signExtend, BitVec.msb_setWidth]
  have h32 : ¬32 ≤ i := by omega
  by_cases hlow : i < 16
  · have hlt : 16 + i < 32 := by omega
    simp [hhigh (16 + i) (by omega) hlt, hi, h32, hlow, hlt]
  · have hge : ¬16 + i < 32 := by omega
    simp [hhigh 31 (by decide) (by decide), hi, h32, hlow, hge, BitVec.msb_eq_getLsbD_last]

theorem toNat_javaFlags_lt (convention : CallingConvention) (saveErrno faultProtect : Bool) :
    (CallContext.javaFlags convention saveErrno faultProtect).toNat < 2 ^ 16 := by
  cases convention <;> cases saveErrno <;> cases faultProtect <;> decide

/-! ### `newCallContext` -/

theorem any_isUnpromotable {argTypes : List FFIType} {types : List (FfiType .linuxX64)}
    (h : List.Forall₂ Describes argTypes types) :
    types.any isUnpromotable = true ↔ ∃ t ∈ argTypes, Unpromoted t := by
  induction h with
  | nil => simp
  | cons hhead htail ih =>
    rw [List.any_cons, Bool.or_eq_true, hhead.unpromotable_iff, ih]
    simp

theorem prepContext_eq {libs : ContextLibs} {ctx : NativeCallContext} {p : Prop} [Decidable p]
    (h : libs.prep ctx.cif = if p then .badArgType else .ok) :
    prepContext libs ctx =
      if p then
        ⟨none, [.badArgumentType], [.context, .ffiParamTypes, .rawParamOffsets],
          [.rawParamOffsets, .ffiParamTypes, .context]⟩
      else ⟨some ctx, [], [.context, .ffiParamTypes, .rawParamOffsets], []⟩ := by
  rw [prepContext, h]
  by_cases hp : p
  · rw [if_pos hp, if_pos hp]
  · rw [if_neg hp, if_neg hp]

section Verdict

variable {returnType : FFIType} {rtype : FfiType .linuxX64} (hrtype : Describes returnType rtype)
  {argTypes : List FFIType} {types : List (FfiType .linuxX64)}
  (htypes : List.Forall₂ Describes argTypes types)

include hrtype htypes

/-- The verdict on a function with `count` fixed parameters: a bad type, if and only if one of the
others was not promoted. -/
theorem prepStatus_eq (count : BitVec 32) {nfixed : Option ℤ}
    (hnfixed : nfixed = if count.toInt = argTypes.length then none else some count.toInt)
    (hroom : argTypes.length < 2 ^ 28) :
    prepStatus nfixed rtype types =
      some (if ∃ t ∈ argTypes.drop count.toNat, Unpromoted t then .badArgType else .ok) := by
  obtain ⟨cif, hcif⟩ := ffiPrepCifCore_spec hrtype htypes
  subst hnfixed
  by_cases hcount : count.toInt = argTypes.length
  · -- no parameter is behind the fixed ones
    have hnat : count.toNat = argTypes.length := by
      rw [BitVec.toInt_eq_toNat_cond] at hcount
      have := count.isLt
      split at hcount <;> omega
    rw [if_pos hcount, if_neg (by rw [hnat, List.drop_length]; simp), prepStatus, ffiPrepCif, hcif]
    rfl
  · have hany := any_isUnpromotable (List.forall₂_drop count.toNat htypes)
    rw [if_neg hcount, prepStatus, ffiPrepCifVar, hcif, BitVec.ofInt_toInt]
    by_cases hbad : ∃ t ∈ argTypes.drop count.toNat, Unpromoted t
    · rw [if_pos hbad]
      simp only [Option.map_some, bind, Except.bind, if_pos (hany.mpr hbad)]
      rfl
    · rw [if_neg hbad]
      simp only [Option.map_some, bind, Except.bind, if_neg (mt hany.mp hbad)]
      rfl

/-- **`newCallContext` on x86-64**: either all is well, or the parameters behind the fixed ones are
refused, and nothing stays allocated. -/
theorem newCallContext_linuxX64 {libs : ContextLibs}
    (hcalloc : ∀ part, libs.callocFails part = false)
    (hprep : ∀ cif : Cif, cif.rtype = returnType → cif.argTypes = argTypes →
      some (libs.prep cif) = prepStatus cif.nfixed rtype types)
    (hroom : argTypes.length < 2 ^ 28) {flags : BitVec 32} (hflags : flags.toNat < 2 ^ 16)
    (fixedParamCount : BitVec 32) :
    ∃ ctx, newCallContext .linuxX64 libs returnType (argTypes.map some)
        (flags ||| fixedParamCount <<< 16) =
      if ∃ t ∈ argTypes.drop (fixedArgs fixedParamCount).toNat, Unpromoted t then
        ⟨none, [.badArgumentType], [.context, .ffiParamTypes, .rawParamOffsets],
          [.rawParamOffsets, .ffiParamTypes, .context]⟩
      else ⟨some ctx, [], [.context, .ffiParamTypes, .rawParamOffsets], []⟩ := by
  obtain ⟨l, hl, htypes', -⟩ :=
    foldlM_paramStep .linuxX64 argTypes ⟨[], [], 0, fastReturn .linuxX64 returnType⟩
  rw [List.nil_append] at htypes'
  simp only [newCallContext, hcalloc, hl, Bool.false_eq_true, if_false, List.length_map,
    sshiftRight_or_shiftLeft hflags]
  refine ⟨_, prepContext_eq ?_⟩
  exact Option.some.inj ((hprep _ rfl htypes').trans
    (prepStatus_eq hrtype htypes (fixedArgs fixedParamCount) rfl hroom))

/-- **There is no `CallContext`** if and only if a parameter behind the fixed ones was not promoted,
where the number of these is what reaches libffi of it. -/
theorem create_eq_none_iff {libs : ContextLibs}
    (hcalloc : ∀ part, libs.callocFails part = false) {jtype : JType}
    (hjtype : jtype.ffiType .linuxX64 = returnType) {parameterTypes : List JType}
    (hparameters : parameterTypes.map (JType.ffiType .linuxX64) = argTypes)
    (hprep : ∀ cif : Cif, cif.rtype = returnType → cif.argTypes = argTypes →
      some (libs.prep cif) = prepStatus cif.nfixed rtype types)
    (hroom : parameterTypes.length < 2 ^ 28) (fixedParamCount : BitVec 32)
    (convention : CallingConvention) (saveErrno faultProtect : Bool) :
    CallContext.create .linuxX64 libs jtype fixedParamCount parameterTypes convention saveErrno
        faultProtect = none ↔
      ∃ t ∈ argTypes.drop (fixedArgs fixedParamCount).toNat, Unpromoted t := by
  subst hjtype hparameters
  obtain ⟨ctx, hctx⟩ := newCallContext_linuxX64 hrtype htypes hcalloc hprep
    (by rw [List.length_map]; exact hroom)
    (toNat_javaFlags_lt convention saveErrno faultProtect) fixedParamCount
  rw [CallContext.create, dif_pos hroom]
  by_cases hbad : ∃ t ∈ (parameterTypes.map (JType.ffiType .linuxX64)).drop
      (fixedArgs fixedParamCount).toNat, Unpromoted t
  · rw [if_pos hbad] at hctx
    rw [if_neg (by rw [hctx]; simp)]
    exact ⟨fun _ => hbad, fun _ => rfl⟩
  · rw [if_neg hbad] at hctx
    rw [if_pos (by rw [hctx])]
    refine ⟨fun h => ?_, fun h => absurd h hbad⟩
    split at h
    · rename_i hnone
      rw [hctx] at hnone
      cases hnone
    · cases h

end Verdict

/-- libffi, asked about `int f(const char *, ...)` with a `float` behind the format. -/
def printfFloat : ContextLibs where
  callocFails := fun _ => false
  prep := fun cif => (prepStatus cif.nfixed FFIType.sint32.scalarType
    [FFIType.pointer.scalarType, FFIType.float.scalarType]).getD .other

theorem create_printfFloat :
    CallContext.create .linuxX64 printfFloat (.builtin .sint) 1
      [.builtin .pointer, .builtin .float] .default true false = none := by
  have hrtype : Describes .sint32 FFIType.sint32.scalarType := .scalar .sint32 rfl
  have htypes : List.Forall₂ Describes [.pointer, .float]
      [FFIType.pointer.scalarType, FFIType.float.scalarType] :=
    .cons (.scalar .pointer rfl) (.cons (.scalar .float rfl) .nil)
  obtain ⟨cif, hcif⟩ := ffiPrepCifCore_spec hrtype htypes
  have hprep : ∀ c : Cif, c.rtype = .sint32 → c.argTypes = [.pointer, .float] →
      some (printfFloat.prep c) = prepStatus c.nfixed FFIType.sint32.scalarType
        [FFIType.pointer.scalarType, FFIType.float.scalarType] := by
    intro c _ _
    obtain ⟨status, hstatus⟩ : ∃ status, prepStatus c.nfixed FFIType.sint32.scalarType
        [FFIType.pointer.scalarType, FFIType.float.scalarType] = some status := by
      cases c.nfixed with
      | none => exact ⟨_, by rw [prepStatus, ffiPrepCif, hcif]; rfl⟩
      | some n => exact ⟨_, by rw [prepStatus, ffiPrepCifVar, hcif]; rfl⟩
    change some (Option.getD (prepStatus c.nfixed _ _) .other) = _
    rw [hstatus]
    rfl
  exact (create_eq_none_iff hrtype htypes (fun _ => rfl) rfl rfl hprep (by decide) 1 .default true
    false).mpr ⟨.float, by decide, by decide⟩

end Jffi
