import Jffi.CallContext

/-!
# The packed flags of a call context

`newCallContext` gets the flags and the number of fixed parameters in one `jint`, the number in the
upper half. It takes the number out with a signed shift.

## Main definitions

* `CallContext.packedFlags`, `unpackFixedParamCount` — both sides
* `Lossless` — native code gets what the constructor was given

## Main results

* `unpackFixedParamCount_packedFlags` — what comes out is the number, wrapped around to 16 bits
* `lossless_iff` — nothing is lost for fewer than `2 ^ 15` fixed parameters
-/

namespace Jffi

variable (pf : Platform)

/-- `flags | (fixedParamCount << 16)`. -/
def CallContext.packedFlags (convention : CallingConvention) (saveErrno faultProtect : Bool)
    (fixedParamCount : BitVec 32) : BitVec 32 :=
  javaFlags convention saveErrno faultProtect ||| fixedParamCount <<< 16

/-- `flags >> 16`. -/
def unpackFixedParamCount (flags : BitVec 32) : ℤ := (flags.sshiftRight 16).toInt

/-- The flags that native code looks for. -/
def knownFlags : List (BitVec 32) := [F_STDCALL, F_NOERRNO, F_PROTECT]

open CallContext in
/-- Native code gets the number and the flags that the constructor was given, and hands the number
to libffi when some parameters are not fixed. -/
structure Lossless (returnType : JType) (fixedParamCount : BitVec 32) (parameterTypes : List JType)
    (convention : CallingConvention) (saveErrno faultProtect : Bool) : Prop where
  count : unpackFixedParamCount (packedFlags convention saveErrno faultProtect fixedParamCount) =
    fixedParamCount.toInt
  flags : ∀ flag ∈ knownFlags,
    packedFlags convention saveErrno faultProtect fixedParamCount &&& flag =
      javaFlags convention saveErrno faultProtect &&& flag
  prep : ∀ libs : ContextLibs, (∀ part, libs.callocFails part = false) →
    ∃ ctx : NativeCallContext,
      newCallContext pf libs (returnType.ffiType pf)
        ((parameterTypes.map (JType.ffiType pf)).map some)
        (packedFlags convention saveErrno faultProtect fixedParamCount) = prepContext libs ctx ∧
      ctx.cif.nfixed =
        if fixedParamCount.toInt < parameterTypes.length then some fixedParamCount.toInt else none

section

variable (convention : CallingConvention) (saveErrno faultProtect : Bool)

theorem javaFlags_lt :
    (CallContext.javaFlags convention saveErrno faultProtect).toNat < 2 ^ 16 := by
  cases convention <;> cases saveErrno <;> cases faultProtect <;> decide

/-- The halves do not touch: the number of fixed parameters, cut to 16 bits, lies above the flags of
Java. -/
theorem toNat_packedFlags (fixedParamCount : BitVec 32) :
    (CallContext.packedFlags convention saveErrno faultProtect fixedParamCount).toNat =
      fixedParamCount.toNat % 2 ^ 16 * 2 ^ 16 +
        (CallContext.javaFlags convention saveErrno faultProtect).toNat := by
  have hlow := javaFlags_lt convention saveErrno faultProtect
  have hhigh : fixedParamCount.toNat <<< 16 % 2 ^ 32 =
      (fixedParamCount.toNat % 2 ^ 16) <<< 16 := by
    rw [Nat.shiftLeft_eq, Nat.shiftLeft_eq]
    omega
  rw [CallContext.packedFlags, BitVec.toNat_or, BitVec.toNat_shiftLeft, hhigh, Nat.or_comm,
    ← Nat.shiftLeft_add_eq_or_of_lt hlow, Nat.shiftLeft_eq]

/-- **What comes out** is the number, wrapped around to 16 bits. -/
theorem unpackFixedParamCount_packedFlags (fixedParamCount : BitVec 32) :
    unpackFixedParamCount
        (CallContext.packedFlags convention saveErrno faultProtect fixedParamCount) =
      (fixedParamCount.toNat : ℤ).bmod (2 ^ 16) := by
  have hlow := javaFlags_lt convention saveErrno faultProtect
  rw [unpackFixedParamCount, BitVec.toInt_sshiftRight, BitVec.toInt_eq_toNat_cond,
    toNat_packedFlags, Int.shiftRight_eq_div_pow, Int.bmod_def]
  split
  · rw [if_pos (by omega)]
    omega
  · rw [if_neg (by omega)]
    omega

theorem packedFlags_and (fixedParamCount : BitVec 32) {flag : BitVec 32} (h : flag ∈ knownFlags) :
    CallContext.packedFlags convention saveErrno faultProtect fixedParamCount &&& flag =
      CallContext.javaFlags convention saveErrno faultProtect &&& flag := by
  have hflag : flag.toNat < 2 ^ 16 := by
    simp only [knownFlags, List.mem_cons, List.not_mem_nil, or_false] at h
    rcases h with rfl | rfl | rfl <;> decide
  refine BitVec.eq_of_getLsbD_eq fun i _ => ?_
  rw [CallContext.packedFlags, BitVec.getLsbD_and, BitVec.getLsbD_and, BitVec.getLsbD_or,
    BitVec.getLsbD_shiftLeft]
  by_cases hi : i < 16
  · simp [hi]
  · have hbit : flag.getLsbD i = false :=
      Nat.testBit_lt_two_pow
        (Nat.lt_of_lt_of_le hflag (Nat.pow_le_pow_right (by decide) (by omega)))
    rw [hbit, Bool.and_false, Bool.and_false]

end

variable {pf} {returnType : JType} {fixedParamCount : BitVec 32} {parameterTypes : List JType}
  {convention : CallingConvention} {saveErrno faultProtect : Bool}

/-- A number of fixed parameters comes out of the flags as it was put in if and only if it is below
`2 ^ 15`. -/
theorem unpackFixedParamCount_eq_iff (hfixed : 0 ≤ fixedParamCount.toInt) :
    unpackFixedParamCount
        (CallContext.packedFlags convention saveErrno faultProtect fixedParamCount) =
      fixedParamCount.toInt ↔ fixedParamCount.toInt < 2 ^ 15 := by
  have hnat := BitVec.toInt_eq_toNat_cond fixedParamCount
  rw [unpackFixedParamCount_packedFlags, Int.bmod_def]
  have hlt := fixedParamCount.isLt
  split at hnat
  · rw [hnat]
    split <;> omega
  · omega

/-- When the number of fixed parameters comes out of the flags, libffi is handed this number, or
none if all the parameters are fixed. -/
theorem exists_prepContext
    (hcount : unpackFixedParamCount
      (CallContext.packedFlags convention saveErrno faultProtect fixedParamCount) =
        fixedParamCount.toInt)
    (hle : fixedParamCount.toInt ≤ parameterTypes.length) {libs : ContextLibs}
    (hlibs : ∀ part, libs.callocFails part = false) :
    ∃ ctx : NativeCallContext,
      newCallContext pf libs (returnType.ffiType pf)
        ((parameterTypes.map (JType.ffiType pf)).map some)
        (CallContext.packedFlags convention saveErrno faultProtect fixedParamCount) =
          prepContext libs ctx ∧
      ctx.cif.nfixed =
        if fixedParamCount.toInt < parameterTypes.length then some fixedParamCount.toInt
        else none := by
  obtain ⟨l, hl, -, -⟩ := foldlM_paramStep pf (parameterTypes.map (JType.ffiType pf))
    ⟨[], [], 0, fastReturn pf (returnType.ffiType pf)⟩
  rw [unpackFixedParamCount] at hcount
  simp only [newCallContext, hlibs, Bool.false_eq_true, if_false, hl, hcount, List.length_map]
  refine ⟨_, rfl, ?_⟩
  by_cases hlt : fixedParamCount.toInt < parameterTypes.length
  · rw [if_neg (Int.ne_of_lt hlt), if_pos hlt]
  · rw [if_pos (by omega), if_neg hlt]

/-- **Nothing is lost** for fewer than `2 ^ 15` fixed parameters. -/
theorem lossless_iff (hfixed : 0 ≤ fixedParamCount.toInt)
    (hle : fixedParamCount.toInt ≤ parameterTypes.length) :
    Lossless pf returnType fixedParamCount parameterTypes convention saveErrno faultProtect ↔
      fixedParamCount.toInt < 2 ^ 15 := by
  constructor
  · intro h
    exact (unpackFixedParamCount_eq_iff hfixed).mp h.count
  · intro hlt
    have hcount : unpackFixedParamCount
        (CallContext.packedFlags convention saveErrno faultProtect fixedParamCount) =
          fixedParamCount.toInt := (unpackFixedParamCount_eq_iff hfixed).mpr hlt
    exact ⟨hcount, fun _ hflag => packedFlags_and _ _ _ _ hflag,
      fun _ hlibs => exists_prepContext hcount hle hlibs⟩

theorem lossless_iff_variadic :
    Lossless .linuxX64 (.builtin .sint) 1 [.builtin .pointer, .builtin .double]
    .default true false ↔
      (1 : BitVec 32).toInt < 2 ^ 15 :=
  lossless_iff (by decide) (by decide)

/-- A context of `2 ^ 15` parameters that are all fixed is described to libffi as one of a variadic
function. -/
theorem not_lossless_allFixed :
    ¬Lossless .linuxX64 (.builtin .void) 32768 (List.replicate 32768 (.builtin .pointer)) .default
      true false := by
  intro h
  have hlt := (unpackFixedParamCount_eq_iff (by decide)).mp h.count
  exact absurd hlt (by decide)

end Jffi
