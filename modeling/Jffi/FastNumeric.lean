import Jffi.ScalarCall

/-!
# The fast numeric entry points

Where all parameters are numbers the entry points `invokeI…`, `invokeL…` and `invokeN…` skip the
parameter buffer: the values are arguments of the entry point. They are passed to libffi from there,
or, on x86 and compiled by gcc, to the native function itself, by a call through a pointer to a
function of as many `jint`s or `jlong`s. What such a call leaves where a function looks for its
parameters is a matter of the C ABI; bytes that it does not define are `Cell.undef`.

A `jlong` is given by its eight bytes, least significant first, which for a pointer need not be
numbers.

## Main definitions

* `directArgs`, `returnRegister` — a call through a pointer of another type
* `ffiCallN`, `invokeI`, `invokeL` — the macros
* `callN` — `call1`, …, `call6`
* `Conveys` — the arguments arrive and the result comes back

## Main results

* `conveys_throughFfi`, `conveys_invokeI`, `conveys_invokeL` — when the three ways of calling do
  that
-/

namespace Jffi

variable (pf : Platform)

/-! ### Calls through a pointer of another type -/

/-- The bytes an argument of `n` bytes takes on the stack of i386. -/
def stackBytes (n : ℕ) : ℕ := (n + 3) / 4 * 4

/-- Arguments pushed one after the other. -/
def pushArgs (vals : List (List Cell)) : List Cell :=
  vals.flatMap fun v => v ++ List.replicate (stackBytes v.length - v.length) Cell.undef

/-- What a function finds on the stack for its parameters. -/
def stackArgs : List FFIType → List Cell → List (List Cell)
  | [], _ => []
  | t :: ts, stack =>
    fitResult (t.valueSize pf) stack :: stackArgs ts (stack.drop (stackBytes (t.valueSize pf)))

/-- What a function finds for its parameters when the integer registers hold `regs` and no other
place an argument can be in has been written to. On Windows every parameter has a register of its
own, elsewhere those of the integer class share them out. -/
def registerArgs : List FFIType → List (List Cell) → List (List Cell)
  | [], _ => []
  | t :: ts, regs =>
    if t.isIntegral then fitResult (t.valueSize pf) (regs.headD []) :: registerArgs ts regs.tail
    else
      fitResult (t.valueSize pf) [] :: registerArgs ts (if pf.windows then regs.tail else regs)

/-- The arguments a function of parameters `types` finds when it is called with the integers
`vals`, up to six of them. -/
def directArgs (types : List FFIType) (vals : List (List Cell)) : List (List Cell) :=
  if pf.cpu = .i386 then stackArgs pf types (pushArgs vals) else registerArgs pf types vals

/-- What is defined of the register an integer is returned in. -/
def returnRegister (rtype : FFIType) (result : List Cell) : List Cell :=
  if rtype.isIntegral then fitResult (rtype.valueSize pf) result else []

/-! ### The macros -/

/-- A call made by one of the macros: the arguments and memory as the callee finds them, the
variable `retval`, and the state after the call. -/
structure Invoked where
  args : List (List Cell)
  memory : Memory
  retval : List Cell
  native : Native

/-- A call of a function through a pointer to one that returns an integer of `n` bytes, stored to a
variable of `room` bytes. -/
def directCall (cif : Cif) (callee : Callee) (vals : List (List Cell)) (n room : ℕ) (s : Native) :
    Invoked :=
  let args := directArgs pf cif.argTypes vals
  let r := callee args s.toMemory
  let ds := fitResult n (returnRegister pf cif.rtype r.result)
  ⟨args, s.toMemory,
    pf.nativeOrder.arrange (ds ++ List.replicate (room - n) (extension true ds)), s.returned r⟩

/-- `ARGPTR`, as an offset into the variable of `n` bytes. -/
def argptr (n : ℕ) (type : FFIType) : ℤ :=
  match pf.nativeOrder with
  | .little => 0
  | .big => n - type.size pf

/-- What libffi reads at an argument pointer into the variable `v`. -/
def readVariable (type : FFIType) (v : List Cell) : Option (List Cell) :=
  let off := argptr pf v.length type
  if 0 ≤ off then
    (slice (pf.nativeOrder.arrange v) off.toNat (type.valueSize pf)).map pf.nativeOrder.arrange
  else none

/-- `ffi_call0`, …, `ffi_call6`, with a `retval` of `room` bytes. -/
def ffiCallN (cif : Cif) (callee : Callee) (vals : List (List Cell)) (room : ℕ) (s : Native) :
    Option Invoked :=
  if cif.argTypes.length = vals.length then do
    let args ← (cif.argTypes.zip vals).mapM fun (t, v) => readVariable pf t v
    let r := callee args s.toMemory
    let retval ← storeResult pf cif.rtype r.result (List.replicate room .undef)
    some ⟨args, s.toMemory, retval, s.returned r⟩
  else none

/-- `INT_BYPASS_FFI` is defined. -/
def intBypass : Bool := pf.cpu.isX86 && pf.gnuc

/-- `LONG_BYPASS_FFI` is defined. -/
def longBypass : Bool := pf.cpu = .x86_64 && pf.gnuc

/-- `invokeI0`, …, `invokeI6`. -/
def invokeI (cif : Cif) (callee : Callee) (vals : List (List Cell)) (room : ℕ) (s : Native) :
    Option Invoked :=
  if intBypass pf then some (directCall pf cif callee vals 4 room s)
  else ffiCallN pf cif callee vals room s

/-- `invokeL0`, …, `invokeL6`. -/
def invokeL (cif : Cif) (callee : Callee) (vals : List (List Cell)) (s : Native) :
    Option Invoked :=
  if longBypass pf then some (directCall pf cif callee vals 8 8 s)
  else ffiCallN pf cif callee vals 8 s

/-! ### The entry points -/

/-- A call made by an entry point: its result is that of the entry point, by its bytes. -/
structure NumericCall where
  args : List (List Cell)
  memory : Memory
  result : List Cell
  native : Native

/-- The end of an entry point. -/
def Invoked.finish (ctx : NativeCallContext) (result : List Cell → List Cell) (i : Invoked) :
    NumericCall :=
  ⟨i.args, i.memory, result i.retval, saveErrno pf ctx i.native⟩

/-- `(retval).j` of an `FFIValue`. -/
def retvalJ (retval : List Cell) : List Cell := pf.nativeOrder.arrange retval

/-- `(retval).sarg`, widened to a `jlong`. -/
def retvalSarg (retval : List Cell) : List Cell :=
  let ds := pf.nativeOrder.arrange (retval.take pf.ptrSize)
  ds ++ List.replicate (8 - pf.ptrSize) (extension true ds)

/-- `RETVAL`. -/
def RETVAL (rtype : FFIType) (retval : List Cell) : List Cell :=
  if pf.ptrSize < rtype.size pf then retvalJ pf retval else retvalSarg pf retval

/-- `(jint) n`. -/
def castInt (n : List Cell) : List Cell := n.take 4

/-- An entry point that calls through libffi. -/
def throughFfi (ctx : NativeCallContext) (room : ℕ) (read : List Cell → List Cell) (callee : Callee)
    (ns : List (List Cell)) (s : Native) : Option NumericCall :=
  (ffiCallN pf ctx.cif callee ns room s).map (Invoked.finish pf ctx read)

/-- The branch of `CALL_CTX_FAST_LONG` of `call1`, …, `call6`. -/
def callLong (ctx : NativeCallContext) (callee : Callee) (ns : List (List Cell)) (s : Native) :
    Option NumericCall :=
  (invokeL pf ctx.cif callee ns s).map (Invoked.finish pf ctx (RETVAL pf ctx.cif.rtype))

/-- The branch of `CALL_CTX_FAST_INT`. -/
def callInt (ctx : NativeCallContext) (callee : Callee) (ns : List (List Cell)) (s : Native) :
    Option NumericCall :=
  (invokeI pf ctx.cif callee (ns.map castInt) 8 s).map
    (Invoked.finish pf ctx (RETVAL pf ctx.cif.rtype))

/-- `call1`, …, `call6`, and `invokeN0`. -/
def callN (ctx : NativeCallContext) (callee : Callee) (ns : List (List Cell)) (s : Native) :
    Option NumericCall :=
  if longBypass pf = true ∧ ctx.flags &&& CALL_CTX_FAST_LONG ≠ 0 then callLong pf ctx callee ns s
  else if intBypass pf = true ∧ ctx.flags &&& CALL_CTX_FAST_INT ≠ 0 then callInt pf ctx callee ns s
  else throughFfi pf ctx 8 (RETVAL pf ctx.cif.rtype) callee ns s

/-- The result of the entry points `invokeI…`: `retval` is an `ffi_sarg`, of which an `int` is
returned. -/
def intResult (retval : List Cell) : List Cell := (pf.nativeOrder.arrange retval).take 4

/-- `RETVAL` of the entry points `invokeL…`, which looks at the return type on big endian machines
only. -/
def longResult (rtype : FFIType) (retval : List Cell) : List Cell :=
  match pf.nativeOrder with
  | .little => retvalJ pf retval
  | .big => RETVAL pf rtype retval

/-- The entry points `invokeI…`. -/
def fastIntInvoke (ctx : NativeCallContext) (callee : Callee) (ns : List (List Cell)) (s : Native) :
    Option NumericCall :=
  (invokeI pf ctx.cif callee ns pf.ptrSize s).map (Invoked.finish pf ctx (intResult pf))

/-- The entry points `invokeI…NoErrno`, which do without `SAVE_ERRNO`. -/
def fastIntInvokeNoErrno (ctx : NativeCallContext) (callee : Callee) (ns : List (List Cell))
    (s : Native) : Option NumericCall :=
  (invokeI pf ctx.cif callee ns pf.ptrSize s).map fun i =>
    ⟨i.args, i.memory, intResult pf i.retval, i.native⟩

/-- The entry points `invokeL…` and `invokeL…NoErrno`. -/
def fastLongInvoke (ctx : NativeCallContext) (callee : Callee) (ns : List (List Cell))
    (s : Native) : Option NumericCall :=
  (invokeL pf ctx.cif callee ns s).map (Invoked.finish pf ctx (longResult pf ctx.cif.rtype))

/-! ### Arguments -/

/-- The arguments of parameters `types` that the values `vals` stand for. -/
def numericArgs (types : List FFIType) (vals : List (List Cell)) : List (List Cell) :=
  (types.zip vals).map fun (t, v) => v.take (t.valueSize pf)

variable {pf}

theorem fitResult_eq_take {n : ℕ} {v : List Cell} (h : n ≤ v.length) :
    fitResult n v = v.take n := by
  rw [fitResult, List.take_append_of_le_length h]

/-- `ARGPTR` points at the first bytes of a variable, of which there are as many as the type has, if
the variable is wide enough. -/
theorem readVariable_eq {t : FFIType} {v : List Cell} (h : t.size pf ≤ v.length) :
    readVariable pf t v = some (v.take (t.valueSize pf)) := by
  have hle := FFIType.valueSize_le_size pf t
  cases ho : pf.nativeOrder with
  | little =>
    have hslice : slice v 0 (t.valueSize pf) = some (v.take (t.valueSize pf)) :=
      slice_eq_some.mpr ⟨by omega, rfl⟩
    simp [readVariable, argptr, ho, ByteOrder.arrange, hslice]
  | big =>
    have hoff : ((v.length : ℤ) - t.size pf).toNat = v.length - t.size pf := by omega
    have hnonneg : (0 : ℤ) ≤ v.length - t.size pf := by omega
    have hslice : slice v.reverse (v.length - t.size pf) (t.valueSize pf) =
        some (v.take (t.valueSize pf)).reverse := by
      refine slice_eq_some.mpr ⟨by rw [List.length_reverse]; omega, ?_⟩
      rw [List.drop_reverse, show v.length - (v.length - t.size pf) = t.size pf by omega]
      by_cases hvoid : t = .void
      · rw [hvoid]
        rfl
      · have hsame : t.valueSize pf = t.size pf := by
          cases t <;> first | rfl | exact absurd rfl hvoid
        have hlen : (v.take (t.size pf)).reverse.length ≤ t.size pf := by
          rw [List.length_reverse, List.length_take]
          exact Nat.min_le_left ..
        rw [hsame, List.take_of_length_le hlen]
    simp only [readVariable, argptr, ho, if_pos hnonneg, hoff, ByteOrder.arrange, hslice,
      Option.map_some, List.reverse_reverse]

/-- All values are as wide as their parameters. -/
def Wide (pf : Platform) (types : List FFIType) (vals : List (List Cell)) : Prop :=
  types.length = vals.length ∧ ∀ t v, (t, v) ∈ types.zip vals → t.size pf ≤ v.length

theorem Wide.of_length {types : List FFIType} {vals : List (List Cell)} {n : ℕ}
    (hlen : types.length = vals.length) (htypes : ∀ t ∈ types, t.size pf ≤ n)
    (hvals : ∀ v ∈ vals, v.length = n) : Wide pf types vals := by
  refine ⟨hlen, fun t v htv => ?_⟩
  have hmem := List.of_mem_zip htv
  rw [hvals v hmem.2]
  exact htypes t hmem.1

/-- From the variables of an entry point libffi reads the low bytes of the numbers, if each variable
is as wide as its type. -/
theorem mapM_readVariable {types : List FFIType} {vals : List (List Cell)}
    (h : Wide pf types vals) :
    ((types.zip vals).mapM fun (t, v) => readVariable pf t v) = some (numericArgs pf types vals) :=
  mapM_eq_some_map fun (t, v) hv => readVariable_eq (h.2 t v hv)

theorem size_pos_of_isIntegral {t : FFIType} (h : t.isIntegral = true) : 0 < t.size pf := by
  have := pf.ptrSize_pos
  cases t <;> simp_all [FFIType.isIntegral, FFIType.size]

/-- **On the stack of i386** a function finds its integers where as many `int`s were pushed. -/
theorem stackArgs_pushArgs {types : List FFIType} {vals : List (List Cell)}
    (hlen : types.length = vals.length)
    (htypes : ∀ t ∈ types, t.isIntegral = true ∧ t.size pf ≤ 4) (hvals : ∀ v ∈ vals, v.length = 4) :
    stackArgs pf types (pushArgs vals) = numericArgs pf types vals := by
  induction types generalizing vals with
  | nil => rfl
  | cons t types ih =>
    cases vals with
    | nil => cases hlen
    | cons v vals =>
      obtain ⟨hint, hsize⟩ := htypes t (List.mem_cons_self ..)
      have hv := hvals v (List.mem_cons_self ..)
      have hpos := @size_pos_of_isIntegral pf _ hint
      have hvalue := @FFIType.valueSize_of_isIntegral pf _ hint
      have hpush : pushArgs (v :: vals) = v ++ pushArgs vals := by
        simp [pushArgs, hv, stackBytes]
      have hbytes : stackBytes (t.valueSize pf) = v.length := by
        rw [stackBytes]
        omega
      have htail := ih (Nat.succ.inj hlen) (fun u hu => htypes u (List.mem_cons_of_mem t hu))
        (fun u hu => hvals u (List.mem_cons_of_mem v hu))
      rw [hpush, stackArgs, hbytes, List.drop_left, htail, fitResult_eq_take,
        List.take_append_of_le_length (by omega)]
      · rfl
      · rw [List.length_append]
        omega

/-- Integers that are passed in registers, one by one, arrive as the low bytes of the numbers. -/
theorem registerArgs_eq {types : List FFIType} {vals : List (List Cell)}
    (h : Wide pf types vals) (htypes : ∀ t ∈ types, t.isIntegral = true) :
    registerArgs pf types vals = numericArgs pf types vals := by
  induction types generalizing vals with
  | nil => rfl
  | cons t types ih =>
    cases vals with
    | nil => cases h.1
    | cons v vals =>
      have hv := h.2 t v (by simp)
      have hle := FFIType.valueSize_le_size pf t
      have htail := @ih vals
        ⟨Nat.succ.inj h.1, fun u w hu => h.2 u w (by rw [List.zip_cons_cons]; exact .tail _ hu)⟩
        (fun u hu => htypes u (List.mem_cons_of_mem t hu))
      rw [registerArgs, if_pos (htypes t (List.mem_cons_self ..)), List.headD_cons, List.tail_cons,
        htail, fitResult_eq_take (by omega)]
      rfl

theorem numericArgs_castInt {types : List FFIType} (vals : List (List Cell))
    (htypes : ∀ t ∈ types, t.valueSize pf ≤ 4) :
    numericArgs pf types (vals.map castInt) = numericArgs pf types vals := by
  rw [numericArgs, numericArgs, List.zip_map_right, List.map_map]
  refine List.map_congr_left ?_
  rintro ⟨t, v⟩ htv
  have hsize := htypes t (List.of_mem_zip htv).1
  change (v.take 4).take (t.valueSize pf) = v.take (t.valueSize pf)
  rw [List.take_take, Nat.min_eq_left hsize]

theorem length_castInt {vals : List (List Cell)} (h : ∀ v ∈ vals, v.length = 8) :
    ∀ v ∈ vals.map castInt, v.length = 4 := by
  intro v hv
  obtain ⟨w, hw, rfl⟩ := List.mem_map.mp hv
  rw [castInt, List.length_take, h w hw]
  rfl

/-- The types a function is called with as one of `int`s. -/
def IntOnly (pf : Platform) (types : List FFIType) : Prop :=
  ∀ t ∈ types, t.isIntegral = true ∧ t.size pf ≤ 4

/-- **The arguments of a direct call** as a function of `jint`s. -/
theorem directArgs_int {types : List FFIType} {vals : List (List Cell)}
    (hlen : types.length = vals.length) (htypes : IntOnly pf types)
    (hvals : ∀ v ∈ vals, v.length = 4) : directArgs pf types vals = numericArgs pf types vals := by
  by_cases hcpu : pf.cpu = .i386
  · rw [directArgs, if_pos hcpu]
    exact stackArgs_pushArgs hlen htypes hvals
  · rw [directArgs, if_neg hcpu]
    exact registerArgs_eq (.of_length hlen (fun t ht => (htypes t ht).2) hvals)
      fun t ht => (htypes t ht).1

/-- **The arguments of a direct call** as a function of `jlong`s. -/
theorem directArgs_long {types : List FFIType} {vals : List (List Cell)} (hcpu : pf.cpu = .x86_64)
    (hlen : types.length = vals.length) (htypes : ∀ t ∈ types, t.isIntegral = true)
    (hvals : ∀ v ∈ vals, v.length = 8) : directArgs pf types vals = numericArgs pf types vals := by
  rw [directArgs, if_neg (by rw [hcpu]; decide)]
  exact registerArgs_eq (.of_length hlen (fun t ht => FFIType.size_le_of_isIntegral (htypes t ht))
    hvals) htypes

/-! ### Results -/

theorem getElem?_fitResult (n : ℕ) (result : List Cell) (i : ℕ) :
    (fitResult n result)[i]? = if i < n then some (result[i]?.getD .undef) else none := by
  rw [fitResult, List.getElem?_take]
  by_cases hn : i < n
  · rw [if_pos hn, if_pos hn]
    by_cases hi : i < result.length
    · rw [List.getElem?_append_left hi, List.getElem?_eq_getElem hi]
      rfl
    · rw [List.getElem?_append_right (by omega), List.getElem?_replicate, if_pos (by omega),
        List.getElem?_eq_none (by omega)]
      rfl
  · rw [if_neg hn, if_neg hn]

theorem take_fitResult {m n : ℕ} (h : m ≤ n) (result : List Cell) :
    (fitResult n result).take m = fitResult m result := by
  refine List.ext_getElem? fun i => ?_
  rw [List.getElem?_take, getElem?_fitResult, getElem?_fitResult]
  by_cases hi : i < m
  · rw [if_pos hi, if_pos hi, if_pos (by omega)]
  · rw [if_neg hi, if_neg hi]

/-- `rtype` is `void` or the type of an integer of at most `n` bytes. -/
def IntegerOrVoid (pf : Platform) (n : ℕ) (rtype : FFIType) : Prop :=
  rtype.valueSize pf ≤ n ∧ (rtype = .void ∨ rtype.isIntegral = true)

/-- **An integer is returned** in the register where the caller looks for it. -/
theorem take_returnRegister {n : ℕ} {rtype : FFIType} (h : IntegerOrVoid pf n rtype)
    (result : List Cell) :
    (fitResult n (returnRegister pf rtype result)).take (rtype.valueSize pf) =
      fitResult (rtype.valueSize pf) result := by
  rw [take_fitResult h.1]
  rcases h.2 with rfl | hint
  · rfl
  · rw [returnRegister, if_pos hint, fitResult_eq_take (Nat.le_of_eq (length_fitResult ..).symm),
      take_fitResult (Nat.le_refl _)]

/-- `read` finds what `ffi_call` stores to a variable of `room` bytes. -/
def ReadsBack (pf : Platform) (rtype : FFIType) (room : ℕ) (read : List Cell → List Cell) : Prop :=
  ∀ result retval, storeResult pf rtype result (List.replicate room .undef) = some retval →
    (read retval).take (rtype.valueSize pf) = fitResult (rtype.valueSize pf) result

/-- `read` keeps the first `m` bytes of a variable of `room` bytes. -/
def KeepsLow (room m : ℕ) (read : List Cell → List Cell) : Prop :=
  ∀ retval, retval.length = room → (read retval).take m = retval.take m

theorem take_returnDigits (pf : Platform) (rtype : FFIType) (result : List Cell) :
    (returnDigits pf rtype result).take (rtype.valueSize pf) =
      fitResult (rtype.valueSize pf) result := by
  have hlen := length_fitResult (rtype.valueSize pf) result
  simp only [returnDigits]
  split
  · rw [List.take_append_of_le_length (Nat.le_of_eq hlen.symm),
      List.take_of_length_le (Nat.le_of_eq hlen)]
  · rw [List.take_of_length_le (Nat.le_of_eq hlen)]

/-- A result that `ffi_call` stores lies at the start of the variable. -/
theorem take_storeResult {rtype : FFIType} {result retval retval' : List Cell}
    (h : storeResult pf rtype result retval = some retval') :
    retval'.take (returnDigits pf rtype result).length =
      pf.nativeOrder.arrange (returnDigits pf rtype result) := by
  have hslice := slice_splice_self h
  rw [ByteOrder.length_arrange] at hslice
  exact (slice_eq_some.mp hslice).2.symm

/-- **On a little endian machine** the first bytes of the variable are the result. -/
theorem KeepsLow.readsBack {rtype : FFIType} {room : ℕ} {read : List Cell → List Cell}
    (ho : pf.nativeOrder = .little) (h : KeepsLow room (rtype.valueSize pf) read) :
    ReadsBack pf rtype room read := by
  intro result retval hretval
  have hlen := length_of_splice hretval
  rw [List.length_replicate] at hlen
  have hstored := take_storeResult hretval
  rw [ho, ByteOrder.arrange] at hstored
  have hle : rtype.valueSize pf ≤ (returnDigits pf rtype result).length := by
    have hlow := congrArg List.length (take_returnDigits pf rtype result)
    rw [List.length_take, length_fitResult] at hlow
    omega
  rw [h retval hlen, ← take_returnDigits pf rtype result, ← hstored, List.take_take,
    Nat.min_eq_left hle]

theorem keepsLow_intResult {room m : ℕ} (ho : pf.nativeOrder = .little) (hm : m ≤ 4) :
    KeepsLow room m (intResult pf) := by
  intro retval _
  rw [intResult, ho, ByteOrder.arrange, List.take_take, Nat.min_eq_left hm]

theorem keepsLow_longResult {room m : ℕ} {rtype : FFIType} (ho : pf.nativeOrder = .little) :
    KeepsLow room m (longResult pf rtype) := by
  intro retval _
  simp only [longResult, retvalJ, ho, ByteOrder.arrange]

theorem keepsLow_RETVAL {m : ℕ} {rtype : FFIType} (ho : pf.nativeOrder = .little)
    (hm : m ≤ rtype.size pf) : KeepsLow 8 m (RETVAL pf rtype) := by
  intro retval hlen
  have hptr := pf.ptrSize_le
  by_cases hsize : pf.ptrSize < rtype.size pf
  · rw [RETVAL, if_pos hsize, retvalJ, ho, ByteOrder.arrange]
  · rw [RETVAL, if_neg hsize, retvalSarg, ho]
    dsimp only [ByteOrder.arrange]
    rw [List.take_append_of_le_length (by rw [List.length_take]; omega), List.take_take,
      Nat.min_eq_left (by omega)]

/-- `RETVAL` knows where to look for a result of the type. -/
def ReturnsInSlot (pf : Platform) (rtype : FFIType) : Prop :=
  rtype.valueSize pf ≤ 8 ∧ (pf.nativeOrder = .little ∨ rtype.isIntegral = true ∨
    rtype.valueSize pf = 0 ∨ rtype.valueSize pf = pf.ptrSize ∨ rtype.valueSize pf = 8)

/-- The bytes of a result on a big endian machine are the last ones of the part that was stored. -/
theorem readsBack_RETVAL_big {rtype : FFIType} (ho : pf.nativeOrder = .big)
    {result retval : List Cell}
    (h : storeResult pf rtype result (List.replicate 8 .undef) = some retval)
    (hdigits : (returnDigits pf rtype result).length =
      if pf.ptrSize < rtype.size pf then 8 else pf.ptrSize) :
    (RETVAL pf rtype retval).take (rtype.valueSize pf) =
      fitResult (rtype.valueSize pf) result := by
  have hstored := take_storeResult h
  have hlow := take_returnDigits pf rtype result
  have hle := congrArg List.length hlow
  rw [List.length_take, length_fitResult] at hle
  rw [hdigits, ho] at hstored
  by_cases hsize : pf.ptrSize < rtype.size pf
  · have hlen : retval.length = 8 := by simpa using length_of_splice h
    rw [if_pos hsize, List.take_of_length_le (Nat.le_of_eq hlen)] at hstored
    rw [RETVAL, if_pos hsize, retvalJ, ho, hstored, ByteOrder.arrange_arrange, hlow]
  · rw [if_neg hsize] at hstored
    rw [RETVAL, if_neg hsize, retvalSarg, ho, hstored, ByteOrder.arrange_arrange,
      List.take_append_of_le_length (by omega), hlow]

theorem length_returnDigits (pf : Platform) (rtype : FFIType) (result : List Cell) :
    (returnDigits pf rtype result).length =
      if rtype.isIntegral then max (rtype.valueSize pf) pf.ptrSize else rtype.valueSize pf := by
  simp only [returnDigits]
  split
  · rw [List.length_append, List.length_replicate, length_fitResult]
    omega
  · rw [length_fitResult]

/-- `RETVAL` reads the result back from a variable of eight bytes in which `ffi_call` has stored it.
-/
theorem readsBack_RETVAL {rtype : FFIType} (h : ReturnsInSlot pf rtype) :
    ReadsBack pf rtype 8 (RETVAL pf rtype) := by
  cases ho : pf.nativeOrder with
  | little =>
    exact (keepsLow_RETVAL ho (FFIType.valueSize_le_size pf rtype)).readsBack ho
  | big =>
    intro result retval hretval
    by_cases hzero : rtype.valueSize pf = 0
    · rw [hzero, List.take_zero]
      rfl
    have hptr := pf.ptrSize_eq
    refine readsBack_RETVAL_big ho hretval ?_
    rw [length_returnDigits]
    have hsame : rtype.size pf = rtype.valueSize pf := by
      cases rtype <;> first | rfl | exact absurd rfl hzero
    rw [hsame]
    by_cases hint : rtype.isIntegral = true
    · have hsizes : rtype.size pf ∈ [1, 2, 4, 8] := by
        cases rtype <;> simp_all [FFIType.size, FFIType.isIntegral]
      rw [hsame] at hsizes
      simp only [List.mem_cons, List.not_mem_nil, or_false] at hsizes
      rw [if_pos hint]
      split <;> omega
    · rw [if_neg hint]
      have hcases := h.2
      simp only [ho, reduceCtorEq, hint, hzero, false_or] at hcases
      split <;> omega

/-! ### A call that conveys -/

/-- A call of an entry point that does what it is for: the arguments are those of `vals`, and the
result, narrowed to its type, is that of the callee. -/
structure Conveys (pf : Platform) (ctx : NativeCallContext) (callee : Callee)
    (vals : List (List Cell)) (s : Native) (c : NumericCall) : Prop where
  args_eq : c.args = numericArgs pf ctx.cif.argTypes vals
  memory_eq : c.memory = s.toMemory
  result_eq : c.result.take (ctx.cif.rtype.valueSize pf) =
    fitResult (ctx.cif.rtype.valueSize pf) (callee c.args c.memory).result
  native_eq : c.native = saveErrno pf ctx (s.returned (callee c.args c.memory))

/-- Two calls of the same function: the arguments, memory, the result narrowed to its type, and the
state after the call are the same. -/
structure SameNumericCall (pf : Platform) (rtype : FFIType) (c d : NumericCall) : Prop where
  args_eq : c.args = d.args
  memory_eq : c.memory = d.memory
  result_eq : c.result.take (rtype.valueSize pf) = d.result.take (rtype.valueSize pf)
  native_eq : c.native = d.native

variable {ctx : NativeCallContext} {callee : Callee} {vals : List (List Cell)} {s : Native}

theorem Conveys.same {c d : NumericCall} (hc : Conveys pf ctx callee vals s c)
    (hd : Conveys pf ctx callee vals s d) : SameNumericCall pf ctx.cif.rtype c d := by
  have hargs : c.args = d.args := hc.args_eq.trans hd.args_eq.symm
  have hmemory : c.memory = d.memory := hc.memory_eq.trans hd.memory_eq.symm
  refine ⟨hargs, hmemory, ?_, ?_⟩
  · rw [hc.result_eq, hd.result_eq, hargs, hmemory]
  · rw [hc.native_eq, hd.native_eq, hargs, hmemory]

/-- A call through libffi passes the low bytes of the numbers and gets the result back, if the
variables are wide enough and the reading undoes the storing. -/
theorem conveys_throughFfi {room : ℕ} {read : List Cell → List Cell}
    (hwide : Wide pf ctx.cif.argTypes vals)
    (hroom : max (ctx.cif.rtype.valueSize pf) pf.ptrSize ≤ room)
    (hread : ReadsBack pf ctx.cif.rtype room read) :
    ∃ c, throughFfi pf ctx room read callee vals s = some c ∧ Conveys pf ctx callee vals s c := by
  have hargs := mapM_readVariable hwide
  let r := callee (numericArgs pf ctx.cif.argTypes vals) s.toMemory
  have hspace : max (ctx.cif.rtype.valueSize pf) pf.ptrSize ≤
      (List.replicate room Cell.undef).length := by
    rwa [List.length_replicate]
  obtain ⟨retval, hretval⟩ := exists_storeResult (.of_max hspace) r.result
  refine ⟨⟨numericArgs pf ctx.cif.argTypes vals, s.toMemory, read retval,
    saveErrno pf ctx (s.returned r)⟩, ?_, rfl, rfl, hread r.result retval hretval, rfl⟩
  simp only [throughFfi, ffiCallN, if_pos hwide.1, hargs, Option.bind_eq_bind, Option.bind_some]
  rw [hretval]
  rfl

/-- A call through a function pointer of another type passes the low bytes of the numbers and gets
the low bytes of the result, on a little-endian machine. -/
theorem conveys_directCall {n room : ℕ} {read : List Cell → List Cell}
    (hargs : directArgs pf ctx.cif.argTypes vals = numericArgs pf ctx.cif.argTypes vals)
    (hrtype : IntegerOrVoid pf n ctx.cif.rtype) (hn : n ≤ room) (ho : pf.nativeOrder = .little)
    (hread : KeepsLow room (ctx.cif.rtype.valueSize pf) read) :
    Conveys pf ctx callee vals s
      ((directCall pf ctx.cif callee vals n room s).finish pf ctx read) := by
  refine ⟨hargs, rfl, ?_, rfl⟩
  have hlen : ∀ result : List Cell, (pf.nativeOrder.arrange (fitResult n result ++
      List.replicate (room - n) (extension true (fitResult n result)))).length = room := by
    intro result
    rw [ByteOrder.length_arrange, List.length_append, List.length_replicate, length_fitResult]
    omega
  change (read (pf.nativeOrder.arrange _)).take _ = _
  rw [hread _ (hlen _), ho, ByteOrder.arrange, List.take_append_of_le_length
    (by rw [length_fitResult]; exact hrtype.1), take_returnRegister hrtype]
  rfl

/-- Without `SAVE_ERRNO` the entry point does the same, but for the error that is saved. -/
theorem fastIntInvoke_eq (pf : Platform) (ctx : NativeCallContext) (callee : Callee)
    (ns : List (List Cell)) (s : Native) :
    fastIntInvoke pf ctx callee ns s = (fastIntInvokeNoErrno pf ctx callee ns s).map fun c =>
      { c with native := saveErrno pf ctx c.native } := by
  rw [fastIntInvoke, fastIntInvokeNoErrno, Option.map_map]
  rfl

/-- `invokeI` passes the low bytes of the numbers and gets the result back, where the function takes
and returns `int`s. -/
theorem conveys_invokeI {room : ℕ} {read : List Cell → List Cell}
    (hlen : ctx.cif.argTypes.length = vals.length) (htypes : IntOnly pf ctx.cif.argTypes)
    (hrtype : IntegerOrVoid pf 4 ctx.cif.rtype) (hvals : ∀ v ∈ vals, v.length = 4)
    (ho : pf.nativeOrder = .little) (hroom : pf.ptrSize ≤ room)
    (hread : KeepsLow room (ctx.cif.rtype.valueSize pf) read) :
    ∃ c, (invokeI pf ctx.cif callee vals room s).map (Invoked.finish pf ctx read) = some c ∧
      Conveys pf ctx callee vals s c := by
  have hptr := pf.ptrSize_eq
  by_cases hbypass : intBypass pf = true
  · rw [invokeI, if_pos hbypass]
    exact ⟨_, rfl, conveys_directCall (directArgs_int hlen htypes hvals) hrtype (by omega) ho hread⟩
  · rw [invokeI, if_neg hbypass]
    have hle := hrtype.1
    exact conveys_throughFfi (.of_length hlen (fun t ht => (htypes t ht).2) hvals) (by omega)
      (hread.readsBack ho)

/-- `invokeL` passes the low bytes of the numbers and gets the result back, where the function takes
and returns integers. -/
theorem conveys_invokeL {read : List Cell → List Cell}
    (hlen : ctx.cif.argTypes.length = vals.length)
    (htypes : ∀ t ∈ ctx.cif.argTypes, t.isIntegral = true)
    (hrtype : IntegerOrVoid pf 8 ctx.cif.rtype) (hvals : ∀ v ∈ vals, v.length = 8)
    (ho : pf.nativeOrder = .little) (hread : KeepsLow 8 (ctx.cif.rtype.valueSize pf) read) :
    ∃ c, (invokeL pf ctx.cif callee vals s).map (Invoked.finish pf ctx read) = some c ∧
      Conveys pf ctx callee vals s c := by
  by_cases hbypass : longBypass pf = true
  · have hcpu : pf.cpu = .x86_64 := by simpa using (Bool.and_eq_true_iff.mp hbypass).1
    rw [invokeL, if_pos hbypass]
    exact ⟨_, rfl, conveys_directCall (directArgs_long hcpu hlen htypes hvals) hrtype
      (Nat.le_refl 8) ho hread⟩
  · rw [invokeL, if_neg hbypass]
    have hle := hrtype.1
    have hptr := pf.ptrSize_le
    have hsize : ∀ t ∈ ctx.cif.argTypes, t.size pf ≤ 8 := fun t ht =>
      FFIType.size_le_of_isIntegral (htypes t ht)
    exact conveys_throughFfi (.of_length hlen hsize hvals) (by omega) (hread.readsBack ho)

/-- A call that passes the numbers cut to `jint`s passes the numbers themselves, where no parameter
is wider. -/
theorem Conveys.of_castInt {c : NumericCall}
    (h : Conveys pf ctx callee (vals.map castInt) s c)
    (htypes : ∀ t ∈ ctx.cif.argTypes, t.valueSize pf ≤ 4) : Conveys pf ctx callee vals s c := by
  refine ⟨?_, h.memory_eq, h.result_eq, h.native_eq⟩
  rw [h.args_eq, numericArgs_castInt vals htypes]

/-! ### What a call changes -/

/-- The call was made in the state `s`, and nothing was done besides it. -/
structure Invoked.CalledIn (callee : Callee) (s : Native) (i : Invoked) : Prop where
  memory_eq : i.memory = s.toMemory
  native_eq : i.native = s.returned (callee i.args i.memory)

theorem calledIn_ffiCallN {cif : Cif} {room : ℕ} {i : Invoked}
    (h : ffiCallN pf cif callee vals room s = some i) : i.CalledIn callee s := by
  unfold ffiCallN at h
  split at h
  · obtain ⟨args, -, h⟩ := Option.bind_eq_some_iff.mp h
    obtain ⟨retval, -, h⟩ := Option.bind_eq_some_iff.mp h
    cases h
    exact ⟨rfl, rfl⟩
  · cases h

theorem calledIn_invokeI {cif : Cif} {room : ℕ} {i : Invoked}
    (h : invokeI pf cif callee vals room s = some i) : i.CalledIn callee s := by
  unfold invokeI at h
  split at h
  · cases h
    exact ⟨rfl, rfl⟩
  · exact calledIn_ffiCallN h

theorem calledIn_invokeL {cif : Cif} {i : Invoked}
    (h : invokeL pf cif callee vals s = some i) : i.CalledIn callee s := by
  unfold invokeL at h
  split at h
  · cases h
    exact ⟨rfl, rfl⟩
  · exact calledIn_ffiCallN h

/-- The call was made in the state `s`, and `SAVE_ERRNO` was all that was done besides it. -/
structure NumericCall.CalledIn (pf : Platform) (ctx : NativeCallContext) (callee : Callee)
    (s : Native) (c : NumericCall) : Prop where
  memory_eq : c.memory = s.toMemory
  native_eq : c.native = saveErrno pf ctx (s.returned (callee c.args c.memory))

theorem Invoked.CalledIn.finish {i : Invoked} (h : i.CalledIn callee s)
    (read : List Cell → List Cell) : (i.finish pf ctx read).CalledIn pf ctx callee s :=
  ⟨h.memory_eq, congrArg (saveErrno pf ctx) h.native_eq⟩

/-- Whichever call a numeric entry point makes, it calls the function once, in the memory it has
found, and saves the error afterwards. -/
theorem calledIn_callN {c : NumericCall} (h : callN pf ctx callee vals s = some c) :
    c.CalledIn pf ctx callee s := by
  unfold callN at h
  split at h
  · obtain ⟨i, hi, rfl⟩ := Option.map_eq_some_iff.mp h
    exact (calledIn_invokeL hi).finish _
  · split at h
    · obtain ⟨i, hi, rfl⟩ := Option.map_eq_some_iff.mp h
      exact (calledIn_invokeI hi).finish _
    · obtain ⟨i, hi, rfl⟩ := Option.map_eq_some_iff.mp h
      exact (calledIn_ffiCallN hi).finish _

end Jffi
