import Jffi.ClosureDispatch
import Jffi.HeapCalls
import Jffi.Libffi.CalledClosure
import Mathlib.Data.List.Forall2

/-!
# From Java to Java

Java code can call a native address that belongs to a closure whose body is Java code as well. A
number then goes all the way: `HeapInvocationBuffer` writes it to its slot, the entry point hands
the slots to `ffi_call`, libffi moves it through a register or over the stack to the trampoline,
and `closure_invoke` lets a `DirectClosureBuffer` take it out of the memory of the trampoline. The
result of the body takes the way back.

On this way every function of the library and of libffi is the one that is modelled elsewhere.

## Main definitions

* `Trampoline` — the memory a closure is called with
* `Trampoline.callee` — the native function that is a closure
* `invokeClosure` — the call, from the puts to the result

## Main results

* `argument_of_bytes` — one parameter of the body
* `numberTrampoline` — there is a trampoline for all numbers
* `invokeClosure_numbers` — the body gets the numbers, and its result is returned
-/

namespace Jffi

/-! ### The numbers of a closure -/

/-- The number `n` as an argument of a closure's body, for a parameter of type `type`. -/
def numberValue (type : FFIType) (n : BitVec 64) : JavaValue :=
  match type with
  | .sint8 | .uint8 => .byte (n.setWidth 8)
  | .sint16 | .uint16 => .short (n.setWidth 16)
  | .sint32 | .uint32 => .int (n.setWidth 32)
  | .float => .float (n.setWidth 32)
  | .double => .double n
  | .sint64 | .uint64 | .pointer | .longdouble | .struct _ _ | .void => .long n

/-! ### The closure -/

/-- Where a trampoline has put the values of its parameters, and the addresses of the values. -/
structure Trampoline (params : List FFIType) where
  retval : BitVec (ptrBits .linuxX64)
  parameters : BitVec (ptrBits .linuxX64)
  /-- Memory, when the parameters have these values. -/
  ram : List (List Byte) → Ram (ptrBits .linuxX64)
  /-- The addresses lead to the values. -/
  holds (values : List (List Byte))
    (sizes : List.Forall₂ (fun t v => List.length v = t.valueSize .linuxX64) params values)
    (i : ℕ) (v : List Byte) (value : values[i]? = some v) :
    (ram values).bytes ((ram values).loadPointer
      (parameters + BitVec.ofNat _ (i * Platform.linuxX64.ptrSize))) v.length = v

/-- The bytes that a trampoline puts into memory, from the arguments of the parameters. -/
def argumentBytes (params : List FFIType) (args : List (List Cell)) : List (List Byte) :=
  (params.zip args).map fun (t, ds) =>
    (ds.take (t.valueSize .linuxX64)).map fun d => d.toByte?.getD 0

namespace Trampoline

variable {params : List FFIType} (tr : Trampoline params)

/-- The call that `closure_invoke` gets. -/
def call (hvoid : .void ∉ params) (rtype : FFIType) (values : List (List Byte)) :
    ClosureCall .linuxX64 :=
  ⟨rtype, params, hvoid, tr.ram values, tr.retval, tr.parameters⟩

/-- The function behind the address of a closure, whose body leaves memory and the saved error
alone. It gets its parameters through a `DirectClosureBuffer`; an exception stays pending. -/
def callee (hvoid : .void ∉ params) (rtype : FFIType) (body : ClosureBody .linuxX64 rtype) :
    Callee := fun args m =>
  let call := tr.call hvoid rtype (argumentBytes params args)
  let ram := ((call.closureInvoke false body 0).map Prod.snd).getD call.ram
  ⟨m, (ram.bytes tr.retval (resultRoom rtype)).map .byte,
    if (body call.bufferArguments).isNone then some .callback else none, none⟩

end Trampoline

/-! ### The call -/

/-- A call of an address with the numbers `ns` through a `HeapInvocationBuffer`: the result, and
the state of the thread. -/
def invokeClosure (jvm : Jvm) (ctx : CallContext .linuxX64) (ld : LongDoubles .linuxX64)
    (callee : Callee) (raddr : Ptr) (area : SizeT .linuxX64) (ns : List (BitVec 64)) (s : Native) :
    Option (List Cell × Native) := do
  let (b, _) ← HeapInvocationBuffer.puts ld
    (List.zipWith numericPut ctx.native.cif.argTypes ns) (.new ctx) s.arrays
  let objects ← b.objectEntries
  match ← prepareCall .linuxX64 jvm ctx.native b.buffer objects s with
  | .cleanup _ => none
  | .next l => do
    let m := l.native.toMemory
    let args ← readArgs .linuxX64 l.frame m ctx.native.cif.argTypes
    let cif ← prepCifMachdep ctx.native.cif.rtype.scalarType
      (ctx.native.cif.argTypes.map FFIType.scalarType)
    let (r, retval) ← ffiCallClosure cif callee raddr area args (List.replicate 8 .undef) m
    let s ← releaseArrays l.arrays (saveErrno .linuxX64 ctx.native (l.native.returned r))
    some (genericResult .linuxX64 ctx.native.cif.rtype retval, s)

/-! ### One parameter -/

/-- A load gets the number whose bytes, in native order, lie at the address. -/
theorem Ram.load_of_bytes {ram : Ram (ptrBits .linuxX64)} {a : BitVec (ptrBits .linuxX64)} {n : ℕ}
    {x : BitVec 64} (h : ram.bytes a n = leBytes n x) : ram.load a n = x.setWidth (8 * n) := by
  apply BitVec.eq_of_toNat_eq
  rw [Ram.toNat_load, h, BitVec.toNat_setWidth, Nat.pow_mul]
  exact leNat_leBytes n x

/-- The accessor of `DirectClosureBuffer` for the type of a parameter gets the number whose bytes
the parameter has. -/
theorem argument_of_bytes {call : ClosureCall .linuxX64} {t : FFIType} (hvoid : t ≠ .void)
    (hstruct : t.code .linuxX64 ≠ .struct) (hsize : t.valueSize .linuxX64 ≤ slotSize) {i : ℕ}
    {n : BitVec 64}
    (h : call.ram.bytes (call.parameter i) (t.valueSize .linuxX64) =
      leBytes (t.valueSize .linuxX64) n) :
    call.buffer.argument call.ram t i = numberValue t n := by
  have hbuffer := call.buffer_parameter i
  have hload := Ram.load_of_bytes h
  cases t with
  | void => exact absurd rfl hvoid
  | struct => exact absurd rfl hstruct
  | longdouble => exact absurd hsize (by decide)
  | sint8 | uint8 =>
    refine congrArg JavaValue.byte ?_
    rw [DirectClosureBuffer.getByte, hbuffer, Ram.getByte, Ram.j2p_p2j]
    exact hload
  | sint16 | uint16 =>
    refine congrArg JavaValue.short ?_
    rw [DirectClosureBuffer.getShort, hbuffer, Ram.getShort, Ram.j2p_p2j]
    exact hload
  | sint32 | uint32 =>
    refine congrArg JavaValue.int ?_
    rw [DirectClosureBuffer.getInt, hbuffer, Ram.getInt, Ram.j2p_p2j]
    exact hload
  | float =>
    refine congrArg JavaValue.float ?_
    rw [DirectClosureBuffer.getFloat, hbuffer, Ram.getFloat, Ram.j2p_p2j]
    exact hload
  | sint64 | uint64 =>
    refine congrArg JavaValue.long ?_
    rw [DirectClosureBuffer.getLong, hbuffer, Ram.getLong, Ram.j2p_p2j]
    exact hload.trans (BitVec.setWidth_eq n)
  | double =>
    refine congrArg JavaValue.double ?_
    rw [DirectClosureBuffer.getDouble, hbuffer, Ram.getDouble, Ram.j2p_p2j]
    exact hload.trans (BitVec.setWidth_eq n)
  | pointer =>
    refine congrArg JavaValue.long ?_
    rw [DirectClosureBuffer.getAddress, hbuffer, Ram.getAddress_eq, Ram.j2p_p2j]
    exact (congrArg Ram.p2j hload).trans ((BitVec.setWidth_eq _).trans (BitVec.setWidth_eq n))

/-! ### The arguments of the body -/

section Arguments

variable {params : List FFIType}

/-- The bytes of the numbers `ns`. -/
def numberBytes (params : List FFIType) (ns : List (BitVec 64)) : List (List Byte) :=
  List.zipWith (fun t n => leBytes (t.valueSize .linuxX64) n) params ns

theorem argumentBytes_numericArgs (hsize : ∀ t ∈ params, t.valueSize .linuxX64 ≤ slotSize)
    (ns : List (BitVec 64)) :
    argumentBytes params (numericArgs .linuxX64 params (ns.map jlongCells)) =
      numberBytes params ns := by
  induction params generalizing ns with
  | nil => rfl
  | cons t params ih =>
    cases ns with
    | nil => rfl
    | cons n ns =>
      obtain ⟨ht, hparams⟩ := List.forall_mem_cons.mp hsize
      refine congrArg₂ List.cons ?_ (ih hparams ns)
      have hlow : (leBytes 8 n).take (t.valueSize .linuxX64) = leBytes (t.valueSize .linuxX64) n :=
        take_leBytes ht n
      change (((jlongCells n).take _).take _).map _ = leBytes _ n
      rw [List.take_take, Nat.min_self, jlongCells, ← List.map_take, hlow, List.map_map]
      exact List.map_id'' (fun _ => rfl) _

/-- A number is all there is of its argument, so that arguments with the same leaves are the same
bytes. -/
theorem argumentBytes_of_same (hscalar : ∀ t ∈ params, t.isScalar = true)
    {args found : List (List Cell)} (h : Sized (params.map FFIType.scalarType) args)
    (hsame : AllSameLeaves (params.map FFIType.scalarType) args found) :
    argumentBytes params found = argumentBytes params args := by
  induction params generalizing args found with
  | nil => rfl
  | cons t params ih =>
    obtain ⟨ht, hparams⟩ := List.forall_mem_cons.mp hscalar
    cases h with
    | @cons _ v _ args hhead htail =>
      cases hsame with
      | @cons _ w _ found hleaf hrest =>
        refine congrArg₂ List.cons ?_ (ih hparams htail hrest)
        have hlen : v.length = t.size .linuxX64 := hhead.2.trans (scalar_size ht).1
        have hslice := hleaf ⟨0, t.size .linuxX64, t.code .linuxX64⟩ (by simp [leaves_scalar ht])
        rw [← hlen, slice_all] at hslice
        have htake := (slice_eq_some.mp hslice).2
        rw [List.drop_zero] at htake
        simp only [valueSize_scalar ht, ← hlen, List.take_length, ← htake]

theorem length_numberBytes {ns : List (BitVec 64)} (hlen : ns.length = params.length) :
    List.Forall₂ (fun t v => List.length v = t.valueSize .linuxX64) params
      (numberBytes params ns) := by
  induction params generalizing ns with
  | nil => exact .nil
  | cons t params ih =>
    cases ns with
    | nil => cases hlen
    | cons n ns => exact .cons (length_leBytes _ n) (ih (Nat.succ.inj hlen))

/-- Behind the trampoline the body gets, from the accessors for the types of the parameters, the
numbers that were put. -/
theorem Trampoline.bufferArguments_call (tr : Trampoline params) (hvoid : .void ∉ params)
    (rtype : FFIType)
    (hscalar : ∀ t ∈ params, t.code .linuxX64 ≠ .struct ∧ t.valueSize .linuxX64 ≤ slotSize)
    {ns : List (BitVec 64)} (hlen : ns.length = params.length) :
    (tr.call hvoid rtype (numberBytes params ns)).bufferArguments =
      List.zipWith numberValue params ns := by
  refine List.ext_getElem? fun i => ?_
  rw [ClosureCall.bufferArguments, List.getElem?_map, List.getElem?_zipIdx, List.getElem?_zipWith]
  change Option.map _ (Option.map _ params[i]?) = _
  cases ht : params[i]? with
  | none => rfl
  | some t =>
    have hi := (List.getElem?_eq_some_iff.mp ht).1
    have hmem := List.mem_of_getElem? ht
    obtain ⟨n, hn⟩ : ∃ n, ns[i]? = some n := ⟨_, List.getElem?_eq_getElem (by omega)⟩
    have hvalue : (numberBytes params ns)[i]? = some (leBytes (t.valueSize .linuxX64) n) := by
      rw [numberBytes, List.getElem?_zipWith, ht, hn]
    have hbytes := tr.holds _ (length_numberBytes hlen) i _ hvalue
    rw [length_leBytes] at hbytes
    obtain ⟨hstruct, hsize⟩ := hscalar t hmem
    rw [hn, Nat.zero_add]
    refine congrArg some (argument_of_bytes ?_ hstruct hsize hbytes)
    rintro rfl
    exact hvoid hmem

end Arguments

/-! ### The result of the body -/

/-- The low bytes of a number that has been stored are those of the number. -/
theorem Ram.bytes_store (ram : Ram (ptrBits .linuxX64)) (a : BitVec (ptrBits .linuxX64)) {n k : ℕ}
    (hn : n ≤ 16) (hk : k ≤ n) (x : BitVec (8 * n)) :
    (ram.store a n x).bytes a k = leBytes k x := by
  have hlen : (Platform.linuxX64.nativeOrder.arrange (leBytes n x)).length = n := by simp
  have hle : 0 + k ≤ (Platform.linuxX64.nativeOrder.arrange (leBytes n x)).length := by omega
  have hpow := ClosureCall.two_pow_ptrBits .linuxX64
  have h := @Ram.bytes_put _ a _ 0 k ram hle (by omega)
  rw [BitVec.add_zero, List.drop_zero] at h
  exact h.trans (take_leBytes hk x)

/-- After the body's result was set, the bytes at `retval` are those of its value, as many as the
type has. -/
theorem bytes_setReturn (call : ClosureCall .linuxX64)
    (hstruct : call.rtype.code .linuxX64 ≠ .struct)
    (hsize : call.rtype.valueSize .linuxX64 ≤ slotSize) (value : Returned .linuxX64 call.rtype) :
    (call.buffer.setReturn call.ram call.rtype value).bytes call.retval
        (call.rtype.valueSize .linuxX64) = leBytes (call.rtype.valueSize .linuxX64) value := by
  by_cases hvoid : call.rtype = .void
  · -- no bytes
    refine (List.eq_nil_of_length_eq_zero ?_).trans (List.eq_nil_of_length_eq_zero ?_).symm
    · rw [Ram.length_bytes, hvoid]
      rfl
    · rw [length_leBytes, hvoid]
      rfl
  · rw [← call.storeResult_eq value 0 hvoid]
    obtain ⟨rtype, params, hparams, ram, retval, parameters⟩ := call
    -- a narrow integer is stored with its sign
    have hword {n : ℕ} (hn : n ≤ 8) (x : BitVec (8 * n)) :
        (ram.store retval Platform.linuxX64.ptrSize (x.signExtend _)).bytes retval n =
          leBytes n x :=
      (ram.bytes_store retval (by decide) hn _).trans
        (ClosureCall.leBytes_signExtend (show 8 * n ≤ 64 by omega) x)
    have hwhole {n : ℕ} (hn : n ≤ 8) (x : BitVec (8 * n)) :
        (ram.store retval n (x.setWidth _)).bytes retval n = leBytes n x :=
      (ram.bytes_store retval (by omega) (Nat.le_refl n) _).trans
        (leBytes_setWidth x (Nat.le_refl _))
    cases rtype with
    | void => exact absurd rfl hvoid
    | struct => exact absurd rfl hstruct
    | longdouble =>
      have hsize : FFIType.longdouble.valueSize .linuxX64 ≤ slotSize := hsize
      exact absurd hsize (by decide)
    | sint8 | uint8 => exact hword (n := 1) (by omega) value
    | sint16 | uint16 => exact hword (n := 2) (by omega) value
    | sint32 | uint32 => exact hword (n := 4) (by omega) value
    | pointer => exact hword (n := 8) (by omega) value
    | sint64 | uint64 | double => exact hwhole (n := 8) (by omega) value
    | float => exact hwhole (n := 4) (by omega) value

/-- **After the call** the result lies at `retval`, and zeros if the body has thrown. -/
theorem bytes_closureInvoke (call : ClosureCall .linuxX64)
    (hstruct : call.rtype.code .linuxX64 ≠ .struct)
    (hsize : call.rtype.valueSize .linuxX64 ≤ slotSize) (body : ClosureBody .linuxX64 call.rtype) :
    ∃ ram, call.closureInvoke false body 0 = some (call.bufferArguments, ram) ∧
      ram.bytes call.retval (call.rtype.valueSize .linuxX64) =
        leBytes (call.rtype.valueSize .linuxX64) ((body call.bufferArguments).getD 0) := by
  rw [ClosureCall.closureInvoke, if_neg Bool.false_ne_true]
  refine ⟨_, rfl, ?_⟩
  cases hbody : body call.bufferArguments with
  | none =>
    have hle := call.rtype.valueSize_le_size .linuxX64
    have hroom : call.rtype.size .linuxX64 ≤ 2 ^ ptrBits .linuxX64 := by
      refine (ClosureCall.size_le_of_not_struct ?_).trans (ClosureCall.two_pow_ptrBits _)
      rintro ⟨n, a, h⟩
      exact hstruct (h ▸ rfl)
    exact (call.bytes_memset call.ram _ hroom hle).trans (leBytes_zero _).symm
  | some value => exact bytes_setReturn call hstruct hsize value

/-! ### The call -/

/-- A type that is no struct is described by the `ffi_type` of its number. -/
theorem describes_scalarType {t : FFIType} (h : t.code .linuxX64 ≠ .struct) :
    Describes t t.scalarType := by
  cases t with
  | void => exact .void
  | struct => exact absurd rfl h
  | _ => exact .scalar _ rfl

theorem room_scalarType {types : List FFIType}
    (h : ∀ t ∈ types, t.isScalar = true ∧ t.valueSize .linuxX64 ≤ slotSize) :
    Position.room (types.map FFIType.scalarType) ≤ (slotSize + 16) * types.length := by
  induction types with
  | nil => exact Nat.zero_le _
  | cons t types ih =>
    obtain ⟨⟨hscalar, hsize⟩, htypes⟩ := List.forall_mem_cons.mp h
    have hrest := ih htypes
    rw [valueSize_scalar hscalar, ← (scalar_size hscalar).1] at hsize
    rw [Position.room] at hrest
    rw [Position.room, List.map_cons, List.map_cons, List.sum_cons, List.length_cons,
      Nat.mul_succ]
    omega

/-- The room for a result has at least the bytes of the value that a body returns. -/
theorem resultRoom_of_number {t : FFIType} (hstruct : t.code .linuxX64 ≠ .struct)
    (hsize : t.valueSize .linuxX64 ≤ slotSize) : t.valueSize .linuxX64 ≤ resultRoom t := by
  cases t with
  | struct => exact absurd rfl hstruct
  | longdouble => exact absurd hsize (by decide)
  | _ => decide

/-- A closure is what it does with the bytes of its arguments. -/
theorem Trampoline.callee_congr {params : List FFIType} (tr : Trampoline params)
    (hvoid : .void ∉ params) (rtype : FFIType) (body : ClosureBody .linuxX64 rtype)
    {args args' : List (List Cell)} (h : argumentBytes params args' = argumentBytes params args)
    (m : Memory) : tr.callee hvoid rtype body args' m = tr.callee hvoid rtype body args m := by
  dsimp only [callee]
  rw [h]

/-- As a native function, the closure leaves memory alone, and its result starts with the bytes of
what the body returns for the numbers that it gets. -/
theorem Trampoline.callee_spec {params : List FFIType} (tr : Trampoline params)
    (hvoid : .void ∉ params) {rtype : FFIType} (hstruct : rtype.code .linuxX64 ≠ .struct)
    (hsize : rtype.valueSize .linuxX64 ≤ slotSize) (body : ClosureBody .linuxX64 rtype)
    (args : List (List Cell)) (m : Memory) :
    ∃ bytes : List Byte,
      tr.callee hvoid rtype body args m = ⟨m, bytes.map .byte,
        if (body (tr.call hvoid rtype (argumentBytes params args)).bufferArguments).isNone then
          some .callback else none, none⟩ ∧
      bytes.length = resultRoom rtype ∧
      bytes.take (rtype.valueSize .linuxX64) = leBytes (rtype.valueSize .linuxX64)
        ((body (tr.call hvoid rtype (argumentBytes params args)).bufferArguments).getD 0) := by
  obtain ⟨ram, hinvoke, hbytes⟩ :=
    bytes_closureInvoke (tr.call hvoid rtype (argumentBytes params args)) hstruct hsize body
  refine ⟨ram.bytes tr.retval (resultRoom rtype), ?_, Ram.length_bytes _ _ _, ?_⟩
  · have hcall : tr.callee hvoid rtype body args m = ⟨m,
        ((((tr.call hvoid rtype (argumentBytes params args)).closureInvoke false body 0).map
          Prod.snd).getD _ |>.bytes tr.retval (resultRoom rtype)).map .byte, _, _⟩ := rfl
    rw [hcall, hinvoke]
    rfl
  · refine Eq.trans ?_ hbytes
    rw [Ram.bytes, Ram.bytes, ← List.map_take, List.take_range,
      Nat.min_eq_left (resultRoom_of_number hstruct hsize)]
    rfl

/-- The bytes of the value are read from the start of the result, on this machine. -/
theorem take_genericResult {t : FFIType} (hstruct : t.code .linuxX64 ≠ .struct)
    (hsize : t.valueSize .linuxX64 ≤ slotSize) (retval : List Cell) :
    (genericResult .linuxX64 t retval).take (t.valueSize .linuxX64) =
      retval.take (t.valueSize .linuxX64) := by
  have htake {n k : ℕ} (h : k ≤ n) : (retval.take n).take k = retval.take k := by
    rw [List.take_take, Nat.min_eq_left h]
  cases t with
  | struct => exact absurd rfl hstruct
  | longdouble => exact absurd hsize (by decide)
  | float => exact htake (Nat.le_refl 4)
  | double | sint64 | uint64 | pointer => exact htake (Nat.le_refl 8)
  | _ => exact htake (n := 4) (by decide)

/-- Where a specification has only defined bytes, what refines it has the same ones. -/
theorem Refines.take_eq {spec cells : List Cell} (h : Refines spec cells) {n : ℕ} {bs : List Byte}
    (hspec : spec.take n = bs.map .byte) (hlen : bs.length = n) :
    cells.take n = bs.map .byte := by
  subst hlen
  refine List.ext_getElem? fun i => ?_
  rcases Nat.lt_or_ge i bs.length with hi | hi
  · have hbyte : spec[i]? = some (.byte bs[i]) := by
      rw [← List.getElem?_take_of_lt hi, hspec, List.getElem?_map, List.getElem?_eq_getElem hi]
      rfl
    rw [List.getElem?_take_of_lt hi, List.getElem?_map, List.getElem?_eq_getElem hi]
    rcases h.2 i _ hbyte with hundef | hcell
    · cases hundef
    · exact hcell
  · rw [List.getElem?_eq_none (by rw [List.length_take]; omega),
      List.getElem?_eq_none (by rw [List.length_map]; exact hi)]

/-- **The way to `ffi_call`**: the numbers arrive, and nothing else has happened. -/
theorem invokeClosure_eq (jvm : Jvm) (ctx : CallContext .linuxX64) (ld : LongDoubles .linuxX64)
    (callee : Callee) (raddr : Ptr) (area : SizeT .linuxX64) (s : Native)
    (h : ctx.native.Scalar .linuxX64) (hscalar : ∀ t ∈ ctx.native.cif.argTypes, t.isScalar = true)
    {ns : List (BitVec 64)} (hlen : ns.length = ctx.getParameterCount) :
    ∃ s', s.KeepsHeap s' ∧ s'.toMemory = s.toMemory ∧
      Sized (ctx.native.cif.argTypes.map FFIType.scalarType)
        (numericArgs .linuxX64 ctx.native.cif.argTypes (ns.map jlongCells)) ∧
      invokeClosure jvm ctx ld callee raddr area ns s =
        (prepCifMachdep ctx.native.cif.rtype.scalarType
          (ctx.native.cif.argTypes.map FFIType.scalarType)).bind fun cif =>
        (ffiCallClosure cif callee raddr area
          (numericArgs .linuxX64 ctx.native.cif.argTypes (ns.map jlongCells))
          (List.replicate 8 .undef) s'.toMemory).map fun (r, retval) =>
        (genericResult .linuxX64 ctx.native.cif.rtype retval,
          saveErrno .linuxX64 ctx.native (s'.returned r)) := by
  have htypes := ctx.length_argTypes
  have hputs : (List.zipWith numericPut ctx.native.cif.argTypes ns).length =
      ctx.getParameterCount := by
    rw [List.length_zipWith]
    omega
  obtain ⟨b, heap, hb, hfilled⟩ := filled_puts ctx ld s.arrays
    (List.zipWith numericPut ctx.native.cif.argTypes ns) (Nat.le_of_eq hputs)
  have hbs : b.buffer.length = ctx.native.cif.argTypes.length * slotSize := by
    rw [hfilled.buffer_eq, List.length_append, length_flatMap_slot, List.length_replicate, hputs,
      htypes, Nat.sub_self, Nat.mul_comm]
    rfl
  have hentries : b.objectEntries = some [] := by
    rw [readEntries_of_stores hfilled.holds.stores, putEntries_numericPut]
  obtain ⟨frame, s', hprepare, hslots, htmp, hkeep, hmemory⟩ := prepareCall_nil h jvm hbs s
  rw [hfilled.buffer_eq] at htmp
  have hread := readArgs_numericPut h hslots (hlen.trans htypes.symm) s'.toMemory htmp
  have hdescribes : List.Forall₂ Describes ctx.native.cif.argTypes
      (ctx.native.cif.argTypes.map FFIType.scalarType) := by
    rw [List.forall₂_map_right_iff, List.forall₂_same]
    exact fun t ht => .scalar t (hscalar t ht)
  have hvoid : .void ∉ ctx.native.cif.argTypes := fun hmem => by cases hscalar _ hmem
  have hframe : frame.ffiArgs.length = ctx.native.cif.argTypes.length := by
    rw [hslots.ffiArgs_eq, List.length_map, List.length_range]
  refine ⟨s', hkeep, hmemory, sized_readArgs hdescribes hvoid hframe hread, ?_⟩
  simp only [invokeClosure, hb, hentries, hprepare, hread, Option.bind_eq_bind, Option.bind_some]
  congr 1
  funext cif
  cases ffiCallClosure cif callee raddr area
    (numericArgs .linuxX64 ctx.native.cif.argTypes (ns.map jlongCells)) _ s'.toMemory <;> rfl

/-- **The way from `ffi_call`**: the bytes of a number are read where they have been stored. -/
theorem take_genericResult_of_refines {t : FFIType} (hstruct : t.code .linuxX64 ≠ .struct)
    (hsize : t.valueSize .linuxX64 ≤ slotSize) {bytes : List Byte}
    (hlen : t.valueSize .linuxX64 ≤ bytes.length) {retval spec cells : List Cell}
    (hstored : storeResult .linuxX64 t (bytes.map .byte) retval = some spec)
    (hrefines : Refines spec cells) :
    (genericResult .linuxX64 t cells).take (t.valueSize .linuxX64) =
      (bytes.take (t.valueSize .linuxX64)).map .byte := by
  have hspec : spec.take (t.valueSize .linuxX64) =
      (bytes.take (t.valueSize .linuxX64)).map .byte := by
    have hlow := take_returnDigits .linuxX64 t (bytes.map .byte)
    have hle : t.valueSize .linuxX64 ≤ (returnDigits .linuxX64 t (bytes.map .byte)).length := by
      have hcount := congrArg List.length hlow
      rw [List.length_take, length_fitResult] at hcount
      omega
    calc spec.take (t.valueSize .linuxX64)
        = (spec.take (returnDigits .linuxX64 t (bytes.map .byte)).length).take
            (t.valueSize .linuxX64) := by rw [List.take_take, Nat.min_eq_left hle]
      _ = fitResult (t.valueSize .linuxX64) (bytes.map .byte) := by
        rw [take_storeResult hstored]
        exact hlow
      _ = (bytes.take (t.valueSize .linuxX64)).map .byte := by
        rw [fitResult_of_le (by rw [List.length_map]; exact hlen), List.map_take]
  have hcount : (bytes.take (t.valueSize .linuxX64)).length = t.valueSize .linuxX64 := by
    rw [List.length_take, Nat.min_eq_left hlen]
  rw [take_genericResult hstruct hsize, hrefines.take_eq hspec hcount]

/-! ### A trampoline for numbers -/

/-- The addresses of the values, one after the other. -/
def frameAddresses (n : ℕ) : List Byte :=
  (List.range n).flatMap fun i => leBytes 8 (BitVec.ofNat 64 ((n + i) * 8))

/-- The values, in eight bytes each. -/
def frameValues (values : List (List Byte)) : List Byte :=
  values.flatMap fun v => v ++ List.replicate (8 - v.length) 0

theorem length_frameAddresses (n : ℕ) : (frameAddresses n).length = n * 8 :=
  (length_flatMap_of_const fun _ _ => length_leBytes ..).trans (by rw [List.length_range])

theorem length_frameValue {values : List (List Byte)} (h : ∀ v ∈ values, v.length ≤ 8) :
    ∀ v ∈ values, (v ++ List.replicate (8 - v.length) 0).length = 8 := by
  intro v hv
  have hle := h v hv
  rw [List.length_append, List.length_replicate]
  omega

/-- **The frame** of a trampoline for numbers: the address of a value leads to it. -/
theorem bytes_frame {values : List (List Byte)} (h : ∀ v ∈ values, v.length ≤ 8)
    (hcount : values.length ≤ 2 ^ 27) {i : ℕ} {v : List Byte} (hv : values[i]? = some v)
    {ram : Ram (ptrBits .linuxX64)}
    (hram : ram = Ram.put (fun _ => 0) 0#_ (frameAddresses values.length ++ frameValues values)) :
    ram.bytes (ram.loadPointer (BitVec.ofNat _ (i * Platform.linuxX64.ptrSize))) v.length = v := by
  have hi := (List.getElem?_eq_some_iff.mp hv).1
  have hle := h v (List.mem_of_getElem? hv)
  have haddresses := length_frameAddresses values.length
  have hvalues : (frameValues values).length = values.length * 8 :=
    length_flatMap_of_const (length_frameValue h)
  have hpow := ClosureCall.two_pow_ptrBits .linuxX64
  have hbytes {k n : ℕ} (hkn : k + n ≤ values.length * 16) :
      ram.bytes (BitVec.ofNat _ k) n =
        ((frameAddresses values.length ++ frameValues values).drop k).take n := by
    have hput := @Ram.bytes_put (ptrBits .linuxX64) 0#_
      (frameAddresses values.length ++ frameValues values) k n (fun _ => 0)
      (by rw [List.length_append]; omega) (by rw [List.length_append]; omega)
    rw [BitVec.zero_add, ← hram] at hput
    exact hput
  -- the address
  have hload : ram.loadPointer (BitVec.ofNat _ (i * 8)) =
      BitVec.ofNat (ptrBits .linuxX64) ((values.length + i) * 8) := by
    refine (Ram.load_of_bytes (n := 8) ((hbytes (by omega)).trans ?_)).trans (BitVec.setWidth_eq _)
    exact take_drop_flatMap (fun _ _ => length_leBytes ..) (List.getElem?_range hi) _
  have hvalue : (((frameAddresses values.length ++ frameValues values).drop
      ((values.length + i) * 8)).take 8).take v.length = v := by
    have hpiece := take_drop_flatMap (length_frameValue h) hv []
    rw [List.append_nil] at hpiece
    rw [Nat.add_mul, ← haddresses, ← List.drop_drop, List.drop_left, frameValues, hpiece,
      List.take_left]
  change ram.bytes (ram.loadPointer (BitVec.ofNat _ (i * 8))) v.length = v
  rw [hload, hbytes (by omega)]
  rwa [List.take_take, Nat.min_eq_left hle] at hvalue

theorem length_le_of_sizes {params : List FFIType} {values : List (List Byte)}
    (hsize : ∀ t ∈ params, t.valueSize .linuxX64 ≤ slotSize)
    (h : List.Forall₂ (fun t v => List.length v = t.valueSize .linuxX64) params values) :
    ∀ v ∈ values, v.length ≤ slotSize := by
  induction h with
  | nil =>
    intro v hv
    cases hv
  | cons hhead _ ih =>
    obtain ⟨ht, hparams⟩ := List.forall_mem_cons.mp hsize
    exact List.forall_mem_cons.mpr ⟨hhead.trans_le ht, ih hparams⟩

/-- A frame that holds all of the numbers. -/
def numberTrampoline (params : List FFIType)
    (hsize : ∀ t ∈ params, t.valueSize .linuxX64 ≤ slotSize) (hcount : params.length ≤ 2 ^ 27) :
    Trampoline params where
  retval := 0x100000000
  parameters := 0#_
  ram values := Ram.put (fun _ => 0) 0#_ (frameAddresses params.length ++ frameValues values)
  holds values sizes i v value := by
    have hlen := sizes.length_eq
    rw [BitVec.zero_add]
    exact bytes_frame (length_le_of_sizes hsize sizes) (hlen ▸ hcount) value (by rw [hlen])

/-! ### The whole way -/

/-- **From Java to Java**: the body of a closure that is called through a buffer gets the numbers
that were put, and what it returns comes back; if it has thrown, the exception is pending. -/
theorem invokeClosure_numbers (jvm : Jvm) (ctx : CallContext .linuxX64)
    (ld : LongDoubles .linuxX64) (s : Native) (h : ctx.native.Scalar .linuxX64)
    (hvoid : .void ∉ ctx.native.cif.argTypes)
    (hstruct : ctx.native.cif.rtype.code .linuxX64 ≠ .struct)
    (hsize : ctx.native.cif.rtype.valueSize .linuxX64 ≤ slotSize)
    (hcount : ctx.getParameterCount ≤ 2 ^ 27) {ns : List (BitVec 64)}
    (hlen : ns.length = ctx.getParameterCount) {area : SizeT .linuxX64} (harea : 16 ∣ area.toNat)
    (hspace : area.toNat + 2 ^ 32 ≤ 2 ^ 64) {raddr : Ptr}
    (hraddr : ∀ a, raddr = .addr a → a < 2 ^ 64) (tr : Trampoline ctx.native.cif.argTypes)
    (body : ClosureBody .linuxX64 ctx.native.cif.rtype) :
    ∃ result s', invokeClosure jvm ctx ld (tr.callee hvoid ctx.native.cif.rtype body) raddr area ns
        s = some (result, s') ∧
      result.take (ctx.native.cif.rtype.valueSize .linuxX64) =
        (leBytes (ctx.native.cif.rtype.valueSize .linuxX64)
          ((body (List.zipWith numberValue ctx.native.cif.argTypes ns)).getD 0)).map .byte ∧
      s'.toMemory = s.toMemory ∧
      s'.pending = if (body (List.zipWith numberValue ctx.native.cif.argTypes ns)).isNone then
        some .callback else s.pending := by
  have hscalar : ∀ t ∈ ctx.native.cif.argTypes, t.isScalar = true := fun t ht => by
    cases t with
    | void => exact absurd ht hvoid
    | struct => exact absurd rfl (h _ ht).1
    | _ => rfl
  have hroom : _ ≤ 24 * _ := room_scalarType fun t ht => ⟨hscalar t ht, (h t ht).2⟩
  rw [ctx.length_argTypes] at hroom
  obtain ⟨s', hkeep, hmemory, hsized, heq⟩ := invokeClosure_eq jvm ctx ld
    (tr.callee hvoid ctx.native.cif.rtype body) raddr area s h hscalar hlen
  -- the body
  have hargs := argumentBytes_numericArgs (fun t ht => (h t ht).2) ns
  have hnumbers := tr.bufferArguments_call hvoid ctx.native.cif.rtype h
    (hlen.trans ctx.length_argTypes.symm)
  obtain ⟨bytes, hcallee, hlength, hbytes⟩ := tr.callee_spec hvoid hstruct hsize body _ s'.toMemory
  rw [hargs, hnumbers] at hcallee hbytes
  -- the call
  have hptr : max (ctx.native.cif.rtype.valueSize .linuxX64) Platform.linuxX64.ptrSize ≤
      (List.replicate 8 Cell.undef).length := by
    rw [List.length_replicate]
    exact Nat.max_le.mpr ⟨hsize, Nat.le_refl 8⟩
  obtain ⟨retval, hstored⟩ := exists_storeResult (.of_max hptr) (bytes.map .byte)
  have hleft : (tr.callee hvoid ctx.native.cif.rtype body (numericArgs .linuxX64
      ctx.native.cif.argTypes (ns.map jlongCells)) s'.toMemory).result = bytes.map .byte := by
    rw [hcallee]
  obtain ⟨cif, retval', hprep, hcall, hrefines⟩ := ffiCallClosure_spec
    (describes_scalarType hstruct) hsized (by omega) harea hspace hraddr
    (fun found hsame => tr.callee_congr hvoid _ body (argumentBytes_of_same hscalar hsized hsame) _)
    (by rw [hleft, List.length_map, hlength]) (by rw [hleft]; exact hstored)
  have hle := resultRoom_of_number hstruct hsize
  have hresult := take_genericResult_of_refines hstruct hsize (by omega) hstored hrefines
  rw [hbytes] at hresult
  rw [heq, hprep, Option.bind_some, hcall, hcallee]
  refine ⟨_, _, rfl, hresult, ?_, ?_⟩
  · rw [toMemory_saveErrno]
    exact hmemory
  · rw [pending_saveErrno, Native.returned, hkeep.pending_eq]
    split <;> rfl

/-- The context of a function of a `double` and a byte. -/
def doubleByte : CallContext .linuxX64 :=
  (CallContext.create .linuxX64 .accepting (.builtin .sint32) 2
    [.builtin .double, .builtin .sint8] .default true false).get (by decide)

theorem scalar_doubleByte : doubleByte.native.Scalar .linuxX64 := by
  unfold NativeCallContext.Scalar
  decide

/-- A closure of a `double` and a byte gets 1.5 and -2, and its `int` comes back. -/
theorem invokeClosure_doubleByte :
    ∃ result s', invokeClosure .reliable doubleByte (.nearest .linuxX64)
        ((numberTrampoline doubleByte.native.cif.argTypes (by decide) (by decide)).callee
          (by decide) doubleByte.native.cif.rtype fun args =>
            if args = [.double 0x3ff8000000000000, .byte 0xfe] then some 0x12345678 else none)
        (.addr 0x8000) 0x7000 [0x3ff8000000000000, 0xfffffffffffffffe] freshThread =
          some (result, s') ∧
      result.take 4 = [.byte 0x78, .byte 0x56, .byte 0x34, .byte 0x12] ∧
      s'.toMemory = freshThread.toMemory ∧ s'.pending = none :=
  invokeClosure_numbers .reliable doubleByte (.nearest .linuxX64) freshThread scalar_doubleByte
    (by decide) (by decide) (by decide) (by decide) (by decide) (by decide) (by decide)
    (fun a ha => by cases ha; decide) _ _

end Jffi
