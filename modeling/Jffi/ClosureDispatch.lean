import Jffi.CopyMemory
import Jffi.Lib.Truncation

/-!
# The two ways to call a closure

`closure_invoke` calls the Java object of a closure in one of two ways. It takes the parameters out
of native memory itself, as the arguments of a method with primitive parameters, and stores what the
method returns; or it hands the addresses to a method that takes them out with a
`DirectClosureBuffer`.

A closure is what its body computes from the values of its parameters, or that it throws. What a
`Call<Type>Method` returns when the method has thrown is arbitrary.

## Main definitions

* `JValue`, `closureInvoke` — the way through C
* `DirectClosureBuffer` — the way through Java
* `DispatchAgrees` — they deliver the same values and leave the same bytes

## Main results

* `argument_eq_iff` — one parameter
* `storeResult_eq`, `returnBytes_threw_iff` — the return buffer
* `dispatchAgrees_iff` — when the two ways agree
-/

namespace Jffi

variable {w : ℕ}

/-! ### Memory -/

namespace Ram

/-- The `n` bytes at `a`. -/
def bytes (ram : Ram w) (a : BitVec w) (n : ℕ) : List Byte :=
  (List.range n).map fun i => ram (a + BitVec.ofNat w i)

/-- `ram` with the bytes at `a` overwritten. -/
def put (ram : Ram w) (a : BitVec w) (xs : List Byte) : Ram w := fun p =>
  (xs[(p - a).toNat]?).getD (ram p)

variable {pf : Platform}

/-- The number of `n` bytes that lies at `a`, in native order. -/
def load (ram : Ram (ptrBits pf)) (a : BitVec (ptrBits pf)) (n : ℕ) : BitVec (8 * n) :=
  BitVec.ofNat _ (leNat (pf.nativeOrder.arrange (ram.bytes a n)))

/-- The pointer that lies at `a`. -/
def loadPointer (ram : Ram (ptrBits pf)) (a : BitVec (ptrBits pf)) : BitVec (ptrBits pf) :=
  ram.load a pf.ptrSize

def store (ram : Ram (ptrBits pf)) (a : BitVec (ptrBits pf)) (n : ℕ) (x : BitVec (8 * n)) :
    Ram (ptrBits pf) :=
  ram.put a (pf.nativeOrder.arrange (leBytes n x))

/-- `p2j`. -/
def p2j (p : BitVec (ptrBits pf)) : BitVec 64 := p.setWidth 64

/-! `MemoryIO`, whose implementations all read and write the bytes at an address. -/

def getByte (ram : Ram (ptrBits pf)) (address : BitVec 64) : BitVec 8 := ram.load (j2p pf address) 1

def getShort (ram : Ram (ptrBits pf)) (address : BitVec 64) : BitVec 16 :=
  ram.load (j2p pf address) 2

def getInt (ram : Ram (ptrBits pf)) (address : BitVec 64) : BitVec 32 := ram.load (j2p pf address) 4

def getLong (ram : Ram (ptrBits pf)) (address : BitVec 64) : BitVec 64 :=
  ram.load (j2p pf address) 8

def getFloat (ram : Ram (ptrBits pf)) (address : BitVec 64) : BitVec 32 :=
  ram.load (j2p pf address) 4

def getDouble (ram : Ram (ptrBits pf)) (address : BitVec 64) : BitVec 64 :=
  ram.load (j2p pf address) 8

def getAddress (ram : Ram (ptrBits pf)) (address : BitVec 64) : BitVec 64 :=
  if pf.ptrSize = 4 then (ram.getInt address).signExtend 64 &&& pf.addressMask
  else ram.getLong address

def putInt (ram : Ram (ptrBits pf)) (address : BitVec 64) (value : BitVec 32) : Ram (ptrBits pf) :=
  ram.store (j2p pf address) 4 value

def putLong (ram : Ram (ptrBits pf)) (address value : BitVec 64) : Ram (ptrBits pf) :=
  ram.store (j2p pf address) 8 value

def putFloat (ram : Ram (ptrBits pf)) (address : BitVec 64) (value : BitVec 32) :
    Ram (ptrBits pf) :=
  ram.store (j2p pf address) 4 value

def putDouble (ram : Ram (ptrBits pf)) (address value : BitVec 64) : Ram (ptrBits pf) :=
  ram.store (j2p pf address) 8 value

def putAddress (ram : Ram (ptrBits pf)) (address value : BitVec 64) : Ram (ptrBits pf) :=
  if pf.ptrSize = 4 then ram.putInt address (value.setWidth 32) else ram.putLong address value

def putByteArray (ram : Ram (ptrBits pf)) (address : BitVec 64) (data : List Byte) :
    Ram (ptrBits pf) :=
  ram.put (j2p pf address) data

/-- `memset(p, 0, n)`. -/
def memset (ram : Ram (ptrBits pf)) (p : BitVec (ptrBits pf)) (n : ℕ) : Ram (ptrBits pf) :=
  ram.put p (List.replicate n 0)

end Ram

/-! ### Closures -/

/-- An argument of a Java method: a `float` and a `double` by their bits. -/
inductive JavaValue
  | byte (v : BitVec 8)
  | short (v : BitVec 16)
  | int (v : BitVec 32)
  | long (v : BitVec 64)
  | float (v : BitVec 32)
  | double (v : BitVec 64)
  deriving DecidableEq, Repr

variable (pf : Platform)

/-- What a closure returns: the bits of a number, or the bytes of a struct. -/
abbrev Returned (rtype : FFIType) : Type := BitVec (8 * rtype.valueSize pf)

/-- What a closure does with the values of its parameters. It returns, or throws. -/
abbrev ClosureBody (rtype : FFIType) : Type := List JavaValue → Option (Returned pf rtype)

/-- A call of a closure, as libffi prepares it: `parameters` is the address of the addresses of the
parameters. -/
structure ClosureCall where
  rtype : FFIType
  params : List FFIType
  params_ne_void : .void ∉ params
  ram : Ram (ptrBits pf)
  retval : BitVec (ptrBits pf)
  parameters : BitVec (ptrBits pf)

/-! ### Through C -/

/-- A `jvalue`, whose bytes are zero where its member is not. -/
abbrev JValue : Type := List Byte

namespace JValue

variable {pf}

/-- `vp->j = 0; vp->m = x`, for a member `m` of `n` bytes. -/
def ofMember (pf : Platform) (n : ℕ) (x : BitVec (8 * n)) : JValue :=
  pf.nativeOrder.arrange (leBytes n x) ++ List.replicate (8 - n) 0

/-- The member of `n` bytes of a `jvalue`: the bytes that lie first. -/
def member (pf : Platform) (n : ℕ) (vp : JValue) : BitVec (8 * n) :=
  BitVec.ofNat _ (leNat (pf.nativeOrder.arrange (List.take n vp)))

end JValue

namespace ClosureCall

variable {pf} (call : ClosureCall pf)

/-- `parameters[i]`. -/
def parameter (i : ℕ) : BitVec (ptrBits pf) :=
  call.ram.loadPointer (call.parameters + BitVec.ofNat _ (i * pf.ptrSize))

/-- A `jvalue` of `closure_invoke`. A floating point number is assigned to an `int`. -/
def jparam (t : FFIType) (i : ℕ) : Option JValue :=
  match t.code pf with
  | .sint8 | .uint8 => some (.ofMember pf 1 (call.ram.load (call.parameter i) 1))
  | .sint16 | .uint16 => some (.ofMember pf 2 (call.ram.load (call.parameter i) 2))
  | .sint32 | .uint32 | .int => some (.ofMember pf 4 (call.ram.load (call.parameter i) 4))
  | .sint64 | .uint64 => some (.ofMember pf 8 (call.ram.load (call.parameter i) 8))
  | .float =>
    (truncate 23 8 (call.ram.load (call.parameter i) 4).toNat).map fun x =>
      .ofMember pf 4 (BitVec.ofInt 32 x)
  | .double =>
    (truncate 52 11 (call.ram.load (call.parameter i) 8).toNat).map fun x =>
      .ofMember pf 4 (BitVec.ofInt 32 x)
  | .pointer =>
    if t.size pf = 4 then
      some (.ofMember pf 4 ((call.ram.loadPointer (call.parameter i)).setWidth 32))
    else some (.ofMember pf 8 (Ram.p2j (call.ram.loadPointer (call.parameter i))))
  | .struct | .longdouble => some (.ofMember pf 8 (Ram.p2j (call.parameter i)))
  | .void => some (List.replicate 8 0)

/-- The argument that the virtual machine takes out of a `jvalue`, by the type of the parameter. -/
def argumentOf (pf : Platform) (t : FFIType) (vp : JValue) : JavaValue :=
  match t.code pf with
  | .sint8 | .uint8 => .byte (vp.member pf 1)
  | .sint16 | .uint16 => .short (vp.member pf 2)
  | .sint32 | .uint32 | .int => .int (vp.member pf 4)
  | .float => .float (vp.member pf 4)
  | .double => .double (vp.member pf 8)
  | .pointer => if t.size pf = 4 then .int (vp.member pf 4) else .long (vp.member pf 8)
  | .sint64 | .uint64 | .struct | .longdouble | .void => .long (vp.member pf 8)

/-- The arguments of the method with primitive parameters. -/
def primitiveArguments : Option (List JavaValue) :=
  call.params.zipIdx.mapM fun (t, i) => (call.jparam t i).map (argumentOf pf t)

/-- What `closure_invoke` does with the result of the method. The method itself has stored a struct,
to the address in its last argument. -/
def storeResult (result : Option (Returned pf call.rtype)) (junk : Returned pf call.rtype) :
    Ram (ptrBits pf) :=
  let value := result.getD junk
  match call.rtype.code pf with
  | .void => call.ram.store call.retval pf.ptrSize 0
  | .sint8 | .sint16 | .sint32 | .int | .uint8 | .uint16 | .uint32 | .pointer =>
    call.ram.store call.retval pf.ptrSize (value.signExtend _)
  | .sint64 | .uint64 => call.ram.store call.retval 8 (value.setWidth _)
  | .float => call.ram.store call.retval 4 (value.setWidth _)
  | .double => call.ram.store call.retval 8 (value.setWidth _)
  | .struct | .longdouble =>
    match result with
    | some value =>
      call.ram.putByteArray (Ram.p2j call.retval) (leBytes (call.rtype.valueSize pf) value)
    | none => call.ram

/-- `if (ExceptionCheck()) memset(retval, 0, cif->rtype->size)`. -/
def checkException (threw : Bool) (ram : Ram (ptrBits pf)) : Ram (ptrBits pf) :=
  if threw then ram.memset call.retval (call.rtype.size pf) else ram

end ClosureCall

/-! ### Through Java -/

/-- `NativeWordIO.put`. -/
def NativeWordIO.put {pf : Platform} (ram : Ram (ptrBits pf)) (address : BitVec 64)
    (value : BitVec 32) : Ram (ptrBits pf) :=
  if pf.ptrSize = 4 then ram.putInt address value else ram.putLong address (value.signExtend 64)

structure DirectClosureBuffer where
  retval : BitVec 64
  parameters : BitVec 64

namespace DirectClosureBuffer

variable {pf} (buffer : DirectClosureBuffer) (ram : Ram (ptrBits pf))

/-- `IO.getAddress(parameters + (index * PARAM_SIZE))`. -/
def parameter (index : ℕ) : BitVec 64 :=
  ram.getAddress (buffer.parameters + BitVec.ofNat 64 (index * pf.ptrSize))

def getByte (index : ℕ) : BitVec 8 := ram.getByte (buffer.parameter ram index)

def getShort (index : ℕ) : BitVec 16 := ram.getShort (buffer.parameter ram index)

def getInt (index : ℕ) : BitVec 32 := ram.getInt (buffer.parameter ram index)

def getLong (index : ℕ) : BitVec 64 := ram.getLong (buffer.parameter ram index)

def getFloat (index : ℕ) : BitVec 32 := ram.getFloat (buffer.parameter ram index)

def getDouble (index : ℕ) : BitVec 64 := ram.getDouble (buffer.parameter ram index)

def getAddress (index : ℕ) : BitVec 64 := ram.getAddress (buffer.parameter ram index)

def getStruct (index : ℕ) : BitVec 64 := buffer.parameter ram index

def setByteReturn (value : BitVec 8) : Ram (ptrBits pf) :=
  NativeWordIO.put ram buffer.retval (value.signExtend 32)

def setShortReturn (value : BitVec 16) : Ram (ptrBits pf) :=
  NativeWordIO.put ram buffer.retval (value.signExtend 32)

def setIntReturn (value : BitVec 32) : Ram (ptrBits pf) := NativeWordIO.put ram buffer.retval value

def setLongReturn (value : BitVec 64) : Ram (ptrBits pf) := ram.putLong buffer.retval value

def setFloatReturn (value : BitVec 32) : Ram (ptrBits pf) := ram.putFloat buffer.retval value

def setDoubleReturn (value : BitVec 64) : Ram (ptrBits pf) := ram.putDouble buffer.retval value

def setAddressReturn (address : BitVec 64) : Ram (ptrBits pf) :=
  ram.putAddress buffer.retval address

def setStructReturn (data : List Byte) : Ram (ptrBits pf) := ram.putByteArray buffer.retval data

/-- The getter for a parameter. An address is an `int` where addresses are. -/
def argument (t : FFIType) (index : ℕ) : JavaValue :=
  match t.code pf with
  | .sint8 | .uint8 => .byte (buffer.getByte ram index)
  | .sint16 | .uint16 => .short (buffer.getShort ram index)
  | .sint32 | .uint32 | .int => .int (buffer.getInt ram index)
  | .sint64 | .uint64 => .long (buffer.getLong ram index)
  | .float => .float (buffer.getFloat ram index)
  | .double => .double (buffer.getDouble ram index)
  | .pointer =>
    if t.size pf = 4 then .int ((buffer.getAddress ram index).setWidth 32)
    else .long (buffer.getAddress ram index)
  | .struct | .longdouble | .void => .long (buffer.getStruct ram index)

/-- The setter that a body calls for a result of the type of the function. -/
def setReturn (rtype : FFIType) (value : Returned pf rtype) : Ram (ptrBits pf) :=
  match rtype.code pf with
  | .sint8 | .uint8 => buffer.setByteReturn ram (value.setWidth 8)
  | .sint16 | .uint16 => buffer.setShortReturn ram (value.setWidth 16)
  | .sint32 | .uint32 | .int => buffer.setIntReturn ram (value.setWidth 32)
  | .sint64 | .uint64 => buffer.setLongReturn ram (value.setWidth 64)
  | .float => buffer.setFloatReturn ram (value.setWidth 32)
  | .double => buffer.setDoubleReturn ram (value.setWidth 64)
  | .pointer => buffer.setAddressReturn ram (value.setWidth 64)
  | .struct | .longdouble => buffer.setStructReturn ram (leBytes (rtype.valueSize pf) value)
  | .void => ram

end DirectClosureBuffer

/-! ### The two ways -/

namespace ClosureCall

variable {pf} (call : ClosureCall pf)

/-- The buffer that the virtual machine is given the addresses for. -/
def buffer : DirectClosureBuffer := ⟨Ram.p2j call.retval, Ram.p2j call.parameters⟩

def bufferArguments : List JavaValue :=
  call.params.zipIdx.map fun (t, i) => call.buffer.argument call.ram t i

/-- `closure_invoke`: the arguments of the Java method, and what memory has become. -/
def closureInvoke (callWithPrimitiveParameters : Bool) (body : ClosureBody pf call.rtype)
    (junk : Returned pf call.rtype) : Option (List JavaValue × Ram (ptrBits pf)) :=
  if callWithPrimitiveParameters then do
    let args ← call.primitiveArguments
    return (args, call.checkException (body args).isNone (call.storeResult (body args) junk))
  else
    let result := body call.bufferArguments
    let ram := match result with
      | some value => call.buffer.setReturn call.ram call.rtype value
      | none => call.ram
    some (call.bufferArguments, call.checkException result.isNone ram)

/-- The bytes of the result. libffi takes an integer that is narrower from a whole `ffi_arg`. -/
def returnBytes (ram : Ram (ptrBits pf)) : List Byte :=
  let n := call.rtype.valueSize pf
  let skipped :=
    if call.rtype.isIntegral && n < pf.ptrSize && pf.nativeOrder = .big then pf.ptrSize - n else 0
  ram.bytes (call.retval + BitVec.ofNat _ skipped) n

/-- **The ways agree**, whatever a method returns that has thrown. -/
def DispatchAgrees (body : ClosureBody pf call.rtype) : Prop :=
  ∀ junk, ∃ args ram ram', call.closureInvoke true body junk = some (args, ram) ∧
    call.closureInvoke false body junk = some (args, ram') ∧
    call.returnBytes ram = call.returnBytes ram'

end ClosureCall

/-! ### Bytes and numbers -/

namespace Ram

@[simp] theorem length_bytes (ram : Ram w) (a : BitVec w) (n : ℕ) : (ram.bytes a n).length = n := by
  simp [bytes]

/-- Bytes read back from inside of what has just been written are those that were written. -/
theorem bytes_put {a : BitVec w} {xs : List Byte} {k n : ℕ} (ram : Ram w) (hkn : k + n ≤ xs.length)
    (hxs : xs.length ≤ 2 ^ w) :
    (ram.put a xs).bytes (a + BitVec.ofNat w k) n = (xs.drop k).take n := by
  refine List.ext_getElem (by simp; omega) fun i hi hi' => ?_
  rw [length_bytes] at hi
  have hsub : a + BitVec.ofNat w k + BitVec.ofNat w i - a = BitVec.ofNat w (k + i) := by
    rw [BitVec.add_assoc, BitVec.add_comm a, BitVec.add_sub_cancel, BitVec.ofNat_add]
  have hindex : (BitVec.ofNat w (k + i)).toNat = k + i := by
    rw [BitVec.toNat_ofNat, Nat.mod_eq_of_lt (by omega)]
  simp only [bytes, put, List.getElem_map, List.getElem_range, hsub, hindex, List.getElem_take,
    List.getElem_drop]
  rw [List.getElem?_eq_getElem (by omega)]
  rfl

/-- Bytes behind what has just been written are as they were. -/
theorem bytes_put_behind {a : BitVec w} {xs : List Byte} {k n : ℕ} (ram : Ram w)
    (hk : xs.length ≤ k) (hkn : k + n ≤ 2 ^ w) :
    (ram.put a xs).bytes (a + BitVec.ofNat w k) n = ram.bytes (a + BitVec.ofNat w k) n := by
  refine List.ext_getElem (by simp) fun i hi hi' => ?_
  rw [length_bytes] at hi
  have hsub : a + BitVec.ofNat w k + BitVec.ofNat w i - a = BitVec.ofNat w (k + i) := by
    rw [BitVec.add_assoc, BitVec.add_comm a, BitVec.add_sub_cancel, BitVec.ofNat_add]
  have hindex : (BitVec.ofNat w (k + i)).toNat = k + i := by
    rw [BitVec.toNat_ofNat, Nat.mod_eq_of_lt (by omega)]
  simp only [bytes, put, List.getElem_map, List.getElem_range, hsub, hindex]
  rw [List.getElem?_eq_none (by omega)]
  rfl

end Ram

/-- Cutting a number that was extended with its sign to its old width gives the number back. -/
theorem setWidth_signExtend {v : ℕ} (h : w ≤ v) (x : BitVec w) :
    (x.signExtend v).setWidth w = x := by
  ext i hi
  rw [BitVec.getElem_setWidth, BitVec.getLsbD_signExtend, if_pos hi, decide_eq_true (by omega),
    Bool.true_and, BitVec.getLsbD_eq_getElem]

/-- Extending the sign to a width and then to a larger one is extending it to the larger one. -/
theorem signExtend_signExtend {u v : ℕ} (hv : w ≤ v) (hu : v ≤ u) (x : BitVec w) :
    (x.signExtend v).signExtend u = x.signExtend u := by
  apply BitVec.eq_of_toInt_eq
  rw [BitVec.toInt_signExtend_of_le hu, BitVec.toInt_signExtend_of_le hv,
    BitVec.toInt_signExtend_of_le (hv.trans hu)]

variable {pf}

theorem JValue.member_ofMember {n : ℕ} (x : BitVec (8 * n)) :
    (JValue.ofMember pf n x).member pf n = x := by
  have hlen : (pf.nativeOrder.arrange (leBytes n x)).length = n := by simp
  rw [member, ofMember, List.take_left' hlen, ByteOrder.arrange_arrange, leNat_leBytes_eq,
    BitVec.ofNat_toNat, BitVec.setWidth_eq]

namespace Ram

variable (ram : Ram (ptrBits pf)) (a : BitVec (ptrBits pf))

theorem toNat_load (n : ℕ) :
    (ram.load a n).toNat = leNat (pf.nativeOrder.arrange (ram.bytes a n)) := by
  rw [load, BitVec.toNat_ofNat, Nat.mod_eq_of_lt]
  have hlt := leNat_lt (pf.nativeOrder.arrange (ram.bytes a n))
  rwa [ByteOrder.length_arrange, length_bytes, ← Nat.pow_mul 2 8 n] at hlt

/-- A number that lies in memory is zero just when all of its bytes are. -/
theorem load_eq_zero_iff (n : ℕ) : (ram.load a n).toNat = 0 ↔ ∀ b ∈ ram.bytes a n, b = 0 := by
  rw [toNat_load, leNat_eq_zero_iff]
  exact forall_congr' fun b => by rw [ByteOrder.mem_arrange]

theorem ptrBits_le (pf : Platform) : ptrBits pf ≤ 64 := by
  have h := pf.ptrSize_le
  rw [ptrBits]
  omega

theorem toNat_p2j (p : BitVec (ptrBits pf)) : (p2j p).toNat = p.toNat :=
  BitVec.toNat_setWidth_of_le (ptrBits_le pf)

@[simp] theorem j2p_p2j : j2p pf (p2j a) = a := by
  rw [j2p, p2j, BitVec.setWidth_setWidth_of_le _ (ptrBits_le pf), BitVec.setWidth_eq]

/-- An offset added to the `long` for an address is one added to the address, even where that wraps
around. -/
theorem j2p_p2j_add (k : ℕ) :
    j2p pf (p2j a + BitVec.ofNat 64 k) = a + BitVec.ofNat _ k := by
  have hadd := BitVec.setWidth_add (p2j a) (BitVec.ofNat 64 k) (ptrBits_le pf)
  rw [BitVec.setWidth_ofNat_of_le (ptrBits_le pf)] at hadd
  exact hadd.trans (congrArg (· + _) (j2p_p2j a))

/-- `getAddress` returns, as a `long`, the pointer that lies at its address. -/
theorem getAddress_eq (address : BitVec 64) :
    ram.getAddress address = p2j (ram.loadPointer (j2p pf address)) := by
  apply BitVec.eq_of_toNat_eq
  have hload : (ram.loadPointer (j2p pf address)).toNat =
      leNat (pf.nativeOrder.arrange (ram.bytes (j2p pf address) pf.ptrSize)) :=
    ram.toNat_load _ _
  rw [toNat_p2j, hload, getAddress]
  rcases pf.ptrSize_eq with hs | hs
  · have hmask : ∀ x : BitVec 32, (x.signExtend 64 &&& 0xffffffff).toNat = x.toNat := by
      intro x
      rw [BitVec.toNat_and]
      have hmod : ((x.signExtend 64).setWidth 32).toNat = (x.signExtend 64).toNat % 2 ^ 32 :=
        BitVec.toNat_setWidth _ _
      rw [setWidth_signExtend (by omega)] at hmod
      exact (Nat.and_two_pow_sub_one_eq_mod _ 32).trans hmod.symm
    rw [if_pos hs, Platform.addressMask_eq, if_pos hs, hs, hmask, getInt, toNat_load]
  · rw [if_neg (by omega), getLong, hs, toNat_load]

end Ram

/-- Computing a list element by element gives the values of `g` just when each element does. -/
theorem mapM_eq_some_map_iff {α β : Type} {f : α → Option β} {g : α → β} (l : List α) :
    l.mapM f = some (l.map g) ↔ ∀ x ∈ l, f x = some (g x) := by
  induction l with
  | nil => simp
  | cons x l ih =>
    rw [List.mapM_cons, List.map_cons, List.forall_mem_cons, ← ih]
    cases f x with
    | none => simp
    | some y => cases l.mapM f <;> simp

/-! ### One parameter -/

namespace ClosureCall

variable (call : ClosureCall pf) (t : FFIType) (i : ℕ)

/-- The types of floating point numbers that are passed as they are. -/
def IsFloating (pf : Platform) (t : FFIType) : Prop := t.code pf = .float ∨ t.code pf = .double

/-- All bytes of the parameter are zero: a number is `+0.0`. -/
def IsZero : Prop := ∀ b ∈ call.ram.bytes (call.parameter i) (t.size pf), b = 0

/-- A `DirectClosureBuffer` finds a parameter at the address that
`invokeClosureWithPrimitiveParameters` reads it from. -/
theorem buffer_parameter : call.buffer.parameter call.ram i = Ram.p2j (call.parameter i) := by
  rw [DirectClosureBuffer.parameter, Ram.getAddress_eq, buffer, Ram.j2p_p2j_add]
  rfl

theorem code_longdouble (pf : Platform) :
    FFIType.longdouble.code pf = .longdouble ∨ FFIType.longdouble.code pf = .double := by
  rw [FFIType.code]
  split
  · exact .inl rfl
  · exact .inr rfl

theorem size_of_code_float {t : FFIType} (h : t.code pf = .float) : t.size pf = 4 := by
  cases t with
  | float => rfl
  | longdouble => rcases code_longdouble pf with hcode | hcode <;> cases hcode.symm.trans h
  | _ => cases h

/-- A type that libffi treats as a `double`, a `long double` of eight bytes included, has eight
bytes. -/
theorem size_of_code_double {t : FFIType} (h : t.code pf = .double) : t.size pf = 8 := by
  cases t with
  | double => rfl
  | longdouble =>
    rw [FFIType.code] at h
    rw [FFIType.size]
    cases hlong : pf.longDouble with
    | none => rfl
    | some n =>
      rw [hlong] at h
      cases h
  | _ => cases h

/-- A `float` that was converted to an `int` on its way, and then taken for a `float` again, arrives
as it was just when all of its bits are zero. -/
theorem float_eq_iff (x : BitVec 32) :
    ((truncate 23 8 x.toNat).map fun v =>
        JavaValue.float ((JValue.ofMember pf 4 (BitVec.ofInt 32 v)).member pf 4)) =
        some (.float x) ↔ x.toNat = 0 := by
  rw [Option.map_eq_some_iff]
  simp only [JValue.member_ofMember, JavaValue.float.injEq]
  constructor
  · rintro ⟨v, hv, rfl⟩
    exact eq_zero_of_truncate_float (BitVec.isLt _) hv rfl
  · intro h
    exact ⟨0, by rw [h]; exact truncate_zero (by omega), (BitVec.eq_of_toNat_eq h).symm⟩

/-- What is left of a `double` that has been assigned to an `int`. -/
theorem toNat_member_int (v : BitVec 32) :
    ((JValue.ofMember pf 4 v).member pf 8).toNat =
      if pf.nativeOrder = .little then v.toNat else v.toNat * 2 ^ 32 := by
  have hlen : (JValue.ofMember pf 4 v).length = 8 := by simp [JValue.ofMember]
  have hlt := v.isLt
  rw [JValue.member, List.take_of_length_le (Nat.le_of_eq hlen), BitVec.toNat_ofNat,
    JValue.ofMember]
  cases pf.nativeOrder with
  | little =>
    rw [if_pos rfl, ByteOrder.arrange, ByteOrder.arrange, leNat_append, leNat_leBytes_eq,
      leNat_replicate_zero, Nat.mul_zero]
    exact Nat.mod_eq_of_lt (by omega)
  | big =>
    rw [if_neg (by simp), ByteOrder.arrange, ByteOrder.arrange, List.reverse_append,
      List.reverse_reverse, List.reverse_replicate, leNat_append, leNat_replicate_zero,
      leNat_leBytes_eq, List.length_replicate, Nat.zero_add, Nat.mul_comm]
    exact Nat.mod_eq_of_lt (by omega)

/-- A `double` that was converted to an `int` on its way, and then taken for a `double` again,
arrives as it was just when all of its bits are zero. -/
theorem double_eq_iff (x : BitVec 64) :
    ((truncate 52 11 x.toNat).map fun v =>
        JavaValue.double ((JValue.ofMember pf 4 (BitVec.ofInt 32 v)).member pf 8)) =
        some (.double x) ↔ x.toNat = 0 := by
  rw [Option.map_eq_some_iff]
  simp only [JavaValue.double.injEq]
  constructor
  · rintro ⟨v, hv, hx⟩
    have hnat := @toNat_member_int pf (BitVec.ofInt 32 v)
    rw [hx] at hnat
    split at hnat
    case isTrue =>
      have hlt := (BitVec.ofInt 32 v).isLt
      exact eq_zero_of_truncate_low (by omega) hv hnat.symm
    case isFalse =>
      rw [hnat] at hv ⊢
      rw [eq_zero_of_truncate_high (BitVec.isLt _) hv rfl, Nat.zero_mul]
  · intro h
    refine ⟨0, by rw [h]; exact truncate_zero (by omega), BitVec.eq_of_toNat_eq ?_⟩
    rw [h, toNat_member_int]
    exact ite_self 0

/-- A parameter that is an integer, a pointer or a struct is delivered alike on both ways. -/
theorem argument_eq_of_not_floating (h : ¬IsFloating pf t) (ht : t.code pf ≠ .void) :
    (call.jparam t i).map (argumentOf pf t) = some (call.buffer.argument call.ram t i) := by
  have hbuffer := call.buffer_parameter i
  rw [IsFloating, not_or] at h
  unfold jparam argumentOf DirectClosureBuffer.argument
  cases hcode : t.code pf with
  | void => exact absurd hcode ht
  | float => exact absurd hcode h.1
  | double => exact absurd hcode h.2
  | sint8 | uint8 =>
    simp only [Option.map_some, JValue.member_ofMember, DirectClosureBuffer.getByte, hbuffer,
      Ram.getByte, Ram.j2p_p2j]
  | sint16 | uint16 =>
    simp only [Option.map_some, JValue.member_ofMember, DirectClosureBuffer.getShort, hbuffer,
      Ram.getShort, Ram.j2p_p2j]
  | sint32 | uint32 | int =>
    simp only [Option.map_some, JValue.member_ofMember, DirectClosureBuffer.getInt, hbuffer,
      Ram.getInt, Ram.j2p_p2j]
  | sint64 | uint64 =>
    simp only [Option.map_some, JValue.member_ofMember, DirectClosureBuffer.getLong, hbuffer,
      Ram.getLong, Ram.j2p_p2j]
  | pointer =>
    dsimp only
    rw [DirectClosureBuffer.getAddress, hbuffer, Ram.getAddress_eq, Ram.j2p_p2j]
    split
    · rw [Option.map_some, JValue.member_ofMember, Ram.p2j,
        BitVec.setWidth_setWidth_of_le _ (show 32 ≤ 64 by omega)]
    · rw [Option.map_some, JValue.member_ofMember]
  | struct | longdouble =>
    simp only [Option.map_some, JValue.member_ofMember, DirectClosureBuffer.getStruct, hbuffer]

/-- **One parameter** is delivered alike, unless it is a floating point number and not `+0.0`. -/
theorem argument_eq_iff (ht : t.code pf ≠ .void) :
    (call.jparam t i).map (argumentOf pf t) = some (call.buffer.argument call.ram t i) ↔
      (IsFloating pf t → call.IsZero t i) := by
  by_cases h : IsFloating pf t
  · refine Iff.trans ?_ (forall_prop_of_true h).symm
    have hbuffer := call.buffer_parameter i
    rcases h with hcode | hcode
    · have hsize := size_of_code_float hcode
      rw [IsZero, hsize, ← Ram.load_eq_zero_iff, ← @float_eq_iff pf]
      unfold jparam argumentOf DirectClosureBuffer.argument
      rw [hcode]
      simp only [Option.map_map, DirectClosureBuffer.getFloat, hbuffer, Ram.getFloat, Ram.j2p_p2j]
      rfl
    · have hsize := size_of_code_double hcode
      rw [IsZero, hsize, ← Ram.load_eq_zero_iff, ← @double_eq_iff pf]
      unfold jparam argumentOf DirectClosureBuffer.argument
      rw [hcode]
      simp only [Option.map_map, DirectClosureBuffer.getDouble, hbuffer, Ram.getDouble, Ram.j2p_p2j]
      rfl
  · exact iff_of_true (call.argument_eq_of_not_floating t i h ht) fun hf => absurd hf h

theorem code_ne_void {t : FFIType} (h : t ≠ .void) : t.code pf ≠ .void := by
  cases t with
  | void => exact absurd rfl h
  | longdouble => rcases code_longdouble pf with h | h <;> rw [h] <;> exact fun h => by cases h
  | _ => exact fun h => by cases h

variable {call} in
theorem ne_void_of_mem {t : FFIType} (h : t ∈ call.params) : t ≠ .void := by
  rintro rfl
  exact call.params_ne_void h

/-- Both ways deliver the same arguments just when every parameter of a floating-point type has the
bits of zero. -/
theorem primitiveArguments_eq_iff :
    call.primitiveArguments = some call.bufferArguments ↔
      ∀ i t, call.params[i]? = some t → IsFloating pf t → call.IsZero t i := by
  have hmap := mapM_eq_some_map_iff (f := fun p => (call.jparam p.1 p.2).map (argumentOf pf p.1))
    (g := fun p => call.buffer.argument call.ram p.1 p.2) call.params.zipIdx
  refine hmap.trans ?_
  constructor
  · intro h i t ht
    have hmem : (t, i) ∈ call.params.zipIdx := List.mk_mem_zipIdx_iff_getElem?.mpr ht
    have hne := @code_ne_void pf t (ne_void_of_mem (List.mem_of_getElem? ht))
    exact (call.argument_eq_iff t i hne).mp (h _ hmem)
  · rintro h ⟨t, i⟩ hp
    have ht := List.mk_mem_zipIdx_iff_getElem?.mp hp
    have hne := @code_ne_void pf t (ne_void_of_mem (List.mem_of_getElem? ht))
    exact (call.argument_eq_iff t i hne).mpr (h i t ht)

/-! ### The result -/

end ClosureCall

namespace Ram

variable (ram : Ram (ptrBits pf)) (a : BitVec (ptrBits pf))

/-- Storing a number does not depend on how its size was computed. -/
theorem store_cast {n m : ℕ} (h : n = m) (f : ∀ k, BitVec (8 * k)) :
    ram.store a n (f n) = ram.store a m (f m) := by
  subst h
  rfl

/-- `putAddress` at the `long` for an address is an assignment to the pointer there. -/
theorem putAddress_eq (x : BitVec (8 * pf.ptrSize)) :
    ram.putAddress (p2j a) (x.setWidth 64) = ram.store a pf.ptrSize x := by
  have hx : ram.store a pf.ptrSize x = ram.store a pf.ptrSize (x.setWidth _) := by
    rw [BitVec.setWidth_eq]
  rw [hx, putAddress]
  rcases pf.ptrSize_eq with hs | hs
  · rw [if_pos hs, ram.store_cast a hs fun k => x.setWidth (8 * k), putInt, j2p_p2j,
      BitVec.setWidth_setWidth_of_le _ (show 32 ≤ 64 by omega)]
  · rw [if_neg (by omega), ram.store_cast a hs fun k => x.setWidth (8 * k), putLong, j2p_p2j]

end Ram

/-- `NativeWordIO.put` stores the number with its sign, as an assignment to an `ffi_sarg` does. -/
theorem NativeWordIO.put_eq (ram : Ram (ptrBits pf)) (a : BitVec (ptrBits pf)) (x : BitVec 32) :
    NativeWordIO.put ram (Ram.p2j a) x = ram.store a pf.ptrSize (x.signExtend _) := by
  rw [put]
  rcases pf.ptrSize_eq with hs | hs
  · rw [if_pos hs, ram.store_cast a hs fun k => x.signExtend (8 * k), Ram.putInt, Ram.j2p_p2j,
      BitVec.signExtend_eq]
  · rw [if_neg (by omega), ram.store_cast a hs fun k => x.signExtend (8 * k), Ram.putLong,
      Ram.j2p_p2j]

namespace ClosureCall

variable (call : ClosureCall pf)

/-- A result that the method returns is stored alike on both ways, if the closure has one. -/
theorem storeResult_eq (value junk : Returned pf call.rtype) (h : call.rtype ≠ .void) :
    call.storeResult (some value) junk = call.buffer.setReturn call.ram call.rtype value := by
  obtain ⟨rtype, params, hparams, ram, retval, parameters⟩ := call
  have hword {n : ℕ} (hn : n ≤ 32) (x : BitVec n) :
      NativeWordIO.put ram (Ram.p2j retval) (x.signExtend 32) =
        ram.store retval pf.ptrSize (x.signExtend _) := by
    have hptr : 32 ≤ 8 * pf.ptrSize := by rcases pf.ptrSize_eq with hs | hs <;> omega
    have hput := NativeWordIO.put_eq ram retval (x.signExtend 32)
    rw [hput, signExtend_signExtend hn hptr]
  have hstore (n : ℕ) (x : BitVec (8 * n)) :
      ram.store retval n x = ram.store (Ram.j2p pf (Ram.p2j retval)) n x := by rw [Ram.j2p_p2j]
  cases rtype with
  | void => exact absurd rfl h
  | sint8 | uint8 => exact (hword (n := 8) (by omega) value).symm
  | sint16 | uint16 => exact (hword (n := 16) (by omega) value).symm
  | sint32 | uint32 => exact Eq.symm <| NativeWordIO.put_eq ram retval _
  | sint64 | uint64 | double => exact hstore 8 _
  | float => exact hstore 4 _
  | pointer =>
    have hvalue (x : BitVec (8 * pf.ptrSize)) : ram.store retval pf.ptrSize (x.signExtend _) =
        ram.putAddress (Ram.p2j retval) (x.setWidth 64) := by
      rw [BitVec.signExtend_eq, Ram.putAddress_eq]
    exact hvalue value
  | struct size alignment => rfl
  | longdouble =>
    rw [storeResult, DirectClosureBuffer.setReturn]
    dsimp only
    rcases code_longdouble pf with hcode | hcode
    · rw [hcode]
      rfl
    · rw [hcode]
      exact hstore 8 _

/-- The result is narrower than an `ffi_arg`, and its bytes come last. -/
def NarrowBig (pf : Platform) (rtype : FFIType) : Prop :=
  pf.nativeOrder = .big ∧ rtype.isIntegral = true ∧ rtype.valueSize pf < pf.ptrSize

/-- The bytes that `memset` has cleared are zeros. -/
theorem bytes_memset (ram : Ram (ptrBits pf)) (n : ℕ) (hn : n ≤ 2 ^ ptrBits pf) {k : ℕ}
    (hk : k ≤ n) : (ram.memset call.retval n).bytes call.retval k = List.replicate k 0 := by
  have hk' : 0 + k ≤ (List.replicate n (0 : Byte)).length := by simpa using hk
  have h := @ram.bytes_put _ call.retval _ 0 k hk' (by simpa using hn)
  rw [BitVec.ofNat_eq_ofNat, BitVec.add_zero, List.drop_zero, List.take_replicate,
    Nat.min_eq_left hk] at h
  exact h

theorem returnBytes_eq (h : ¬NarrowBig pf call.rtype) (ram : Ram (ptrBits pf)) :
    call.returnBytes ram = ram.bytes call.retval (call.rtype.valueSize pf) := by
  rw [returnBytes, if_neg ?_, BitVec.add_zero]
  intro hskip
  simp only [Bool.and_eq_true, decide_eq_true_eq] at hskip
  exact h ⟨hskip.2, hskip.1.1, hskip.1.2⟩

theorem returnBytes_eq_of_narrowBig (h : NarrowBig pf call.rtype) (ram : Ram (ptrBits pf)) :
    call.returnBytes ram = ram.bytes (call.retval +
      BitVec.ofNat _ (pf.ptrSize - call.rtype.valueSize pf)) (call.rtype.valueSize pf) := by
  rw [returnBytes, if_pos]
  simp only [Bool.and_eq_true, decide_eq_true_eq]
  exact ⟨⟨h.2.1, h.2.2⟩, h.1⟩

theorem size_cases {t : FFIType} (h : t.isIntegral = true) :
    t.size pf = 1 ∨ t.size pf = 2 ∨ t.size pf = 4 ∨ t.size pf = 8 ∨ t.size pf = pf.ptrSize := by
  cases t with
  | uint8 | sint8 => exact .inl rfl
  | uint16 | sint16 => exact .inr (.inl rfl)
  | uint32 | sint32 => exact .inr (.inr (.inl rfl))
  | uint64 | sint64 => exact .inr (.inr (.inr (.inl rfl)))
  | pointer => exact .inr (.inr (.inr (.inr rfl)))
  | _ => cases h

/-- On a big-endian machine an `ffi_arg` has room for such a result in front of the place it is
returned in. -/
theorem NarrowBig.size {rtype : FFIType} (h : NarrowBig pf rtype) :
    rtype.size pf = rtype.valueSize pf ∧ 0 < rtype.valueSize pf ∧
      rtype.size pf ≤ pf.ptrSize - rtype.valueSize pf := by
  obtain ⟨-, hintegral, hlt⟩ := h
  have hsize := @FFIType.valueSize_of_isIntegral pf _ hintegral
  rw [hsize] at hlt ⊢
  have hptr := pf.ptrSize_eq
  have hcases := @size_cases pf _ hintegral
  omega

/-- What `Call<Type>Method` has returned is stored before it is known that the body has thrown. -/
theorem storeResult_none_of_narrowBig (h : NarrowBig pf call.rtype)
    (junk : Returned pf call.rtype) :
    call.storeResult none junk = call.ram.store call.retval pf.ptrSize (junk.signExtend _) := by
  obtain ⟨rtype, params, hparams, ram, retval, parameters⟩ := call
  obtain ⟨-, hintegral, hlt⟩ := h
  cases rtype with
  | sint8 | uint8 | sint16 | uint16 | sint32 | uint32 | pointer => rfl
  | sint64 | uint64 => exact absurd hlt (Nat.not_lt.mpr pf.ptrSize_le)
  | _ => cases hintegral

theorem leBytes_signExtend {n v : ℕ} (h : 8 * n ≤ v) (x : BitVec (8 * n)) :
    leBytes n (x.signExtend v) = leBytes n x := by
  rw [← leBytes_setWidth (v := 8 * n) _ (Nat.le_refl _), setWidth_signExtend h]

theorem two_pow_ptrBits (pf : Platform) : 2 ^ 32 ≤ 2 ^ ptrBits pf := by
  refine Nat.pow_le_pow_right (by omega) ?_
  rw [ptrBits]
  rcases pf.ptrSize_eq with hs | hs <;> omega

/-- When the body has thrown, the clearing stops short of the last bytes of an `ffi_arg`, where a
narrow result is taken from: they stay what they were. -/
theorem returnBytes_threw_of_narrowBig (h : NarrowBig pf call.rtype) :
    call.returnBytes (call.checkException true call.ram) = call.returnBytes call.ram ∧
      ∀ junk, call.returnBytes (call.checkException true (call.storeResult none junk)) =
        (leBytes (call.rtype.valueSize pf) junk).reverse := by
  obtain ⟨hsize, hpos, hle⟩ := h.size
  have hlt := h.2.2
  have hptr := pf.ptrSize_le
  have hpow := two_pow_ptrBits pf
  have hbehind (ram : Ram (ptrBits pf)) :
      call.returnBytes (call.checkException true ram) = call.returnBytes ram := by
    rw [call.returnBytes_eq_of_narrowBig h, call.returnBytes_eq_of_narrowBig h]
    exact ram.bytes_put_behind (by simpa using hle) (by omega)
  refine ⟨hbehind call.ram, fun junk => ?_⟩
  rw [hbehind, call.storeResult_none_of_narrowBig h, call.returnBytes_eq_of_narrowBig h, Ram.store,
    call.ram.bytes_put (by simp; omega) (by simp; omega), h.1, ByteOrder.arrange,
    List.drop_reverse, length_leBytes, Nat.sub_sub_self (Nat.le_of_lt hlt),
    take_leBytes (Nat.le_of_lt hlt), leBytes_signExtend (by omega)]
  exact List.take_of_length_le (by simp)

/-- When the body has thrown, nothing is stored for a struct. -/
theorem storeResult_none_of_struct (h : ∃ n a, call.rtype = .struct n a)
    (junk : Returned pf call.rtype) : call.storeResult none junk = call.ram := by
  obtain ⟨rtype, params, hparams, ram, retval, parameters⟩ := call
  obtain ⟨n, a, rfl⟩ := h
  rfl

theorem size_le_of_not_struct {t : FFIType} (h : ¬∃ n a, t = .struct n a) :
    t.size pf ≤ 2 ^ 32 := by
  have hptr := pf.ptrSize_le
  have hlong := FFIType.size_longdouble_le pf
  cases t with
  | struct n a => exact absurd ⟨n, a, rfl⟩ h
  | longdouble => exact hlong.trans (by omega)
  | _ =>
    rw [FFIType.size]
    omega

/-- **When the body has thrown**, the bytes of the result are cleared, unless they are the last of
an `ffi_arg`. -/
theorem returnBytes_threw_iff :
    (∀ junk, call.returnBytes (call.checkException true (call.storeResult none junk)) =
      call.returnBytes (call.checkException true call.ram)) ↔ ¬NarrowBig pf call.rtype := by
  constructor
  · intro h hnarrow
    obtain ⟨-, hjunk⟩ := call.returnBytes_threw_of_narrowBig hnarrow
    have hpos := hnarrow.size.2.1
    have hsame := ((hjunk 0).symm.trans (h 0)).trans ((hjunk 1).symm.trans (h 1)).symm
    have hnat := congrArg leNat (List.reverse_injective hsame)
    rw [leNat_leBytes_eq, leNat_leBytes_eq] at hnat
    have hone : (1 : BitVec (8 * call.rtype.valueSize pf)).toNat = 1 :=
      BitVec.toNat_one (by omega)
    rw [hone] at hnat
    cases hnat
  · intro h junk
    rw [call.returnBytes_eq h, call.returnBytes_eq h]
    by_cases hstruct : ∃ n a, call.rtype = .struct n a
    · rw [call.storeResult_none_of_struct hstruct]
    · have hsize := (@size_le_of_not_struct pf _ hstruct).trans (two_pow_ptrBits pf)
      have hle := call.rtype.valueSize_le_size pf
      exact (call.bytes_memset _ _ hsize hle).trans (call.bytes_memset _ _ hsize hle).symm

/-! ### The two ways agree -/

/-- A result that is returned leaves the same bytes for the caller on both ways. -/
theorem returnBytes_storeResult (value junk : Returned pf call.rtype) :
    call.returnBytes (call.storeResult (some value) junk) =
      call.returnBytes (call.buffer.setReturn call.ram call.rtype value) := by
  by_cases h : call.rtype = .void
  · -- no bytes
    have hzero : call.rtype.valueSize pf = 0 := by rw [h]; rfl
    have hnil (ram : Ram (ptrBits pf)) : call.returnBytes ram = [] := by
      apply List.eq_nil_of_length_eq_zero
      rw [returnBytes, Ram.length_bytes, hzero]
    rw [hnil, hnil]
  · rw [call.storeResult_eq value junk h]

theorem closureInvoke_true (body : ClosureBody pf call.rtype) (junk : Returned pf call.rtype) :
    call.closureInvoke true body junk = call.primitiveArguments.map fun args =>
      (args, call.checkException (body args).isNone (call.storeResult (body args) junk)) := by
  rw [closureInvoke, if_pos rfl]
  cases call.primitiveArguments <;> rfl

/-- Where both ways call the body alike, they deliver the same arguments. -/
theorem DispatchAgrees.primitiveArguments {body : ClosureBody pf call.rtype}
    (h : call.DispatchAgrees body) : call.primitiveArguments = some call.bufferArguments := by
  obtain ⟨args, ram, ram', htrue, hfalse, -⟩ := h 0
  rw [closureInvoke_true] at htrue
  cases hfalse
  obtain ⟨args', hargs, heq⟩ := Option.map_eq_some_iff.mp htrue
  cases heq
  exact hargs

/-- **The two ways agree** when every floating point parameter is `+0.0`, and a body that throws is
not to return a number that is narrower than an `ffi_arg` on a big endian machine. -/
theorem dispatchAgrees_iff (body : ClosureBody pf call.rtype) :
    call.DispatchAgrees body ↔
      (∀ i t, call.params[i]? = some t → IsFloating pf t → call.IsZero t i) ∧
        (body call.bufferArguments = none → ¬NarrowBig pf call.rtype) := by
  rw [← call.primitiveArguments_eq_iff, ← call.returnBytes_threw_iff]
  constructor
  · intro h
    have hargs := DispatchAgrees.primitiveArguments call h
    refine ⟨hargs, fun hthrew junk => ?_⟩
    obtain ⟨args, ram, ram', htrue, hfalse, hbytes⟩ := h junk
    rw [closureInvoke_true, hargs, Option.map_some, hthrew] at htrue
    rw [closureInvoke, if_neg Bool.false_ne_true, hthrew] at hfalse
    cases htrue
    cases hfalse
    exact hbytes
  · rintro ⟨hargs, hthrew⟩ junk
    rw [closureInvoke_true, hargs, Option.map_some, closureInvoke, if_neg Bool.false_ne_true]
    refine ⟨_, _, _, rfl, rfl, ?_⟩
    cases hbody : body call.bufferArguments with
    | none => exact hthrew hbody junk
    | some value => exact call.returnBytes_storeResult value junk

/-- A parameter that is the `float` 1: its address is at 16, and its bytes at 32. -/
def oneFloat : ClosureCall .linuxX64 where
  rtype := .void
  params := [.float]
  params_ne_void := by decide
  ram := fun a =>
    if a = 16 then 32 else if a = 34 then 0x80 else if a = 35 then 0x3f else 0
  retval := 0
  parameters := 16

theorem not_dispatchAgrees_oneFloat : ¬oneFloat.DispatchAgrees fun _ => some 0 := by
  intro h
  have hargs := DispatchAgrees.primitiveArguments oneFloat h
  exact absurd hargs (by decide)

end ClosureCall

end Jffi
