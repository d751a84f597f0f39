import Jffi.InvokeDynamicSupport
import Jffi.ObjectOutcomes
import Jffi.ObjectParameterInfo

/-!
# `ObjectParameterInvoker`

Functions of numbers and objects are called by the methods `invokeN1O1rN`, …, `invokeN6O3rN` of one
of two classes. `NativeObjectParameterInvoker` hands everything to the fast entry point of the
arity. `HeapObjectParameterInvoker`, for libraries without these entry points, puts the numbers into
a parameter buffer first: as an `int` or as a `long`, by the size of the type of the parameter.

An `int` put for a parameter that is narrower than one has its low bytes where the parameter is read
on a little endian machine only.

## Main definitions

* `HeapObjectParameterInvoker.invokeN1O1rN`, …, `NativeObjectParameterInvoker.invokeN1O1rN`, … — the
  methods
* `ObjectMethod` — their names
* `Misreads` — a number that is put where it is not read

## Main results

* `heap_invoke_eq`, `native_invoke_eq` — the methods, whatever their arity
* `objectParameterInvokers_agree_iff` — when the two classes agree
-/

namespace Jffi

open ObjectBuffer

/-! ### What a descriptor of `create` means -/

namespace ObjectParameterInfo

/-- Only the type bits of a descriptor say what it is of. -/
theorem decodable_congr {flags flags' : BitVec 32} (h : flags &&& TYPE_MASK = flags' &&& TYPE_MASK)
    (hdecodable : Decodable flags') : Decodable flags := by
  simpa only [Decodable, decodeKind, h] using hdecodable

theorem decodable_of_infoType {type : BitVec 32} (h : InfoType type) : Decodable type := by
  rcases h with rfl | ⟨objectType, componentType, rfl⟩
  · exact Or.inr (Or.inr (by decide))
  · cases objectType with
    | ARRAY => exact Or.inl (by cases componentType <;> decide)
    | BUFFER => exact Or.inr (Or.inl (by cases componentType <;> decide))

/-- A descriptor made by `create` means the same to both paths. -/
theorem decodable (info : ObjectParameterInfo) : Decodable info.asObjectInfo := by
  obtain ⟨flags, ioflags, type, index, htype, rfl⟩ := info
  exact decodable_congr (makeObjectFlags_and_type ioflags index (by decide) (by decide))
    (decodable_of_infoType htype)

end ObjectParameterInfo

/-- An object, its offset and length, and its info. -/
structure ObjectArgument where
  object : Option Obj
  off : BitVec 32
  len : BitVec 32
  flags : ObjectParameterInfo

/-- What the native code is told of it. -/
def ObjectArgument.entry (o : ObjectArgument) : ObjectEntry :=
  ⟨o.object, o.flags.asObjectInfo, o.off, o.len⟩

variable {pf : Platform} (jvm : Jvm) (function : CallContext pf) (callee : Callee)

/-! ### Entry points for a buffer and objects -/

/-- An `int` as a `long`. -/
def intToLong (result : List Cell) : List Cell :=
  result ++ List.replicate (8 - result.length) (extension true result)

namespace Foreign

/-- `invokeArrayO1Int32` and `invokeArrayO2Int32`, whose result the caller takes for a `long`. -/
def invokeArrayInt32 (paramBuffer : List Byte) (objects : List ObjectEntry) (s : Native) :
    Option Seen :=
  (invokeArrayWithObjects_ pf jvm function.native callee paramBuffer objects
    (List.replicate 8 .undef) s).map (Outcome.seen fun retval => intToLong (returnInt pf retval))

/-- `invokeArrayO1Int64` and `invokeArrayO2Int64`. -/
def invokeArrayInt64 (paramBuffer : List Byte) (objects : List ObjectEntry) (s : Native) :
    Option Seen :=
  (invokeArrayWithObjects_ pf jvm function.native callee paramBuffer objects
    (List.replicate 8 .undef) s).map (Outcome.seen (returnLong pf))

def invokeArrayWithObjectsInt32 (paramBuffer : List Byte) (objectCount : ℕ)
    (objectInfo : List (BitVec 32)) (objects : List (Option Obj)) (s : Native) : Option Seen :=
  (invokeArrayWithObjects pf jvm function.native callee paramBuffer objectCount objectInfo objects
    (List.replicate 8 .undef) s).map (Outcome.seen fun retval => intToLong (returnInt pf retval))

def invokeArrayWithObjectsInt64 (paramBuffer : List Byte) (objectCount : ℕ)
    (objectInfo : List (BitVec 32)) (objects : List (Option Obj)) (s : Native) : Option Seen :=
  (invokeArrayWithObjects pf jvm function.native callee paramBuffer objectCount objectInfo objects
    (List.replicate 8 .undef) s).map (Outcome.seen (returnLong pf))

end Foreign

/-! ### `HeapObjectParameterInvoker` -/

namespace HeapObjectParameterInvoker

def encode (pf : Platform) (paramBuffer : List Byte) (off : ℕ) (type : JType) (n : BitVec 64) :
    Option (List Byte × ℕ) :=
  if type.size pf ≤ 4 then Encoder.putInt pf paramBuffer off (n.setWidth 32)
  else Encoder.putLong pf paramBuffer off n

/-- `new byte[encoder.getBufferSize(function.getCallContext())]`. -/
def newBuffer : List Byte := List.replicate (Encoder.getBufferSize pf function) 0

def invokeO1 (paramBuffer : List Byte) (o1 : ObjectArgument) (s : Native) : Option Seen :=
  if function.returnType.size pf = 8 then
    Foreign.invokeArrayInt64 jvm function callee paramBuffer [o1.entry] s
  else Foreign.invokeArrayInt32 jvm function callee paramBuffer [o1.entry] s

def invokeO2 (paramBuffer : List Byte) (o1 o2 : ObjectArgument) (s : Native) : Option Seen :=
  if function.returnType.size pf = 8 then
    Foreign.invokeArrayInt64 jvm function callee paramBuffer [o1.entry, o2.entry] s
  else Foreign.invokeArrayInt32 jvm function callee paramBuffer [o1.entry, o2.entry] s

def invokeO3 (paramBuffer : List Byte) (o1 o2 o3 : ObjectArgument) (s : Native) : Option Seen :=
  let objInfo := [o1.flags.asObjectInfo, o1.off, o1.len, o2.flags.asObjectInfo, o2.off, o2.len,
    o3.flags.asObjectInfo, o3.off, o3.len]
  let objects := [o1.object, o2.object, o3.object]
  if function.returnType.size pf = 8 then
    Foreign.invokeArrayWithObjectsInt64 jvm function callee paramBuffer 3 objInfo objects s
  else Foreign.invokeArrayWithObjectsInt32 jvm function callee paramBuffer 3 objInfo objects s

def encodeN2 (n1 n2 : BitVec 64) : Option (List Byte) := do
  let (paramBuffer, poff) ← encode pf (newBuffer function) 0 (← function.getParameterType 0) n1
  let (paramBuffer, _) ← encode pf paramBuffer poff (← function.getParameterType 1) n2
  some paramBuffer

def encodeN3 (n1 n2 n3 : BitVec 64) : Option (List Byte) := do
  let (paramBuffer, poff) ← encode pf (newBuffer function) 0 (← function.getParameterType 0) n1
  let (paramBuffer, poff) ← encode pf paramBuffer poff (← function.getParameterType 1) n2
  let (paramBuffer, _) ← encode pf paramBuffer poff (← function.getParameterType 2) n3
  some paramBuffer

def encodeN4 (n1 n2 n3 n4 : BitVec 64) : Option (List Byte) := do
  let (paramBuffer, poff) ← encode pf (newBuffer function) 0 (← function.getParameterType 0) n1
  let (paramBuffer, poff) ← encode pf paramBuffer poff (← function.getParameterType 1) n2
  let (paramBuffer, poff) ← encode pf paramBuffer poff (← function.getParameterType 2) n3
  let (paramBuffer, _) ← encode pf paramBuffer poff (← function.getParameterType 3) n4
  some paramBuffer

def encodeN5 (n1 n2 n3 n4 n5 : BitVec 64) : Option (List Byte) := do
  let (paramBuffer, poff) ← encode pf (newBuffer function) 0 (← function.getParameterType 0) n1
  let (paramBuffer, poff) ← encode pf paramBuffer poff (← function.getParameterType 1) n2
  let (paramBuffer, poff) ← encode pf paramBuffer poff (← function.getParameterType 2) n3
  let (paramBuffer, poff) ← encode pf paramBuffer poff (← function.getParameterType 3) n4
  let (paramBuffer, _) ← encode pf paramBuffer poff (← function.getParameterType 4) n5
  some paramBuffer

def encodeN6 (n1 n2 n3 n4 n5 n6 : BitVec 64) : Option (List Byte) := do
  let (paramBuffer, poff) ← encode pf (newBuffer function) 0 (← function.getParameterType 0) n1
  let (paramBuffer, poff) ← encode pf paramBuffer poff (← function.getParameterType 1) n2
  let (paramBuffer, poff) ← encode pf paramBuffer poff (← function.getParameterType 2) n3
  let (paramBuffer, poff) ← encode pf paramBuffer poff (← function.getParameterType 3) n4
  let (paramBuffer, poff) ← encode pf paramBuffer poff (← function.getParameterType 4) n5
  let (paramBuffer, _) ← encode pf paramBuffer poff (← function.getParameterType 5) n6
  some paramBuffer

/-- All of its parameters are objects, and the number is not looked at. -/
def invokeN1O1rN (_n1 : BitVec 64) (o1 : ObjectArgument) (s : Native) : Option Seen :=
  invokeO1 jvm function callee (newBuffer function) o1 s

def invokeN2O1rN (n1 n2 : BitVec 64) (o1 : ObjectArgument) (s : Native) : Option Seen := do
  invokeO1 jvm function callee (← encodeN2 function n1 n2) o1 s

/-- All of its parameters are objects, and the numbers are not looked at. -/
def invokeN2O2rN (_n1 _n2 : BitVec 64) (o1 o2 : ObjectArgument) (s : Native) : Option Seen :=
  invokeO2 jvm function callee (newBuffer function) o1 o2 s

def invokeN3O1rN (n1 n2 n3 : BitVec 64) (o1 : ObjectArgument) (s : Native) : Option Seen := do
  invokeO1 jvm function callee (← encodeN3 function n1 n2 n3) o1 s

def invokeN3O2rN (n1 n2 n3 : BitVec 64) (o1 o2 : ObjectArgument) (s : Native) : Option Seen := do
  invokeO2 jvm function callee (← encodeN3 function n1 n2 n3) o1 o2 s

def invokeN3O3rN (n1 n2 n3 : BitVec 64) (o1 o2 o3 : ObjectArgument) (s : Native) : Option Seen := do
  invokeO3 jvm function callee (← encodeN3 function n1 n2 n3) o1 o2 o3 s

def invokeN4O1rN (n1 n2 n3 n4 : BitVec 64) (o1 : ObjectArgument) (s : Native) : Option Seen := do
  invokeO1 jvm function callee (← encodeN4 function n1 n2 n3 n4) o1 s

def invokeN4O2rN (n1 n2 n3 n4 : BitVec 64) (o1 o2 : ObjectArgument) (s : Native) :
    Option Seen := do
  invokeO2 jvm function callee (← encodeN4 function n1 n2 n3 n4) o1 o2 s

def invokeN4O3rN (n1 n2 n3 n4 : BitVec 64) (o1 o2 o3 : ObjectArgument) (s : Native) :
    Option Seen := do
  invokeO3 jvm function callee (← encodeN4 function n1 n2 n3 n4) o1 o2 o3 s

def invokeN5O1rN (n1 n2 n3 n4 n5 : BitVec 64) (o1 : ObjectArgument) (s : Native) :
    Option Seen := do
  invokeO1 jvm function callee (← encodeN5 function n1 n2 n3 n4 n5) o1 s

def invokeN5O2rN (n1 n2 n3 n4 n5 : BitVec 64) (o1 o2 : ObjectArgument) (s : Native) :
    Option Seen := do
  invokeO2 jvm function callee (← encodeN5 function n1 n2 n3 n4 n5) o1 o2 s

def invokeN5O3rN (n1 n2 n3 n4 n5 : BitVec 64) (o1 o2 o3 : ObjectArgument) (s : Native) :
    Option Seen := do
  invokeO3 jvm function callee (← encodeN5 function n1 n2 n3 n4 n5) o1 o2 o3 s

def invokeN6O1rN (n1 n2 n3 n4 n5 n6 : BitVec 64) (o1 : ObjectArgument) (s : Native) :
    Option Seen := do
  invokeO1 jvm function callee (← encodeN6 function n1 n2 n3 n4 n5 n6) o1 s

def invokeN6O2rN (n1 n2 n3 n4 n5 n6 : BitVec 64) (o1 o2 : ObjectArgument) (s : Native) :
    Option Seen := do
  invokeO2 jvm function callee (← encodeN6 function n1 n2 n3 n4 n5 n6) o1 o2 s

def invokeN6O3rN (n1 n2 n3 n4 n5 n6 : BitVec 64) (o1 o2 o3 : ObjectArgument) (s : Native) :
    Option Seen := do
  invokeO3 jvm function callee (← encodeN6 function n1 n2 n3 n4 n5 n6) o1 o2 o3 s

end HeapObjectParameterInvoker

/-! ### `NativeObjectParameterInvoker` -/

namespace NativeObjectParameterInvoker

/-- `foreign.invokeN…O…`, which every method calls with all of its arguments. -/
def foreignInvoke (ns : List (BitVec 64)) (os : List ObjectArgument) (s : Native) : Option Seen :=
  (invokeNO pf jvm function.native callee ns (os.map ObjectArgument.entry) s).map FastOutcome.seen

def invokeN1O1rN (n1 : BitVec 64) (o1 : ObjectArgument) (s : Native) : Option Seen :=
  foreignInvoke jvm function callee [n1] [o1] s

def invokeN2O1rN (n1 n2 : BitVec 64) (o1 : ObjectArgument) (s : Native) : Option Seen :=
  foreignInvoke jvm function callee [n1, n2] [o1] s

def invokeN2O2rN (n1 n2 : BitVec 64) (o1 o2 : ObjectArgument) (s : Native) : Option Seen :=
  foreignInvoke jvm function callee [n1, n2] [o1, o2] s

def invokeN3O1rN (n1 n2 n3 : BitVec 64) (o1 : ObjectArgument) (s : Native) : Option Seen :=
  foreignInvoke jvm function callee [n1, n2, n3] [o1] s

def invokeN3O2rN (n1 n2 n3 : BitVec 64) (o1 o2 : ObjectArgument) (s : Native) : Option Seen :=
  foreignInvoke jvm function callee [n1, n2, n3] [o1, o2] s

def invokeN3O3rN (n1 n2 n3 : BitVec 64) (o1 o2 o3 : ObjectArgument) (s : Native) : Option Seen :=
  foreignInvoke jvm function callee [n1, n2, n3] [o1, o2, o3] s

def invokeN4O1rN (n1 n2 n3 n4 : BitVec 64) (o1 : ObjectArgument) (s : Native) : Option Seen :=
  foreignInvoke jvm function callee [n1, n2, n3, n4] [o1] s

def invokeN4O2rN (n1 n2 n3 n4 : BitVec 64) (o1 o2 : ObjectArgument) (s : Native) : Option Seen :=
  foreignInvoke jvm function callee [n1, n2, n3, n4] [o1, o2] s

def invokeN4O3rN (n1 n2 n3 n4 : BitVec 64) (o1 o2 o3 : ObjectArgument) (s : Native) : Option Seen :=
  foreignInvoke jvm function callee [n1, n2, n3, n4] [o1, o2, o3] s

def invokeN5O1rN (n1 n2 n3 n4 n5 : BitVec 64) (o1 : ObjectArgument) (s : Native) : Option Seen :=
  foreignInvoke jvm function callee [n1, n2, n3, n4, n5] [o1] s

def invokeN5O2rN (n1 n2 n3 n4 n5 : BitVec 64) (o1 o2 : ObjectArgument) (s : Native) : Option Seen :=
  foreignInvoke jvm function callee [n1, n2, n3, n4, n5] [o1, o2] s

def invokeN5O3rN (n1 n2 n3 n4 n5 : BitVec 64) (o1 o2 o3 : ObjectArgument) (s : Native) :
    Option Seen :=
  foreignInvoke jvm function callee [n1, n2, n3, n4, n5] [o1, o2, o3] s

def invokeN6O1rN (n1 n2 n3 n4 n5 n6 : BitVec 64) (o1 : ObjectArgument) (s : Native) : Option Seen :=
  foreignInvoke jvm function callee [n1, n2, n3, n4, n5, n6] [o1] s

def invokeN6O2rN (n1 n2 n3 n4 n5 n6 : BitVec 64) (o1 o2 : ObjectArgument) (s : Native) :
    Option Seen :=
  foreignInvoke jvm function callee [n1, n2, n3, n4, n5, n6] [o1, o2] s

def invokeN6O3rN (n1 n2 n3 n4 n5 n6 : BitVec 64) (o1 o2 o3 : ObjectArgument) (s : Native) :
    Option Seen :=
  foreignInvoke jvm function callee [n1, n2, n3, n4, n5, n6] [o1, o2, o3] s

end NativeObjectParameterInvoker

/-! ### The methods by their arity -/

/-- The methods of `ObjectParameterInvoker`. -/
inductive ObjectMethod
  | invokeN1O1rN | invokeN2O1rN | invokeN2O2rN | invokeN3O1rN | invokeN3O2rN | invokeN3O3rN
  | invokeN4O1rN | invokeN4O2rN | invokeN4O3rN | invokeN5O1rN | invokeN5O2rN | invokeN5O3rN
  | invokeN6O1rN | invokeN6O2rN | invokeN6O3rN
  deriving DecidableEq, Repr

namespace ObjectMethod

/-- How many numbers a method takes. -/
def numbers : ObjectMethod → ℕ
  | invokeN1O1rN => 1
  | invokeN2O1rN | invokeN2O2rN => 2
  | invokeN3O1rN | invokeN3O2rN | invokeN3O3rN => 3
  | invokeN4O1rN | invokeN4O2rN | invokeN4O3rN => 4
  | invokeN5O1rN | invokeN5O2rN | invokeN5O3rN => 5
  | invokeN6O1rN | invokeN6O2rN | invokeN6O3rN => 6

/-- How many objects a method takes. -/
def objects : ObjectMethod → ℕ
  | invokeN1O1rN | invokeN2O1rN | invokeN3O1rN | invokeN4O1rN | invokeN5O1rN | invokeN6O1rN => 1
  | invokeN2O2rN | invokeN3O2rN | invokeN4O2rN | invokeN5O2rN | invokeN6O2rN => 2
  | invokeN3O3rN | invokeN4O3rN | invokeN5O3rN | invokeN6O3rN => 3

end ObjectMethod

/-- All of its parameters are objects; the numbers are not even encoded. -/
def ObjectMethod.skipsNumbers : ObjectMethod → Bool
  | .invokeN1O1rN | .invokeN2O2rN => true
  | _ => false

/-- A method of `HeapObjectParameterInvoker` on arguments of its arity. -/
def HeapObjectParameterInvoker.invoke (m : ObjectMethod) (ns : List (BitVec 64))
    (os : List ObjectArgument) (s : Native) : Option Seen :=
  match m, ns, os with
  | .invokeN1O1rN, [n1], [o1] => invokeN1O1rN jvm function callee n1 o1 s
  | .invokeN2O1rN, [n1, n2], [o1] => invokeN2O1rN jvm function callee n1 n2 o1 s
  | .invokeN2O2rN, [n1, n2], [o1, o2] => invokeN2O2rN jvm function callee n1 n2 o1 o2 s
  | .invokeN3O1rN, [n1, n2, n3], [o1] => invokeN3O1rN jvm function callee n1 n2 n3 o1 s
  | .invokeN3O2rN, [n1, n2, n3], [o1, o2] => invokeN3O2rN jvm function callee n1 n2 n3 o1 o2 s
  | .invokeN3O3rN, [n1, n2, n3], [o1, o2, o3] =>
    invokeN3O3rN jvm function callee n1 n2 n3 o1 o2 o3 s
  | .invokeN4O1rN, [n1, n2, n3, n4], [o1] => invokeN4O1rN jvm function callee n1 n2 n3 n4 o1 s
  | .invokeN4O2rN, [n1, n2, n3, n4], [o1, o2] =>
    invokeN4O2rN jvm function callee n1 n2 n3 n4 o1 o2 s
  | .invokeN4O3rN, [n1, n2, n3, n4], [o1, o2, o3] =>
    invokeN4O3rN jvm function callee n1 n2 n3 n4 o1 o2 o3 s
  | .invokeN5O1rN, [n1, n2, n3, n4, n5], [o1] =>
    invokeN5O1rN jvm function callee n1 n2 n3 n4 n5 o1 s
  | .invokeN5O2rN, [n1, n2, n3, n4, n5], [o1, o2] =>
    invokeN5O2rN jvm function callee n1 n2 n3 n4 n5 o1 o2 s
  | .invokeN5O3rN, [n1, n2, n3, n4, n5], [o1, o2, o3] =>
    invokeN5O3rN jvm function callee n1 n2 n3 n4 n5 o1 o2 o3 s
  | .invokeN6O1rN, [n1, n2, n3, n4, n5, n6], [o1] =>
    invokeN6O1rN jvm function callee n1 n2 n3 n4 n5 n6 o1 s
  | .invokeN6O2rN, [n1, n2, n3, n4, n5, n6], [o1, o2] =>
    invokeN6O2rN jvm function callee n1 n2 n3 n4 n5 n6 o1 o2 s
  | .invokeN6O3rN, [n1, n2, n3, n4, n5, n6], [o1, o2, o3] =>
    invokeN6O3rN jvm function callee n1 n2 n3 n4 n5 n6 o1 o2 o3 s
  | _, _, _ => none

/-- A method of `NativeObjectParameterInvoker` on arguments of its arity. -/
def NativeObjectParameterInvoker.invoke (m : ObjectMethod) (ns : List (BitVec 64))
    (os : List ObjectArgument) (s : Native) : Option Seen :=
  match m, ns, os with
  | .invokeN1O1rN, [n1], [o1] => invokeN1O1rN jvm function callee n1 o1 s
  | .invokeN2O1rN, [n1, n2], [o1] => invokeN2O1rN jvm function callee n1 n2 o1 s
  | .invokeN2O2rN, [n1, n2], [o1, o2] => invokeN2O2rN jvm function callee n1 n2 o1 o2 s
  | .invokeN3O1rN, [n1, n2, n3], [o1] => invokeN3O1rN jvm function callee n1 n2 n3 o1 s
  | .invokeN3O2rN, [n1, n2, n3], [o1, o2] => invokeN3O2rN jvm function callee n1 n2 n3 o1 o2 s
  | .invokeN3O3rN, [n1, n2, n3], [o1, o2, o3] =>
    invokeN3O3rN jvm function callee n1 n2 n3 o1 o2 o3 s
  | .invokeN4O1rN, [n1, n2, n3, n4], [o1] => invokeN4O1rN jvm function callee n1 n2 n3 n4 o1 s
  | .invokeN4O2rN, [n1, n2, n3, n4], [o1, o2] =>
    invokeN4O2rN jvm function callee n1 n2 n3 n4 o1 o2 s
  | .invokeN4O3rN, [n1, n2, n3, n4], [o1, o2, o3] =>
    invokeN4O3rN jvm function callee n1 n2 n3 n4 o1 o2 o3 s
  | .invokeN5O1rN, [n1, n2, n3, n4, n5], [o1] =>
    invokeN5O1rN jvm function callee n1 n2 n3 n4 n5 o1 s
  | .invokeN5O2rN, [n1, n2, n3, n4, n5], [o1, o2] =>
    invokeN5O2rN jvm function callee n1 n2 n3 n4 n5 o1 o2 s
  | .invokeN5O3rN, [n1, n2, n3, n4, n5], [o1, o2, o3] =>
    invokeN5O3rN jvm function callee n1 n2 n3 n4 n5 o1 o2 o3 s
  | .invokeN6O1rN, [n1, n2, n3, n4, n5, n6], [o1] =>
    invokeN6O1rN jvm function callee n1 n2 n3 n4 n5 n6 o1 s
  | .invokeN6O2rN, [n1, n2, n3, n4, n5, n6], [o1, o2] =>
    invokeN6O2rN jvm function callee n1 n2 n3 n4 n5 n6 o1 o2 s
  | .invokeN6O3rN, [n1, n2, n3, n4, n5, n6], [o1, o2, o3] =>
    invokeN6O3rN jvm function callee n1 n2 n3 n4 n5 n6 o1 o2 o3 s
  | _, _, _ => none

/-! ### The parameter buffer -/

namespace HeapObjectParameterInvoker

/-- What is put for a number. -/
def encodedPut (pf : Platform) (type : FFIType) (n : BitVec 64) : Put :=
  if type.size pf ≤ 4 then .int (n.setWidth 32) else .long n

/-- The buffer once the values `ps` have been put. -/
def bufferOf (ps : List Put) : List Byte :=
  ps.flatMap (Put.slot pf) ++
    List.replicate (PARAM_SIZE * (function.getParameterCount - ps.length)) 0

variable {function}

/-- Encoding one more number appends its slot to the buffer and moves the offset by one slot. -/
theorem encode_bufferOf {ps : List Put} (hlt : ps.length < function.getParameterCount)
    (type : JType)
    (n : BitVec 64) :
    encode pf (bufferOf function ps) (PARAM_SIZE * ps.length) type n =
      some (bufferOf function (ps ++ [encodedPut pf (type.ffiType pf) n]),
        PARAM_SIZE * (ps.length + 1)) := by
  have hlen : (bufferOf function ps).length = PARAM_SIZE * function.getParameterCount := by
    rw [bufferOf, List.length_append, length_flatMap_slot, List.length_replicate, ← Nat.mul_add]
    congr 1
    omega
  have hroom : PARAM_SIZE * ps.length + 8 ≤ (bufferOf function ps).length := by
    rw [hlen, PARAM_SIZE]
    omega
  have hsplice := splice_slot pf ps (encodedPut pf (type.ffiType pf) n) hlt
  rw [encode, JType.size]
  by_cases hsize : (type.ffiType pf).size pf ≤ 4
  · rw [if_pos hsize, Encoder.putInt, ArrayIo.encodes_putInt pf _ _ _ (by omega)]
    rw [encodedPut, if_pos hsize] at hsplice ⊢
    rw [Put.digits] at hsplice
    rw [bufferOf, hsplice]
    rfl
  · rw [if_neg hsize, Encoder.putLong, ArrayIo.encodes_putLong pf _ _ _ hroom]
    rw [encodedPut, if_neg hsize] at hsplice ⊢
    rw [Put.digits] at hsplice
    rw [bufferOf, hsplice]
    rfl

theorem newBuffer_eq : newBuffer function = bufferOf function [] := by
  rw [newBuffer, bufferOf, Encoder.getBufferSize, Nat.mul_comm]
  rfl

/-- The puts for all numbers. -/
def numberPuts (function : CallContext pf) (ns : List (BitVec 64)) : List Put :=
  List.zipWith (encodedPut pf) function.native.cif.argTypes ns

/-- One number after the other, from parameter `i` on. -/
def encodeFrom (function : CallContext pf) :
    ℕ → List (BitVec 64) → List Byte × ℕ → Option (List Byte × ℕ)
  | _, [], r => some r
  | i, n :: ns, r => do
    let type ← function.getParameterType i
    encodeFrom function (i + 1) ns (← encode pf r.1 r.2 type n)

theorem encodeFrom_bufferOf {ps : List Put} {ns : List (BitVec 64)}
    (hlen : ps.length + ns.length = function.getParameterCount) :
    (encodeFrom function ps.length ns (bufferOf function ps, PARAM_SIZE * ps.length)).map Prod.fst =
      some (bufferOf function
        (ps ++ List.zipWith (encodedPut pf) (function.native.cif.argTypes.drop ps.length) ns)) := by
  induction ns generalizing ps with
  | nil =>
    rw [List.zipWith_nil_right, List.append_nil]
    rfl
  | cons n ns ih =>
    rw [List.length_cons] at hlen
    have hlt : ps.length < function.getParameterCount := by omega
    have htype : function.getParameterType ps.length = some function.parameterTypes[ps.length] :=
      List.getElem?_eq_getElem hlt
    have hdrop : function.native.cif.argTypes.drop ps.length =
        function.parameterTypes[ps.length].ffiType pf ::
          function.native.cif.argTypes.drop (ps.length + 1) := by
      rw [List.drop_eq_getElem_cons (by rw [CallContext.length_argTypes]; exact hlt)]
      simp only [function.argTypes_eq, List.getElem_map]
      rfl
    have hrest := @ih (ps ++ [encodedPut pf (function.parameterTypes[ps.length].ffiType pf) n])
      (by rw [List.length_append, List.length_singleton]; omega)
    rw [List.length_append, List.length_singleton, List.append_assoc] at hrest
    rw [encodeFrom, htype, Option.bind_eq_bind, Option.bind_some, encode_bufferOf hlt, hdrop,
      List.zipWith_cons_cons]
    exact hrest

theorem encodeFrom_eq {ns : List (BitVec 64)} (hlen : ns.length = function.getParameterCount) :
    (encodeFrom function 0 ns (newBuffer function, 0)).map Prod.fst =
      some (bufferOf function (numberPuts function ns)) := by
  rw [newBuffer_eq]
  exact @encodeFrom_bufferOf pf function [] ns (by rw [List.length_nil, Nat.zero_add, hlen])

theorem length_eq_five {α : Type} {l : List α} (h : l.length = 5) :
    ∃ a b c d e, l = [a, b, c, d, e] := by
  obtain ⟨a, l, rfl⟩ := List.exists_cons_of_length_eq_add_one h
  obtain ⟨b, c, d, e, rfl⟩ := List.length_eq_four.mp (Nat.succ.inj h)
  exact ⟨a, b, c, d, e, rfl⟩

theorem length_eq_six {α : Type} {l : List α} (h : l.length = 6) :
    ∃ a b c d e f, l = [a, b, c, d, e, f] := by
  obtain ⟨a, l, rfl⟩ := List.exists_cons_of_length_eq_add_one h
  obtain ⟨b, c, d, e, f, rfl⟩ := length_eq_five (Nat.succ.inj h)
  exact ⟨a, b, c, d, e, f, rfl⟩

/-- The numbers of a method, encoded by the helper for their count. -/
def encodeN (function : CallContext pf) : List (BitVec 64) → Option (List Byte)
  | [n1, n2] => encodeN2 function n1 n2
  | [n1, n2, n3] => encodeN3 function n1 n2 n3
  | [n1, n2, n3, n4] => encodeN4 function n1 n2 n3 n4
  | [n1, n2, n3, n4, n5] => encodeN5 function n1 n2 n3 n4 n5
  | [n1, n2, n3, n4, n5, n6] => encodeN6 function n1 n2 n3 n4 n5 n6
  | _ => none

/-- Each helper returns the buffer that the puts of its numbers, one for each parameter, fill. -/
theorem encodeN_eq {ns : List (BitVec 64)} (hlen : ns.length = function.getParameterCount)
    (htwo : 2 ≤ ns.length) (hsix : ns.length ≤ 6) :
    encodeN function ns = some (bufferOf function (numberPuts function ns)) := by
  rw [← encodeFrom_eq hlen]
  obtain h | h | h | h | h : ns.length = 2 ∨ ns.length = 3 ∨ ns.length = 4 ∨ ns.length = 5 ∨
      ns.length = 6 := by omega
  · obtain ⟨n1, n2, rfl⟩ := List.length_eq_two.mp h
    simp [encodeN, encodeN2, encodeFrom, Option.map_eq_bind, Option.bind_assoc]
  · obtain ⟨n1, n2, n3, rfl⟩ := List.length_eq_three.mp h
    simp [encodeN, encodeN3, encodeFrom, Option.map_eq_bind, Option.bind_assoc]
  · obtain ⟨n1, n2, n3, n4, rfl⟩ := List.length_eq_four.mp h
    simp [encodeN, encodeN4, encodeFrom, Option.map_eq_bind, Option.bind_assoc]
  · obtain ⟨n1, n2, n3, n4, n5, rfl⟩ := length_eq_five h
    simp [encodeN, encodeN5, encodeFrom, Option.map_eq_bind, Option.bind_assoc]
  · obtain ⟨n1, n2, n3, n4, n5, n6, rfl⟩ := length_eq_six h
    simp [encodeN, encodeN6, encodeFrom, Option.map_eq_bind, Option.bind_assoc]

/-! ### The methods, whatever their arity -/

/-- The result of a method, read from the return buffer. -/
def readResult (function : CallContext pf) (retval : List Cell) : List Cell :=
  if function.returnType.size pf = 8 then returnLong pf retval
  else intToLong (returnInt pf retval)

/-- What every method comes to: numbers and objects in a buffer, and the native function that is
called with it. -/
def invokeWith (jvm : Jvm) (function : CallContext pf) (callee : Callee) (paramBuffer : List Byte)
    (os : List ObjectArgument) (s : Native) : Option Seen :=
  (invokeArrayWithObjects_ pf jvm function.native callee paramBuffer
    (os.map ObjectArgument.entry) (List.replicate 8 .undef) s).map
    (Outcome.seen (readResult function))

variable {jvm callee} {s : Native} {paramBuffer : List Byte}

/-- The objects of a method, passed on by the helper for their count. -/
def invokeO (jvm : Jvm) (function : CallContext pf) (callee : Callee) (paramBuffer : List Byte)
    (s : Native) : List ObjectArgument → Option Seen
  | [o1] => invokeO1 jvm function callee paramBuffer o1 s
  | [o1, o2] => invokeO2 jvm function callee paramBuffer o1 o2 s
  | [o1, o2, o3] => invokeO3 jvm function callee paramBuffer o1 o2 o3 s
  | _ => none

/-- Each helper makes the same native call with its objects and reads the result alike. -/
theorem invokeO_eq {os : List ObjectArgument} (hone : 1 ≤ os.length) (hthree : os.length ≤ 3) :
    invokeO jvm function callee paramBuffer s os =
      invokeWith jvm function callee paramBuffer os s := by
  obtain h | h | h : os.length = 1 ∨ os.length = 2 ∨ os.length = 3 := by omega
  · obtain ⟨o1, rfl⟩ := List.length_eq_one_iff.mp h
    rw [invokeO, invokeO1]
    unfold invokeWith readResult
    split
    · rfl
    · rfl
  · obtain ⟨o1, o2, rfl⟩ := List.length_eq_two.mp h
    rw [invokeO, invokeO2]
    unfold invokeWith readResult
    split
    · rfl
    · rfl
  · obtain ⟨o1, o2, o3, rfl⟩ := List.length_eq_three.mp h
    rw [invokeO, invokeO3]
    unfold invokeWith readResult
    split
    · rfl
    · rfl

/-- The parameter buffer of a method. -/
def methodBuffer (function : CallContext pf) (m : ObjectMethod) (ns : List (BitVec 64)) :
    List Byte :=
  if m.skipsNumbers then newBuffer function else bufferOf function (numberPuts function ns)

/-- A method fills a new buffer with its numbers, unless it skips them, and passes its objects
on. -/
theorem invoke_eq_helpers {m : ObjectMethod} {ns : List (BitVec 64)} {os : List ObjectArgument}
    (hns : ns.length = m.numbers) (hos : os.length = m.objects) :
    invoke jvm function callee m ns os s =
      (if m.skipsNumbers then some (newBuffer function) else encodeN function ns).bind
        fun paramBuffer => invokeO jvm function callee paramBuffer s os := by
  cases m with
  | invokeN1O1rN =>
    obtain ⟨n1, rfl⟩ := List.length_eq_one_iff.mp hns
    obtain ⟨o1, rfl⟩ := List.length_eq_one_iff.mp hos
    rfl
  | invokeN2O1rN =>
    obtain ⟨n1, n2, rfl⟩ := List.length_eq_two.mp hns
    obtain ⟨o1, rfl⟩ := List.length_eq_one_iff.mp hos
    rfl
  | invokeN2O2rN =>
    obtain ⟨n1, n2, rfl⟩ := List.length_eq_two.mp hns
    obtain ⟨o1, o2, rfl⟩ := List.length_eq_two.mp hos
    rfl
  | invokeN3O1rN =>
    obtain ⟨n1, n2, n3, rfl⟩ := List.length_eq_three.mp hns
    obtain ⟨o1, rfl⟩ := List.length_eq_one_iff.mp hos
    rfl
  | invokeN3O2rN =>
    obtain ⟨n1, n2, n3, rfl⟩ := List.length_eq_three.mp hns
    obtain ⟨o1, o2, rfl⟩ := List.length_eq_two.mp hos
    rfl
  | invokeN3O3rN =>
    obtain ⟨n1, n2, n3, rfl⟩ := List.length_eq_three.mp hns
    obtain ⟨o1, o2, o3, rfl⟩ := List.length_eq_three.mp hos
    rfl
  | invokeN4O1rN =>
    obtain ⟨n1, n2, n3, n4, rfl⟩ := List.length_eq_four.mp hns
    obtain ⟨o1, rfl⟩ := List.length_eq_one_iff.mp hos
    rfl
  | invokeN4O2rN =>
    obtain ⟨n1, n2, n3, n4, rfl⟩ := List.length_eq_four.mp hns
    obtain ⟨o1, o2, rfl⟩ := List.length_eq_two.mp hos
    rfl
  | invokeN4O3rN =>
    obtain ⟨n1, n2, n3, n4, rfl⟩ := List.length_eq_four.mp hns
    obtain ⟨o1, o2, o3, rfl⟩ := List.length_eq_three.mp hos
    rfl
  | invokeN5O1rN =>
    obtain ⟨n1, n2, n3, n4, n5, rfl⟩ := length_eq_five hns
    obtain ⟨o1, rfl⟩ := List.length_eq_one_iff.mp hos
    rfl
  | invokeN5O2rN =>
    obtain ⟨n1, n2, n3, n4, n5, rfl⟩ := length_eq_five hns
    obtain ⟨o1, o2, rfl⟩ := List.length_eq_two.mp hos
    rfl
  | invokeN5O3rN =>
    obtain ⟨n1, n2, n3, n4, n5, rfl⟩ := length_eq_five hns
    obtain ⟨o1, o2, o3, rfl⟩ := List.length_eq_three.mp hos
    rfl
  | invokeN6O1rN =>
    obtain ⟨n1, n2, n3, n4, n5, n6, rfl⟩ := length_eq_six hns
    obtain ⟨o1, rfl⟩ := List.length_eq_one_iff.mp hos
    rfl
  | invokeN6O2rN =>
    obtain ⟨n1, n2, n3, n4, n5, n6, rfl⟩ := length_eq_six hns
    obtain ⟨o1, o2, rfl⟩ := List.length_eq_two.mp hos
    rfl
  | invokeN6O3rN =>
    obtain ⟨n1, n2, n3, n4, n5, n6, rfl⟩ := length_eq_six hns
    obtain ⟨o1, o2, o3, rfl⟩ := List.length_eq_three.mp hos
    rfl

/-- Every method of `HeapObjectParameterInvoker` makes one native call, with the buffer of its
numbers and all of its objects. -/
theorem heap_invoke_eq {m : ObjectMethod} {ns : List (BitVec 64)} {os : List ObjectArgument}
    (hcount : function.getParameterCount = m.numbers) (hns : ns.length = m.numbers)
    (hos : os.length = m.objects) :
    invoke jvm function callee m ns os s =
      invokeWith jvm function callee (methodBuffer function m ns) os s := by
  have hone : 1 ≤ os.length ∧ os.length ≤ 3 := by rw [hos]; cases m <;> decide
  rw [invoke_eq_helpers hns hos, methodBuffer]
  cases hskips : m.skipsNumbers with
  | true => exact invokeO_eq hone.1 hone.2
  | false =>
    have htwo : 2 ≤ ns.length ∧ ns.length ≤ 6 := by
      rw [hns]
      cases m <;> first | decide | cases hskips
    rw [if_neg Bool.false_ne_true, if_neg Bool.false_ne_true,
      encodeN_eq (hns.trans hcount.symm) htwo.1 htwo.2]
    exact invokeO_eq hone.1 hone.2

end HeapObjectParameterInvoker

/-- The methods of `NativeObjectParameterInvoker` all pass their numbers and objects on to the
native function for them, whatever their arity. -/
theorem NativeObjectParameterInvoker.native_invoke_eq {jvm : Jvm} {function : CallContext pf}
    {callee : Callee} {s : Native} {m : ObjectMethod} {ns : List (BitVec 64)}
    {os : List ObjectArgument} (hns : ns.length = m.numbers) (hos : os.length = m.objects) :
    invoke jvm function callee m ns os s = foreignInvoke jvm function callee ns os s := by
  cases m with
  | invokeN1O1rN =>
    obtain ⟨n1, rfl⟩ := List.length_eq_one_iff.mp hns
    obtain ⟨o1, rfl⟩ := List.length_eq_one_iff.mp hos
    rfl
  | invokeN2O1rN =>
    obtain ⟨n1, n2, rfl⟩ := List.length_eq_two.mp hns
    obtain ⟨o1, rfl⟩ := List.length_eq_one_iff.mp hos
    rfl
  | invokeN2O2rN =>
    obtain ⟨n1, n2, rfl⟩ := List.length_eq_two.mp hns
    obtain ⟨o1, o2, rfl⟩ := List.length_eq_two.mp hos
    rfl
  | invokeN3O1rN =>
    obtain ⟨n1, n2, n3, rfl⟩ := List.length_eq_three.mp hns
    obtain ⟨o1, rfl⟩ := List.length_eq_one_iff.mp hos
    rfl
  | invokeN3O2rN =>
    obtain ⟨n1, n2, n3, rfl⟩ := List.length_eq_three.mp hns
    obtain ⟨o1, o2, rfl⟩ := List.length_eq_two.mp hos
    rfl
  | invokeN3O3rN =>
    obtain ⟨n1, n2, n3, rfl⟩ := List.length_eq_three.mp hns
    obtain ⟨o1, o2, o3, rfl⟩ := List.length_eq_three.mp hos
    rfl
  | invokeN4O1rN =>
    obtain ⟨n1, n2, n3, n4, rfl⟩ := List.length_eq_four.mp hns
    obtain ⟨o1, rfl⟩ := List.length_eq_one_iff.mp hos
    rfl
  | invokeN4O2rN =>
    obtain ⟨n1, n2, n3, n4, rfl⟩ := List.length_eq_four.mp hns
    obtain ⟨o1, o2, rfl⟩ := List.length_eq_two.mp hos
    rfl
  | invokeN4O3rN =>
    obtain ⟨n1, n2, n3, n4, rfl⟩ := List.length_eq_four.mp hns
    obtain ⟨o1, o2, o3, rfl⟩ := List.length_eq_three.mp hos
    rfl
  | invokeN5O1rN =>
    obtain ⟨n1, n2, n3, n4, n5, rfl⟩ := HeapObjectParameterInvoker.length_eq_five hns
    obtain ⟨o1, rfl⟩ := List.length_eq_one_iff.mp hos
    rfl
  | invokeN5O2rN =>
    obtain ⟨n1, n2, n3, n4, n5, rfl⟩ := HeapObjectParameterInvoker.length_eq_five hns
    obtain ⟨o1, o2, rfl⟩ := List.length_eq_two.mp hos
    rfl
  | invokeN5O3rN =>
    obtain ⟨n1, n2, n3, n4, n5, rfl⟩ := HeapObjectParameterInvoker.length_eq_five hns
    obtain ⟨o1, o2, o3, rfl⟩ := List.length_eq_three.mp hos
    rfl
  | invokeN6O1rN =>
    obtain ⟨n1, n2, n3, n4, n5, n6, rfl⟩ := HeapObjectParameterInvoker.length_eq_six hns
    obtain ⟨o1, rfl⟩ := List.length_eq_one_iff.mp hos
    rfl
  | invokeN6O2rN =>
    obtain ⟨n1, n2, n3, n4, n5, n6, rfl⟩ := HeapObjectParameterInvoker.length_eq_six hns
    obtain ⟨o1, o2, rfl⟩ := List.length_eq_two.mp hos
    rfl
  | invokeN6O3rN =>
    obtain ⟨n1, n2, n3, n4, n5, n6, rfl⟩ := HeapObjectParameterInvoker.length_eq_six hns
    obtain ⟨o1, o2, o3, rfl⟩ := List.length_eq_three.mp hos
    rfl

/-! ### Agreement -/

open HeapObjectParameterInvoker

/-- A number for a parameter narrower than an `int` is put as one, whose high bytes are then read in
the place of its low ones. -/
def Misreads (pf : Platform) (ctx : NativeCallContext) (objects : List ObjectEntry)
    (ns : List (BitVec 64)) : Prop :=
  pf.nativeOrder = .big ∧ ∃ (i : ℕ) (t : FFIType) (n : BitVec 64), i ∉ indices objects ∧
    ctx.cif.argTypes[i]? = some t ∧ ns[i]? = some n ∧ t.size pf ≤ 4 ∧
    (leBytes 4 n).drop (4 - t.size pf) ≠ leBytes (t.size pf) n

/-- The bytes that are read for a number. -/
def readNumber (pf : Platform) (t : FFIType) (n : BitVec 64) : List Byte :=
  if pf.nativeOrder = .big ∧ t.size pf ≤ 4 then (leBytes 4 n).drop (4 - t.size pf)
  else leBytes (t.size pf) n

variable {jvm function callee} {m : ObjectMethod} {ns : List (BitVec 64)} {os : List ObjectArgument}
  {s : Native}

theorem size_of_isIntegral {t : FFIType} (h : t.isIntegral = true) :
    t.size pf = 1 ∨ t.size pf = 2 ∨ t.size pf = 4 ∨ t.size pf = 8 := by
  have hptr := pf.ptrSize_eq
  have hsizes : t.size pf ∈ [1, 2, 4, 8] := by
    cases t <;> simp_all [FFIType.size, FFIType.isIntegral]
  simpa using hsizes

/-- The slot of an integer, as libffi reads it, has the bytes of the number in the order of the
machine. -/
theorem slice_numberPuts {i : ℕ} {t : FFIType} {n : BitVec 64}
    (ht : function.native.cif.argTypes[i]? = some t) (hn : ns[i]? = some n)
    (hint : t.isIntegral = true) :
    slice (bufferOf function (numberPuts function ns)) (i * slotSize) (t.size pf) =
      some (pf.nativeOrder.arrange (readNumber pf t n)) := by
  have hput : (numberPuts function ns)[i]? = some (encodedPut pf t n) := by
    rw [numberPuts, List.getElem?_zipWith, ht, hn]
  have hslot := slice_slot pf hput
    (List.replicate (PARAM_SIZE * (function.getParameterCount - (numberPuts function ns).length)) 0)
  rw [readNumber]
  by_cases hnarrow : t.size pf ≤ 4
  · rw [encodedPut, if_pos hnarrow, Put.digits, leBytes_setWidth n (by decide),
      length_leBytes] at hslot
    refine (take_of_slice hslot hnarrow).trans (congrArg some ?_)
    cases ho : pf.nativeOrder with
    | little =>
      rw [if_neg (by simp)]
      exact take_leBytes hnarrow n
    | big =>
      rw [if_pos ⟨rfl, hnarrow⟩, ByteOrder.arrange, ByteOrder.arrange, List.take_reverse,
        length_leBytes]
  · rw [encodedPut, if_neg hnarrow, Put.digits, length_leBytes] at hslot
    have hsize : t.size pf = 8 := by
      rcases @size_of_isIntegral pf _ hint with h | h | h | h <;> omega
    rw [if_neg fun h => hnarrow h.2, hsize]
    exact hslot

/-- The parameters a method has objects for are all of its parameters, where it skips the
numbers. -/
theorem mem_indices_of_skips (hskips : m.skipsNumbers = true) (hos : os.length = m.objects)
    (hcount : function.getParameterCount = m.numbers)
    (hnodup : (os.map fun o => o.flags.getParameterIndex).Nodup)
    (htypes : ∀ o ∈ os,
      function.native.cif.argTypes[o.flags.getParameterIndex]? = some .pointer)
    {i : ℕ} (hi : i < function.getParameterCount) :
    i ∈ indices (os.map ObjectArgument.entry) := by
  have hindices : indices (os.map ObjectArgument.entry) =
      os.map fun o => o.flags.getParameterIndex := by
    rw [indices, List.map_map]
    rfl
  have hsame : m.objects = m.numbers := by
    cases m <;> first | rfl | cases hskips
  have hlen : (os.map fun o => o.flags.getParameterIndex).length = function.getParameterCount := by
    rw [List.length_map, hos, hcount, hsame]
  have hsub :
      os.map (fun o => o.flags.getParameterIndex) ⊆ List.range function.getParameterCount := by
    intro k hk
    obtain ⟨o, ho, rfl⟩ := List.mem_map.mp hk
    have hlt := (List.getElem?_eq_some_iff.mp (htypes o ho)).1
    rw [CallContext.length_argTypes] at hlt
    exact List.mem_range.mpr hlt
  have hperm : (os.map fun o => o.flags.getParameterIndex).Perm
      (List.range function.getParameterCount) :=
    (List.subperm_of_subset hnodup hsub).perm_of_length_le
      (by rw [List.length_range]; exact Nat.le_of_eq hlen.symm)
  rw [hindices, hperm.mem_iff]
  exact List.mem_range.mpr hi

/-- The values of the numbers, before the objects are looked at. -/
theorem starts_methodBuffer {P : ℕ → List Cell → List Cell → Prop} (hos : os.length = m.objects)
    (hcount : function.getParameterCount = m.numbers)
    (hnodup : (os.map fun o => o.flags.getParameterIndex).Nodup)
    (hpointers : ∀ o ∈ os,
      function.native.cif.argTypes[o.flags.getParameterIndex]? = some .pointer)
    (htypes : ∀ t ∈ function.native.cif.argTypes, t.isIntegral = true)
    (hP : ∀ i t n, i ∉ indices (os.map ObjectArgument.entry) →
      function.native.cif.argTypes[i]? = some t → ns[i]? = some n →
        P i ((leBytes (t.size pf) n).map .byte) ((readNumber pf t n).map .byte)) :
    Starts pf function.native P (os.map ObjectArgument.entry) (ns.map jlongCells)
      (methodBuffer function m ns) := by
  intro i t v xs hi ht hv hxs
  have hlt : i < function.getParameterCount := by
    rw [← CallContext.length_argTypes]
    exact (List.getElem?_eq_some_iff.mp ht).1
  have hskips : m.skipsNumbers = false := by
    by_contra hskips
    exact hi (mem_indices_of_skips (Bool.not_eq_false _ ▸ hskips) hos hcount hnodup hpointers hlt)
  have hint := htypes t (List.mem_of_getElem? ht)
  have hsize := @FFIType.size_le_of_isIntegral pf _ hint
  rw [List.getElem?_map] at hv
  obtain ⟨n, hn, rfl⟩ := Option.map_eq_some_iff.mp hv
  rw [methodBuffer, hskips, if_neg Bool.false_ne_true, FFIType.valueSize_of_isIntegral
    hint, slice_map, slice_numberPuts ht hn hint] at hxs
  obtain rfl := Option.some.inj hxs
  rw [FFIType.valueSize_of_isIntegral hint, ← ByteOrder.map_arrange, ByteOrder.arrange_arrange,
    jlongCells, ← List.map_take, take_leBytes hsize]
  exact hP i t n hi ht hn

theorem readsBack_readResult (hrtype : IntegerOrVoid pf 8 function.native.cif.rtype) :
    ReadsBack pf function.native.cif.rtype 8 (readResult function) := by
  have hsame : function.returnType.size pf = function.native.cif.rtype.size pf := by
    rw [JType.size, function.rtype_eq]
  intro result retval hretval
  rw [readResult]
  by_cases hlong : function.returnType.size pf = 8
  · rw [if_pos hlong]
    rw [hsame] at hlong
    refine readsBack_returnLong ?_ result retval hretval
    rcases hrtype.2 with hvoid | hint
    · rw [hvoid] at hlong
      cases hlong
    · rw [FFIType.valueSize_of_isIntegral hint, hlong]
  · rw [if_neg hlong]
    rw [hsame] at hlong
    have hzero : function.native.cif.rtype.valueSize pf = 0 ∨
        function.native.cif.rtype.isIntegral = true := by
      rcases hrtype.2 with hvoid | hint
      · rw [hvoid]
        exact .inl rfl
      · exact .inr hint
    have hsmall : function.native.cif.rtype.valueSize pf ≤ 4 := by
      rcases hzero with hzero | hint
      · omega
      · rw [FFIType.valueSize_of_isIntegral hint]
        rcases @size_of_isIntegral pf _ hint with h | h | h | h <;> omega
    have hread := readsBack_returnInt hzero hsmall result retval hretval
    have hlen := congrArg List.length hread
    rw [List.length_take, length_fitResult] at hlen
    rw [intToLong, List.take_append_of_le_length (by omega), hread]

theorem callsBothWays (htypes : ∀ t ∈ function.native.cif.argTypes, t.isIntegral = true)
    (hrtype : IntegerOrVoid pf 8 function.native.cif.rtype) :
    CallsBothWays pf function.native 8 (readResult function) where
  scalar := .of_integral htypes
  size_le t ht := FFIType.size_le_of_isIntegral (htypes t ht)
  built := built_native function
  returns := by
    refine ⟨hrtype.1, .inr ?_⟩
    rcases hrtype.2 with hvoid | hint
    · rw [hvoid]
      exact .inr (.inl rfl)
    · exact .inl hint
  roomFor := .of_max (Nat.max_le.mpr ⟨hrtype.1, pf.ptrSize_le⟩)
  readsBack := readsBack_readResult hrtype

section Agreement

variable (htypes : ∀ t ∈ function.native.cif.argTypes, t.isIntegral = true)
  (hrtype : IntegerOrVoid pf 8 function.native.cif.rtype)
  (hcount : function.getParameterCount = m.numbers) (hns : ns.length = m.numbers)
  (hos : os.length = m.objects) (hobjects : ∀ o ∈ os, o.object ≠ none)
  (hnodup : (os.map fun o => o.flags.getParameterIndex).Nodup)
  (hpointers : ∀ o ∈ os, function.native.cif.argTypes[o.flags.getParameterIndex]? = some .pointer)
  (hpending : s.pending = none)

include hcount in
theorem length_argTypes_method : function.native.cif.argTypes.length = m.numbers := by
  rw [CallContext.length_argTypes, hcount]

include hcount hns in
theorem length_methodBuffer :
    (methodBuffer function m ns).length = function.native.cif.argTypes.length * slotSize := by
  have hlen := hns.trans (length_argTypes_method hcount).symm
  rw [methodBuffer]
  split
  · rw [newBuffer, List.length_replicate, Encoder.getBufferSize, CallContext.length_argTypes]
    rfl
  · rw [bufferOf, List.length_append, length_flatMap_slot, List.length_replicate, ← Nat.mul_add,
      numberPuts, List.length_zipWith, hlen, Nat.min_self, CallContext.length_argTypes,
      Nat.sub_self, Nat.add_zero, Nat.mul_comm]
    rfl

include hpointers in
theorem entries_pointer : ∀ e ∈ os.map ObjectArgument.entry,
    function.native.cif.argTypes[descriptorIndex e.flags]? = some .pointer := by
  intro e he
  obtain ⟨o, ho, rfl⟩ := List.mem_map.mp he
  exact hpointers o ho

include hcount hobjects hpointers in
/-- The objects of a call have one fate in both classes. -/
theorem entries_fate (jvm : Jvm) (s : Native) :
    callFate (fastDecisions m.numbers) jvm s (os.map ObjectArgument.entry) =
    callFate (genericDecisions m.numbers) jvm s (os.map ObjectArgument.entry) := by
  refine callFate_eq (fun e he => ?_) (not_reachesNull fun e he => ?_)
  · have hlt := (List.getElem?_eq_some_iff.mp (entries_pointer hpointers e he)).1
    obtain ⟨o, ho, rfl⟩ := List.mem_map.mp he
    exact ⟨o.flags.decodable, length_argTypes_method hcount ▸ hlt⟩
  · obtain ⟨o, ho, rfl⟩ := List.mem_map.mp he
    exact hobjects o ho

include hcount hns hos in
/-- Whether the methods of both classes agree can be said by the native functions that they call. -/
theorem rel_invoke_iff : Option.Rel (Seen.Same pf function.native.cif.rtype)
      (NativeObjectParameterInvoker.invoke jvm function callee m ns os s)
      (HeapObjectParameterInvoker.invoke jvm function callee m ns os s) ↔
    Option.Rel (Seen.Same pf function.native.cif.rtype)
      ((invokeNO pf jvm function.native callee ns (os.map ObjectArgument.entry) s).map
        FastOutcome.seen)
      ((invokeArrayWithObjects_ pf jvm function.native callee (methodBuffer function m ns)
        (os.map ObjectArgument.entry) (List.replicate 8 .undef) s).map
          (Outcome.seen (readResult function))) := by
  rw [NativeObjectParameterInvoker.native_invoke_eq hns hos, heap_invoke_eq hcount hns hos]
  rfl

include htypes hrtype hcount hns hos hobjects hnodup hpointers hpending

/-- A number that is misread tells the two classes apart, with a callee that throws where it finds
it. -/
theorem not_agree_of_misreads
    (hpasses : callFate (genericDecisions m.numbers) jvm s (os.map ObjectArgument.entry) = .passes)
    (hmisreads : Misreads pf function.native (os.map ObjectArgument.entry) ns) :
    ¬Option.Rel (Seen.Same pf function.native.cif.rtype)
      (NativeObjectParameterInvoker.invoke jvm function throwing m ns os s)
      (HeapObjectParameterInvoker.invoke jvm function throwing m ns os s) := by
  obtain ⟨ho, i, t, n, hfree, ht, hn, hsize, hne⟩ := hmisreads
  have hcount' := length_argTypes_method hcount
  have hfast := (entries_fate hcount hobjects hpointers jvm s).trans hpasses
  have hX : (leBytes (t.size pf) n).map Cell.byte ≠ (readNumber pf t n).map Cell.byte := by
    rw [readNumber, if_pos ⟨ho, hsize⟩]
    exact fun h => hne (List.map_injective_iff.mpr (fun _ _ => Cell.byte.inj) h).symm
  rw [rel_invoke_iff hcount hns hos]
  refine not_sameEnd_of_ne (callsBothWays htypes hrtype) (hns.trans hcount'.symm)
    (length_methodBuffer hcount hns) (entries_pointer hpointers) hpending (hcount' ▸ hpasses)
    (hcount' ▸ hfast) hX (List.getElem?_eq_some_iff.mp ht).1 hfree ?_
  refine starts_methodBuffer hos hcount hnodup hpointers htypes ?_
  rintro i' t' n' - ht' hn' rfl
  cases ht.symm.trans ht'
  cases hn.symm.trans hn'
  exact ⟨rfl, rfl⟩

/-- Where no number is misread in a call that is made, the two classes agree. -/
theorem agree_of_reads
    (hreads : callFate (genericDecisions m.numbers) jvm s (os.map ObjectArgument.entry) = .passes →
      ¬Misreads pf function.native (os.map ObjectArgument.entry) ns) :
    Option.Rel (Seen.Same pf function.native.cif.rtype)
      (NativeObjectParameterInvoker.invoke jvm function callee m ns os s)
      (HeapObjectParameterInvoker.invoke jvm function callee m ns os s) := by
  have hcount' := length_argTypes_method hcount
  have hbs := length_methodBuffer hcount hns
  have hfate := entries_fate hcount hobjects hpointers jvm s
  rw [rel_invoke_iff hcount hns hos]
  cases hcase : callFate (genericDecisions m.numbers) jvm s (os.map ObjectArgument.entry) with
  | undefined =>
    exact sameEnd_of_undefined hbs hpending _ _ (by rw [hns, hfate, hcase]) (by rw [hcount', hcase])
  | throws =>
    exact sameEnd_of_stops hbs hpending _ _ (.inl (by rw [hns, hfate, hcase]))
      (.inl (by rw [hcount', hcase]))
  | leaks =>
    exact sameEnd_of_stops hbs hpending _ _ (.inr (by rw [hns, hfate, hcase]))
      (.inr (by rw [hcount', hcase]))
  | passes =>
    refine sameEnd_of_passes (callsBothWays htypes hrtype) (hns.trans hcount'.symm) hbs
      (entries_pointer hpointers) hpending (by rw [hcount', hcase]) (by rw [hcount', hfate, hcase])
      ?_ callee
    refine starts_methodBuffer hos hcount hnodup hpointers htypes fun i t n hfree ht hn => ?_
    refine congrArg (List.map Cell.byte) ?_
    rw [readNumber]
    split
    · rename_i hbig
      by_contra hne
      exact hreads hcase ⟨hbig.1, i, t, n, hfree, ht, hn, hbig.2, Ne.symm hne⟩
    · rfl

end Agreement

/-- **The two classes agree** on a call of objects that are there, for every native function, if and
only if no number is misread where the objects let the call be made. -/
theorem objectParameterInvokers_agree_iff (pf : Platform) (jvm : Jvm) (function : CallContext pf)
    (m : ObjectMethod) (ns : List (BitVec 64)) (os : List ObjectArgument) (s : Native)
    (htypes : ∀ t ∈ function.native.cif.argTypes, t.isIntegral = true)
    (hrtype : IntegerOrVoid pf 8 function.native.cif.rtype)
    (hcount : function.getParameterCount = m.numbers) (hns : ns.length = m.numbers)
    (hos : os.length = m.objects) (hobjects : ∀ o ∈ os, o.object ≠ none)
    (hnodup : (os.map fun o => o.flags.getParameterIndex).Nodup)
    (hpointers : ∀ o ∈ os,
      function.native.cif.argTypes[o.flags.getParameterIndex]? = some .pointer)
    (hpending : s.pending = none) :
    (∀ callee, Option.Rel (Seen.Same pf function.native.cif.rtype)
        (NativeObjectParameterInvoker.invoke jvm function callee m ns os s)
        (HeapObjectParameterInvoker.invoke jvm function callee m ns os s)) ↔
      (callFate (genericDecisions m.numbers) jvm s (os.map ObjectArgument.entry) = .passes →
        ¬Misreads pf function.native (os.map ObjectArgument.entry) ns) := by
  constructor
  · intro hagree hpasses hmisreads
    exact not_agree_of_misreads htypes hrtype hcount hns hos hobjects hnodup hpointers hpending
      hpasses hmisreads (hagree throwing)
  · intro hreads callee
    exact agree_of_reads htypes hrtype hcount hns hos hobjects hnodup hpointers hpending hreads

/-- All elements of an array of one `byte`, for parameter `i`. -/
def oneByte (i : BitVec 32) : ObjectArgument := ⟨some (.array 0), 0, 1, .create i .ARRAY .byte IN⟩

theorem objectParameterInvokers_agree_onePointer :
    (∀ callee, Option.Rel (Seen.Same .linuxX64 .void)
        (NativeObjectParameterInvoker.invoke .reliable onePointer callee
        .invokeN1O1rN [0] [oneByte 0]
          withOneByte)
        (HeapObjectParameterInvoker.invoke .reliable onePointer callee .invokeN1O1rN [0] [oneByte 0]
          withOneByte)) ↔
      (callFate (genericDecisions 1) .reliable withOneByte [(oneByte 0).entry] = .passes →
        ¬Misreads .linuxX64 onePointer.native [(oneByte 0).entry] [0]) :=
  objectParameterInvokers_agree_iff .linuxX64 .reliable onePointer .invokeN1O1rN [0] [oneByte 0]
    withOneByte (by decide) ⟨by decide, .inl rfl⟩ rfl rfl rfl (by decide)
    (by decide) (by decide) rfl

/-- A function of a `signed char` and a pointer, on a big endian machine. -/
def charAndPointer : CallContext .linuxS390x :=
  (CallContext.create .linuxS390x .accepting (.builtin .sint) 2 [.builtin .schar, .builtin .pointer]
    .default true false).get (by decide)

/-- It is called with 1, and through the parameter buffer it gets 0. -/
theorem not_objectParameterInvokers_agree_charAndPointer :
    ¬∀ callee, Option.Rel (Seen.Same .linuxS390x .sint32)
      (NativeObjectParameterInvoker.invoke .reliable charAndPointer callee .invokeN2O1rN [1, 0]
        [oneByte 1] withOneByte)
      (HeapObjectParameterInvoker.invoke .reliable charAndPointer callee .invokeN2O1rN [1, 0]
        [oneByte 1] withOneByte) := by
  intro h
  refine @not_agree_of_misreads .linuxS390x .reliable charAndPointer .invokeN2O1rN
    [1, 0] [oneByte 1]
    withOneByte (by decide) ⟨by decide, .inr rfl⟩ rfl rfl rfl (by decide)
    (by decide) (by decide) rfl
    (by decide) ?_ (h throwing)
  exact ⟨rfl, 0, .sint8, 1, by decide, rfl, rfl, by decide, by decide⟩

end Jffi
