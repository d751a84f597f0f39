import Jffi.ObjectBuffer

/-!
# `ObjectParameterInfo`

What the caller says of an object in advance, packed the way a descriptor is.

## Main definitions

* `ObjectParameterInfo` — a descriptor, as one of the two `create` makes it
* `withIndex` — a descriptor for another parameter
-/

namespace Jffi

open ObjectBuffer

/-- `ObjectType`. -/
inductive ObjectType
  | ARRAY
  | BUFFER
  deriving DecidableEq, Repr

/-- `ObjectType.value`. -/
def ObjectType.value : ObjectType → BitVec 32
  | .ARRAY => ObjectBuffer.ARRAY
  | .BUFFER => ObjectBuffer.BUFFER

/-- The type bits a descriptor can be made with. -/
def InfoType (type : BitVec 32) : Prop :=
  type = 0 ∨ ∃ (objectType : ObjectType) (componentType : ComponentType),
    type = objectType.value ||| primType componentType

/-- `ObjectParameterInfo`: the constructor is private, and `create` calls it. -/
structure ObjectParameterInfo where
  objectInfo : BitVec 32
  created : ∃ ioflags type parameterIndex, InfoType type ∧
    objectInfo = makeObjectFlags ioflags type parameterIndex

namespace ObjectParameterInfo

/-- `create(parameterIndex, objectType, componentType, ioflags)`. -/
def create (parameterIndex : BitVec 32) (objectType : ObjectType) (componentType : ComponentType)
    (ioflags : BitVec 32) : ObjectParameterInfo :=
  ⟨makeObjectFlags ioflags (objectType.value ||| primType componentType) parameterIndex,
    ioflags, _, parameterIndex, .inr ⟨objectType, componentType, rfl⟩, rfl⟩

/-- `create(parameterIndex, ioflags)`. -/
def createUntyped (parameterIndex ioflags : BitVec 32) : ObjectParameterInfo :=
  ⟨makeObjectFlags ioflags 0 parameterIndex, ioflags, 0, parameterIndex, .inl rfl, rfl⟩

def asObjectInfo (info : ObjectParameterInfo) : BitVec 32 := info.objectInfo

def getParameterIndex (info : ObjectParameterInfo) : ℕ := descriptorIndex info.objectInfo

def ioflags (info : ObjectParameterInfo) : BitVec 32 := info.objectInfo &&& FLAGS_MASK

end ObjectParameterInfo

/-! ### The fields of a descriptor -/

/-- A descriptor with another index. -/
def withIndex (objectInfo index : BitVec 32) : BitVec 32 :=
  (objectInfo &&& ~~~INDEX_MASK) ||| ((index <<< INDEX_SHIFT) &&& INDEX_MASK)

/-- The type bits of an object parameter lie under `TYPE_MASK`, so that the mask takes nothing from
them. -/
theorem InfoType.and_TYPE_MASK {type : BitVec 32} (h : InfoType type) :
    type &&& TYPE_MASK = type := by
  rcases h with rfl | ⟨objectType, componentType, rfl⟩
  · decide
  · cases objectType <;> cases componentType <;> decide

/-- The type bits of an object parameter have nothing in common with a mask outside of `TYPE_MASK`.
-/
theorem InfoType.and_eq_zero {type m : BitVec 32} (h : InfoType type) (hm : TYPE_MASK &&& m = 0) :
    type &&& m = 0 := by
  rw [← h.and_TYPE_MASK, BitVec.and_assoc, hm]
  exact BitVec.and_zero

namespace ObjectParameterInfo

variable (info : ObjectParameterInfo)

/-- Outside of the index and the type there are only the flags. -/
theorem and_low : info.asObjectInfo &&& (~~~TYPE_MASK &&& ~~~INDEX_MASK) = info.ioflags := by
  obtain ⟨_, ioflags, type, index, htype, rfl⟩ := info
  change makeObjectFlags ioflags type index &&& _ =
    makeObjectFlags ioflags type index &&& FLAGS_MASK
  have hlow : type &&& (~~~TYPE_MASK &&& ~~~INDEX_MASK) = 0 := htype.and_eq_zero (by decide)
  have hflags : type &&& FLAGS_MASK = 0 := htype.and_eq_zero (by decide)
  rw [makeObjectFlags_and, makeObjectFlags_and, hlow, hflags]
  rfl

/-- A descriptor without its index is its flags and its type. -/
theorem and_not_INDEX_MASK :
    info.asObjectInfo &&& ~~~INDEX_MASK = info.ioflags ||| (info.asObjectInfo &&& TYPE_MASK) := by
  have hsplit : ~~~INDEX_MASK = (~~~TYPE_MASK &&& ~~~INDEX_MASK) ||| TYPE_MASK := by decide
  rw [← and_low, ← BitVec.and_or_distrib_left, ← hsplit]

theorem ioflags_and : info.ioflags &&& FLAGS_MASK = info.ioflags := by
  rw [ioflags, BitVec.and_assoc, BitVec.and_self]

end ObjectParameterInfo

end Jffi
