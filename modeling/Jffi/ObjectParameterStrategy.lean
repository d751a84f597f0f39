import Jffi.HeapInvocationBuffer
import Jffi.ObjectParameterInfo

/-!
# `ObjectParameterStrategy`

How an argument is passed is up to its strategy: by an address, or as an object of the Java heap
with a descriptor. The descriptor is made twice, by `objectInfo` for the fast calls and by
`HeapInvocationBuffer.putObject`, from the flags of the info and the type of the strategy or the
info.

## Main definitions

* `ObjectParameterType`, `ObjectParameterStrategy`
* `HeapInvocationBuffer.putObject`

## Main results

* `info_of_putObject` — what a put leaves in the object buffer
* `putObject_descriptor_iff` — when it is the descriptor of the fast calls
-/

namespace Jffi

open ObjectBuffer

/-! ### The strategy -/

/-- `ObjectParameterType`, made by `create` or one of the constants for no type. -/
structure ObjectParameterType where
  typeInfo : BitVec 32
  infoType : InfoType typeInfo

namespace ObjectParameterType

def create (objectType : ObjectType) (componentType : ComponentType) : ObjectParameterType :=
  ⟨objectType.value ||| primType componentType, .inr ⟨objectType, componentType, rfl⟩⟩

def INVALID : ObjectParameterType := ⟨0, .inl rfl⟩

end ObjectParameterType

/-- A strategy: what its constructor was given, and the methods of its class. A method that throws
ends with the message. -/
structure ObjectParameterStrategy (T : Type) where
  isDirect : Bool
  type : ObjectParameterType := .INVALID
  address : T → Except String (BitVec 64)
  object : T → Except String (Option Obj)
  offset : T → Except String (BitVec 32)
  length : T → Except String (BitVec 32)

namespace ObjectParameterStrategy

variable {T : Type}

def typeInfo (s : ObjectParameterStrategy T) : BitVec 32 := s.type.typeInfo

def objectInfo (s : ObjectParameterStrategy T) (info : ObjectParameterInfo) : BitVec 32 :=
  let objectInfo := info.asObjectInfo
  -- Over-ride the type info contained in the parameter info
  if s.typeInfo ≠ 0 then (objectInfo &&& ~~~TYPE_MASK) ||| s.typeInfo else objectInfo

end ObjectParameterStrategy

/-! ### `putObject` -/

namespace HeapInvocationBuffer

variable {pf : Platform} {T : Type}

/-- `putObject(o, strategy, flags)`. -/
def putObjectFlags (b : HeapInvocationBuffer pf) (o : T) (strategy : ObjectParameterStrategy T)
    (flags : BitVec 32) : Option (HeapInvocationBuffer pf) :=
  if strategy.isDirect then do
    let address ← (strategy.address o).toOption
    b.putNumber (Encoder.putAddress pf b.buffer b.paramOffset address)
  else do
    let object ← (strategy.object o).toOption
    let offset ← (strategy.offset o).toOption
    let length ← (strategy.length o).toOption
    b.putEntry fun objects index =>
      objects.putObject object offset length (makeObjectFlags flags strategy.typeInfo index)

/-- `putObject(o, strategy, info)`. -/
def putObject (b : HeapInvocationBuffer pf) (o : T) (strategy : ObjectParameterStrategy T)
    (info : ObjectParameterInfo) : Option (HeapInvocationBuffer pf) :=
  b.putObjectFlags o strategy info.ioflags

end HeapInvocationBuffer

/-! ### What is stored -/

section Stored

variable {b b' : ObjectBuffer} {array : Option Obj} {offset length flags : BitVec 32}

/-- Growing the buffer leaves the counters as they are, whether it had room or not. -/
theorem infoIndex_of_ensureSpace (h : b.ensureSpace = .ok b') : b'.infoIndex = b.infoIndex := by
  rw [ensureSpace] at h
  split at h
  · obtain ⟨objects, -, h⟩ := except_bind_eq_ok.mp h
    obtain ⟨objects', -, h⟩ := except_bind_eq_ok.mp h
    obtain ⟨info, -, h⟩ := except_bind_eq_ok.mp h
    obtain ⟨info', -, h⟩ := except_bind_eq_ok.mp h
    cases h
    rfl
  · cases h
    rfl

/-- A store to `info` writes the next word and leaves the earlier ones as they are. -/
theorem info_of_storeInfo {x : BitVec 32} (h : b.storeInfo x = .ok b') :
    b'.info[b.infoIndex]? = some x ∧ ∀ i < b.infoIndex, b'.info[i]? = b.info[i]? := by
  obtain ⟨hlt, -, -⟩ := storeInfo_eq_ok h
  rw [storeInfo, setAt, if_pos hlt] at h
  cases h
  refine ⟨List.getElem?_set_self hlt, ?_⟩
  intro i hi
  exact List.getElem?_set_ne (by omega)

/-- **What a put leaves in `info`**: the flags, the offset and the length. -/
theorem info_of_putObject (h : b.putObject array offset length flags = .ok b') :
    b'.info[b.infoIndex]? = some flags ∧ b'.info[b.infoIndex + 1]? = some offset ∧
      b'.info[b.infoIndex + 2]? = some length := by
  obtain ⟨b₁, hspace, h⟩ := except_bind_eq_ok.mp h
  obtain ⟨b₂, hobject, h⟩ := except_bind_eq_ok.mp h
  obtain ⟨b₃, hflags, h⟩ := except_bind_eq_ok.mp h
  obtain ⟨b₄, hoffset, hlength⟩ := except_bind_eq_ok.mp h
  have hindex : b₂.infoIndex = b.infoIndex :=
    (storeObject_eq_ok hobject).2.2.trans (infoIndex_of_ensureSpace hspace)
  have hindex₃ := (storeInfo_eq_ok hflags).2.1
  have hindex₄ := (storeInfo_eq_ok hoffset).2.1
  obtain ⟨hinfo₃, -⟩ := info_of_storeInfo hflags
  obtain ⟨hinfo₄, hkeep₄⟩ := info_of_storeInfo hoffset
  obtain ⟨hinfo₅, hkeep₅⟩ := info_of_storeInfo hlength
  rw [hindex] at hindex₃ hinfo₃
  rw [hindex₃] at hindex₄ hinfo₄ hkeep₄
  rw [hindex₄] at hinfo₅ hkeep₅
  refine ⟨?_, ?_, hinfo₅⟩
  · rw [hkeep₅ _ (by omega), hkeep₄ _ (by omega), hinfo₃]
  · rw [hkeep₅ _ (by omega), hinfo₄]

end Stored

/-! ### The two descriptors -/

section Descriptors

variable {T : Type} (strategy : ObjectParameterStrategy T) (info : ObjectParameterInfo)
  (index : BitVec 32)

/-- For a strategy with a type of its own, the descriptor has this type, and the info only gives the
direction. -/
theorem withIndex_objectInfo_of_typed (h : strategy.typeInfo ≠ 0) :
    withIndex (strategy.objectInfo info) index =
      makeObjectFlags info.ioflags strategy.typeInfo index := by
  have htype : strategy.typeInfo &&& ~~~INDEX_MASK = strategy.typeInfo := by
    have hmask : TYPE_MASK &&& ~~~INDEX_MASK = TYPE_MASK := by decide
    have hinfo : strategy.typeInfo &&& TYPE_MASK = strategy.typeInfo :=
      strategy.type.infoType.and_TYPE_MASK
    rw [← hinfo, BitVec.and_assoc, hmask]
  rw [withIndex, ObjectParameterStrategy.objectInfo, if_pos h, BitVec.and_or_distrib_right, htype,
    BitVec.and_assoc, info.and_low, makeObjectFlags, info.ioflags_and, BitVec.or_assoc,
    BitVec.or_assoc, BitVec.or_comm strategy.typeInfo]

/-- For a strategy that leaves its type to the info, the descriptor has the type bits of the info.
-/
theorem withIndex_objectInfo_of_untyped (h : strategy.typeInfo = 0) :
    withIndex (strategy.objectInfo info) index =
      makeObjectFlags info.ioflags (info.asObjectInfo &&& TYPE_MASK) index := by
  rw [withIndex, ObjectParameterStrategy.objectInfo, if_neg (fun hne => hne h),
    info.and_not_INDEX_MASK, makeObjectFlags, info.ioflags_and, BitVec.or_assoc, BitVec.or_assoc,
    BitVec.or_comm (info.asObjectInfo &&& TYPE_MASK)]

/-- Two descriptors that are the same but for the type have the same type, since its bits lie under
`TYPE_MASK`. -/
theorem makeObjectFlags_inj {ioflags type type' : BitVec 32} (h : type &&& TYPE_MASK = type)
    (h' : type' &&& TYPE_MASK = type')
    (heq : makeObjectFlags ioflags type index = makeObjectFlags ioflags type' index) :
    type = type' := by
  have hmask := congrArg (· &&& TYPE_MASK) heq
  simp only [makeObjectFlags_and_type (m := TYPE_MASK) ioflags index (by decide) (by decide)]
    at hmask
  rw [← h, ← h', hmask]

/-- **The two descriptors** differ where only the info has a type. -/
theorem makeObjectFlags_eq_withIndex_iff :
    makeObjectFlags info.ioflags strategy.typeInfo index =
        withIndex (strategy.objectInfo info) index ↔
      strategy.typeInfo ≠ 0 ∨ info.asObjectInfo &&& TYPE_MASK = 0 := by
  by_cases h : strategy.typeInfo = 0
  · rw [withIndex_objectInfo_of_untyped strategy info index h, h]
    constructor
    · intro heq
      refine .inr (makeObjectFlags_inj index ?_ ?_ heq).symm
      · decide
      · rw [BitVec.and_assoc, BitVec.and_self]
    · intro hor
      rw [hor.resolve_left fun hne => hne rfl]
  · rw [withIndex_objectInfo_of_typed strategy info index h]
    exact ⟨fun _ => .inl h, fun _ => rfl⟩

end Descriptors

/-- What `putObject` does with an argument that is not passed by its address. -/
theorem putObject_of_heap {pf : Platform} {T : Type} {b b' : HeapInvocationBuffer pf} {o : T}
    {strategy : ObjectParameterStrategy T} {info : ObjectParameterInfo}
    (hheap : strategy.isDirect = false) (h : b.putObject o strategy info = some b') :
    ∃ object offset length, strategy.object o = .ok object ∧ strategy.offset o = .ok offset ∧
      strategy.length o = .ok length ∧
        b.getObjectBuffer.putObject object offset length
          (makeObjectFlags info.ioflags strategy.typeInfo (BitVec.ofNat 32 b.paramIndex)) =
            .ok b'.getObjectBuffer := by
  have hdirect : ¬strategy.isDirect = true := by simp [hheap]
  rw [HeapInvocationBuffer.putObject, HeapInvocationBuffer.putObjectFlags, if_neg hdirect] at h
  obtain ⟨object, hobject, h⟩ := Option.bind_eq_some_iff.mp h
  obtain ⟨offset, hoffset, h⟩ := Option.bind_eq_some_iff.mp h
  obtain ⟨length, hlength, h⟩ := Option.bind_eq_some_iff.mp h
  obtain ⟨objectBuffer, hput, rfl⟩ := Option.map_eq_some_iff.mp h
  exact ⟨object, offset, length, toOption_eq_some.mp hobject,
    toOption_eq_some.mp hoffset, toOption_eq_some.mp hlength,
    toOption_eq_some.mp hput⟩

/-- **The descriptor of `putObject`** is the one of the fast calls, up to the index, exactly if the
strategy has a type or the info has none. -/
theorem putObject_descriptor_iff {pf : Platform} {T : Type} {b b' : HeapInvocationBuffer pf} {o : T}
    {strategy : ObjectParameterStrategy T} {info : ObjectParameterInfo}
    (hheap : strategy.isDirect = false) (h : b.putObject o strategy info = some b') :
    b'.getObjectBuffer.info[b.getObjectBuffer.infoIndex]? =
        some (withIndex (strategy.objectInfo info) (BitVec.ofNat 32 b.paramIndex)) ↔
      strategy.typeInfo ≠ 0 ∨ info.asObjectInfo &&& TYPE_MASK = 0 := by
  obtain ⟨object, offset, length, -, -, -, hput⟩ := putObject_of_heap hheap h
  obtain ⟨hflags, -, -⟩ := info_of_putObject hput
  rw [hflags, Option.some.injEq]
  exact makeObjectFlags_eq_withIndex_iff strategy info (BitVec.ofNat 32 b.paramIndex)

/-- A strategy for one byte from the start of an array. -/
def heapBytes (type : ObjectParameterType) : ObjectParameterStrategy (Option Obj) where
  isDirect := false
  type := type
  address _ := .ok 0
  object o := .ok o
  offset _ := .ok 0
  length _ := .ok 1

theorem putObject_descriptor_typed :
    ∃ b', (HeapInvocationBuffer.new onePointer).putObject (some (.array 0))
          (heapBytes (.create .ARRAY .byte)) (.createUntyped 5 IN) = some b' ∧
        b'.getObjectBuffer.info[0]? =
          some (withIndex
            ((heapBytes (.create .ARRAY .byte)).objectInfo (.createUntyped 5 IN)) 0) :=
  ⟨_, rfl, (putObject_descriptor_iff (b := HeapInvocationBuffer.new onePointer) rfl rfl).mpr
    (.inl (by decide))⟩

/-- The strategy leaves the type to the info, which says that it is a `byte` array, and the
descriptor has no type at all. -/
theorem not_putObject_descriptor_untyped :
    ∃ b', (HeapInvocationBuffer.new onePointer).putObject (some (.array 0)) (heapBytes .INVALID)
          (.create 0 .ARRAY .byte IN) = some b' ∧
        b'.getObjectBuffer.info[0]? = some 0x00000001 ∧
        withIndex ((heapBytes .INVALID).objectInfo (.create 0 .ARRAY .byte IN)) 0 = 0x11000001 ∧
        b'.getObjectBuffer.info[0]? ≠
          some (withIndex ((heapBytes .INVALID).objectInfo (.create 0 .ARRAY .byte IN)) 0) :=
  ⟨_, rfl, rfl, rfl, by decide⟩

end Jffi
