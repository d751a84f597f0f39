import Jffi.Memory

/-!
# `ObjectBuffer`

The objects of a call and their descriptors. A descriptor packs the flags of an array, the index of
the parameter and the type of the object into one `int`, which the native code takes apart with
the same masks; `makeObjectFlags_and` says what any mask reads back.

A `put` that throws leaves the counters it has already advanced, so the functions return the
buffer as it is at the throw. `ObjectBuffer.Holds` is the abstraction: the entries put so far.

## Main results

* `index_makeObjectFlags`, `index_makeBufferFlags`, `index_makeJNIFlags` — the index read back
* `ObjectBuffer.holds_putObject` — a `put` appends one entry
-/

namespace Jffi

/-! ### Constants -/

namespace ObjectBuffer

def IN : BitVec 32 := 0x1
def OUT : BitVec 32 := 0x2
def ZERO_TERMINATE : BitVec 32 := 0x4
def PINNED : BitVec 32 := 0x8
def CLEAR : BitVec 32 := 0x10

def INDEX_SHIFT : ℕ := 16
def INDEX_MASK : BitVec 32 := 0x00ff0000
def TYPE_SHIFT : ℕ := 24
def TYPE_MASK : BitVec 32 := 0xff#32 <<< TYPE_SHIFT
def PRIM_MASK : BitVec 32 := 0x0f#32 <<< TYPE_SHIFT
def FLAGS_MASK : BitVec 32 := 0xff

def ARRAY : BitVec 32 := 0x10#32 <<< TYPE_SHIFT
def BUFFER : BitVec 32 := 0x20#32 <<< TYPE_SHIFT
def JNI : BitVec 32 := 0x40#32 <<< TYPE_SHIFT

/-- `BYTE`, `SHORT`, …: the code of a component type. -/
def primType : ComponentType → BitVec 32
  | .byte => 0x1#32 <<< TYPE_SHIFT
  | .short => 0x2#32 <<< TYPE_SHIFT
  | .int => 0x3#32 <<< TYPE_SHIFT
  | .long => 0x4#32 <<< TYPE_SHIFT
  | .float => 0x5#32 <<< TYPE_SHIFT
  | .double => 0x6#32 <<< TYPE_SHIFT
  | .boolean => 0x7#32 <<< TYPE_SHIFT
  | .char => 0x8#32 <<< TYPE_SHIFT

def JNIENV : BitVec 32 := 0x1#32 <<< TYPE_SHIFT
def JNIOBJECT : BitVec 32 := 0x2#32 <<< TYPE_SHIFT

end ObjectBuffer

open ObjectBuffer

/-! ### Descriptors -/

def makeObjectFlags (ioflags type index : BitVec 32) : BitVec 32 :=
  (ioflags &&& FLAGS_MASK) ||| ((index <<< INDEX_SHIFT) &&& INDEX_MASK) ||| type

def makeBufferFlags (index : BitVec 32) : BitVec 32 :=
  ((index <<< INDEX_SHIFT) &&& INDEX_MASK) ||| BUFFER

def makeJNIFlags (index type : BitVec 32) : BitVec 32 :=
  ((index <<< INDEX_SHIFT) &&& INDEX_MASK) ||| JNI ||| type

/-- `(type & INDEX_MASK) >> INDEX_SHIFT`, as the native code finds the parameter. -/
def descriptorIndex (type : BitVec 32) : ℕ := ((type &&& INDEX_MASK).sshiftRight INDEX_SHIFT).toNat

/-- What a mask reads from the descriptor is what it reads from the flags, the index and the type,
each under its own mask. -/
theorem makeObjectFlags_and (ioflags type index m : BitVec 32) :
    makeObjectFlags ioflags type index &&& m =
      (ioflags &&& (FLAGS_MASK &&& m)) ||| ((index <<< INDEX_SHIFT) &&& (INDEX_MASK &&& m)) |||
        (type &&& m) := by
  rw [makeObjectFlags, BitVec.and_or_distrib_right, BitVec.and_or_distrib_right, BitVec.and_assoc,
    BitVec.and_assoc]

/-- The descriptors of buffers and of JNI parameters are those of an array without flags. -/
theorem makeBufferFlags_eq (index : BitVec 32) :
    makeBufferFlags index = makeObjectFlags 0 BUFFER index := by
  simp [makeBufferFlags, makeObjectFlags]

theorem makeJNIFlags_eq (index type : BitVec 32) :
    makeJNIFlags index type = makeObjectFlags 0 (JNI ||| type) index := by
  simp [makeJNIFlags, makeObjectFlags, BitVec.or_assoc]

/-- A mask that covers the type bits only reads the type. -/
theorem makeObjectFlags_and_type {type m : BitVec 32} (ioflags index : BitVec 32)
    (hf : FLAGS_MASK &&& m = 0) (hi : INDEX_MASK &&& m = 0) :
    makeObjectFlags ioflags type index &&& m = type &&& m := by
  simp [makeObjectFlags_and, hf, hi]

/-- A mask that covers the flag bits only reads the flags. -/
theorem makeObjectFlags_and_flags {type m : BitVec 32} (ioflags index : BitVec 32)
    (hf : FLAGS_MASK &&& m = m) (hi : INDEX_MASK &&& m = 0) (ht : type &&& m = 0) :
    makeObjectFlags ioflags type index &&& m = ioflags &&& m := by
  simp [makeObjectFlags_and, hf, hi, ht]

private theorem index_shift : ∀ i : Fin 256,
    (((BitVec.ofNat 32 i <<< INDEX_SHIFT) &&& INDEX_MASK).sshiftRight INDEX_SHIFT).toNat = i := by
  decide +kernel

/-- The index of a parameter is read back as it was put, up to the width of its field. -/
theorem index_makeObjectFlags {type : BitVec 32} (ioflags : BitVec 32) {i : ℕ} (hi : i < 256)
    (ht : type &&& INDEX_MASK = 0) :
    descriptorIndex (makeObjectFlags ioflags type (BitVec.ofNat 32 i)) = i := by
  have hf : FLAGS_MASK &&& INDEX_MASK = 0 := by decide
  have h : makeObjectFlags ioflags type (BitVec.ofNat 32 i) &&& INDEX_MASK =
      (BitVec.ofNat 32 i <<< INDEX_SHIFT) &&& INDEX_MASK := by
    simp [makeObjectFlags_and, hf, ht]
  rw [descriptorIndex, h]
  exact index_shift ⟨i, hi⟩

variable {α : Type}

/-- `new T[n]`, every element `x`: throws for a negative size. -/
def newArray (n : ℤ) (x : α) : Option (List α) :=
  if 0 ≤ n then some (List.replicate n.toNat x) else none

@[simp] theorem newArray_natCast (n : ℕ) (x : α) : newArray n x = some (List.replicate n x) := by
  simp [newArray]

/-- `System.arraycopy(src, 0, dst, 0, n)`. -/
def arraycopy (src dst : List α) (n : ℕ) : Option (List α) :=
  if n ≤ src.length ∧ n ≤ dst.length then some (src.take n ++ dst.drop n) else none

theorem exists_arraycopy {src dst : List α} {n : ℕ} (hs : n ≤ src.length) (hd : n ≤ dst.length) :
    ∃ l, arraycopy src dst n = some l :=
  ⟨_, if_pos ⟨hs, hd⟩⟩

theorem arraycopy_eq_some {src dst l : List α} {n : ℕ} :
    arraycopy src dst n = some l ↔
      (n ≤ src.length ∧ n ≤ dst.length) ∧ src.take n ++ dst.drop n = l := by
  by_cases h : n ≤ src.length ∧ n ≤ dst.length <;> simp [arraycopy, h]

theorem length_of_arraycopy {src dst l : List α} {n : ℕ} (h : arraycopy src dst n = some l) :
    l.length = dst.length := by
  obtain ⟨⟨hs, hd⟩, rfl⟩ := arraycopy_eq_some.mp h
  simp only [List.length_append, List.length_take, List.length_drop]
  omega

theorem take_of_arraycopy {src dst l : List α} {n : ℕ} (h : arraycopy src dst n = some l) :
    l.take n = src.take n := by
  obtain ⟨⟨hs, hd⟩, rfl⟩ := arraycopy_eq_some.mp h
  rw [List.take_append_of_le_length (by rw [List.length_take]; omega), List.take_take,
    Nat.min_self]

/-- A step that may throw, with the state the exception leaves behind. -/
def orThrow {σ : Type} (s : σ) : Option α → Except σ α
  | some a => .ok a
  | none => .error s

@[simp] theorem orThrow_some {σ : Type} (s : σ) (a : α) : orThrow s (some a) = .ok a := rfl

@[simp] theorem ok_bind {σ β : Type} (a : α) (f : α → Except σ β) : (.ok a >>= f) = f a := rfl

theorem toOption_eq_some {σ α : Type} {x : Except σ α} {a : α} :
    x.toOption = some a ↔ x = .ok a := by
  cases x <;> simp [Except.toOption]

/-! ### The buffer -/

/-- The objects of a call with their descriptors. -/
structure ObjectBuffer where
  objects : List (Option Obj)
  /-- A descriptor, an offset and a length for each object. -/
  info : List (BitVec 32)
  infoIndex : ℕ
  objectIndex : ℕ
  deriving DecidableEq, Repr

namespace ObjectBuffer

/-- `new ObjectBuffer(objectCount)`: throws for a size that is negative, or negative once it has
wrapped around. -/
def ofCount (objectCount : BitVec 32) : Option ObjectBuffer := do
  let objects ← newArray objectCount.toInt none
  let info ← newArray (toJint (objectCount.toInt * 3)) 0#32
  some ⟨objects, info, 0, 0⟩

/-- `new ObjectBuffer()`. -/
def new : ObjectBuffer := ⟨List.replicate 1 none, List.replicate (1 * 3) 0#32, 0, 0⟩

def objectCount (b : ObjectBuffer) : ℕ := b.objectIndex

def ensureSpace (b : ObjectBuffer) : Except ObjectBuffer ObjectBuffer :=
  if b.objects.length ≤ b.objectIndex + 1 then do
    let newObjects ← orThrow b (newArray (toJint (2 * b.objects.length)) none)
    let newObjects ← orThrow b (arraycopy b.objects newObjects b.objectIndex)
    let b := { b with objects := newObjects }
    let newInfo ← orThrow b (newArray (toJint (b.objects.length * 3)) 0#32)
    let newInfo ← orThrow b (arraycopy b.info newInfo (b.objectIndex * 3))
    .ok { b with info := newInfo }
  else .ok b

/-- `objects[objectIndex++] = array`. -/
def storeObject (b : ObjectBuffer) (array : Option Obj) : Except ObjectBuffer ObjectBuffer := do
  let objects ← orThrow { b with objectIndex := b.objectIndex + 1 }
    (setAt b.objects b.objectIndex array)
  .ok { b with objects := objects, objectIndex := b.objectIndex + 1 }

/-- `info[infoIndex++] = x`. -/
def storeInfo (b : ObjectBuffer) (x : BitVec 32) : Except ObjectBuffer ObjectBuffer := do
  let info ← orThrow { b with infoIndex := b.infoIndex + 1 } (setAt b.info b.infoIndex x)
  .ok { b with info := info, infoIndex := b.infoIndex + 1 }

def putObject (b : ObjectBuffer) (array : Option Obj) (offset length flags : BitVec 32) :
    Except ObjectBuffer ObjectBuffer := do
  let b ← b.ensureSpace
  let b ← b.storeObject array
  let b ← b.storeInfo flags
  let b ← b.storeInfo offset
  b.storeInfo length

/-- The overloads `putArray(int, T[], int, int, int)`. -/
def putArray (b : ObjectBuffer) (t : ComponentType) (index : BitVec 32) (array : Option Obj)
    (offset length flags : BitVec 32) : Except ObjectBuffer ObjectBuffer :=
  b.putObject array offset length (makeObjectFlags flags (primType t ||| ARRAY) index)

def putDirectBuffer (b : ObjectBuffer) (index : BitVec 32) (obj : Option Obj)
    (offset length : BitVec 32) : Except ObjectBuffer ObjectBuffer :=
  b.putObject obj offset length (makeBufferFlags index)

def putJNI (b : ObjectBuffer) (index : BitVec 32) (obj : Option Obj) (type : BitVec 32) :
    Except ObjectBuffer ObjectBuffer :=
  b.putObject obj 0 0 (makeJNIFlags index type)

/-! ### A put that succeeds -/

theorem except_bind_eq_ok {σ α β : Type} {x : Except σ α} {f : α → Except σ β} {y : β} :
    (x >>= f) = .ok y ↔ ∃ a, x = .ok a ∧ f a = .ok y := by
  cases x with
  | error s =>
    constructor
    · intro h
      cases h
    · rintro ⟨_, h, -⟩
      cases h
  | ok a =>
    constructor
    · intro h
      exact ⟨a, rfl, h⟩
    · rintro ⟨_, h, h'⟩
      cases h
      exact h'

theorem storeInfo_eq_ok {b b' : ObjectBuffer} {x : BitVec 32} (h : b.storeInfo x = .ok b') :
    b.infoIndex < b.info.length ∧ b'.infoIndex = b.infoIndex + 1 ∧
      b'.info.length = b.info.length := by
  by_cases hi : b.infoIndex < b.info.length
  · rw [storeInfo, setAt, if_pos hi] at h
    cases h
    exact ⟨hi, rfl, List.length_set⟩
  · rw [storeInfo, setAt, if_neg hi] at h
    cases h

theorem storeObject_eq_ok {b b' : ObjectBuffer} {o : Option Obj} (h : b.storeObject o = .ok b') :
    b.objectIndex < b.objects.length ∧ b'.info = b.info ∧ b'.infoIndex = b.infoIndex := by
  by_cases hi : b.objectIndex < b.objects.length
  · rw [storeObject, setAt, if_pos hi] at h
    cases h
    exact ⟨hi, rfl, rfl⟩
  · rw [storeObject, setAt, if_neg hi] at h
    cases h

/-! ### What the buffer holds -/

end ObjectBuffer

/-- An object with its descriptor. -/
structure ObjectEntry where
  object : Option Obj
  flags : BitVec 32
  offset : BitVec 32
  length : BitVec 32
  deriving DecidableEq, Repr

namespace ObjectBuffer

/-- The triple of an entry in `info`. -/
def triple (e : ObjectEntry) : List (BitVec 32) := [e.flags, e.offset, e.length]

/-- The buffer holds the entries `es`, in the order they were put. -/
structure Holds (b : ObjectBuffer) (es : List ObjectEntry) : Prop where
  objects_pos : 0 < b.objects.length
  info_length : b.info.length = b.objects.length * 3
  objectIndex_eq : b.objectIndex = es.length
  infoIndex_eq : b.infoIndex = es.length * 3
  /-- There is room for what was put. -/
  fits : es.length ≤ b.objects.length
  objects_take : b.objects.take es.length = es.map ObjectEntry.object
  info_take : b.info.take (es.length * 3) = es.flatMap triple

theorem holds_new : new.Holds [] :=
  ⟨by decide, rfl, rfl, rfl, Nat.zero_le _, rfl, rfl⟩

/-- The counters and the arrays say that the entries `es` were put, in this order. -/
structure Stores (b : ObjectBuffer) (es : List ObjectEntry) : Prop where
  objectIndex_eq : b.objectIndex = es.length
  infoIndex_eq : b.infoIndex = es.length * 3
  objects_fit : es.length ≤ b.objects.length
  info_fit : es.length * 3 ≤ b.info.length
  objects_take : b.objects.take es.length = es.map ObjectEntry.object
  info_take : b.info.take (es.length * 3) = es.flatMap triple

theorem Holds.stores {b : ObjectBuffer} {es : List ObjectEntry} (h : b.Holds es) : b.Stores es where
  objectIndex_eq := h.objectIndex_eq
  infoIndex_eq := h.infoIndex_eq
  objects_fit := h.fits
  info_fit := h.info_length ▸ Nat.mul_le_mul_right 3 h.fits
  objects_take := h.objects_take
  info_take := h.info_take

/-! ### `ensureSpace` -/

/-- A buffer whose arrays were copied to larger ones stores the same entries, if what was in use has
been copied. -/
theorem Stores.copied {b : ObjectBuffer} {es : List ObjectEntry} (h : b.Stores es)
    {objects dst : List (Option Obj)} {info dst' : List (BitVec 32)}
    (ho : arraycopy b.objects dst b.objectIndex = some objects)
    (hi : arraycopy b.info dst' (b.objectIndex * 3) = some info) :
    Stores { b with objects := objects, info := info } es := by
  obtain ⟨hobj, hidx, hfit, hifit, htake, hitake⟩ := h
  have hlen := length_of_arraycopy ho
  have hlen' := length_of_arraycopy hi
  obtain ⟨⟨-, hd⟩, -⟩ := arraycopy_eq_some.mp ho
  obtain ⟨⟨-, hd'⟩, -⟩ := arraycopy_eq_some.mp hi
  refine ⟨hobj, hidx, ?_, ?_, ?_, ?_⟩
  · change es.length ≤ objects.length
    omega
  · change es.length * 3 ≤ info.length
    omega
  · rw [← htake, ← hobj, take_of_arraycopy ho]
  · rw [← hitake, ← hobj, take_of_arraycopy hi]

/-- A buffer with room for one more object is left as it is by `ensureSpace`. -/
theorem ensureSpace_of_room {b : ObjectBuffer} (h : b.objectIndex + 1 < b.objects.length) :
    b.ensureSpace = .ok b := by
  rw [ensureSpace, if_neg (by omega)]

/-- A full buffer whose sizes are small enough is doubled, and stores the same entries. -/
theorem ensureSpace_of_full {b : ObjectBuffer} {es : List ObjectEntry} (h : b.Stores es)
    (hfull : b.objects.length ≤ b.objectIndex + 1) (hpos : 0 < b.objects.length)
    (hsize : 2 * b.objects.length * 3 < 2 ^ 31) :
    ∃ b', b.ensureSpace = .ok b' ∧ b'.Stores es ∧ b'.objects.length = 2 * b.objects.length ∧
      b'.info.length = 2 * b.objects.length * 3 := by
  have hfit := h.objects_fit
  have hifit := h.info_fit
  have hobj := h.objectIndex_eq
  have h2 : toJint (2 * b.objects.length) = (2 * b.objects.length : ℕ) := by
    rw [toJint_of_bounds (by omega) (by omega)]
    omega
  obtain ⟨objects, hcopy⟩ : ∃ objects, arraycopy b.objects
      (List.replicate (2 * b.objects.length) none) b.objectIndex = some objects :=
    exists_arraycopy (by omega) (by rw [List.length_replicate]; omega)
  have hlen := length_of_arraycopy hcopy
  rw [List.length_replicate] at hlen
  have h6 : toJint (objects.length * 3) = (objects.length * 3 : ℕ) := by
    rw [toJint_of_bounds (by omega) (by omega)]
    omega
  obtain ⟨info, hcopy'⟩ : ∃ info, arraycopy b.info
      (List.replicate (objects.length * 3) 0#32) (b.objectIndex * 3) = some info :=
    exists_arraycopy (by omega) (by rw [List.length_replicate]; omega)
  have hlen' := length_of_arraycopy hcopy'
  rw [List.length_replicate, hlen] at hlen'
  refine ⟨{ b with objects := objects, info := info }, ?_, h.copied hcopy hcopy', hlen, hlen'⟩
  rw [ensureSpace, if_pos hfull, h2, newArray_natCast, orThrow_some, ok_bind, hcopy,
    orThrow_some, ok_bind]
  dsimp only
  rw [h6, newArray_natCast, orThrow_some, ok_bind, hcopy', orThrow_some, ok_bind]

/-- Growing makes room for one more entry and keeps what is there. -/
theorem holds_ensureSpace {b : ObjectBuffer} {es : List ObjectEntry} (h : b.Holds es)
    (hn : es.length < 2 ^ 28) :
    ∃ b', b.ensureSpace = .ok b' ∧ b'.Holds es ∧ es.length < b'.objects.length := by
  have hobj := h.objectIndex_eq
  by_cases hfull : b.objects.length ≤ b.objectIndex + 1
  · obtain ⟨b', hspace, hstores, hlen, hilen⟩ :=
      ensureSpace_of_full h.stores hfull h.objects_pos (by omega)
    have hpos := h.objects_pos
    have hfit := h.fits
    refine ⟨b', hspace, ⟨by omega, by omega, hstores.objectIndex_eq, hstores.infoIndex_eq,
      hstores.objects_fit, hstores.objects_take, hstores.info_take⟩, ?_⟩
    omega
  · exact ⟨b, ensureSpace_of_room (by omega), h, by omega⟩

/-! ### `putObject` -/

/-- The three stores to `info` that a put makes are a single store of three words. -/
theorem storeInfo_three {b : ObjectBuffer} {x y z : BitVec 32} {info : List (BitVec 32)}
    (h : storeBytes b.info b.infoIndex [x, y, z] = some info) :
    (do let b ← b.storeInfo x; let b ← b.storeInfo y; b.storeInfo z) =
      .ok { b with info := info, infoIndex := b.infoIndex + 3 } := by
  simp only [storeBytes, Option.bind_eq_bind, Option.bind_eq_some_iff, Option.some.injEq] at h
  obtain ⟨i₁, h₁, i₂, h₂, i₃, h₃, rfl⟩ := h
  simp only [storeInfo, h₁, h₂, h₃, orThrow_some, ok_bind]

/-- With room in both arrays the stores behind `ensureSpace` append an entry. -/
theorem putObject_of_room {b b₁ : ObjectBuffer} {es : List ObjectEntry}
    (hspace : b.ensureSpace = .ok b₁) (h : b₁.Stores es) (e : ObjectEntry)
    (hroom : es.length < b₁.objects.length) (hiroom : es.length * 3 + 3 ≤ b₁.info.length) :
    ∃ b', b.putObject e.object e.offset e.length e.flags = .ok b' ∧ b'.Stores (es ++ [e]) ∧
      b'.objects.length = b₁.objects.length ∧ b'.info.length = b₁.info.length := by
  obtain ⟨hobj, hidx, hfit, hifit, htake, hitake⟩ := h
  have hset : setAt b₁.objects b₁.objectIndex e.object =
      some (b₁.objects.set b₁.objectIndex e.object) := if_pos (by omega)
  obtain ⟨info, hsplice⟩ : ∃ info, splice b₁.info b₁.infoIndex (triple e) = some info :=
    exists_splice (by simp only [triple, List.length_cons, List.length_nil]; omega)
  have hstore : storeBytes b₁.info b₁.infoIndex [e.flags, e.offset, e.length] = some info := by
    rw [storeBytes_eq_splice (by simp only [List.length_cons, List.length_nil]; omega)]
    exact hsplice
  have hlen := length_of_splice hsplice
  refine ⟨{ b₁ with
    objects := b₁.objects.set b₁.objectIndex e.object
    objectIndex := b₁.objectIndex + 1
    info := info
    infoIndex := b₁.infoIndex + 3 }, ?_, ⟨?_, ?_, ?_, ?_, ?_, ?_⟩, by simp, hlen⟩
  · rw [putObject, hspace, ok_bind, storeObject, hset, orThrow_some, ok_bind, ok_bind]
    exact storeInfo_three (b := { b₁ with
      objects := b₁.objects.set b₁.objectIndex e.object
      objectIndex := b₁.objectIndex + 1 }) hstore
  · simp [hobj]
  · simp [hidx]
    omega
  · simp
    omega
  · simp only [List.length_append, List.length_singleton, hlen]
    omega
  · change (b₁.objects.set b₁.objectIndex e.object).take _ = _
    rw [List.length_append, List.length_singleton, List.map_append, ← htake, hobj,
      List.take_add_one, List.take_set_of_le (Nat.le_refl _), List.getElem?_set_self (by omega)]
    rfl
  · change info.take _ = _
    obtain ⟨-, rfl⟩ := splice_eq_some.mp hsplice
    rw [List.length_append, List.length_singleton, List.flatMap_append, ← hitake, hidx,
      List.take_append_of_le_length, List.take_of_length_le, List.flatMap_singleton]
    all_goals
      simp only [triple, List.length_append, List.length_take, List.length_cons, List.length_nil]
      omega

/-- A `put` appends one entry and keeps the earlier ones, growing the arrays where it has to. -/
theorem holds_putObject {b : ObjectBuffer} {es : List ObjectEntry} (h : b.Holds es)
    (hn : es.length < 2 ^ 28) (e : ObjectEntry) :
    ∃ b', b.putObject e.object e.offset e.length e.flags = .ok b' ∧ b'.Holds (es ++ [e]) := by
  obtain ⟨b₁, hspace, hholds, hroom⟩ := holds_ensureSpace h hn
  have hinfo := hholds.info_length
  obtain ⟨b', hput, hstores, hlen, hilen⟩ :=
    putObject_of_room hspace hholds.stores e hroom (by omega)
  exact ⟨b', hput, ⟨by omega, by omega, hstores.objectIndex_eq, hstores.infoIndex_eq,
    hstores.objects_fit, hstores.objects_take, hstores.info_take⟩⟩

end ObjectBuffer

end Jffi
