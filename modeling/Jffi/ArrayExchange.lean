import Jffi.ArrayResources
import Jffi.ObjectPaths
import Mathlib.Data.List.Forall2

/-!
# What a call passes for its objects

A call may take any number of arrays, several of which may be the same Java array. Those that are
copied get a block each, in the order of the objects; the pinned ones, the buffers and the JNI
parameters have none. Every parameter an object is for is passed the pointer to its own copy, to the
elements of the array itself, to the memory of the buffer, or what JNI has for it. This is said once
for both paths: their rounds differ, what a round does to the arrays, the blocks and the parameter
it is for does not.

## Main definitions

* `placeObjects` — the objects of a call, with the blocks of the copies
* `ObjectPlace.pointer` — what is passed for an object
* `Resolves`, `PassesPinned` — what the rounds of the two loops do
* `Delivers` — what has been done when the callee is called

## Main results

* `resolves_loop`, `passesPinned_loop` — the loops, whichever their rounds
* `delivers_prepareCall`, `delivers_resolveFast` — everything before a call, on the two paths
-/

namespace Jffi

open ObjectBuffer

/-! ### Objects in their places -/

/-- The object is passed by a copy. -/
def ObjectEntry.isCopied (e : ObjectEntry) : Bool :=
  decodeKind e.flags = .array && !isPinned e.flags

/-- The object is left to be pinned. -/
def ObjectEntry.isLeft (e : ObjectEntry) : Bool := decodeKind e.flags = .array && isPinned e.flags

/-- An object, and the number of the block that is acquired next. -/
structure ObjectPlace where
  block : ℕ
  entry : ObjectEntry

/-- The objects of a call whose copies have the blocks from `b` on. -/
def placeObjects : ℕ → List ObjectEntry → List ObjectPlace
  | _, [] => []
  | b, e :: objects => ⟨b, e⟩ :: placeObjects (if e.isCopied then b + 1 else b) objects

/-- The object is the only one for its parameter. -/
def ObjectPlace.IsAlone (p : ObjectPlace) (objects : List ObjectEntry) : Prop :=
  (indices objects).count (descriptorIndex p.entry.flags) = 1

/-- The places of those objects that are passed as copies. -/
def placedCopies (b : ℕ) (objects : List ObjectEntry) : List ObjectPlace :=
  (placeObjects b objects).filter fun p => p.entry.isCopied

theorem placeObjects_append (b : ℕ) (xs ys : List ObjectEntry) :
    placeObjects b (xs ++ ys) =
      placeObjects b xs ++ placeObjects (b + xs.countP ObjectEntry.isCopied) ys := by
  induction xs generalizing b with
  | nil => rfl
  | cons e xs ih =>
    rw [List.cons_append, placeObjects, placeObjects, ih, List.countP_cons, List.cons_append]
    congr 3
    split <;> omega

theorem placedCopies_append (b : ℕ) (xs ys : List ObjectEntry) :
    placedCopies b (xs ++ ys) =
      placedCopies b xs ++ placedCopies (b + xs.countP ObjectEntry.isCopied) ys := by
  rw [placedCopies, placeObjects_append, List.filter_append]
  rfl

theorem entry_mem_of_placeObjects {b : ℕ} {objects : List ObjectEntry} {p : ObjectPlace}
    (hp : p ∈ placeObjects b objects) : p.entry ∈ objects := by
  induction objects generalizing b with
  | nil => cases hp
  | cons e objects ih =>
    rcases List.mem_cons.mp hp with rfl | hp
    · exact List.mem_cons_self
    · exact List.mem_cons_of_mem e (ih hp)

/-- Of two lists of objects one has the only object for a parameter, and the other has none. -/
theorem ObjectPlace.IsAlone.of_append {b : ℕ} {p : ObjectPlace} {xs ys : List ObjectEntry}
    (h : p.IsAlone (xs ++ ys)) (hp : p ∈ placeObjects b xs) :
    p.IsAlone xs ∧ descriptorIndex p.entry.flags ∉ indices ys := by
  have hpos : 0 < (indices xs).count (descriptorIndex p.entry.flags) :=
    List.count_pos_iff.mpr (List.mem_map_of_mem (entry_mem_of_placeObjects hp))
  rw [IsAlone, indices, List.map_append, List.count_append] at h
  change (indices xs).count _ + (indices ys).count _ = 1 at h
  exact ⟨by rw [IsAlone]; omega, List.count_eq_zero.mp (by omega)⟩

theorem ObjectPlace.IsAlone.of_append_right {b : ℕ} {p : ObjectPlace} {xs ys : List ObjectEntry}
    (h : p.IsAlone (xs ++ ys)) (hp : p ∈ placeObjects b ys) : p.IsAlone ys := by
  have hpos : 0 < (indices ys).count (descriptorIndex p.entry.flags) :=
    List.count_pos_iff.mpr (List.mem_map_of_mem (entry_mem_of_placeObjects hp))
  rw [IsAlone, indices, List.map_append, List.count_append] at h
  change (indices xs).count _ + (indices ys).count _ = 1 at h
  rw [IsAlone]
  omega

/-- An object that is alone on its parameter is the only entry whose descriptor names that
parameter. -/
theorem ObjectPlace.IsAlone.eq {b : ℕ} {p : ObjectPlace} {objects : List ObjectEntry}
    (h : p.IsAlone objects) (hp : p ∈ placeObjects b objects) {e : ObjectEntry} (he : e ∈ objects)
    (hindex : descriptorIndex e.flags = descriptorIndex p.entry.flags) : e = p.entry := by
  rw [IsAlone, indices, List.count, List.countP_map, List.countP_eq_length_filter] at h
  obtain ⟨x, hx⟩ := List.length_eq_one_iff.mp h
  have hmem : ∀ y ∈ objects, descriptorIndex y.flags = descriptorIndex p.entry.flags → y = x := by
    intro y hy heq
    rw [← List.mem_singleton, ← hx]
    exact List.mem_filter.mpr ⟨hy, beq_iff_eq.mpr heq⟩
  rw [hmem e he hindex, ← hmem p.entry (entry_mem_of_placeObjects hp) rfl]

variable (pf : Platform)

/-- What is passed for an object. -/
def ObjectPlace.pointer (p : ObjectPlace) : Option Ptr :=
  match decodeKind p.entry.flags with
  | .array =>
    if isPinned p.entry.flags then
      match p.entry.object with
      | some (.array r) => some ((Ptr.array r 0).add pf p.entry.offset.toInt)
      | _ => none
    else some (.block p.block 0)
  | .buffer =>
    match p.entry.object with
    | some (.buffer a) => some ((Ptr.addr a).add pf p.entry.offset.toInt)
    | _ => none
  | .jniEnvironment => some .env
  | .jniObject => some (handleOf p.entry.object)
  | .unsupported => none

/-! ### A copy is taken -/

/-- The block of a copy at the call. -/
structure Block.HoldsCopy (arrays : List JavaArray) (e : ObjectEntry) (blk : Block) : Prop where
  live : blk.live = true
  elements : isInArray e.flags = true → ∃ r a, e.object = some (.array r) ∧ arrays[r]? = some a ∧
    componentOf e.flags = some a.component ∧ CopyOf e.offset.toInt e.length.toInt a blk.cells

/-- What is recorded of a copy, for when it is brought back. -/
structure NativeArray.CopyAt (a : NativeArray) (p : ObjectPlace) : Prop where
  array_eq : a.array = p.entry.object
  elems_eq : a.elems = .block p.block 0
  offset_eq : a.offset = p.entry.offset.toInt
  length_eq : a.length = p.entry.length.toInt
  type_eq : a.type = p.entry.flags
  copyout_eq : ∃ t, componentOf p.entry.flags = some t ∧
    a.copyout = if isOutArray p.entry.flags then some t else none
  release_ne : a.release ≠ some .criticalArray

/-- From `s` to `s'` a copy of an object was taken. -/
structure TakesCopy (e : ObjectEntry) (s s' : Native) (a : NativeArray) : Prop where
  copyAt : a.CopyAt ⟨s.blocks.length, e⟩
  blocks : ∃ blk, s'.blocks = s.blocks ++ [blk] ∧ blk.HoldsCopy s.arrays e
  heap : s.KeepsHeap s'

section TakesCopy

variable {pf} {jvm : Jvm} {e : ObjectEntry} {s s' : Native} {a : NativeArray}

/-- Where an array is copied `IN` with success, the object is an array of the type asked for. -/
theorem copyFate_filled {t : ComponentType} {length offset : ℤ} {type : BitVec 32} {room : ℕ}
    {heap : List JavaArray} {object : Option Obj}
    (h : copyFate t length type room heap object offset = .filled) (hin : isInArray type = true) :
    ∃ r a, object = some (.array r) ∧ heap[r]? = some a ∧ a.component = t := by
  unfold copyFate at h
  rw [if_pos hin] at h
  rcases object with _ | r | address | ref
  · cases h
  · dsimp only at h
    cases ha : heap[r]? with
    | none =>
      rw [ha] at h
      cases h
    | some a =>
      rw [ha] at h
      dsimp only at h
      by_cases ht : a.component = t
      · exact ⟨r, a, rfl, ha, ht⟩
      · rw [if_neg ht] at h
        cases h
  · cases h
  · cases h

/-- **A buffer filled** with the copy of an object, whatever the object is. -/
theorem fillArray_takes {t : ComponentType} {u : Native} {blk : Block} {release : Option Release}
    (htype : componentOf e.flags = some t) (hu : s.KeepsHeap u)
    (htop : u.blocks = s.blocks ++ [blk]) (hlive : blk.live = true) (hpending : s.pending = none)
    (hrelease : release ≠ some .criticalArray)
    (h : fillArray pf t e.object e.offset.toInt e.length.toInt e.flags (.block s.blocks.length 0)
      release u = some (some a, s')) : TakesCopy e s s' a := by
  have hpending' : u.pending = none := hu.pending_eq.trans hpending
  have hfate := @fillArray_fate pf u s.blocks blk t e.offset.toInt e.length.toInt e.flags e.object
    htop hlive hpending' release
  rw [h] at hfate
  revert hfate
  cases hfill : fillFate t e.length.toInt e.flags blk.cells.length u.arrays e.object
    e.offset.toInt with
  | undefined =>
    intro hfate
    cases hfate
  | refused =>
    rintro ⟨tr, -, hfate⟩
    cases hfate
  | filled =>
    rintro ⟨cells, tr, -, -, hfate⟩
    cases hfate
    refine ⟨⟨rfl, rfl, rfl, rfl, rfl, ⟨t, htype, rfl⟩, hrelease⟩, ⟨_, rfl, hlive, fun hin => ?_⟩,
      hu.trans ⟨rfl, rfl, rfl, rfl, rfl⟩⟩
    · have hcopy : copyFate t e.length.toInt e.flags blk.cells.length u.arrays e.object
          e.offset.toInt = .filled := by
        rw [fillFate] at hfill
        split at hfill
        · assumption
        · exact hfill
      obtain ⟨r, x, hobject, hx, rfl⟩ := copyFate_filled hcopy hin
      rw [hobject] at h
      obtain ⟨-, cells', hblocks, -, hin', -⟩ := fillArray_inv htop hlive hx hpending' h
      obtain rfl : cells = cells' := by
        have hlast := List.append_cancel_left (hblocks.symm.trans rfl)
        cases hlast
        rfl
      rw [hu.arrays_eq] at hx
      exact ⟨r, x, hobject, hx, htype, hin' hin⟩

/-- A copy made on the stack is a new block with the elements asked for, which owns no memory from
`malloc`. -/
theorem stackCopy_takes (hpending : s.pending = none)
    (h : ((s.alloca (arraySize (e.length.toInt + 1) e.flags)).bind fun p =>
      getArrayBuffer pf e.object e.offset.toInt e.length.toInt e.flags p.1 p.2) =
        some (some a, s')) : TakesCopy e s s' a := by
  obtain ⟨⟨ptr, u⟩, halloca, h⟩ := Option.bind_eq_some_iff.mp h
  unfold Native.alloca at halloca
  split at halloca
  · cases halloca
    rw [getArrayBuffer] at h
    split at h
    · rename_i t htype
      have hu : s.KeepsHeap (s.newBlock .stack (arraySize (e.length.toInt + 1) e.flags).toNat) :=
        ⟨rfl, rfl, rfl, rfl, rfl⟩
      exact fillArray_takes htype hu rfl rfl hpending (by decide) h
    · cases h
  · cases halloca

/-- A copy made in memory from `malloc` is a new block with the elements asked for, which is to be
freed. -/
theorem heapCopy_takes (hpending : s.pending = none)
    (h : getArrayHeap pf jvm e.object e.offset.toInt e.length.toInt e.flags s =
      some (some a, s')) : TakesCopy e s s' a := by
  rw [getArrayHeap] at h
  split at h
  · rename_i t htype
    split at h
    · simp only [Native.malloc] at h
      split at h
      · rename_i hmalloc
        split at hmalloc
        · cases hmalloc
        · cases hmalloc
          let size := (toJint (t.size * (e.length.toInt + 1))).toNat
          let u : Native := { (s.newBlock .heap size).logged (.malloc s.blocks.length) with
            mallocs := s.mallocs + 1 }
          have hu : s.KeepsHeap u := ⟨rfl, rfl, rfl, rfl, rfl⟩
          exact fillArray_takes htype hu rfl rfl hpending (by decide) h
      · cases h
    · cases h
  · cases h

end TakesCopy

/-! ### Objects are resolved -/

/-- Copies of the objects were taken, each in a block of its own. -/
structure Holdings.Takes (objects : List ObjectEntry) (h h' : Holdings) : Prop where
  arrays : ∃ new, h'.arrays = h.arrays ++ new ∧
    List.Forall₂ NativeArray.CopyAt new (placedCopies h.native.blocks.length objects)
  blocks : ∃ new, h'.native.blocks = h.native.blocks ++ new ∧
    List.Forall₂ (Block.HoldsCopy h.native.arrays) (objects.filter ObjectEntry.isCopied) new
  heap : h.native.KeepsHeap h'.native

namespace Holdings.Takes

variable {h₁ h₂ h₃ : Holdings} {objects objects' : List ObjectEntry} {e : ObjectEntry}

theorem refl (h : Holdings) : h.Takes [] h where
  arrays := ⟨[], (List.append_nil _).symm, .nil⟩
  blocks := ⟨[], (List.append_nil _).symm, .nil⟩
  heap := .refl _

/-- Resolving objects adds one block for every entry that is copied, and none for any other. -/
theorem length_blocks (ht : h₁.Takes objects h₂) :
    h₂.native.blocks.length = h₁.native.blocks.length + objects.countP ObjectEntry.isCopied := by
  obtain ⟨new, hnew, hcopies⟩ := ht.blocks
  rw [hnew, List.length_append, ← hcopies.length_eq, List.countP_eq_length_filter]

theorem trans (ht : h₁.Takes objects h₂) (ht' : h₂.Takes objects' h₃) :
    h₁.Takes (objects ++ objects') h₃ where
  arrays := by
    obtain ⟨new, hnew, hcopies⟩ := ht.arrays
    obtain ⟨new', hnew', hcopies'⟩ := ht'.arrays
    refine ⟨new ++ new', by rw [hnew', hnew, List.append_assoc], ?_⟩
    rw [placedCopies_append, ← ht.length_blocks]
    exact List.rel_append hcopies hcopies'
  blocks := by
    obtain ⟨new, hnew, hcopies⟩ := ht.blocks
    obtain ⟨new', hnew', hcopies'⟩ := ht'.blocks
    refine ⟨new ++ new', by rw [hnew', hnew, List.append_assoc], ?_⟩
    rw [ht.heap.arrays_eq] at hcopies'
    rw [List.filter_append]
    exact List.rel_append hcopies hcopies'
  heap := ht.heap.trans ht'.heap

/-- A round that adds no array to the record and no block to memory has taken what an object that is
not copied takes. -/
theorem of_not_isCopied (he : e.isCopied = false) (harrays : h₂.arrays = h₁.arrays)
    (hblocks : h₂.native.blocks = h₁.native.blocks) (hheap : h₁.native.KeepsHeap h₂.native) :
    h₁.Takes [e] h₂ := by
  have hcopies : placedCopies h₁.native.blocks.length [e] = [] := by
    simp [placedCopies, placeObjects, he]
  have hfilter : [e].filter ObjectEntry.isCopied = [] := by simp [he]
  refine ⟨⟨[], harrays.trans (List.append_nil _).symm, ?_⟩,
    ⟨[], hblocks.trans (List.append_nil _).symm, ?_⟩, hheap⟩
  · rw [hcopies]
    exact .nil
  · rw [hfilter]
    exact .nil

theorem of_takesCopy (he : e.isCopied = true) {a : NativeArray}
    (ht : TakesCopy e h₁.native h₂.native a) (harrays : h₂.arrays = h₁.arrays ++ [a]) :
    h₁.Takes [e] h₂ := by
  have hcopies : placedCopies h₁.native.blocks.length [e] = [⟨h₁.native.blocks.length, e⟩] := by
    simp [placedCopies, placeObjects, he]
  have hfilter : [e].filter ObjectEntry.isCopied = [e] := by simp [he]
  obtain ⟨blk, hblocks, hblk⟩ := ht.blocks
  refine ⟨⟨[a], harrays, ?_⟩, ⟨[blk], hblocks, ?_⟩, ht.heap⟩
  · rw [hcopies]
    exact .cons ht.copyAt .nil
  · rw [hfilter]
    exact .cons hblk .nil

end Holdings.Takes

section Loops

variable {β : Type} (view : β → Holdings) (passed : ℕ → Ptr → β → Prop)

/-- Objects were resolved: the copies are taken, the arrays that are left to be pinned are recorded,
and for all others a pointer was passed. -/
structure Resolves (objects : List ObjectEntry) (l l' : β) : Prop where
  takes : (view l).Takes objects (view l')
  pinned_eq : (view l').pinned =
    (view l).pinned ++ (objects.filter ObjectEntry.isLeft).map ObjectEntry.pinned
  keeps : ∀ k ptr, k ∉ indices objects → passed k ptr l → passed k ptr l'
  passes : ∀ p ∈ placeObjects (view l).native.blocks.length objects, p.IsAlone objects →
    p.entry.isLeft = false →
      ∃ ptr, p.pointer pf = some ptr ∧ passed (descriptorIndex p.entry.flags) ptr l'

/-- Arrays were pinned, and pointers to their elements passed. -/
structure PassesPinned (ps : List Pinned) (l l' : β) : Prop where
  arrays : ∃ new, (view l').arrays = (view l).arrays ++ new ∧ ∀ a ∈ new, a.Critical
  blocks_eq : (view l').native.blocks = (view l).native.blocks
  heap : (view l).native.KeepsHeap (view l').native
  keeps : ∀ k ptr, (∀ p ∈ ps, descriptorIndex p.type ≠ k) → passed k ptr l → passed k ptr l'
  passes : ∀ p ∈ ps, (ps.map fun p => descriptorIndex p.type).count (descriptorIndex p.type) = 1 →
    ∃ r, p.object = some (.array r) ∧
      passed (descriptorIndex p.type) ((Ptr.array r 0).add pf p.offset) l'

/-- From the state `s` on everything was done that is done before a call. -/
structure Delivers (objects : List ObjectEntry) (s : Native) (l : β) : Prop where
  arrays : ∃ new pins, (view l).arrays = new ++ pins ∧
    List.Forall₂ NativeArray.CopyAt new (placedCopies s.blocks.length objects) ∧
      ∀ a ∈ pins, a.Critical
  blocks : ∃ new, (view l).native.blocks = s.blocks ++ new ∧
    List.Forall₂ (Block.HoldsCopy s.arrays) (objects.filter ObjectEntry.isCopied) new
  heap : s.KeepsHeap (view l).native
  passes : ∀ p ∈ placeObjects s.blocks.length objects, p.IsAlone objects →
    ∃ ptr, p.pointer pf = some ptr ∧ passed (descriptorIndex p.entry.flags) ptr l

variable {pf view passed} {l l₁ l₂ l₃ : β} {objects objects' : List ObjectEntry}

theorem Resolves.refl (l : β) : Resolves pf view passed [] l l where
  takes := .refl _
  pinned_eq := (List.append_nil _).symm
  keeps _ _ _ h := h
  passes _ hp := absurd hp List.not_mem_nil

theorem Resolves.trans (h : Resolves pf view passed objects l₁ l₂)
    (h' : Resolves pf view passed objects' l₂ l₃) :
    Resolves pf view passed (objects ++ objects') l₁ l₃ where
  takes := h.takes.trans h'.takes
  pinned_eq := by
    rw [h'.pinned_eq, h.pinned_eq, List.append_assoc, List.filter_append, List.map_append]
  keeps k ptr hk hpassed := by
    rw [indices, List.map_append, List.mem_append, not_or] at hk
    exact h'.keeps k ptr hk.2 (h.keeps k ptr hk.1 hpassed)
  passes p hp halone hleft := by
    rw [placeObjects_append, ← h.takes.length_blocks] at hp
    rcases List.mem_append.mp hp with hp | hp
    · obtain ⟨hhead, htail⟩ := halone.of_append hp
      obtain ⟨ptr, hptr, hpassed⟩ := h.passes p hp hhead hleft
      exact ⟨ptr, hptr, h'.keeps _ ptr htail hpassed⟩
    · exact h'.passes p hp (halone.of_append_right hp) hleft

/-- **The object loop**, if each of its rounds resolves its object. -/
theorem resolves_loop {I : β → Prop} {step : ObjectEntry → β → Option (Flow β)}
    (hstep : ∀ e ∈ objects, ∀ l l', I l → (view l).native.pending = none →
      step e l = some (.next l') → I l' ∧ Resolves pf view passed [e] l l')
    (hI : I l₁) (hpending : (view l₁).native.pending = none)
    (h : loopM step objects l₁ = some (.next l₂)) :
    I l₂ ∧ Resolves pf view passed objects l₁ l₂ := by
  induction objects generalizing l₁ with
  | nil =>
    cases h
    exact ⟨hI, .refl _⟩
  | cons e objects ih =>
    rcases loopM_cons_eq_some.mp h with ⟨l', hround, h⟩ | ⟨l', -, h⟩
    · obtain ⟨hI', hhead⟩ := hstep e List.mem_cons_self l₁ l' hI hpending hround
      obtain ⟨hI'', htail⟩ := ih (fun e' he' => hstep e' (List.mem_cons_of_mem e he')) hI'
        (hhead.takes.heap.pending_eq.trans hpending) h
      exact ⟨hI'', hhead.trans htail⟩
    · cases h

theorem PassesPinned.refl (l : β) : PassesPinned pf view passed [] l l where
  arrays := ⟨[], (List.append_nil _).symm, fun _ ha => absurd ha List.not_mem_nil⟩
  blocks_eq := rfl
  heap := .refl _
  keeps _ _ _ h := h
  passes _ hp := absurd hp List.not_mem_nil

theorem PassesPinned.cons {p : Pinned} {ps : List Pinned}
    (h : PassesPinned pf view passed [p] l₁ l₂) (h' : PassesPinned pf view passed ps l₂ l₃) :
    PassesPinned pf view passed (p :: ps) l₁ l₃ where
  arrays := by
    obtain ⟨new, hnew, hcritical⟩ := h.arrays
    obtain ⟨new', hnew', hcritical'⟩ := h'.arrays
    refine ⟨new ++ new', by rw [hnew', hnew, List.append_assoc], fun a ha => ?_⟩
    rcases List.mem_append.mp ha with ha | ha
    · exact hcritical a ha
    · exact hcritical' a ha
  blocks_eq := h'.blocks_eq.trans h.blocks_eq
  heap := h.heap.trans h'.heap
  keeps k ptr hk hpassed := by
    refine h'.keeps k ptr (fun q hq => hk q (List.mem_cons_of_mem p hq)) (h.keeps k ptr ?_ hpassed)
    intro q hq
    rw [List.mem_singleton.mp hq]
    exact hk p List.mem_cons_self
  passes q hq halone := by
    rw [List.map_cons, List.count_cons] at halone
    rcases List.mem_cons.mp hq with rfl | hq
    · rw [if_pos (beq_self_eq_true _), Nat.add_eq_right] at halone
      obtain ⟨r, hr, hpassed⟩ := h.passes q (List.mem_singleton_self q) (List.count_singleton_self)
      refine ⟨r, hr, h'.keeps _ _ (fun q' hq' heq => List.count_eq_zero.mp halone ?_) hpassed⟩
      exact List.mem_map.mpr ⟨q', hq', heq⟩
    · have hpos : 0 < (ps.map fun p => descriptorIndex p.type).count (descriptorIndex q.type) :=
        List.count_pos_iff.mpr (List.mem_map_of_mem hq)
      exact h'.passes q hq (by omega)

/-- **The pinning loop**, if each of its rounds passes its array. -/
theorem passesPinned_loop {I : β → Prop} {step : Pinned → β → Option (Flow β)} {ps : List Pinned}
    (hstep : ∀ p ∈ ps, ∀ l l', I l → step p l = some (.next l') →
      I l' ∧ PassesPinned pf view passed [p] l l')
    (hI : I l₁) (h : loopM step ps l₁ = some (.next l₂)) :
    I l₂ ∧ PassesPinned pf view passed ps l₁ l₂ := by
  induction ps generalizing l₁ with
  | nil =>
    cases h
    exact ⟨hI, .refl _⟩
  | cons p ps ih =>
    rcases loopM_cons_eq_some.mp h with ⟨l', hround, h⟩ | ⟨l', -, h⟩
    · obtain ⟨hI', hhead⟩ := hstep p List.mem_cons_self l₁ l' hI hround
      obtain ⟨hI'', htail⟩ := ih (fun q hq => hstep q (List.mem_cons_of_mem p hq)) hI' h
      exact ⟨hI'', hhead.cons htail⟩
    · cases h

/-- When the object loop and the pinning loop have both run, every object has been delivered: what
was resolved by the first is left alone by the second. -/
theorem Resolves.delivers (harrays : (view l₁).arrays = []) (hpinned : (view l₁).pinned = [])
    (h : Resolves pf view passed objects l₁ l₂)
    (h' : PassesPinned pf view passed (view l₂).pinned l₂ l₃) :
    Delivers pf view passed objects (view l₁).native l₃ where
  arrays := by
    obtain ⟨new, hnew, hcopies⟩ := h.takes.arrays
    obtain ⟨pins, hpins, hcritical⟩ := h'.arrays
    refine ⟨new, pins, ?_, hcopies, hcritical⟩
    rw [hpins, hnew, harrays, List.nil_append]
  blocks := by
    obtain ⟨new, hnew, hcopies⟩ := h.takes.blocks
    exact ⟨new, h'.blocks_eq.trans hnew, hcopies⟩
  heap := h.takes.heap.trans h'.heap
  passes p hp halone := by
    have hleft := h.pinned_eq
    rw [hpinned, List.nil_append] at hleft
    have hmem := entry_mem_of_placeObjects hp
    by_cases hentry : p.entry.isLeft = true
    · have hlater : p.entry.pinned ∈ (view l₂).pinned := by
        rw [hleft]
        exact List.mem_map_of_mem (List.mem_filter.mpr ⟨hmem, hentry⟩)
      have hle : ((view l₂).pinned.map fun q => descriptorIndex q.type).count
          (descriptorIndex p.entry.flags) ≤ 1 := by
        rw [hleft, List.map_map, ← halone]
        exact (List.filter_sublist.map _).count_le _
      have hpos : 0 < ((view l₂).pinned.map fun q => descriptorIndex q.type).count
          (descriptorIndex p.entry.flags) :=
        List.count_pos_iff.mpr (List.mem_map.mpr ⟨_, hlater, rfl⟩)
      obtain ⟨r, hobject, hpassed⟩ := h'.passes p.entry.pinned hlater (Nat.le_antisymm hle hpos)
      obtain ⟨hkind, hpin⟩ : decodeKind p.entry.flags = .array ∧ isPinned p.entry.flags = true := by
        simpa [ObjectEntry.isLeft] using hentry
      refine ⟨_, ?_, hpassed⟩
      rw [show p.entry.pinned.object = p.entry.object from rfl] at hobject
      simp only [ObjectPlace.pointer, hkind, hpin, if_true, hobject]
      rfl
    · obtain ⟨ptr, hptr, hpassed⟩ := h.passes p hp halone (by simpa using hentry)
      refine ⟨ptr, hptr, h'.keeps _ ptr (fun q hq heq => ?_) hpassed⟩
      -- another object would be for the same parameter
      rw [hleft] at hq
      obtain ⟨e, he, rfl⟩ := List.mem_map.mp hq
      obtain ⟨he, hleft'⟩ := List.mem_filter.mp he
      rw [halone.eq hp he heq] at hleft'
      exact hentry hleft'

/-- Objects that were delivered from a state that differs in nothing but the stack and the trace
were delivered from the earlier one. -/
theorem Delivers.after {s s' : Native} (hblocks : s'.blocks = s.blocks) (hheap : s.KeepsHeap s')
    (h : Delivers pf view passed objects s' l) : Delivers pf view passed objects s l := by
  obtain ⟨harrays, hnew, hkeep, hpasses⟩ := h
  rw [hblocks] at harrays hnew hpasses
  rw [hheap.arrays_eq] at hnew
  exact ⟨harrays, hnew, hheap.trans hkeep, hpasses⟩

/-- A round that passes a pointer for an object which needs no copy. -/
theorem Resolves.of_pointer {e : ObjectEntry} {k : ℕ} (hk : k = descriptorIndex e.flags)
    (hcopied : e.isCopied = false) (harrays : (view l₂).arrays = (view l₁).arrays)
    (hblocks : (view l₂).native.blocks = (view l₁).native.blocks)
    (hheap : (view l₁).native.KeepsHeap (view l₂).native)
    (hpinned : (view l₂).pinned = (view l₁).pinned ++ if e.isLeft then [e.pinned] else [])
    (hkeeps : ∀ i ptr, i ≠ k → passed i ptr l₁ → passed i ptr l₂) {ptr : Ptr}
    (hptr : e.isLeft = false →
      (ObjectPlace.mk (view l₁).native.blocks.length e).pointer pf = some ptr)
    (hpassed : passed k ptr l₂) : Resolves pf view passed [e] l₁ l₂ where
  takes := .of_not_isCopied hcopied harrays hblocks hheap
  pinned_eq := by
    rw [hpinned, List.filter_singleton]
    cases e.isLeft <;> rfl
  keeps i ptr hi := by
    refine hkeeps i ptr fun heq => hi ?_
    rw [heq, hk]
    exact List.mem_singleton_self _
  passes p hp _ hleft := by
    obtain rfl := List.mem_singleton.mp hp
    exact ⟨ptr, hptr hleft, hk ▸ hpassed⟩

/-- A round that takes a copy, adds it to the record and passes its address for the parameter of the
object has resolved it. -/
theorem Resolves.of_copy {e : ObjectEntry} {k : ℕ} (hk : k = descriptorIndex e.flags)
    (hcopied : e.isCopied = true) {a : NativeArray}
    (htakes : TakesCopy e (view l₁).native (view l₂).native a)
    (harrays : (view l₂).arrays = (view l₁).arrays ++ [a])
    (hpinned : (view l₂).pinned = (view l₁).pinned)
    (hkeeps : ∀ i ptr, i ≠ k → passed i ptr l₁ → passed i ptr l₂)
    (hpassed : passed k (.block (view l₁).native.blocks.length 0) l₂) :
    Resolves pf view passed [e] l₁ l₂ where
  takes := .of_takesCopy hcopied htakes harrays
  pinned_eq := by
    obtain ⟨-, hpin⟩ := Bool.and_eq_true_iff.mp hcopied
    have hleft : e.isLeft = false := by
      rw [Bool.not_eq_true'] at hpin
      simp [ObjectEntry.isLeft, hpin]
    rw [hpinned, List.filter_singleton, hleft]
    exact (List.append_nil _).symm
  keeps i ptr hi := by
    refine hkeeps i ptr fun heq => hi ?_
    rw [heq, hk]
    exact List.mem_singleton_self _
  passes p hp _ _ := by
    obtain rfl := List.mem_singleton.mp hp
    obtain ⟨hkind, hpin⟩ : decodeKind e.flags = .array ∧ isPinned e.flags = false := by
      simpa [ObjectEntry.isCopied] using hcopied
    refine ⟨.block (view l₁).native.blocks.length 0, ?_, hk ▸ hpassed⟩
    simp [ObjectPlace.pointer, hkind, hpin]

end Loops

/-! ### The rounds of the generic path -/

section Generic

variable {pf} {jvm : Jvm} {ctx : NativeCallContext} {l l' : ObjectLoop} {e : ObjectEntry}

/-- Parameter `k`, if there is one, was passed the pointer. -/
def PassesArg (pf : Platform) (ctx : NativeCallContext) (k : ℕ) (ptr : Ptr) (l : ObjectLoop) :
    Prop :=
  ∀ t, ctx.cif.argTypes[k]? = some t → Passes pf t k ptr l.frame

theorem PassesArg.keepsOthers {i k : ℕ} {ptr : Ptr} (h : PassesArg pf ctx i ptr l)
    (hkeeps : KeepsOthers k l l') (hi : i ≠ k) : PassesArg pf ctx i ptr l' := by
  intro t ht
  obtain ⟨hpointer, hother⟩ := h t ht
  refine ⟨fun htype => ?_, fun htype => ?_⟩
  · rw [hkeeps.args i hi, hkeeps.slots i _ hi pf.ptrSize_le]
    exact hpointer htype
  · rw [hkeeps.args i hi]
    exact hother htype

/-- What a round that has passed a pointer has done. -/
structure SetsArg (pf : Platform) (ctx : NativeCallContext) (k : ℕ) (ptr : Ptr)
    (l l' : ObjectLoop) : Prop where
  wellFramed : WellFramed ctx l'.frame
  passed : PassesArg pf ctx k ptr l'
  keeps : ∀ i ptr', i ≠ k → PassesArg pf ctx i ptr' l → PassesArg pf ctx i ptr' l'
  native_eq : l'.native = l.native
  arrays_eq : l'.arrays = l.arrays
  pinned_eq : l'.pinned = l.pinned

theorem setArg_inv {k : ℕ} {ptr : Ptr} (h : WellFramed ctx l.frame)
    (hset : setArg pf ctx k ptr l = some (.next l')) : SetsArg pf ctx k ptr l l' := by
  rcases Nat.lt_or_ge k ctx.cif.argTypes.length with hk | hk
  · have ht : ctx.cif.argTypes[k]? = some ctx.cif.argTypes[k] := List.getElem?_eq_getElem hk
    obtain ⟨l₁, hset₁, hpasses, hothers, hnative, harrays⟩ := setArg_spec pf ht (h k _ ht) ptr
    obtain ⟨f, hset₂, hf⟩ := setArg_wellFramed h hk ptr
    cases hset.symm.trans hset₁
    cases hset.symm.trans hset₂
    refine ⟨hf, fun t ht' => ?_, fun i ptr' hi hpassed => hpassed.keepsOthers hothers hi, hnative,
      harrays, hothers.pinned_eq⟩
    obtain rfl := Option.some.inj (ht.symm.trans ht')
    exact hpasses
  · rw [setArg_outside hk] at hset
    cases hset

/-- Passing the pointer of an object that needs no copy resolves it, be it known already or left for
the pinning loop. -/
theorem resolves_setArg {ptr : Ptr} {u : Native} {pinned : List Pinned}
    (h : WellFramed ctx l.frame) (hcopied : e.isCopied = false)
    (hblocks : u.blocks = l.native.blocks) (hheap : l.native.KeepsHeap u)
    (hpinned : pinned = l.pinned ++ if e.isLeft then [e.pinned] else [])
    (hptr : e.isLeft = false → (ObjectPlace.mk l.native.blocks.length e).pointer pf = some ptr)
    (hset : setArg pf ctx (descriptorIndex e.flags) ptr { l with pinned := pinned, native := u } =
      some (.next l')) :
    WellFramed ctx l'.frame ∧
      Resolves pf ObjectLoop.holdings (PassesArg pf ctx) [e] l l' := by
  have hsets := setArg_inv (l := { l with pinned := pinned, native := u }) h hset
  have hnative : l'.holdings.native = u := hsets.native_eq
  refine ⟨hsets.wellFramed, .of_pointer rfl hcopied hsets.arrays_eq ?_ ?_
    (hsets.pinned_eq.trans hpinned) hsets.keeps hptr hsets.passed⟩
  · rw [hnative]
    exact hblocks
  · rw [hnative]
    exact hheap

/-- Adding a copy to the record and passing its address resolves an array that is copied. -/
theorem resolves_addArray {a : NativeArray} {u : Native} (h : WellFramed ctx l.frame)
    (hcopied : e.isCopied = true) (htakes : TakesCopy e l.native u a)
    (hadd : addArray pf ctx (descriptorIndex e.flags) l (some a, u) = some (.next l')) :
    WellFramed ctx l'.frame ∧
      Resolves pf ObjectLoop.holdings (PassesArg pf ctx) [e] l l' := by
  have hsets := setArg_inv (l := { l with arrays := l.arrays ++ [a], native := u }) h hadd
  have hnative : l'.holdings.native = u := hsets.native_eq
  rw [htakes.copyAt.elems_eq] at hsets
  refine ⟨hsets.wellFramed, .of_copy rfl hcopied ?_ hsets.arrays_eq hsets.pinned_eq hsets.keeps
    hsets.passed⟩
  rw [hnative]
  exact htakes

theorem resolves_arrayStep (h : WellFramed ctx l.frame) (hpending : l.native.pending = none)
    (hkind : decodeKind e.flags = .array) (hstep : arrayStep pf jvm ctx e l = some (.next l')) :
    WellFramed ctx l'.frame ∧
      Resolves pf ObjectLoop.holdings (PassesArg pf ctx) [e] l l' := by
  unfold arrayStep at hstep
  dsimp only at hstep
  split at hstep
  · cases hstep
  · rename_i o hobject
    by_cases hpin : isPinned e.flags = true
    · rw [if_pos hpin] at hstep
      have hleft : e.isLeft = true := by simp [ObjectEntry.isLeft, hkind, hpin]
      have hcopied : e.isCopied = false := by simp [ObjectEntry.isCopied, hpin]
      refine resolves_setArg h hcopied rfl (.refl _) ?_ (fun hnot => ?_) hstep
      · rw [hleft]
        rfl
      · rw [hleft] at hnot
        cases hnot
    · have hcopied : e.isCopied = true := by simp [ObjectEntry.isCopied, hkind, hpin]
      rw [if_neg hpin] at hstep
      split at hstep
      · obtain ⟨⟨ptr, u⟩, halloca, hstep⟩ := Option.bind_eq_some_iff.mp hstep
        obtain ⟨⟨acquired, u'⟩, hbuffer, hstep⟩ := Option.bind_eq_some_iff.mp hstep
        cases acquired with
        | none => cases hstep
        | some a =>
          have hcopy : ((l.native.alloca (arraySize (e.length.toInt + 1) e.flags)).bind fun p =>
              getArrayBuffer pf e.object e.offset.toInt e.length.toInt e.flags p.1 p.2) =
                some (some a, u') := by
            rw [halloca]
            exact hbuffer
          exact resolves_addArray h hcopied (stackCopy_takes hpending hcopy) hstep
      · obtain ⟨⟨acquired, u'⟩, hheap, hstep⟩ := Option.bind_eq_some_iff.mp hstep
        cases acquired with
        | none => cases hstep
        | some a => exact resolves_addArray h hcopied (heapCopy_takes hpending hheap) hstep

theorem isCopied_of_kind (hkind : decodeKind e.flags ≠ .array) :
    e.isCopied = false ∧ e.isLeft = false := by
  simp [ObjectEntry.isCopied, ObjectEntry.isLeft, hkind]

theorem resolves_bufferStep (h : WellFramed ctx l.frame) (hkind : decodeKind e.flags = .buffer)
    (hstep : bufferStep pf ctx e l = some (.next l')) :
    WellFramed ctx l'.frame ∧
      Resolves pf ObjectLoop.holdings (PassesArg pf ctx) [e] l l' := by
  obtain ⟨hcopied, hleft⟩ := isCopied_of_kind (e := e) (by rw [hkind]; decide)
  unfold bufferStep at hstep
  dsimp only at hstep
  split at hstep
  · cases hstep
  · rename_i o hobject
    obtain ⟨⟨ptr, u⟩, haddress, hstep⟩ := Option.bind_eq_some_iff.mp hstep
    dsimp only at hstep
    split at hstep
    · cases hstep
    · rename_i hptr
      cases o with
      | buffer a =>
        rw [hobject] at haddress
        cases haddress
        refine resolves_setArg (u := l.native.logged (.jni .getDirectBufferAddress)) h hcopied rfl
          (Native.keepsHeap_logged _ _) ?_ (fun _ => ?_) hstep
        · rw [hleft]
          exact (List.append_nil _).symm
        · simp only [ObjectPlace.pointer, hkind, hobject]
      | array r =>
        rw [hobject] at haddress
        cases haddress
        exact absurd rfl hptr
      | other r =>
        rw [hobject] at haddress
        cases haddress
        exact absurd rfl hptr

/-- A round of the object loop that goes on resolves its object, and keeps the frame well formed. -/
theorem resolves_objectStep (h : WellFramed ctx l.frame) (hpending : l.native.pending = none)
    (hstep : objectStep pf jvm ctx e l = some (.next l')) :
    WellFramed ctx l'.frame ∧
      Resolves pf ObjectLoop.holdings (PassesArg pf ctx) [e] l l' := by
  have hpassed : ∀ ptr, decodeKind e.flags ≠ .array →
      (ObjectPlace.mk l.native.blocks.length e).pointer pf = some ptr →
      setArg pf ctx (descriptorIndex e.flags) ptr l = some (.next l') →
      WellFramed ctx l'.frame ∧
        Resolves pf ObjectLoop.holdings (PassesArg pf ctx) [e] l l' := by
    intro ptr hkind hptr hset
    obtain ⟨hcopied, hleft⟩ := isCopied_of_kind hkind
    refine resolves_setArg h hcopied rfl (.refl _) ?_ (fun _ => hptr) hset
    rw [hleft]
    exact (List.append_nil _).symm
  unfold objectStep at hstep
  cases hkind : decodeKind e.flags with
  | array =>
    rw [hkind] at hstep
    exact resolves_arrayStep h hpending hkind hstep
  | buffer =>
    rw [hkind] at hstep
    exact resolves_bufferStep h hkind hstep
  | jniEnvironment =>
    rw [hkind] at hstep
    exact hpassed _ (by rw [hkind]; decide) (by simp only [ObjectPlace.pointer, hkind]) hstep
  | jniObject =>
    rw [hkind] at hstep
    exact hpassed _ (by rw [hkind]; decide) (by simp only [ObjectPlace.pointer, hkind]) hstep
  | unsupported =>
    rw [hkind] at hstep
    cases hstep

/-- A round of the pinning loop that goes on passes the address of the elements of the array it
pins, and of nothing else. -/
theorem passesPinned_pinStep {p : Pinned} (h : WellFramed ctx l.frame)
    (hstep : pinStep pf jvm ctx p l = some (.next l')) :
    WellFramed ctx l'.frame ∧
      PassesPinned pf ObjectLoop.holdings (PassesArg pf ctx) [p] l l' := by
  obtain ⟨⟨acquired, u⟩, hcritical, hstep⟩ := Option.bind_eq_some_iff.mp hstep
  have hfate := getArrayCritical_fate pf jvm p l.native
  rw [hcritical] at hfate
  revert hfate
  cases pinFate jvm l.native.arrays l.native.pins p with
  | leaks => exact False.elim
  | undefined =>
    intro hfate
    cases hfate
  | throws =>
    rintro ⟨s', tr, hfate, -⟩
    cases hfate
    cases hstep
  | passes =>
    rintro ⟨r, hobject, hfate⟩
    cases hfate
    obtain ⟨flow, hset, hstep⟩ := Option.bind_eq_some_iff.mp hstep
    cases flow with
    | cleanup l₁ => cases hstep
    | next l₁ =>
      cases hstep
      let u : Native := { l.native.logged (.pin r) with pins := l.native.pins + 1 }
      have hsets := setArg_inv (l := { l with native := u }) h hset
      have hnative : l₁.native = u := hsets.native_eq
      refine ⟨hsets.wellFramed, ⟨⟨[p.critical r], ?_, fun a ha => ?_⟩, ?_, ?_, ?_, ?_⟩⟩
      · exact congrArg (· ++ [p.critical r]) hsets.arrays_eq
      · rw [List.mem_singleton.mp ha]
        exact ⟨⟨r, hobject⟩, rfl, rfl⟩
      · change l₁.native.blocks = _
        rw [hnative]
        rfl
      · change l.native.KeepsHeap l₁.native
        rw [hnative]
        exact ⟨rfl, rfl, rfl, rfl, rfl⟩
      · intro k ptr hk hpassed
        exact hsets.keeps k ptr (Ne.symm (hk p (List.mem_singleton_self p))) hpassed
      · intro q hq _
        obtain rfl := List.mem_singleton.mp hq
        exact ⟨r, hobject, hsets.passed⟩

theorem blocks_newFrame {bs : List Byte} {s s' : Native} {f : Frame}
    (h : newFrame pf ctx bs s = some (f, s')) : s'.blocks = s.blocks := by
  unfold newFrame at h
  dsimp only at h
  split at h
  · split at h
    · obtain ⟨args, -, h⟩ := Option.bind_eq_some_iff.mp h
      cases h
      rfl
    · obtain ⟨args, -, h⟩ := Option.bind_eq_some_iff.mp h
      cases h
      rfl
  · cases h
    rfl

/-- **On the generic path** all objects have been delivered when the call is made. -/
theorem delivers_prepareCall {bs : List Byte} {objects : List ObjectEntry} {s : Native}
    (hbs : bs.length = ctx.cif.argTypes.length * slotSize) (hpending : s.pending = none)
    (h : prepareCall pf jvm ctx bs objects s = some (.next l)) :
    Delivers pf ObjectLoop.holdings (PassesArg pf ctx) objects s l := by
  obtain ⟨f, s', hframe, hf, hacq, hpending', -, -⟩ := newFrame_follows pf ctx s hbs
  have hblocks := blocks_newFrame hframe
  have hkeep : s.KeepsHeap s' :=
    ⟨hacq.arrays_eq, hacq.ext_eq, hacq.errors_eq, hpending', hacq.lastError_eq⟩
  rw [prepareCall, hframe] at h
  have hresolve : resolveObjects pf jvm ctx objects ⟨f, [], [], s'⟩ = some (.next l) := h
  obtain ⟨flow, hloop, hpinning⟩ := Option.bind_eq_some_iff.mp hresolve
  cases flow with
  | cleanup l₁ => cases hpinning
  | next l₁ =>
    have hround : ∀ e ∈ objects, ∀ l l' : ObjectLoop, WellFramed ctx l.frame →
        l.holdings.native.pending = none → objectStep pf jvm ctx e l = some (.next l') →
        WellFramed ctx l'.frame ∧
          Resolves pf ObjectLoop.holdings (PassesArg pf ctx) [e] l l' :=
      fun e _ l l' hl hnone => resolves_objectStep hl hnone
    have hnone : (ObjectLoop.holdings ⟨f, [], [], s'⟩).native.pending = none :=
      hpending'.trans hpending
    obtain ⟨hf₁, hresolves⟩ := resolves_loop hround hf hnone hloop
    have hpin : ∀ p ∈ l₁.holdings.pinned, ∀ l l' : ObjectLoop, WellFramed ctx l.frame →
        pinStep pf jvm ctx p l = some (.next l') → WellFramed ctx l'.frame ∧
          PassesPinned pf ObjectLoop.holdings (PassesArg pf ctx) [p] l l' :=
      fun p _ l l' hl => passesPinned_pinStep hl
    obtain ⟨-, hpins⟩ := passesPinned_loop hpin hf₁ hpinning
    exact (hresolves.delivers rfl rfl hpins).after hblocks hkeep

end Generic

/-! ### The rounds of the fast path -/

section Fast

variable {pf} {jvm : Jvm} {n : ℕ} {l l' : FastLoop} {e : ObjectEntry}

/-- All elements of `v[]` but those of the parameters `A` are as they were. -/
def KeepsNumbers (v : List (List Cell)) (A : List ℕ) (l : FastLoop) : Prop :=
  l.v.length = v.length ∧ ∀ k, k ∉ A → l.v[k]? = v[k]?

theorem KeepsNumbers.of_set {v : List (List Cell)} {A : List ℕ} {k : ℕ} {x : List Cell}
    (h : KeepsNumbers v A l) (hk : k ∈ A) (hv : l'.v = l.v.set k x) : KeepsNumbers v A l' := by
  refine ⟨by rw [hv, List.length_set]; exact h.1, fun i hi => ?_⟩
  rw [hv, List.getElem?_set_ne]
  · exact h.2 i hi
  · rintro rfl
    exact hi hk

/-- Element `k` of `v[]`, if there is one, is the pointer. -/
def PassesNumber (pf : Platform) (k : ℕ) (ptr : Ptr) (l : FastLoop) : Prop :=
  k < l.v.length → l.v[k]? = some (p2j pf ptr)

theorem PassesNumber.of_set {k : ℕ} {ptr : Ptr} (hv : l'.v = l.v.set k (p2j pf ptr)) :
    PassesNumber pf k ptr l' := by
  intro hk
  rw [hv, List.length_set] at hk
  rw [hv, List.getElem?_set_self hk]

theorem PassesNumber.set_of_ne {k : ℕ} {ptr : Ptr} (hv : l'.v = l.v.set k (p2j pf ptr)) (i : ℕ)
    (ptr' : Ptr) (hi : i ≠ k) (h : PassesNumber pf i ptr' l) : PassesNumber pf i ptr' l' := by
  intro hlt
  rw [hv, List.length_set] at hlt
  rw [hv, List.getElem?_set_ne (Ne.symm hi)]
  exact h hlt

/-- On the fast path too, adding a copy to the record and storing its address as a number resolves
an array that is copied. -/
theorem resolves_fastCopy {a : NativeArray} {u : Native} (hcopied : e.isCopied = true)
    (htakes : TakesCopy e l.native u a)
    (hadd : l.addArray pf (descriptorIndex e.flags) (some a, u) = .next l') :
    (∃ x, l'.v = l.v.set (descriptorIndex e.flags) x) ∧
      Resolves pf FastLoop.holdings (PassesNumber pf) [e] l l' := by
  rw [FastLoop.addArray, htakes.copyAt.elems_eq] at hadd
  cases hadd
  exact ⟨⟨_, rfl⟩, .of_copy rfl hcopied htakes rfl rfl (PassesNumber.set_of_ne rfl)
    (PassesNumber.of_set rfl)⟩

/-- `object_to_ptr` resolves its object, if it goes on: it stores a pointer as the number of the
parameter. -/
theorem resolves_objectToPtr (hdecodable : Decodable e.flags) (hpending : l.native.pending = none)
    (hstep : objectToPtr pf jvm e l = some (.next l')) :
    (∃ x, l'.v = l.v.set (descriptorIndex e.flags) x) ∧
      Resolves pf FastLoop.holdings (PassesNumber pf) [e] l l' := by
  unfold objectToPtr at hstep
  dsimp only at hstep
  split at hstep
  · cases hstep
  rename_i o hobject
  rcases hdecodable.fast with ⟨hkind, harray, hpinned, -⟩ | ⟨hkind, harray, hpinned, -, hbuffer⟩ |
    ⟨-, harray, hpinned, -, hbuffer⟩
  · rw [hpinned] at hstep
    by_cases hpin : isPinned e.flags = true
    · rw [if_pos hpin] at hstep
      cases hstep
      have hleft : e.isLeft = true := by simp [ObjectEntry.isLeft, hkind, hpin]
      have hcopied : e.isCopied = false := by simp [ObjectEntry.isCopied, hpin]
      refine ⟨⟨_, rfl⟩, .of_pointer rfl hcopied rfl rfl (.refl _) ?_ (PassesNumber.set_of_ne rfl)
        (fun hnot => ?_) (PassesNumber.of_set rfl)⟩
      · rw [hleft]
        rfl
      · rw [hleft] at hnot
        cases hnot
    · have hcopied : e.isCopied = true := by simp [ObjectEntry.isCopied, hkind, hpin]
      rw [if_neg hpin, if_pos harray] at hstep
      obtain ⟨⟨acquired, u⟩, hheap, hstep⟩ := Option.bind_eq_some_iff.mp hstep
      cases acquired with
      | none => cases hstep
      | some a =>
        exact resolves_fastCopy hcopied (heapCopy_takes hpending hheap) (Option.some.inj hstep)
  · obtain ⟨hcopied, hleft⟩ := isCopied_of_kind (e := e) (by rw [hkind]; decide)
    rw [hpinned, harray, hbuffer, if_neg (by decide), if_neg (by decide), if_pos rfl] at hstep
    obtain ⟨⟨ptr, u⟩, haddress, hstep⟩ := Option.bind_eq_some_iff.mp hstep
    dsimp only at hstep
    split at hstep
    · cases hstep
    · rename_i hptr
      cases o with
      | buffer a =>
        rw [hobject] at haddress
        cases haddress
        cases hstep
        refine ⟨⟨_, rfl⟩, .of_pointer rfl hcopied rfl rfl (Native.keepsHeap_logged _ _) ?_
          (PassesNumber.set_of_ne rfl) (fun _ => ?_) (PassesNumber.of_set rfl)⟩
        · rw [hleft]
          exact (List.append_nil _).symm
        · simp only [ObjectPlace.pointer, hkind, hobject]
      | array r =>
        rw [hobject] at haddress
        cases haddress
        exact absurd rfl hptr
      | other r =>
        rw [hobject] at haddress
        cases haddress
        exact absurd rfl hptr
  · rw [hpinned, harray, hbuffer, if_neg (by decide), if_neg (by decide),
      if_neg (by decide)] at hstep
    cases hstep

/-- A round of `ADDOBJ` that goes on resolves its object, and changes no number but that of its
parameter. -/
theorem resolves_addObj (hdecodable : Decodable e.flags) (hpending : l.native.pending = none)
    (hstep : addObj pf jvm n e l = some (.next l')) :
    (∃ x, l'.v = l.v.set (descriptorIndex e.flags) x) ∧
      Resolves pf FastLoop.holdings (PassesNumber pf) [e] l l' := by
  unfold addObj at hstep
  dsimp only at hstep
  split at hstep
  · cases hstep
  · split at hstep
    · rename_i hshort
      have hcopied : e.isCopied = true := by
        rcases hdecodable.fast with ⟨hkind, -, -, hunpinned⟩ | ⟨-, -, -, hunpinned, -⟩ |
          ⟨-, -, -, hunpinned, -⟩
        · rw [hunpinned] at hshort
          simpa [ObjectEntry.isCopied, hkind] using hshort.1
        · cases hunpinned.symm.trans hshort.1
        · cases hunpinned.symm.trans hshort.1
      obtain ⟨⟨ptr, u⟩, halloca, hstep⟩ := Option.bind_eq_some_iff.mp hstep
      obtain ⟨⟨acquired, u'⟩, hbuffer, hstep⟩ := Option.bind_eq_some_iff.mp hstep
      cases acquired with
      | none => cases hstep
      | some a =>
        have hcopy : ((l.native.alloca (arraySize (e.length.toInt + 1) e.flags)).bind fun p =>
            getArrayBuffer pf e.object e.offset.toInt e.length.toInt e.flags p.1 p.2) =
              some (some a, u') := by
          rw [halloca]
          exact hbuffer
        exact resolves_fastCopy hcopied (stackCopy_takes hpending hcopy) (Option.some.inj hstep)
    · exact resolves_objectToPtr hdecodable hpending hstep

/-- A round of `pin_arrays` that goes on stores the address of the elements of the array it pins,
and changes no other number. -/
theorem passesPinned_pinArray {p : Pinned} (hstep : pinArray pf jvm p l = some (.next l')) :
    (∃ x, l'.v = l.v.set (descriptorIndex p.type) x) ∧
      PassesPinned pf FastLoop.holdings (PassesNumber pf) [p] l l' := by
  obtain ⟨⟨acquired, u⟩, hcritical, hstep⟩ := Option.bind_eq_some_iff.mp hstep
  have hfate := getArrayCritical_fate pf jvm p l.native
  rw [hcritical] at hfate
  revert hfate
  cases pinFate jvm l.native.arrays l.native.pins p with
  | leaks => exact False.elim
  | undefined =>
    intro hfate
    cases hfate
  | throws =>
    rintro ⟨s', tr, hfate, -⟩
    cases hfate
    cases hstep
  | passes =>
    rintro ⟨r, hobject, hfate⟩
    cases hfate
    cases hstep
    refine ⟨⟨_, rfl⟩, ⟨[p.critical r], rfl, fun a ha => ?_⟩, rfl, ⟨rfl, rfl, rfl, rfl, rfl⟩, ?_, ?_⟩
    · rw [List.mem_singleton.mp ha]
      exact ⟨⟨r, hobject⟩, rfl, rfl⟩
    · intro k ptr hk
      exact PassesNumber.set_of_ne rfl k ptr (Ne.symm (hk p (List.mem_singleton_self p)))
    · intro q hq _
      obtain rfl := List.mem_singleton.mp hq
      exact ⟨r, hobject, PassesNumber.of_set rfl⟩

/-- **On the fast path** all objects have been delivered when the call is made, and the numbers of
the other parameters are as they were. -/
theorem delivers_resolveFast {objects : List ObjectEntry} {v : List (List Cell)} {s : Native}
    (hdecodable : ∀ e ∈ objects, Decodable e.flags) (hpending : s.pending = none)
    (h : resolveFast pf jvm n objects ⟨v, [], [], s⟩ = some (.next l)) :
    KeepsNumbers v (indices objects) l ∧
      Delivers pf FastLoop.holdings (PassesNumber pf) objects s l := by
  obtain ⟨flow, hloop, hpinning⟩ := Option.bind_eq_some_iff.mp h
  cases flow with
  | cleanup l₁ => cases hpinning
  | next l₁ =>
    have hround : ∀ e ∈ objects, ∀ l l' : FastLoop, KeepsNumbers v (indices objects) l →
        l.holdings.native.pending = none → addObj pf jvm n e l = some (.next l') →
        KeepsNumbers v (indices objects) l' ∧
          Resolves pf FastLoop.holdings (PassesNumber pf) [e] l l' := by
      intro e he l l' hkeeps hnone hstep
      obtain ⟨⟨x, hv⟩, hresolves⟩ := resolves_addObj (hdecodable e he) hnone hstep
      exact ⟨hkeeps.of_set (List.mem_map_of_mem he) hv, hresolves⟩
    have hnone : (FastLoop.holdings ⟨v, [], [], s⟩).native.pending = none := hpending
    obtain ⟨hkeeps, hresolves⟩ := resolves_loop hround ⟨rfl, fun _ _ => rfl⟩ hnone hloop
    have hpin : ∀ p ∈ l₁.holdings.pinned, ∀ l l' : FastLoop, KeepsNumbers v (indices objects) l →
        pinArray pf jvm p l = some (.next l') → KeepsNumbers v (indices objects) l' ∧
          PassesPinned pf FastLoop.holdings (PassesNumber pf) [p] l l' := by
      intro p hp l l' hkeeps hstep
      obtain ⟨⟨x, hv⟩, hpasses⟩ := passesPinned_pinArray hstep
      rw [hresolves.pinned_eq] at hp
      obtain ⟨e, he, rfl⟩ := List.mem_map.mp hp
      exact ⟨hkeeps.of_set (List.mem_map_of_mem (List.mem_filter.mp he).1) hv, hpasses⟩
    obtain ⟨hkeeps', hpins⟩ := passesPinned_loop hpin hkeeps hpinning
    exact ⟨hkeeps', hresolves.delivers rfl rfl hpins⟩

end Fast

end Jffi
