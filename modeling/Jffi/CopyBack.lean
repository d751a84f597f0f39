import Jffi.ArrayExchange
import Jffi.HeapCalls
import Mathlib.Data.List.DropRight

/-!
# What a call brings back

When the callee has returned, the copies passed `OUT` are brought back from the last to the first:
where they overlap, in the same Java array, it is the first that stays, and where a pinned array
overlaps with a copy it is the copy. A copy whose elements the array does not have stops this, so
that the copies before it are lost, and so does an exception that the callee has left.

## Main definitions

* `Memory.byteAt` — a byte of a Java array
* `broughtBack`, `byteBack`, `pendingBack` — the copies that are brought back, and what the Java
  heap and the pending exception are then
* `Exchanges` — a whole call, as the callee and the caller see it

## Main results

* `copyOut_copiesOut` — one copy
* `releaseArrays_back` — all of them
* `exchanges_of_called` — a call, on either path
-/

namespace Jffi

open ObjectBuffer

/-! ### Copies and the arrays they are of -/

/-- The size of the elements of an array, from its descriptor. -/
def elementSize (flags : BitVec 32) : ℕ := ((componentOf flags).map ComponentType.size).getD 0

namespace ObjectPlace

/-- Where in its array a copy starts, in bytes. -/
def start (p : ObjectPlace) : ℕ := p.entry.offset.toInt.toNat * elementSize p.entry.flags

def size (p : ObjectPlace) : ℕ := p.entry.length.toInt.toNat * elementSize p.entry.flags

/-- Byte `i` of the Java array `r` is in the copy. -/
def covers (r i : ℕ) (p : ObjectPlace) : Bool :=
  p.entry.object = some (.array r) && (p.start ≤ i && i < p.start + p.size)

/-- The Java array has the elements of the copy. -/
def fits (heap : List JavaArray) (p : ObjectPlace) : Bool :=
  match p.entry.object with
  | some (.array r) =>
    match heap[r]? with
    | some a => Native.inRange p.entry.offset.toInt p.entry.length.toInt a.length
    | none => false
  | _ => false

/-- The copy is to be brought back. -/
def isOut (p : ObjectPlace) : Bool := isOutArray p.entry.flags

end ObjectPlace

/-- Byte `i` of the Java array `r`. -/
def Memory.byteAt (m : Memory) (r i : ℕ) : Option Cell := (m.arrays[r]?).bind fun a => a.cells[i]?

/-- Byte `i` of the block `b`, if the block has it. -/
def Memory.blockByte (m : Memory) (b i : ℕ) : Option Cell :=
  (m.blocks[b]?).bind fun blk => blk.cells[i]?

/-- The copies that are brought back when the callee has left the Java heap `heap`: from the last
one on, as long as the elements are there, unless an exception is pending. -/
def broughtBack (heap : List JavaArray) (thrown : Bool) (copies : List ObjectPlace) :
    List ObjectPlace :=
  if thrown then [] else (copies.filter ObjectPlace.isOut).rtakeWhile (ObjectPlace.fits heap)

/-- Byte `i` of the Java array `r` when these copies have been brought back into `m`. -/
def byteBack (m : Memory) (back : List ObjectPlace) (r i : ℕ) : Option Cell :=
  match back.find? (ObjectPlace.covers r i) with
  | some p => m.blockByte p.block (i - p.start)
  | none => m.byteAt r i

/-- The exception that is pending then. -/
def pendingBack (heap : List JavaArray) (pending : Option Exn) (copies : List ObjectPlace) :
    Option Exn :=
  pending.or (if (copies.filter ObjectPlace.isOut).all (ObjectPlace.fits heap) then none
    else some .arrayIndexOutOfBounds)

/-! ### One copy -/

section One

variable {s s' : Native} {a : NativeArray} {p : ObjectPlace}

theorem fits_congr {heap heap' : List JavaArray}
    (h : heap'.map JavaArray.shape = heap.map JavaArray.shape) (p : ObjectPlace) :
    p.fits heap' = p.fits heap := by
  rw [ObjectPlace.fits, ObjectPlace.fits]
  rcases p.entry.object with _ | r | address | ref
  · rfl
  · have hget := congrArg (·[r]?) h
    simp only [List.getElem?_map] at hget
    dsimp only
    cases ha : heap[r]? with
    | none =>
      rw [ha, Option.map_none, Option.map_eq_none_iff] at hget
      rw [hget]
    | some x =>
      rw [ha, Option.map_some] at hget
      obtain ⟨y, hy, hshape⟩ := Option.map_eq_some_iff.mp hget
      obtain ⟨hcomponent, hlength⟩ := Prod.mk.inj hshape
      have hlen : y.length = x.length := by
        rw [JavaArray.length, JavaArray.length, hcomponent, hlength]
      rw [hy]
      dsimp only
      rw [hlen]
  · rfl
  · rfl

/-- What bringing a copy back does to the state. -/
structure CopiesOut (p : ObjectPlace) (s s' : Native) : Prop where
  shapes : s'.arrays.map JavaArray.shape = s.arrays.map JavaArray.shape
  blocks_eq : s'.blocks = s.blocks
  idle : p.isOut = false ∨ s.pending.isSome = true → s'.arrays = s.arrays ∧ s'.pending = s.pending
  refused : p.isOut = true → s.pending = none → p.fits s.arrays = false →
    s'.arrays = s.arrays ∧ s'.pending = some .arrayIndexOutOfBounds
  copied : p.isOut = true → s.pending = none → p.fits s.arrays = true → s'.pending = none ∧
    ∀ r i, s'.byteAt r i = if p.covers r i then s.blockByte p.block (i - p.start) else s.byteAt r i

/-- Where the elements are not copied, the Java arrays stay as they are. -/
theorem CopiesOut.arrays_eq (h : CopiesOut p s s')
    (hturn : ¬(p.isOut = true ∧ s.pending = none ∧ p.fits s.arrays = true)) :
    s'.arrays = s.arrays := by
  by_cases hidle : p.isOut = false ∨ s.pending.isSome = true
  · exact (h.idle hidle).1
  · obtain ⟨hout, hnone⟩ := not_or.mp hidle
    rw [Bool.not_eq_false] at hout
    rw [Option.not_isSome_iff_eq_none] at hnone
    have hfits : p.fits s.arrays = false := by
      rw [← Bool.not_eq_true]
      exact fun hyes => hturn ⟨hout, hnone, hyes⟩
    exact (h.refused hout hnone hfits).1

/-- Where writing the elements of a copy back is not refused, it throws no exception. -/
theorem CopiesOut.pending_eq (h : CopiesOut p s s')
    (hturn : ¬(p.isOut = true ∧ s.pending = none ∧ p.fits s.arrays = false)) :
    s'.pending = s.pending := by
  by_cases hidle : p.isOut = false ∨ s.pending.isSome = true
  · exact (h.idle hidle).2
  · obtain ⟨hout, hnone⟩ := not_or.mp hidle
    rw [Bool.not_eq_false] at hout
    rw [Option.not_isSome_iff_eq_none] at hnone
    have hfits : p.fits s.arrays = true := by
      rw [← Bool.not_eq_false]
      exact fun hno => hturn ⟨hout, hnone, hno⟩
    rw [(h.copied hout hnone hfits).1, hnone]

theorem arrayOf_eq_some {t : ComponentType} {o : Option Obj} {r : ℕ} {x : JavaArray}
    (h : s.arrayOf t o = some (r, x)) :
    o = some (.array r) ∧ s.arrays[r]? = some x ∧ x.component = t := by
  unfold Native.arrayOf at h
  split at h
  · obtain ⟨y, hy, h⟩ := Option.bind_eq_some_iff.mp h
    split at h
    · cases h
      exact ⟨rfl, hy, ‹_›⟩
    · cases h
  · cases h

theorem byteAt_set {m : Memory} {r : ℕ} {x : JavaArray} (hx : m.arrays[r]? = some x)
    (cells : List Cell) (r' i : ℕ) :
    Memory.byteAt { m with arrays := m.arrays.set r { x with cells := cells } } r' i =
      if r' = r then cells[i]? else m.byteAt r' i := by
  have hr := (List.getElem?_eq_some_iff.mp hx).1
  rw [Memory.byteAt, Memory.byteAt]
  dsimp only
  split
  · rename_i heq
    rw [heq, List.getElem?_set_self hr]
    rfl
  · rename_i hne
    rw [List.getElem?_set_ne (Ne.symm hne)]

/-- The bytes that were read from the start of a block are its bytes, one by one. -/
theorem blockByte_of_load {m : Memory} {b n : ℕ} {xs : List Cell}
    (h : m.load (.block b 0) n = some xs) :
    xs.length = n ∧ ∀ i < n, xs[i]? = m.blockByte b i := by
  obtain ⟨blk, hblk, h⟩ := Option.bind_eq_some_iff.mp h
  split at h
  · refine ⟨length_of_slice h, fun i hi => ?_⟩
    rw [getElem?_of_slice h hi, Memory.blockByte, hblk, Int.toNat_zero, Nat.zero_add]
    rfl
  · cases h

/-- **The elements of a copy**, put back where they come from. -/
theorem byteAt_copied {m : Memory} {r : ℕ} {x : JavaArray} {xs cells : List Cell}
    (hobject : p.entry.object = some (.array r)) (hx : m.arrays[r]? = some x)
    (htype : componentOf p.entry.flags = some x.component)
    (hload : m.load (.block p.block 0) (p.entry.length.toInt.toNat * x.component.size) = some xs)
    (hsplice : splice x.cells (p.entry.offset.toInt.toNat * x.component.size) xs = some cells)
    (r' i : ℕ) :
    Memory.byteAt { m with arrays := m.arrays.set r { x with cells := cells } } r' i =
      if p.covers r' i then m.blockByte p.block (i - p.start) else m.byteAt r' i := by
  have hsize : elementSize p.entry.flags = x.component.size := by
    rw [elementSize, htype]
    rfl
  obtain ⟨hlen, hxs⟩ := blockByte_of_load hload
  rw [byteAt_set hx]
  by_cases hr : r' = r
  · have hcovers : p.covers r' i = decide (p.start ≤ i ∧ i < p.start + xs.length) := by
      simp [ObjectPlace.covers, ObjectPlace.size, hobject, hr, hlen, hsize]
    have hstart : p.entry.offset.toInt.toNat * x.component.size = p.start := by
      rw [ObjectPlace.start, hsize]
    rw [if_pos hr, getElem?_of_splice hsplice, hstart, hcovers]
    by_cases hi : p.start ≤ i ∧ i < p.start + xs.length
    · rw [if_pos hi, if_pos (decide_eq_true hi), hxs _ (by omega)]
    · rw [if_neg hi, if_neg (by simpa using hi), Memory.byteAt, hr, hx]
      rfl
  · have hcovers : p.covers r' i = false := by
      simp [ObjectPlace.covers, hobject, Ne.symm hr]
    rw [if_neg hr, hcovers]
    rfl

/-- The elements of one copy are written back if it is passed `OUT`, no exception is pending and the
range is one of the array; otherwise nothing is written. -/
theorem copyOut_copiesOut (ha : a.CopyAt p) (h : copyOut a s = some s') : CopiesOut p s s' := by
  obtain ⟨t, htype, hcopyout⟩ := ha.copyout_eq
  unfold copyOut at h
  rw [hcopyout, ha.type_eq] at h
  by_cases hout : isOutArray p.entry.flags = true
  · have hp : p.isOut = true := hout
    rw [if_pos hout] at h
    dsimp only [Native.exceptionCheck] at h
    rw [if_pos hout] at h
    split at h
    · rename_i hthrown
      cases h
      have hne : s.pending ≠ none := Option.isSome_iff_ne_none.mp hthrown
      exact ⟨rfl, rfl, fun _ => ⟨rfl, rfl⟩, fun _ hnone => absurd hnone hne,
        fun _ hnone => absurd hnone hne⟩
    · rename_i hthrown
      have hnone : s.pending = none := Option.not_isSome_iff_eq_none.mp hthrown
      have hidle : p.isOut = false ∨ s.pending.isSome = true →
          s'.arrays = s.arrays ∧ s'.pending = s.pending := by
        rintro (hnot | hsome)
        · cases hnot.symm.trans hp
        · exact absurd hsome hthrown
      obtain ⟨⟨r, x⟩, harray, h⟩ := Option.bind_eq_some_iff.mp h
      obtain ⟨hobject, hx, rfl⟩ := arrayOf_eq_some harray
      rw [ha.array_eq] at hobject
      have hx' : s.arrays[r]? = some x := hx
      have hfits : p.fits s.arrays =
          decide (Native.inRange p.entry.offset.toInt p.entry.length.toInt x.length) := by
        simp only [ObjectPlace.fits, hobject, hx']
      rw [ha.offset_eq, ha.length_eq, ha.elems_eq] at h
      dsimp only at h
      split at h
      · rename_i hrange
        obtain ⟨xs, hload, h⟩ := Option.bind_eq_some_iff.mp h
        obtain ⟨cells, hsplice, h⟩ := Option.bind_eq_some_iff.mp h
        cases h
        rw [decide_eq_true hrange] at hfits
        refine ⟨?_, rfl, hidle, fun _ _ hnot => ?_, fun _ _ _ => ⟨hnone, fun r' i => ?_⟩⟩
        · exact shapes_set hx' (length_of_splice hsplice)
        · cases hfits.symm.trans hnot
        · exact byteAt_copied hobject hx' htype hload hsplice r' i
      · rename_i hrange
        cases h
        rw [decide_eq_false hrange] at hfits
        exact ⟨rfl, rfl, hidle, fun _ _ _ => ⟨rfl, rfl⟩, fun _ _ hyes => by
          cases hfits.symm.trans hyes⟩
  · have hp : p.isOut = false := by simpa [ObjectPlace.isOut] using hout
    rw [if_neg hout] at h
    cases h
    refine ⟨rfl, rfl, fun _ => ⟨rfl, rfl⟩, fun hyes => ?_, fun hyes => ?_⟩
    · cases hp.symm.trans hyes
    · cases hp.symm.trans hyes

end One

/-! ### All copies -/

theorem rtakeWhile_cons {α : Type} (p : α → Bool) (x : α) (l : List α) :
    (x :: l).rtakeWhile p = if l.all p then if p x then x :: l else l else l.rtakeWhile p := by
  by_cases h : l.all p = true
  · have hall : ∀ y ∈ l.reverse, p y = true := by
      intro y hy
      exact List.all_eq_true.mp h y (List.mem_reverse.mp hy)
    rw [if_pos h, List.rtakeWhile, List.reverse_cons, List.takeWhile_append_of_pos hall]
    by_cases hx : p x = true
    · rw [List.takeWhile_cons_of_pos hx, List.takeWhile_nil, if_pos hx, ← List.reverse_cons,
        List.reverse_reverse]
    · rw [List.takeWhile_cons_of_neg hx, if_neg hx, List.append_nil, List.reverse_reverse]
  · have hlen : (l.reverse.takeWhile p).length ≠ l.reverse.length := by
      intro hlen
      refine h (List.all_eq_true.mpr fun y hy => ?_)
      have heq := (List.takeWhile_prefix p).eq_of_length hlen
      exact List.takeWhile_eq_self_iff.mp heq y (List.mem_reverse.mpr hy)
    rw [if_neg h, List.rtakeWhile, List.reverse_cons, List.takeWhile_append, if_neg hlen]
    rfl

section All

variable {s s' s₁ : Native} {a : NativeArray} {p : ObjectPlace} {arrays : List NativeArray}
  {copies : List ObjectPlace}

theorem pendingBack_eq_none {heap : List JavaArray} {pending : Option Exn} :
    pendingBack heap pending copies = none ↔
      pending = none ∧ (copies.filter ObjectPlace.isOut).all (ObjectPlace.fits heap) = true := by
  cases pending with
  | some x => simp [pendingBack]
  | none =>
    rw [pendingBack, Option.none_or]
    split <;> simp_all

/-- The first of the copies is brought back, after all others, just when it is passed `OUT`, fits
its array and none of the others was refused. -/
theorem broughtBack_cons (heap : List JavaArray) (pending : Option Exn) :
    broughtBack heap pending.isSome (p :: copies) =
      if p.isOut = true ∧ pendingBack heap pending copies = none ∧ p.fits heap = true then
        p :: broughtBack heap pending.isSome copies
      else broughtBack heap pending.isSome copies := by
  simp only [pendingBack_eq_none]
  cases pending with
  | some x => simp [broughtBack]
  | none =>
    simp only [broughtBack, Option.isSome_none, Bool.false_eq_true, if_false, true_and]
    by_cases hout : p.isOut = true
    · rw [List.filter_cons_of_pos hout, rtakeWhile_cons]
      by_cases hall : (copies.filter ObjectPlace.isOut).all (ObjectPlace.fits heap) = true
      · have hself : (copies.filter ObjectPlace.isOut).rtakeWhile (ObjectPlace.fits heap) =
            copies.filter ObjectPlace.isOut :=
          List.rtakeWhile_eq_self_iff.mpr (List.all_eq_true.mp hall)
        simp only [hall, hout, hself, if_true, true_and]
      · rw [if_neg hall, if_neg fun h => hall h.2.1]
    · rw [List.filter_cons_of_neg hout, if_neg fun h => hout h.1]

theorem pendingBack_cons (heap : List JavaArray) (pending : Option Exn) :
    pendingBack heap pending (p :: copies) =
      if p.isOut = true ∧ pendingBack heap pending copies = none ∧ p.fits heap = false then
        some .arrayIndexOutOfBounds
      else pendingBack heap pending copies := by
  simp only [pendingBack_eq_none]
  cases pending with
  | some x => simp [pendingBack]
  | none =>
    simp only [pendingBack, Option.none_or, true_and]
    by_cases hout : p.isOut = true
    · rw [List.filter_cons_of_pos hout, List.all_cons]
      cases p.fits heap <;>
        cases (copies.filter ObjectPlace.isOut).all (ObjectPlace.fits heap) <;> simp [hout]
    · have hturn : ¬(p.isOut = true ∧
          (copies.filter ObjectPlace.isOut).all (ObjectPlace.fits heap) = true ∧
          p.fits heap = false) := fun h => hout h.1
      rw [List.filter_cons_of_neg hout, if_neg hturn]

/-- What bringing copies back does to the state. -/
structure BringsBack (copies : List ObjectPlace) (s s' : Native) : Prop where
  shapes : s'.arrays.map JavaArray.shape = s.arrays.map JavaArray.shape
  blocks : ∀ b i, s'.blockByte b i = s.blockByte b i
  bytes : ∀ r i, s'.byteAt r i =
    byteBack s.toMemory (broughtBack s.arrays s.pending.isSome copies) r i
  pending_eq : s'.pending = pendingBack s.arrays s.pending copies

theorem blockByte_releaseElems (h : releaseElems a s = some s') (b i : ℕ) :
    s'.blockByte b i = s.blockByte b i := by
  unfold releaseElems at h
  split at h
  · unfold Native.free at h
    split at h
    · cases h
      rfl
    · rename_i b' helems
      obtain ⟨blk, hblk, h⟩ := Option.bind_eq_some_iff.mp h
      split at h
      · cases h
        have hb := (List.getElem?_eq_some_iff.mp hblk).1
        have hblk' : s.toMemory.blocks[b']? = some blk := hblk
        rw [Memory.blockByte, Memory.blockByte]
        change (s.blocks.set b' { blk with live := false })[b]?.bind _ = _
        by_cases hbb : b' = b
        · rw [← hbb, List.getElem?_set_self hb, hblk']
          rfl
        · rw [List.getElem?_set_ne hbb]
      · cases h
    · cases h
  · unfold Native.releasePrimitiveArrayCritical at h
    split at h
    · cases h
      rfl
    · cases h
  · cases h
    rfl

/-- What an array takes with it when it is given back. -/
theorem copiesOut_releaseArray (ha : a.CopyAt p) (h : releaseArray a s = some s') :
    ∃ s₂, CopiesOut p s s₂ ∧ s'.arrays = s₂.arrays ∧ s'.pending = s₂.pending ∧
      ∀ b i, s'.blockByte b i = s.blockByte b i := by
  obtain ⟨s₂, hout, helems⟩ := Option.bind_eq_some_iff.mp h
  have hcopies := copyOut_copiesOut ha hout
  obtain ⟨harrays, hpending⟩ := releaseElems_arrays helems
  refine ⟨s₂, hcopies, harrays, hpending, fun b i => ?_⟩
  rw [blockByte_releaseElems helems, Memory.blockByte, Memory.blockByte, hcopies.blocks_eq]

theorem byteAt_congr {m m' : Memory} (h : m'.arrays = m.arrays) (r i : ℕ) :
    m'.byteAt r i = m.byteAt r i := by
  rw [Memory.byteAt, Memory.byteAt, h]

/-- When all copies behind it have been given back, giving back one more brings its elements back as
well. -/
theorem BringsBack.cons (h : BringsBack copies s s₁) (ha : a.CopyAt p)
    (hs : releaseArray a s₁ = some s') : BringsBack (p :: copies) s s' := by
  obtain ⟨s₂, hcopies, harrays, hpending, hblocks⟩ := copiesOut_releaseArray ha hs
  have hshapes : s'.arrays.map JavaArray.shape = s.arrays.map JavaArray.shape := by
    rw [harrays]
    exact hcopies.shapes.trans h.shapes
  have hfits : p.fits s₁.arrays = p.fits s.arrays := fits_congr h.shapes p
  have hbytes : ∀ r i, s'.byteAt r i = s₂.byteAt r i := byteAt_congr harrays
  have hback := @broughtBack_cons p copies s.arrays s.pending
  have hexn := @pendingBack_cons p copies s.arrays s.pending
  rw [← h.pending_eq, ← hfits] at hback hexn
  refine ⟨hshapes, fun b i => (hblocks b i).trans (h.blocks b i), ?_, ?_⟩
  · intro r i
    rw [hbytes, hback]
    by_cases hturn : p.isOut = true ∧ s₁.pending = none ∧ p.fits s₁.arrays = true
    · obtain ⟨-, hcopied⟩ := hcopies.copied hturn.1 hturn.2.1 hturn.2.2
      rw [if_pos hturn, hcopied, byteBack, List.find?_cons]
      cases p.covers r i with
      | true => exact h.blocks p.block _
      | false => exact h.bytes r i
    · rw [if_neg hturn, byteAt_congr (hcopies.arrays_eq hturn)]
      exact h.bytes r i
  · rw [hpending, hexn]
    by_cases hturn : p.isOut = true ∧ s₁.pending = none ∧ p.fits s₁.arrays = false
    · rw [if_pos hturn]
      exact (hcopies.refused hturn.1 hturn.2.1 hturn.2.2).2
    · rw [if_neg hturn]
      exact hcopies.pending_eq hturn

/-- **Giving the copies back** writes the elements of those that are brought back to their arrays,
the last first, and changes nothing else of the heap. -/
theorem releaseArrays_back (h : List.Forall₂ NativeArray.CopyAt arrays copies)
    (hs : releaseArrays arrays s = some s') : BringsBack copies s s' := by
  induction h generalizing s' with
  | nil =>
    cases hs
    refine ⟨rfl, fun _ _ => rfl, fun r i => ?_, ?_⟩
    · have hnil : broughtBack s.arrays s.pending.isSome [] = [] := by simp [broughtBack]
      rw [hnil]
      rfl
    · exact (Option.or_none).symm
  | cons ha _ ih =>
    obtain ⟨s₁, hrest, hs⟩ := Option.bind_eq_some_iff.mp hs
    exact (ih hrest).cons ha hs

end All

/-! ### A whole call -/

/-- A call with objects that was made from the state `s`, as seen by the callee and afterwards: the
callee finds the Java heap as it was and the copies in blocks of their own, and when it has answered
`r` the copies are brought back. -/
structure Exchanges (objects : List ObjectEntry) (s : Native) (m : Memory) (r : CallResult)
    (s' : Native) : Prop where
  arrays_eq : m.arrays = s.arrays
  blocks : ∃ blks, m.blocks = s.blocks ++ blks ∧
    List.Forall₂ (Block.HoldsCopy s.arrays) (objects.filter ObjectEntry.isCopied) blks
  shapes : s'.arrays.map JavaArray.shape = r.memory.arrays.map JavaArray.shape
  bytes : ∀ ref i, s'.byteAt ref i = byteBack r.memory
    (broughtBack r.memory.arrays r.thrown.isSome (placedCopies s.blocks.length objects)) ref i
  pending_eq : s'.pending =
    pendingBack r.memory.arrays r.thrown (placedCopies s.blocks.length objects)

/-- The argument of a parameter of type `t` that was passed a pointer: the pointer itself, or the
value it leads to. -/
def argumentAt (pf : Platform) (m : Memory) (t : FFIType) (ptr : Ptr) : Option (List Cell) :=
  if t = .pointer then some (ptr.digits pf)
  else (m.load ptr (t.valueSize pf)).map pf.nativeOrder.arrange

/-- Every parameter, of whatever type, that a single object is for gets as its argument the pointer
that there is for the object, or the value that this pointer leads to. -/
def ObjectsPassed (pf : Platform) (ctx : NativeCallContext) (objects : List ObjectEntry)
    (s : Native) (m : Memory) (args : List (List Cell)) : Prop :=
  ∀ p ∈ placeObjects s.blocks.length objects, p.IsAlone objects →
    ∀ t, ctx.cif.argTypes[descriptorIndex p.entry.flags]? = some t →
      ∃ ptr xs, p.pointer pf = some ptr ∧ argumentAt pf m t ptr = some xs ∧
        args[descriptorIndex p.entry.flags]? = some xs

/-- The numbers `v` are those of the entry point, but for the parameters that objects are for. A
parameter that a single object is for gets the pointer that there is for the object. -/
structure NumbersPassed (pf : Platform) (objects : List ObjectEntry) (s : Native)
    (ns : List (BitVec 64)) (v : List (List Cell)) : Prop where
  length_eq : v.length = ns.length
  numbers : ∀ k, k ∉ indices objects → v[k]? = (ns.map jlongCells)[k]?
  pointers : ∀ p ∈ placeObjects s.blocks.length objects, p.IsAlone objects →
    descriptorIndex p.entry.flags < ns.length →
    ∃ ptr, p.pointer pf = some ptr ∧ v[descriptorIndex p.entry.flags]? = some (p2j pf ptr)

section Calls

variable {pf : Platform} {jvm : Jvm} {ctx : NativeCallContext} {callee : Callee}
  {objects : List ObjectEntry} {s : Native}

/-- Giving back pinned arrays changes no memory, since the native function has written to the
elements themselves. -/
theorem releaseArrays_pinned {pins : List NativeArray} {u u' : Native}
    (h : ∀ a ∈ pins, a.Critical) (hs : releaseArrays pins u = some u') :
    u'.toMemory = u.toMemory ∧ u'.pending = u.pending := by
  induction pins generalizing u' with
  | nil =>
    cases hs
    exact ⟨rfl, rfl⟩
  | cons a pins ih =>
    obtain ⟨s₁, hrest, hs⟩ := Option.bind_eq_some_iff.mp hs
    obtain ⟨⟨r, hr⟩, hrelease, hcopyout⟩ := h a List.mem_cons_self
    obtain ⟨s₂, hout, helems⟩ := Option.bind_eq_some_iff.mp hs
    rw [copyOut, hcopyout] at hout
    cases hout
    rw [releaseElems, hrelease, hr] at helems
    cases helems
    obtain ⟨hmemory, hpending⟩ := ih (fun b hb => h b (List.mem_cons_of_mem a hb)) hrest
    exact ⟨hmemory, hpending⟩

/-- **From the call on**: once everything was done that is done before the call, and the callee has
answered `r`, giving the arrays back exchanges their elements. -/
theorem Delivers.exchanges {β : Type} {view : β → Holdings} {passed : ℕ → Ptr → β → Prop} {l : β}
    {r : CallResult} {u s' : Native} (h : Delivers pf view passed objects s l)
    (hpending : s.pending = none) (hmemory : u.toMemory = r.memory)
    (hu : u.pending = r.thrown.or (view l).native.pending)
    (hs : releaseArrays (view l).arrays u = some s') :
    Exchanges objects s (view l).native.toMemory r s' := by
  obtain ⟨new, pins, harrays, hcopies, hcritical⟩ := h.arrays
  rw [harrays, releaseArrays_append] at hs
  obtain ⟨u', hpins, hs⟩ := Option.bind_eq_some_iff.mp hs
  obtain ⟨hmemory', hpending'⟩ := releaseArrays_pinned hcritical hpins
  have hback := releaseArrays_back hcopies hs
  have hthrown : u'.pending = r.thrown := by
    rw [hpending', hu, h.heap.pending_eq, hpending, Option.or_none]
  have hleft : u'.toMemory = r.memory := hmemory'.trans hmemory
  obtain ⟨hshapes, -, hbytes, hexn⟩ := hback
  rw [hleft] at hshapes
  rw [hleft, hthrown] at hbytes hexn
  exact ⟨h.heap.arrays_eq, h.blocks, hshapes, hbytes, hexn⟩

/-- What libffi reads of a parameter that was passed a pointer is the pointer or the value there. -/
theorem exists_argumentAt {f : Frame} {m : Memory} {args : List (List Cell)}
    (hargs : readArgs pf f m ctx.cif.argTypes = some args) {k : ℕ} {ptr : Ptr} {t : FFIType}
    (ht : ctx.cif.argTypes[k]? = some t) (h : Passes pf t k ptr f) :
    ∃ xs, argumentAt pf m t ptr = some xs ∧ args[k]? = some xs := by
  by_cases hpointer : t = .pointer
  · subst hpointer
    obtain ⟨hslot, himage⟩ := h.1 rfl
    have hzip : (ctx.cif.argTypes.zip f.ffiArgs)[k]? = some (.pointer, .slot (k * slotSize)) :=
      List.getElem?_zip_eq_some.mpr ⟨ht, hslot⟩
    have hload : f.load m (.slot (k * slotSize)) pf.ptrSize = some (ptr.image pf) := himage
    refine ⟨ptr.digits pf, if_pos rfl, ?_⟩
    rw [getElem?_of_mapM hargs k, hzip, Option.bind_some]
    change (f.load m (.slot (k * slotSize)) pf.ptrSize).map _ = _
    rw [hload, Option.map_some, Ptr.image, ByteOrder.arrange_arrange]
  · have hzip : (ctx.cif.argTypes.zip f.ffiArgs)[k]? = some (t, .mem ptr) :=
      List.getElem?_zip_eq_some.mpr ⟨ht, h.2 hpointer⟩
    have hread := getElem?_of_mapM hargs k
    rw [hzip, Option.bind_some] at hread
    change args[k]? = (m.load ptr (t.valueSize pf)).map pf.nativeOrder.arrange at hread
    have hlt : k < args.length := by
      rw [length_of_mapM hargs]
      exact (List.getElem?_eq_some_iff.mp hzip).1
    rw [List.getElem?_eq_getElem hlt] at hread ⊢
    exact ⟨args[k], by rw [argumentAt, if_neg hpointer, ← hread], rfl⟩

/-- A call of the generic path exchanges the elements and passes every object. -/
theorem exchanges_invokeArrayWithObjects {bs : List Byte} {retval : List Cell} {o : Outcome}
    {call : Call} (hbs : bs.length = ctx.cif.argTypes.length * slotSize)
    (hpending : s.pending = none)
    (ho : invokeArrayWithObjects_ pf jvm ctx callee bs objects retval s = some o)
    (hcall : o.called = some call) :
    Exchanges objects s call.memory (call.answer callee) o.native ∧
      ObjectsPassed pf ctx objects s call.memory call.args := by
  obtain ⟨flow, hprepare, ho⟩ := Option.bind_eq_some_iff.mp ho
  cases flow with
  | cleanup l =>
    obtain ⟨s', -, ho⟩ := Option.bind_eq_some_iff.mp ho
    cases ho
    cases hcall
  | next l =>
    have hdelivers := delivers_prepareCall hbs hpending hprepare
    obtain ⟨⟨call', retval', u⟩, hffi, ho⟩ := Option.bind_eq_some_iff.mp ho
    obtain ⟨args, hargs, hffi⟩ := Option.bind_eq_some_iff.mp hffi
    obtain ⟨retval'', -, hffi⟩ := Option.bind_eq_some_iff.mp hffi
    cases hffi
    obtain ⟨s', hs, ho⟩ := Option.bind_eq_some_iff.mp ho
    cases ho
    cases hcall
    refine ⟨hdelivers.exchanges hpending (toMemory_saveErrno ..) (pending_saveErrno ..) hs, ?_⟩
    intro p hp halone t ht
    obtain ⟨ptr, hptr, hpassed⟩ := hdelivers.passes p hp halone
    obtain ⟨xs, hxs, harg⟩ := exists_argumentAt hargs ht (hpassed t ht)
    exact ⟨ptr, xs, hptr, hxs, harg⟩

/-- A call of the fast path exchanges the elements and passes every object. -/
theorem exchanges_invokeNO {ns : List (BitVec 64)} {o : FastOutcome} {c : NumericCall}
    (hdecodable : ∀ e ∈ objects, Decodable e.flags) (hpending : s.pending = none)
    (ho : invokeNO pf jvm ctx callee ns objects s = some o) (hcall : o.called = some c) :
    Exchanges objects s c.memory (c.answer callee) o.native ∧
      ∃ v u, callN pf ctx callee v u = some c ∧ NumbersPassed pf objects s ns v := by
  obtain ⟨flow, hresolve, ho⟩ := Option.bind_eq_some_iff.mp ho
  cases flow with
  | cleanup l =>
    obtain ⟨s', -, ho⟩ := Option.bind_eq_some_iff.mp ho
    cases ho
    cases hcall
  | next l =>
    obtain ⟨⟨hlen, hkeeps⟩, hdelivers⟩ := delivers_resolveFast hdecodable hpending hresolve
    obtain ⟨c', hcalled, ho⟩ := Option.bind_eq_some_iff.mp ho
    obtain ⟨s', hs, ho⟩ := Option.bind_eq_some_iff.mp ho
    cases ho
    cases hcall
    obtain ⟨hmemory, hnative⟩ := calledIn_callN hcalled
    rw [List.length_map] at hlen
    refine ⟨?_, l.v, l.native, hcalled, ⟨hlen, hkeeps, fun p hp halone hlt => ?_⟩⟩
    · rw [hmemory]
      refine hdelivers.exchanges hpending ?_ ?_ hs
      · rw [hnative, toMemory_saveErrno]
        rfl
      · rw [hnative, pending_saveErrno]
        rfl
    · obtain ⟨ptr, hptr, hpassed⟩ := hdelivers.passes p hp halone
      exact ⟨ptr, hptr, hpassed (hlen ▸ hlt)⟩

/-- **A call with objects**, on either path: every parameter that a single object is for gets the
pointer of this object or the value there, the copies passed `IN` hold the elements of their arrays,
and when the callee has answered each byte of the Java heap is that of the first copy that was
brought back over it, or what the callee has left there. -/
theorem exchanges_of_called (pf : Platform) (jvm : Jvm) (ctx : NativeCallContext) (callee : Callee)
    (objects : List ObjectEntry) {s : Native} (hpending : s.pending = none) :
    (∀ bs retval o call, bs.length = ctx.cif.argTypes.length * slotSize →
      invokeArrayWithObjects_ pf jvm ctx callee bs objects retval s = some o →
      o.called = some call →
        Exchanges objects s call.memory (call.answer callee) o.native ∧
          ObjectsPassed pf ctx objects s call.memory call.args) ∧
    (∀ ns o c, (∀ e ∈ objects, Decodable e.flags) →
      invokeNO pf jvm ctx callee ns objects s = some o → o.called = some c →
        Exchanges objects s c.memory (c.answer callee) o.native ∧
          ∃ v u, callN pf ctx callee v u = some c ∧ NumbersPassed pf objects s ns v) :=
  ⟨fun _ _ _ _ hbs => exchanges_invokeArrayWithObjects hbs hpending,
    fun _ _ _ hdecodable => exchanges_invokeNO hdecodable hpending⟩

/-- A Java heap with one `byte[4]`. -/
def withFourBytes : Native :=
  ⟨⟨[⟨.byte, [.byte 1, .byte 2, .byte 3, .byte 4]⟩], [], fun _ => Cell.undef, ⟨0, 0⟩⟩, none, 0, 0,
    0, []⟩

/-- Its first three elements and its last three. -/
def overlapping : List ObjectEntry :=
  [⟨some (.array 0), Put.arrayFlags .byte (IN ||| OUT) 0, 0, 3⟩,
    ⟨some (.array 0), Put.arrayFlags .byte (IN ||| OUT) 1, 1, 3⟩]

/-- A function of two pointers. -/
def twoPointers : NativeCallContext := { onePointer.native with
  cif := { onePointer.native.cif with argTypes := [.pointer, .pointer] } }

/-- Fills the copies, each with a number of its own. -/
def fillsCopies : Callee := fun _ m =>
  ⟨{ m with blocks := m.blocks.zipIdx.map fun x =>
      { x.1 with cells := x.1.cells.map fun _ => .byte (BitVec.ofNat 8 (70 + x.2)) } },
    [], none, none⟩

/-- The second copy is brought back before the first one, on either path. -/
theorem exchanges_overlapping :
    (∃ o call, invokeArrayWithObjects_ .linuxX64 .reliable twoPointers fillsCopies
        (List.replicate 16 0) overlapping [Cell.undef] withFourBytes = some o ∧
      o.called = some call ∧
      Exchanges overlapping withFourBytes call.memory (call.answer fillsCopies) o.native ∧
      (List.range 4).map (o.native.byteAt 0) =
        [some (.byte 70), some (.byte 70), some (.byte 70), some (.byte 71)]) ∧
    ∃ o c, invokeNO .linuxX64 .reliable twoPointers fillsCopies [0, 0] overlapping withFourBytes =
        some o ∧
      o.called = some c ∧
      Exchanges overlapping withFourBytes c.memory (c.answer fillsCopies) o.native ∧
      (List.range 4).map (o.native.byteAt 0) =
        [some (.byte 70), some (.byte 70), some (.byte 70), some (.byte 71)] := by
  have h := exchanges_of_called .linuxX64 .reliable twoPointers fillsCopies overlapping
    (s := withFourBytes) rfl
  refine ⟨⟨_, _, rfl, rfl, ?_, rfl⟩, ⟨_, _, rfl, rfl, ?_, rfl⟩⟩
  · exact (h.1 (List.replicate 16 0) [Cell.undef] _ _ rfl rfl rfl).1
  · exact (h.2 [0, 0] _ _ (by simp only [overlapping, Decodable]; decide) rfl rfl).1

end Calls

end Jffi
