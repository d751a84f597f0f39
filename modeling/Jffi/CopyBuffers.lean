import Jffi.ArrayCalls
import Jffi.Exceptions

/-!
# The buffers of copied arrays

The native code makes room for one element more than it is asked for: on the stack for a short
array, with `malloc` for a long one. It computes the number of bytes in an `int`, and asks the
virtual machine whether the range is one of the array only where it copies the array in.

A write outside the buffer, and a stack allocation of a negative size, have no outcome in the model,
so that what is to be shown is that there is one, with a buffer large enough for what the native
function writes.

## Main definitions

* `RoomFor`, `BufferFits` — the buffer is large enough for everything that is written to it
* `SafeRequest` — the ranges and flags that lead to such a buffer

## Main results

* `bufferFits_iff`
-/

namespace Jffi

open ObjectBuffer

variable {pf : Platform} {jvm : Jvm} {offset length : ℤ} {type : BitVec 32}

/-! ### The statement -/

/-- What the buffer chosen for elements of type `t` may lead to: a fresh block with room for the
elements, and for the `NUL` where one is stored, or an exception before a byte of it is written. -/
def RoomFor (t : ComponentType) (type : BitVec 32) (s : Native) :
    Option NativeArray × Native → Prop
  | (some a, s') => ∃ blk, a.elems = .block s.blocks.length 0 ∧ s'.blocks = s.blocks ++ [blk] ∧
      a.length * t.size ≤ blk.cells.length ∧
      (t = .byte ∧ isTerminated type = true → 0 ≤ a.length ∧ a.length < blk.cells.length)
  | (none, s') => s'.pending.isSome = true ∧
      (s'.blocks = s.blocks ∨ ∃ blk, s'.blocks = s.blocks ++ [blk] ∧ ∀ c ∈ blk.cells, c = .undef)

/-- Whatever the machine answers, the buffer for a range of an array of `n` elements is large
enough. -/
def BufferFits (pf : Platform) (t : ComponentType) (n : ℕ) (offset length : ℤ)
    (type : BitVec 32) : Prop :=
  ∀ (jvm : Jvm) (s : Native) (r : ℕ) (a : JavaArray), s.arrays[r]? = some a → a.component = t →
    a.length = n → s.pending = none →
    ∃ o, copyArray pf jvm (some (.array r)) offset length type s = some o ∧ RoomFor t type s o

/-- The requests that are met safely: of a size that an `int` can hold; refused by `malloc`, or by
the virtual machine before it copies; or of a negative length where nothing is written. -/
def SafeRequest (t : ComponentType) (n : ℕ) (offset length : ℤ) (type : BitVec 32) : Prop :=
  (0 ≤ length ∧ (length + 1) * t.size < 2 ^ 31) ∨
    (MAX_STACK_ARRAY ≤ length ∧ length + 1 < 2 ^ 31 ∧
      (copySize t length < 0 ∨ isInArray type = true ∧ ¬Native.inRange offset length n)) ∨
    (length < 0 ∧ 0 ≤ copySize t length ∧
      (isInArray type = true ∨
        isCleared type = false ∧ ¬(t = .byte ∧ isTerminated type = true)))

/-! ### Filling a fresh block -/

section Fill

variable {s : Native} {blocks : List Block} {blk : Block} {r : ℕ} {a : JavaArray}
  {offset length : ℤ} {type : BitVec 32}

/-- A range outside the array is refused before a byte is copied. -/
theorem fillArray_refused {t : ComponentType} (ha : s.arrays[r]? = some a) (ht : a.component = t)
    (hin : isInArray type = true) (hrange : ¬Native.inRange offset length a.length)
    (elems : Ptr) (release : Option Release) :
    ∃ s', fillArray pf t (some (.array r)) offset length type elems release s = some (none, s') ∧
      s'.pending.isSome = true ∧ s'.blocks = s.blocks := by
  simp only [fillArray, copyData, hin, Native.getArrayRegion, Native.arrayOf, ha, ht, if_true,
    if_neg hrange, Native.exceptionCheck, Option.bind_eq_bind, Option.bind_some, Option.isSome_some,
    Bool.not_true, Bool.false_eq_true, if_false]
  exact ⟨_, rfl, rfl, rfl⟩

/-- An array that is not copied in is cleared where it is asked for. -/
theorem copyData_out {t : ComponentType} (htop : s.blocks = blocks ++ [blk])
    (hlive : blk.live = true) (hin : isInArray type = false)
    (hclear : isCleared type = true → 0 ≤ length ∧ length.toNat * t.size ≤ blk.cells.length)
    (obj : Option Obj) :
    ∃ s' cells, copyData t type obj offset length (.block blocks.length 0) s = some (true, s') ∧
      s'.blocks = blocks ++ [{ blk with cells := cells }] ∧ cells.length = blk.cells.length := by
  simp only [copyData, hin, Bool.false_eq_true, if_false]
  by_cases hcleared : isCleared type = true
  · obtain ⟨hpos, hroom⟩ := hclear hcleared
    obtain ⟨n, rfl⟩ := Int.eq_ofNat_of_zero_le hpos
    obtain ⟨cells, hsplice⟩ : ∃ cells, splice blk.cells 0
        (List.replicate ((n : ℤ) * t.size).toNat (.byte 0)) = some cells := by
      refine exists_splice ?_
      rw [List.length_replicate, Nat.zero_add]
      exact hroom
    obtain ⟨s', hstore, hblocks, -⟩ := Native.store_top htop hlive hsplice
    refine ⟨s', cells, ?_, hblocks, length_of_splice hsplice⟩
    have hnonneg : 0 ≤ (n : ℤ) * t.size := Int.mul_nonneg hpos (Int.natCast_nonneg _)
    rw [if_pos hcleared, Native.memset, if_pos hnonneg, show (0 : ℤ) = ((0 : ℕ) : ℤ) from rfl,
      hstore]
    rfl
  · rw [if_neg hcleared]
    exact ⟨s, blk.cells, rfl, htop, rfl⟩

/-- Where its place lies inside of the block, storing the `NUL` succeeds and keeps the size of the
block. -/
theorem terminate_inside {t : ComponentType} (htop : s.blocks = blocks ++ [blk])
    (hlive : blk.live = true)
    (hnul : t = .byte ∧ isTerminated type = true → 0 ≤ length ∧ length < blk.cells.length) :
    ∃ s' cells, terminate pf t type (.block blocks.length 0) length s = some s' ∧
      s'.blocks = blocks ++ [{ blk with cells := cells }] ∧ cells.length = blk.cells.length := by
  rw [terminate]
  split
  · rename_i hbyte
    obtain ⟨hpos, hlt⟩ := hnul hbyte
    obtain ⟨n, rfl⟩ := Int.eq_ofNat_of_zero_le hpos
    obtain ⟨cells, hsplice⟩ : ∃ cells, splice blk.cells n [.byte 0] = some cells := by
      refine exists_splice ?_
      rw [List.length_singleton]
      omega
    obtain ⟨s', hstore, hblocks, -⟩ := Native.store_top htop hlive hsplice
    refine ⟨s', cells, ?_, hblocks, length_of_splice hsplice⟩
    rw [Ptr.add, Int.zero_add]
    exact hstore
  · exact ⟨s, blk.cells, rfl, htop, rfl⟩

/-- Where nothing is copied in, filling the buffer succeeds if what is cleared and the `NUL` lie
inside of it. -/
theorem fillArray_out {t : ComponentType} (htop : s.blocks = blocks ++ [blk])
    (hlive : blk.live = true) (hin : isInArray type = false)
    (hclear : isCleared type = true → 0 ≤ length ∧ length.toNat * t.size ≤ blk.cells.length)
    (hnul : t = .byte ∧ isTerminated type = true → 0 ≤ length ∧ length < blk.cells.length)
    (obj : Option Obj) (release : Option Release) :
    ∃ acquired s' cells, fillArray pf t obj offset length type (.block blocks.length 0) release s =
        some (some acquired, s') ∧
      acquired.elems = .block blocks.length 0 ∧ acquired.length = length ∧
      s'.blocks = blocks ++ [{ blk with cells := cells }] ∧ cells.length = blk.cells.length := by
  obtain ⟨s₁, cells, hcopy, hblocks, hlen⟩ := @copyData_out s blocks blk offset length type t htop
    hlive hin hclear obj
  obtain ⟨s₂, cells', hterm, hblocks', hlen'⟩ :=
    @terminate_inside pf s₁ blocks { blk with cells := cells } length type t hblocks hlive
      (hlen ▸ hnul)
  refine ⟨⟨obj, .block blocks.length 0, offset, length, type,
    if isOutArray type then some t else none, release⟩, s₂, cells', ?_, rfl, rfl, hblocks',
    hlen'.trans hlen⟩
  rw [fillArray, hcopy, Option.bind_eq_bind, Option.bind_some]
  simp only [if_true, hterm, Option.bind_eq_bind, Option.bind_some]

/-- Filling the buffer is refused only for an array that is copied in, with a range that is none of
the array. -/
theorem fillArray_none_inv {t : ComponentType} (ha : s.arrays[r]? = some a)
    (ht : a.component = t) (hpending : s.pending = none) {elems : Ptr} {release : Option Release}
    {s' : Native}
    (h : fillArray pf t (some (.array r)) offset length type elems release s = some (none, s')) :
    isInArray type = true ∧ ¬Native.inRange offset length a.length := by
  obtain ⟨⟨copied, s₁⟩, hcopy, h⟩ := Option.bind_eq_some_iff.mp h
  cases copied with
  | true =>
    obtain ⟨s₂, -, h⟩ := Option.bind_eq_some_iff.mp h
    cases h
  | false =>
    unfold copyData at hcopy
    split at hcopy
    · rename_i hin
      refine ⟨hin, fun hrange => ?_⟩
      obtain ⟨s₂, hget, hcopy⟩ := Option.bind_eq_some_iff.mp hcopy
      simp only [Native.getArrayRegion, Native.arrayOf, ha, ht, if_true, if_pos hrange,
        Option.bind_eq_bind, Option.bind_some] at hget
      obtain ⟨xs, -, hstore⟩ := Option.bind_eq_some_iff.mp hget
      have hnone : s₂.pending = none := (Native.pending_store hstore).trans hpending
      simp only [Native.exceptionCheck, hnone] at hcopy
      cases hcopy
    · split at hcopy
      · obtain ⟨s₂, -, hcopy⟩ := Option.bind_eq_some_iff.mp hcopy
        cases hcopy
      · cases hcopy

end Fill

/-! ### Which requests are safe -/

/-- The buffer of a request whose size an `int` can hold. -/
theorem roomFor_fits {a : JavaArray} {r : ℕ} {s : Native} {blk : Block} {offset length : ℤ}
    {type : BitVec 32} {t : ComponentType} (blocks : List Block) (h0 : 0 ≤ length)
    (htop : s.blocks = blocks ++ [blk])
    (hblk : blk = ⟨blk.storage, true, List.replicate ((length.toNat + 1) * t.size) .undef⟩)
    (ha : s.arrays[r]? = some a) (ht : a.component = t) (hpending : s.pending = none)
    (release : Option Release) (s₀ : Native) (hs₀ : s₀.blocks = blocks) :
    ∃ o, fillArray pf t (some (.array r)) offset length type (.block blocks.length 0) release s =
      some o ∧ RoomFor t type s₀ o := by
  subst hs₀
  have hlen : blk.cells.length = (length.toNat + 1) * t.size := by
    rw [hblk]
    exact List.length_replicate
  have hbytes : blk.cells.length = length.toNat * t.size + t.size :=
    hlen.trans (Nat.succ_mul ..)
  have hlive : blk.live = true := by rw [hblk]
  have hcast : length * t.size = (length.toNat * t.size : ℕ) := by
    rw [Int.natCast_mul, Int.toNat_of_nonneg h0]
  have hroom : ∀ cells : List Cell, cells.length = blk.cells.length →
      length * t.size ≤ cells.length ∧
        (t = .byte ∧ isTerminated type = true → 0 ≤ length ∧ length < cells.length) := by
    intro cells hcells
    rw [hcells, hbytes, hcast]
    refine ⟨by omega, ?_⟩
    rintro ⟨rfl, -⟩
    have hone : ComponentType.byte.size = 1 := rfl
    rw [hone, Nat.mul_one]
    omega
  by_cases hin : isInArray type = true
  · by_cases hrange : Native.inRange offset length a.length
    · obtain ⟨s', cells, hfill, hblocks, hcells, -, -⟩ := fillArray_copied pf type htop hlive ha
        hrange (ht ▸ hlen) hpending release
      rw [ht] at hfill
      exact ⟨_, hfill, _, rfl, hblocks, hroom cells hcells⟩
    · obtain ⟨s', hfill, hthrown, hblocks⟩ := fillArray_refused ha ht hin hrange
        (.block s₀.blocks.length 0) release
      refine ⟨_, hfill, hthrown, .inr ⟨blk, hblocks.trans htop, ?_⟩⟩
      intro c hc
      rw [hblk] at hc
      exact (List.mem_replicate.mp hc).2
  · obtain ⟨acquired, s', cells, hfill, helems, hlength, hblocks, hcells⟩ :=
      @fillArray_out pf s s₀.blocks blk offset length type t htop hlive (by simpa using hin)
        (fun _ => ⟨h0, by omega⟩) (hroom _ rfl).2 (some (.array r)) release
    refine ⟨_, hfill, _, helems, hblocks, ?_⟩
    rw [hlength]
    exact hroom cells hcells

/-- The stack makes room for any size that is not negative. -/
theorem copyArray_stack {t : ComponentType} (htype : componentOf type = some t)
    (hshort : length < MAX_STACK_ARRAY) (hsize : 0 ≤ copySize t length) (object : Option Obj)
    (s : Native) :
    copyArray pf jvm object offset length type s =
      fillArray pf t object offset length type (.block s.blocks.length 0) none
        (s.newBlock .stack (copySize t length).toNat) := by
  have hdef : toJint ((length + 1) * t.size) = copySize t length := rfl
  rw [copyArray, if_pos hshort]
  simp only [arraySize, htype, Native.alloca, hdef, if_pos hsize, getArrayBuffer,
    Option.bind_eq_bind, Option.bind_some]

/-- A `malloc` that cannot be met ends the copy with an exception, before a byte of a buffer has
been written. -/
theorem copyArray_refused {t : ComponentType} (htype : componentOf type = some t)
    (hlong : MAX_STACK_ARRAY ≤ length) (hlt : length + 1 < 2 ^ 31) {s : Native}
    (hfails : copySize t length < 0 ∨ jvm.mallocFails s.mallocs = true) (object : Option Obj) :
    ∃ s', copyArray pf jvm object offset length type s = some (none, s') ∧
      s'.pending.isSome = true ∧ s'.blocks = s.blocks := by
  have hdef : toJint (t.size * (length + 1)) = copySize t length :=
    congrArg toJint (Int.mul_comm ..)
  rw [copyArray, if_neg (Int.not_lt.mpr hlong)]
  simp only [getArrayHeap, htype, if_pos hlt, hdef, Native.malloc, if_pos hfails]
  exact ⟨_, rfl, rfl, rfl⟩

/-- The state in which a copy on the heap is filled. -/
def heapCopy (t : ComponentType) (length : ℤ) (s : Native) : Native :=
  { (s.newBlock .heap (copySize t length).toNat).logged (.malloc s.blocks.length) with
    mallocs := s.mallocs + 1 }

/-- A `malloc` that is met leaves the copy to `fillArray`, on a new block of the size that was
computed. -/
theorem copyArray_heap {t : ComponentType} (htype : componentOf type = some t)
    (hlong : MAX_STACK_ARRAY ≤ length) (hlt : length + 1 < 2 ^ 31) {s : Native}
    (hsize : 0 ≤ copySize t length) (hmalloc : jvm.mallocFails s.mallocs = false)
    (object : Option Obj) :
    copyArray pf jvm object offset length type s =
      fillArray pf t object offset length type (.block s.blocks.length 0) (some .heapArray)
        (heapCopy t length s) := by
  have hdef : toJint (t.size * (length + 1)) = copySize t length :=
    congrArg toJint (Int.mul_comm ..)
  have hmet : ¬(copySize t length < 0 ∨ jvm.mallocFails s.mallocs = true) := by
    rw [hmalloc]
    exact not_or.mpr ⟨Int.not_lt.mpr hsize, Bool.false_ne_true⟩
  rw [copyArray, if_neg (Int.not_lt.mpr hlong)]
  simp only [getArrayHeap, htype, if_pos hlt, hdef, Native.malloc, if_neg hmet,
    heapCopy]

/-- A short array is copied to the stack, a long one to the heap unless `malloc` fails: what is
filled is a fresh block. -/
theorem roomFor_of_fill {t : ComponentType} {r : ℕ} {s : Native}
    (htype : componentOf type = some t)
    (hlt : MAX_STACK_ARRAY ≤ length → length + 1 < 2 ^ 31) (hsize : 0 ≤ copySize t length)
    (hfill : ∀ (st : Storage) (release : Option Release) (u : Native),
      u.blocks = s.blocks ++ [⟨st, true, List.replicate (copySize t length).toNat .undef⟩] →
      s.KeepsHeap u →
      ∃ o, fillArray pf t (some (.array r)) offset length type (.block s.blocks.length 0) release
        u = some o ∧ RoomFor t type s o) :
    ∃ o, copyArray pf jvm (some (.array r)) offset length type s = some o ∧ RoomFor t type s o := by
  by_cases hshort : length < MAX_STACK_ARRAY
  · rw [copyArray_stack htype hshort hsize]
    exact hfill .stack none _ rfl ⟨rfl, rfl, rfl, rfl, rfl⟩
  · have hlong := Int.not_lt.mp hshort
    cases hmalloc : jvm.mallocFails s.mallocs with
    | true =>
      obtain ⟨s', hcopy, hthrown, hblocks⟩ :=
        @copyArray_refused pf jvm offset length type t htype hlong (hlt hlong) s (.inr hmalloc)
          (some (.array r))
      exact ⟨_, hcopy, hthrown, .inl hblocks⟩
    | false =>
      rw [copyArray_heap htype hlong (hlt hlong) hsize hmalloc]
      exact hfill .heap (some .heapArray) _ rfl ⟨rfl, rfl, rfl, rfl, rfl⟩

theorem bufferFits_of_safeRequest {t : ComponentType} {n : ℕ}
    (htype : componentOf type = some t)
    (h : SafeRequest t n offset length type) : BufferFits pf t n offset length type := by
  intro jvm s r a ha ht hn hpending
  rcases h with ⟨h0, hfits⟩ | ⟨hlong, hlt, hrefused⟩ | ⟨hneg, hsize, hnothing⟩
  · have hcopySize : copySize t length = ((length.toNat + 1) * t.size : ℕ) :=
      toJint_copySize h0 hfits
    refine roomFor_of_fill htype (fun _ => ?_) (by omega) fun st release u hblocks hkeep => ?_
    · have := t.size_pos
      have hle : (length + 1) * 1 ≤ (length + 1) * t.size :=
        Int.mul_le_mul_of_nonneg_left (by omega) (by omega)
      omega
    · rw [hcopySize, Int.toNat_natCast] at hblocks
      exact roomFor_fits s.blocks h0 hblocks rfl (hkeep.arrays_eq ▸ ha) ht
        (hkeep.pending_eq.trans hpending) release s rfl
  · by_cases hsize : copySize t length < 0
    · obtain ⟨s', hcopy, hthrown, hblocks⟩ :=
        @copyArray_refused pf jvm offset length type t htype hlong hlt s (.inl hsize)
          (some (.array r))
      exact ⟨_, hcopy, hthrown, .inl hblocks⟩
    · obtain ⟨hin, hrange⟩ := hrefused.resolve_left hsize
      refine roomFor_of_fill htype (fun _ => hlt) (Int.not_lt.mp hsize) fun st release u hblocks
        hkeep => ?_
      obtain ⟨s', hfill, hthrown, hs'⟩ := @fillArray_refused pf u r a offset length type t
        (hkeep.arrays_eq ▸ ha) ht hin (hn ▸ hrange) (.block s.blocks.length 0) release
      refine ⟨_, hfill, hthrown, .inr ⟨_, hs'.trans hblocks, fun c hc => ?_⟩⟩
      exact (List.mem_replicate.mp hc).2
  · have hshort : length < MAX_STACK_ARRAY := Int.lt_trans hneg (by decide)
    refine roomFor_of_fill htype (fun hlong => absurd hshort (Int.not_lt.mpr hlong)) hsize
      fun st release u hblocks hkeep => ?_
    by_cases hin : isInArray type = true
    · have hrange : ¬Native.inRange offset length a.length := fun h => by
        have := h.2.1
        omega
      obtain ⟨s', hfill, hthrown, hs'⟩ := @fillArray_refused pf u r a offset length type t
        (hkeep.arrays_eq ▸ ha) ht hin hrange (.block s.blocks.length 0) release
      refine ⟨_, hfill, hthrown, .inr ⟨_, hs'.trans hblocks, fun c hc => ?_⟩⟩
      exact (List.mem_replicate.mp hc).2
    · obtain ⟨hclear, hnul⟩ := hnothing.resolve_left hin
      obtain ⟨acquired, s', cells, hfill, helems, hlength, hblocks', hcells⟩ :=
        @fillArray_out pf u s.blocks _ offset length type t hblocks rfl (by simpa using hin)
          (fun h => absurd h (by simp [hclear])) (fun h => absurd h hnul) (some (.array r)) release
      refine ⟨_, hfill, _, helems, hblocks', ?_, fun h => absurd h hnul⟩
      have := Int.mul_nonpos_of_nonpos_of_nonneg (Int.le_of_lt hneg) (Int.natCast_nonneg t.size)
      rw [hlength]
      omega

/-- Filling a buffer for a negative length has an outcome only if nothing is to be cleared and no
`NUL` to be stored. -/
theorem fillArray_negative {t : ComponentType} (hneg : length < 0) (hin : isInArray type = false)
    {b : ℕ} {obj : Option Obj} {release : Option Release} {s : Native}
    {o : Option NativeArray × Native}
    (h : fillArray pf t obj offset length type (.block b 0) release s = some o) :
    isCleared type = false ∧ ¬(t = .byte ∧ isTerminated type = true) := by
  have hbytes : length * t.size < 0 := Int.mul_neg_of_neg_of_pos hneg (by have := t.size_pos; omega)
  obtain ⟨⟨copied, s₁⟩, hcopy, h⟩ := Option.bind_eq_some_iff.mp h
  simp only [copyData, hin, Bool.false_eq_true, if_false, Native.memset,
    if_neg (Int.not_le.mpr hbytes)] at hcopy
  cases hclear : isCleared type with
  | true =>
    rw [hclear] at hcopy
    cases hcopy
  | false =>
    rw [hclear] at hcopy
    cases hcopy
    refine ⟨rfl, fun hnul => ?_⟩
    obtain ⟨s₂, hterm, -⟩ := Option.bind_eq_some_iff.mp h
    rw [terminate, if_pos hnul] at hterm
    obtain ⟨m, hm, -⟩ := Option.map_eq_some_iff.mp hterm
    obtain ⟨blk, -, hm⟩ := Option.bind_eq_some_iff.mp hm
    rw [if_neg (by omega)] at hm
    cases hm

/-- An array of `n` elements, and nothing else. -/
def loneArray (t : ComponentType) (n : ℕ) : Native :=
  ⟨⟨[⟨t, List.replicate (n * t.size) .undef⟩], [], fun _ => .undef, ⟨0, 0⟩⟩, none, 0, 0, 0, []⟩

theorem length_loneArray (t : ComponentType) (n : ℕ) :
    JavaArray.length ⟨t, List.replicate (n * t.size) .undef⟩ = n := by
  rw [JavaArray.length, List.length_replicate]
  exact Nat.mul_div_cancel n t.size_pos

theorem safeRequest_of_bufferFits {t : ComponentType} {n : ℕ} (htype : componentOf type = some t)
    (h : BufferFits pf t n offset length type) : SafeRequest t n offset length type := by
  obtain ⟨o, hcopy, hroom⟩ := h .reliable (loneArray t n) 0 _ rfl rfl (length_loneArray t n) rfl
  by_cases hshort : length < MAX_STACK_ARRAY
  · by_cases hneg : length < 0
    · by_cases hsize : 0 ≤ copySize t length
      · refine .inr (.inr ⟨hneg, hsize, ?_⟩)
        by_cases hin : isInArray type = true
        · exact .inl hin
        · rw [copyArray_stack htype hshort hsize] at hcopy
          exact .inr (fillArray_negative hneg (by simpa using hin) hcopy)
      · rw [copyArray, if_pos hshort] at hcopy
        simp only [arraySize, htype, Native.alloca] at hcopy
        rw [if_neg (show ¬0 ≤ toJint ((length + 1) * t.size) from hsize)] at hcopy
        cases hcopy
    · refine .inl ⟨Int.not_lt.mp hneg, ?_⟩
      have hle := size_le t
      have hlen : length + 1 ≤ 1024 := hshort
      have hmul : (length + 1) * t.size ≤ 1024 * 8 :=
        Int.mul_le_mul hlen (by omega) (by omega) (by omega)
      omega
  · have hlong := Int.not_lt.mp hshort
    have h0 : 0 ≤ length := Int.le_trans (by decide) hlong
    have hlt : length + 1 < 2 ^ 31 := by
      rw [copyArray, if_neg hshort] at hcopy
      simp only [getArrayHeap, htype] at hcopy
      split at hcopy
      · assumption
      · cases hcopy
    by_cases hrefused : copySize t length < 0 ∨
      isInArray type = true ∧ ¬Native.inRange offset length n
    · exact .inr (.inl ⟨hlong, hlt, hrefused⟩)
    · obtain ⟨hsize, hread⟩ := not_or.mp hrefused
      rw [copyArray_heap htype hlong hlt (Int.not_lt.mp hsize) rfl] at hcopy
      obtain ⟨acquired, s'⟩ := o
      cases acquired with
      | none =>
        have hinv := @fillArray_none_inv pf (heapCopy t length (loneArray t n)) 0 _ offset length
          type t rfl rfl rfl _ _ _ hcopy
        rw [length_loneArray] at hinv
        exact absurd hinv hread
      | some acquired =>
        obtain ⟨rfl, cells, hblocks, hlen, -, -⟩ := @fillArray_inv pf (heapCopy t length
          (loneArray t n)) s' [] _ 0 ⟨t, List.replicate (n * t.size) .undef⟩ offset length type rfl
          rfl rfl rfl _ _ hcopy
        obtain ⟨blk, -, hblk, hle, -⟩ := hroom
        rw [hblk] at hblocks
        cases List.append_cancel_left hblocks
        simp only [List.length_replicate] at hlen
        refine .inl ⟨h0, size_lt_of_room ?_⟩
        simp only [hlen] at hle
        omega

/-- **The buffers of copied arrays** are large enough for exactly the safe requests, whatever the
type, the flags, the offset and the length are. -/
theorem bufferFits_iff (pf : Platform) (t : ComponentType) (n : ℕ) (flags : BitVec 32) (i : ℕ)
    (offset length : BitVec 32) :
    BufferFits pf t n offset.toInt length.toInt (Put.arrayFlags t flags i) ↔
      SafeRequest t n offset.toInt length.toInt (Put.arrayFlags t flags i) := by
  have htype := componentOf_arrayFlags t flags i
  constructor
  · intro h
    exact safeRequest_of_bufferFits htype h
  · intro h
    exact bufferFits_of_safeRequest htype h

/-- A `long[]` whose size wraps around to no byte at all. -/
theorem not_bufferFits_wrapped :
    ¬BufferFits .linuxX64 .long 4 (0#32).toInt (0x1fffffff#32).toInt
      (Put.arrayFlags .long OUT 0) := by
  intro h
  have hsafe := safeRequest_of_bufferFits (componentOf_arrayFlags .long OUT 0) h
  revert hsafe
  rintro (⟨-, hfits⟩ | ⟨-, -, hrefused⟩ | ⟨hneg, -⟩)
  · revert hfits
    decide
  · revert hrefused
    decide
  · revert hneg
    decide

end Jffi
