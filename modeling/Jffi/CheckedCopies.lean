import Jffi.Lib.Chunks
import Jffi.Regions

/-!
# Array copies, plain and checked

`MemoryIO.c` copies between Java arrays and native memory in two ways. The plain functions hand the
whole region to the virtual machine. The checked ones copy it in chunks of 4096 bytes by way of a
local buffer, and go on whatever the virtual machine says about a chunk. Fault protection is
compiled out on every platform, so that `PROT` only runs its statement.

## Main definitions

* `putArray`, `putArrayChecked`, `getArray`, `getArrayChecked` — one set of functions for each type
* `PutAgrees`, `GetAgrees` — the checked function does what the plain one does

## Main results

* `putRound_eq`, `getRound_eq` — what a round does
* `putArrayChecked_inRange`, `getArrayChecked_inRange` — what the loop does inside of the array
* `checkedCopies_agree_iff` — when the checked functions agree with the plain ones
-/

namespace Jffi

variable (pf : Platform)

/-- An `int`, unless it overflows, which C leaves undefined. -/
def signedInt (x : ℤ) : Option ℤ := if -2 ^ 31 ≤ x ∧ x < 2 ^ 31 then some x else none

theorem signedInt_eq_some {x y : ℤ} (h : signedInt x = some y) :
    y = x ∧ -2 ^ 31 ≤ x ∧ x < 2 ^ 31 := by
  unfold signedInt at h
  split at h
  case isTrue hx =>
    cases h
    exact ⟨rfl, hx⟩
  case isFalse => cases h

theorem signedInt_of_bounds {x : ℤ} (hl : -2 ^ 31 ≤ x) (hu : x < 2 ^ 31) : signedInt x = some x :=
  if_pos ⟨hl, hu⟩

/-! ### The functions -/

/-- `putByteArray`, `putShortArray`, … -/
def putArray (t : ComponentType) (address : BitVec 64) (obj : Option Obj) (offset length : ℤ)
    (s : Native) : Option Native :=
  s.getArrayRegion t obj offset length (.ofLong pf address)

/-- `getByteArray`, `getShortArray`, … -/
def getArray (t : ComponentType) (address : BitVec 64) (obj : Option Obj) (offset length : ℤ)
    (s : Native) : Option Native :=
  s.setArrayRegion t obj offset length (.ofLong pf address)

/-- `copy`, for a local buffer and memory apart from it. -/
def copy (dst src : Ptr) (len : ℕ) (s : Native) : Option Native := do
  let xs ← s.load src len
  s.store dst xs

/-- `sizeof(tmp)`. -/
def TMP_SIZE : ℕ := 4096

instance (t : ComponentType) : NeZero (TMP_SIZE / t.size) := ⟨by cases t <;> decide⟩

/-- A round of the loop of `putArrayChecked`. Nobody asks whether `get` has thrown. -/
def putRound (t : ComponentType) (address : BitVec 64) (obj : Option Obj) (offset : ℤ)
    (copyOff copyLen : ℕ) (s : Native) : Option Native := do
  let (tmp, s) ← s.alloca TMP_SIZE
  let start ← signedInt (offset + copyOff)
  let s ← s.getArrayRegion t obj start copyLen tmp
  let dst ← signedInt (copyOff * t.size)
  copy (.ofLong pf (address + BitVec.ofInt 64 dst)) tmp (copyLen * t.size) s

/-- `putByteArrayChecked`, `putShortArrayChecked`, … -/
def putArrayChecked (t : ComponentType) (address : BitVec 64) (obj : Option Obj) (offset length : ℤ)
    (s : Native) : Option Native :=
  chunked (TMP_SIZE / t.size) length.toNat (putRound pf t address obj offset) 0 s

/-- A round of the loop of `getArrayChecked`. -/
def getRound (t : ComponentType) (address : BitVec 64) (obj : Option Obj) (offset : ℤ)
    (copyOff copyLen : ℕ) (s : Native) : Option Native := do
  let (tmp, s) ← s.alloca TMP_SIZE
  let src ← signedInt (copyOff * t.size)
  let s ← copy tmp (.ofLong pf (address + BitVec.ofInt 64 src)) (copyLen * t.size) s
  let start ← signedInt (offset + copyOff)
  s.setArrayRegion t obj start copyLen tmp

/-- `getByteArrayChecked`, `getShortArrayChecked`, … -/
def getArrayChecked (t : ComponentType) (address : BitVec 64) (obj : Option Obj) (offset length : ℤ)
    (s : Native) : Option Native :=
  chunked (TMP_SIZE / t.size) length.toNat (getRound pf t address obj offset) 0 s

variable {pf} {address : BitVec 64}

/-! ### The local buffer -/

namespace Native

/-- `jbyte tmp[4096]` is a block of 4096 bytes on the stack that nothing has been written to. -/
theorem alloca_tmp (s : Native) :
    s.alloca TMP_SIZE = some (.block s.blocks.length 0, s.newBlock .stack TMP_SIZE) := rfl

/-- What the buffer holds to begin with. -/
def tmpBlock : Block := ⟨.stack, true, List.replicate TMP_SIZE .undef⟩

theorem blocks_newBlock_tmp (s : Native) :
    (s.newBlock .stack TMP_SIZE).blocks = s.blocks ++ [tmpBlock] := rfl

end Native

/-! ### A round of a put -/

section PutRound

variable {s s' : Native} {r : ℕ} {a : JavaArray} {offset : ℤ} {copyOff copyLen n : ℕ}

/-- What `pending` is after a region function has been called. -/
def pendingAfter (inside : Bool) (pending : Option Exn) : Option Exn :=
  if inside then pending else some .arrayIndexOutOfBounds

/-- A chunk is read into the buffer, or the buffer stays as it is. -/
theorem getArrayRegion_tmp (ha : s.arrays[r]? = some a) (start : ℤ)
    (hlen : copyLen * a.component.size ≤ TMP_SIZE) :
    ∃ s' xs, (s.newBlock .stack TMP_SIZE).getArrayRegion a.component (some (.array r)) start copyLen
        (.block s.blocks.length 0) = some s' ∧
      s'.load (.block s.blocks.length 0) (copyLen * a.component.size) = some xs ∧
      Native.KeepsHeap { s with
        pending := pendingAfter (Native.inRange start copyLen a.length) s.pending } s' ∧
      (∀ x ∈ xs, x = .undef ∨ x ∈ a.cells) ∧
      (Native.inRange start copyLen a.length →
        slice a.cells (start.toNat * a.component.size) (copyLen * a.component.size) = some xs) := by
  have htop := s.blocks_newBlock_tmp
  by_cases hrange : Native.inRange start copyLen a.length
  · obtain ⟨s', xs, cells, hget, hxs, hsplice, hblocks, hkeep⟩ :=
      Native.getArrayRegion_top htop rfl ha hrange (by
        rw [Int.toNat_natCast]
        simpa [Native.tmpBlock] using hlen)
    rw [Int.toNat_natCast] at hxs
    have hself := slice_splice_self hsplice
    rw [length_of_slice hxs] at hself
    refine ⟨s', xs, hget, ?_, ?_, ?_, fun _ => hxs⟩
    · exact (Native.load_top hblocks rfl 0 _).trans hself
    · have hpending : pendingAfter (Native.inRange start copyLen a.length) s.pending = s.pending :=
        if_pos (decide_eq_true hrange)
      rw [hpending]
      exact ⟨hkeep.arrays_eq, hkeep.ext_eq, hkeep.errors_eq, hkeep.pending_eq, hkeep.lastError_eq⟩
    · intro x hx
      exact .inr (mem_of_slice hxs hx)
  · refine ⟨{ (s.newBlock .stack TMP_SIZE).logged (.jni .getArrayRegion) with
        pending := some .arrayIndexOutOfBounds },
        List.replicate (copyLen * a.component.size) .undef,
      ?_, ?_, ?_, ?_, fun h => absurd h hrange⟩
    · exact Native.getArrayRegion_of_not_inRange (s := s.newBlock .stack TMP_SIZE) ha hrange _
    · have hload := Native.load_top
          (s := (s.newBlock .stack TMP_SIZE).logged (.jni .getArrayRegion)) htop rfl 0
        (copyLen * a.component.size)
      refine hload.trans ?_
      refine slice_eq_some.mpr ⟨by simpa [Native.tmpBlock] using hlen, ?_⟩
      simp [Native.tmpBlock, Nat.min_eq_left hlen]
    · simp only [pendingAfter, hrange, decide_false, Bool.false_eq_true, if_false]
      exact ⟨rfl, rfl, rfl, rfl, rfl⟩
    · intro x hx
      exact .inl (List.eq_of_mem_replicate hx)

/-- A round of a checked put that has an outcome has computed its index and its offset in bytes
without an overflow. -/
theorem putRound_bounds {t : ComponentType} {obj : Option Obj}
    (h : putRound pf t address obj offset copyOff copyLen s = some s') :
    offset + copyOff < 2 ^ 31 ∧ copyOff * t.size < 2 ^ 31 := by
  rw [putRound, Native.alloca_tmp, Option.bind_eq_bind, Option.bind_some] at h
  obtain ⟨start, hstart, h⟩ := Option.bind_eq_some_iff.mp h
  obtain ⟨s₁, -, h⟩ := Option.bind_eq_some_iff.mp h
  obtain ⟨dst, hdst, -⟩ := Option.bind_eq_some_iff.mp h
  have hbound := (signedInt_eq_some hstart).2.2
  have hbound' := (signedInt_eq_some hdst).2.2
  exact ⟨hbound, by exact_mod_cast hbound'⟩

/-- **A round of a put** writes the chunk, or what is in the buffer when there is none. -/
theorem putRound_eq (offset : ℤ) (ha : s.arrays[r]? = some a) (hroom : HasRoom pf address n)
    (hlen : copyLen * a.component.size ≤ TMP_SIZE) (hpos : copyOff * a.component.size < n)
    (hlow : -2 ^ 31 ≤ offset) (hstart : offset + copyOff < 2 ^ 31)
    (hdst : copyOff * a.component.size < 2 ^ 31) :
    ∃ s' xs, putRound pf a.component address (some (.array r)) offset copyOff copyLen s = some s' ∧
      xs.length = copyLen * a.component.size ∧
      Native.KeepsHeap { s with
        ext := overlay s.ext (nativeAddress pf address + copyOff * a.component.size) xs
        pending := pendingAfter (Native.inRange (offset + copyOff) copyLen a.length) s.pending }
        s' ∧
      (∀ x ∈ xs, x = .undef ∨ x ∈ a.cells) ∧
      (Native.inRange (offset + copyOff) copyLen a.length →
        slice a.cells ((offset + copyOff).toNat * a.component.size) (copyLen * a.component.size) =
          some xs) := by
  obtain ⟨s₁, xs, hget, hload, hkeep, hmem, hxs⟩ := getArrayRegion_tmp ha (offset + copyOff) hlen
  have hne : nativeAddress pf address + copyOff * a.component.size ≠ 0 := by
    have := hroom.pos
    omega
  have hlength : xs.length = copyLen * a.component.size := by
    cases hb : s₁.blocks[s.blocks.length]? with
    | none => simp [Native.load, Memory.load, hb] at hload
    | some blk =>
      simp only [Native.load, Memory.load, hb, Option.bind_eq_bind, Option.bind_some] at hload
      split at hload
      · exact length_of_slice hload
      · cases hload
  refine ⟨{ s₁ with
    ext := overlay s₁.ext (nativeAddress pf address + copyOff * a.component.size) xs },
      xs, ?_, hlength, ?_, hmem, hxs⟩
  · rw [putRound, Native.alloca_tmp]
    simp only [Option.bind_eq_bind, Option.bind_some]
    rw [signedInt_of_bounds (by omega) hstart, Option.bind_some, hget, Option.bind_some,
      signedInt_of_bounds (by omega) (by exact_mod_cast hdst), Option.bind_some, copy, hload]
    have haddr := hroom.ofLong_add hpos
    push_cast at haddr
    simp only [Option.bind_eq_bind, Option.bind_some]
    rw [haddr]
    exact Native.store_addr hne xs
  · exact ⟨hkeep.arrays_eq, congrArg (overlay · _ xs) hkeep.ext_eq, hkeep.errors_eq,
      hkeep.pending_eq, hkeep.lastError_eq⟩

end PutRound

/-! ### A round of a get -/

section GetRound

variable {s s' : Native} {r : ℕ} {a : JavaArray} {offset : ℤ} {copyOff copyLen n : ℕ}

theorem getRound_bounds {t : ComponentType} {obj : Option Obj}
    (h : getRound pf t address obj offset copyOff copyLen s = some s') :
    offset + copyOff < 2 ^ 31 ∧ copyOff * t.size < 2 ^ 31 := by
  rw [getRound, Native.alloca_tmp, Option.bind_eq_bind, Option.bind_some] at h
  obtain ⟨src, hsrc, h⟩ := Option.bind_eq_some_iff.mp h
  obtain ⟨s₁, -, h⟩ := Option.bind_eq_some_iff.mp h
  obtain ⟨start, hstart, -⟩ := Option.bind_eq_some_iff.mp h
  have hbound := (signedInt_eq_some hstart).2.2
  have hbound' := (signedInt_eq_some hsrc).2.2
  exact ⟨hbound, by exact_mod_cast hbound'⟩

/-- **A round of a get** replaces the elements of the chunk, or throws when there are none. -/
theorem getRound_eq (offset : ℤ) (ha : s.arrays[r]? = some a) (hroom : HasRoom pf address n)
    (hlen : copyLen * a.component.size ≤ TMP_SIZE) (hpos : copyOff * a.component.size < n)
    (hlow : -2 ^ 31 ≤ offset) (hstart : offset + copyOff < 2 ^ 31)
    (hdst : copyOff * a.component.size < 2 ^ 31) :
    ∃ s', getRound pf a.component address (some (.array r)) offset copyOff copyLen s = some s' ∧
      (Native.inRange (offset + copyOff) copyLen a.length → ∃ cells,
        splice a.cells ((offset + copyOff).toNat * a.component.size)
          (extCells s.ext (nativeAddress pf address + copyOff * a.component.size)
            (copyLen * a.component.size)) = some cells ∧
        Native.KeepsHeap { s with arrays := s.arrays.set r { a with cells := cells } } s') ∧
      (¬Native.inRange (offset + copyOff) copyLen a.length →
        Native.KeepsHeap { s with pending := some .arrayIndexOutOfBounds } s') := by
  have hne : nativeAddress pf address + copyOff * a.component.size ≠ 0 := by
    have := hroom.pos
    omega
  have haddr := hroom.ofLong_add hpos
  push_cast at haddr
  obtain ⟨buffer, hbuffer⟩ : ∃ buffer, splice Native.tmpBlock.cells 0
      (extCells s.ext (nativeAddress pf address + copyOff * a.component.size)
        (copyLen * a.component.size)) = some buffer :=
    exists_splice (by simpa [Native.tmpBlock] using hlen)
  obtain ⟨s₁, hstore, hblocks, hkeep⟩ := Native.store_top s.blocks_newBlock_tmp rfl hbuffer
  have hcopy : copy (.block s.blocks.length 0)
      (.addr (nativeAddress pf address + copyOff * a.component.size))
      (copyLen * a.component.size) (s.newBlock .stack TMP_SIZE) = some s₁ := by
    rw [copy, Native.load_addr hne]
    exact hstore
  have hbegin : getRound pf a.component address (some (.array r)) offset copyOff copyLen s =
      s₁.setArrayRegion a.component (some (.array r)) (offset + copyOff) copyLen
        (.block s.blocks.length 0) := by
    rw [getRound, Native.alloca_tmp, Option.bind_eq_bind, Option.bind_some]
    dsimp only
    rw [signedInt_of_bounds (by omega) (by exact_mod_cast hdst), Option.bind_eq_bind,
      Option.bind_some, haddr, hcopy, Option.bind_eq_bind, Option.bind_some,
      signedInt_of_bounds (by omega) hstart, Option.bind_some]
  have ha₁ : s₁.arrays[r]? = some a := by
    rw [hkeep.arrays_eq]
    exact ha
  by_cases hrange : Native.inRange (offset + copyOff) copyLen a.length
  · obtain ⟨ys, hys⟩ := exists_region hrange
    rw [Int.toNat_natCast] at hys
    obtain ⟨hle, -⟩ := slice_eq_some.mp hys
    obtain ⟨cells, hcells⟩ : ∃ cells, splice a.cells ((offset + copyOff).toNat * a.component.size)
        (extCells s.ext (nativeAddress pf address + copyOff * a.component.size)
          (copyLen * a.component.size)) = some cells :=
      exists_splice (by rwa [length_extCells])
    have hload : (s₁.logged (.jni .setArrayRegion)).load (.block s.blocks.length 0)
        (copyLen * a.component.size) = some (extCells s.ext
          (nativeAddress pf address + copyOff * a.component.size)
          (copyLen * a.component.size)) := by
      have hself := slice_splice_self hbuffer
      rw [length_extCells] at hself
      exact (Native.load_top (s := s₁.logged (.jni .setArrayRegion)) hblocks rfl 0 _).trans hself
    refine ⟨_, hbegin.trans (Native.setArrayRegion_of_inRange ha₁ hrange hload hcells),
      fun _ => ⟨cells, hcells, ?_⟩, fun h => absurd hrange h⟩
    exact ⟨congrArg (List.set · r _) hkeep.arrays_eq, hkeep.ext_eq, hkeep.errors_eq,
      hkeep.pending_eq, hkeep.lastError_eq⟩
  · refine ⟨_, hbegin.trans (Native.setArrayRegion_of_not_inRange ha₁ hrange _),
      fun h => absurd h hrange, fun _ => ?_⟩
    exact ⟨hkeep.arrays_eq, hkeep.ext_eq, hkeep.errors_eq, rfl, hkeep.lastError_eq⟩

end GetRound

/-! ### The loops -/

section Loops

variable {s s' : Native} {r : ℕ} {a : JavaArray} {offset length : ℤ}

/-- As many elements as a chunk has fit into the buffer of 4096 bytes. -/
theorem chunk_size_le (t : ComponentType) (m : ℕ) : min (TMP_SIZE / t.size) m * t.size ≤ TMP_SIZE :=
  Nat.le_trans (Nat.mul_le_mul_right _ (Nat.min_le_left _ m)) (Nat.div_mul_le_self _ _)

/-- More than `2 ^ 31` bytes: the offset of some chunk is not an `int`. -/
theorem exists_overflow {t : ComponentType} {n : ℕ} (h : 2 ^ 31 < n * t.size) :
    ∃ k < n, TMP_SIZE / t.size ∣ k ∧ ¬k * t.size < 2 ^ 31 := by
  refine ⟨2 ^ 31 / t.size, ?_, ⟨2 ^ 19, ?_⟩, ?_⟩
  · rw [Nat.div_lt_iff_lt_mul t.size_pos]
    exact h
  · cases t <;> decide
  · cases t <;> decide

theorem putArrayChecked_overflow {t : ComponentType} {obj : Option Obj}
    (h : 2 ^ 31 < length.toNat * t.size) :
    putArrayChecked pf t address obj offset length s = none := by
  obtain ⟨k, hk, hdvd, hlarge⟩ := exists_overflow h
  refine chunked_eq_none hdvd hk (Nat.zero_le k) (Nat.dvd_zero _) fun s' => ?_
  cases hround : putRound pf t address obj offset k (min (TMP_SIZE / t.size) (length.toNat - k))
    s' with
  | none => rfl
  | some s'' => exact absurd (putRound_bounds hround).2 hlarge

theorem getArrayChecked_overflow {t : ComponentType} {obj : Option Obj}
    (h : 2 ^ 31 < length.toNat * t.size) :
    getArrayChecked pf t address obj offset length s = none := by
  obtain ⟨k, hk, hdvd, hlarge⟩ := exists_overflow h
  refine chunked_eq_none hdvd hk (Nat.zero_le k) (Nat.dvd_zero _) fun s' => ?_
  cases hround : getRound pf t address obj offset k (min (TMP_SIZE / t.size) (length.toNat - k))
    s' with
  | none => rfl
  | some s'' => exact absurd (getRound_bounds hround).2 hlarge

/-- Every chunk of a region that is one of the array is one of the array as well. -/
theorem inRange_chunk {off c : ℕ} (h : Native.inRange offset length a.length)
    (hoff : off < length.toNat) :
    Native.inRange (offset + off) (min c (length.toNat - off) : ℕ) a.length := by
  obtain ⟨h0, h1, h2⟩ := h
  have hle := Nat.min_le_right c (length.toNat - off)
  generalize min c (length.toNat - off) = len at hle ⊢
  exact ⟨by omega, by omega, by omega⟩

/-- The elements of a chunk lie behind those of the region, as many bytes further on as the chunks
before it have. -/
theorem toNat_chunk_mul {off : ℕ} (h : 0 ≤ offset) (m : ℕ) :
    (offset + off).toNat * m = offset.toNat * m + off * m := by
  rw [← Nat.add_mul]
  congr 1
  omega

variable (ha : s.arrays[r]? = some a)
  (hroom : HasRoom pf address (length.toNat * a.component.size))
include ha hroom

/-- **A checked put** of a region of the array stores its elements at the address, as the plain put
does, whatever the number of chunks. -/
theorem putArrayChecked_inRange (hrange : Native.inRange offset length a.length)
    (hint : a.length < 2 ^ 31) (hbytes : length.toNat * a.component.size ≤ 2 ^ 31) :
    ∃ s' xs, putArrayChecked pf a.component address (some (.array r)) offset length s = some s' ∧
      slice a.cells (offset.toNat * a.component.size) (length.toNat * a.component.size) = some xs ∧
      Native.KeepsHeap { s with ext := overlay s.ext (nativeAddress pf address) xs } s' := by
  obtain ⟨h0, h1, h2⟩ := hrange
  -- after `off` elements the bytes of `off` elements have been written
  have hloop := @chunked_exists Native (TMP_SIZE / a.component.size) length.toNat 0 _
    (putRound pf a.component address (some (.array r)) offset) s
    (fun off s' => ∃ xs, slice a.cells (offset.toNat * a.component.size) (off * a.component.size) =
      some xs ∧ Native.KeepsHeap { s with ext := overlay s.ext (nativeAddress pf address) xs } s')
    ?_ (Nat.zero_le _) (.inl (Nat.dvd_zero _)) ⟨[], ?_, ?_⟩
  · obtain ⟨s', hs', xs, hxs, hkeep⟩ := hloop
    exact ⟨s', xs, hs', hxs, hkeep⟩
  · intro off s₁ hoff hdvd hI
    obtain ⟨xs, hxs, hkeep⟩ := hI
    have hpos : off * a.component.size < length.toNat * a.component.size :=
      Nat.mul_lt_mul_of_pos_right hoff a.component.size_pos
    have ha₁ : s₁.arrays[r]? = some a := by
      rw [hkeep.arrays_eq]
      exact ha
    obtain ⟨s₂, ys, hround, hlen, hkeep₂, -, hys⟩ :=
      putRound_eq offset ha₁ hroom (chunk_size_le a.component (length.toNat - off)) hpos
        (by omega) (by omega) (by omega)
    have hin := inRange_chunk (c := TMP_SIZE / a.component.size) ⟨h0, h1, h2⟩ hoff
    have hys' := hys hin
    rw [toNat_chunk_mul h0] at hys'
    refine ⟨s₂, hround, xs ++ ys, ?_, ?_⟩
    · rw [Nat.add_mul]
      exact slice_append hxs hys'
    · have hxslen := length_of_slice hxs
      have hpending : pendingAfter (Native.inRange (offset + off)
          (min (TMP_SIZE / a.component.size) (length.toNat - off) : ℕ) a.length) s₁.pending =
            s₁.pending := if_pos (decide_eq_true hin)
      refine ⟨hkeep₂.arrays_eq.trans hkeep.arrays_eq, ?_, hkeep₂.errors_eq.trans hkeep.errors_eq,
        hkeep₂.pending_eq.trans (hpending.trans hkeep.pending_eq),
        hkeep₂.lastError_eq.trans hkeep.lastError_eq⟩
      have hext := hkeep.ext_eq
      change s₁.ext = overlay s.ext _ xs at hext
      refine hkeep₂.ext_eq.trans ?_
      change overlay s₁.ext _ ys = overlay s.ext _ (xs ++ ys)
      rw [hext, ← hxslen, overlay_overlay]
  · rw [Nat.zero_mul]
    exact slice_eq_some.mpr ⟨by
      obtain ⟨ys, hys⟩ := exists_region ⟨h0, h1, h2⟩
      obtain ⟨hle, -⟩ := slice_eq_some.mp hys
      omega, rfl⟩
  · rw [overlay_nil]
    exact ⟨rfl, rfl, rfl, rfl, rfl⟩

/-- **A checked put of anything** writes to the first byte, whether there are elements or not. -/
theorem putArrayChecked_writes (hlow : -2 ^ 31 ≤ offset) (hpos : 0 < length)
    (hcells : ∀ x ∈ a.cells, x ≠ .byte 0)
    (h : putArrayChecked pf a.component address (some (.array r)) offset length s = some s') :
    s'.ext (nativeAddress pf address) ≠ .byte 0 := by
  have hloop := @chunked_invariant Native (TMP_SIZE / a.component.size) length.toNat 0 _
    (putRound pf a.component address (some (.array r)) offset) s s'
    (fun off s' => s'.arrays = s.arrays ∧
      (0 < off → s'.ext (nativeAddress pf address) ≠ .byte 0))
    ?_ (Nat.zero_le _) (.inl (Nat.dvd_zero _)) ⟨rfl, fun h => absurd h (Nat.lt_irrefl 0)⟩ h
  · exact hloop.2 (by omega)
  · intro off s₁ s₂ hoff hdvd hI hround
    obtain ⟨harrays, hext⟩ := hI
    obtain ⟨hstart, hdst⟩ := putRound_bounds hround
    have hbytes : off * a.component.size < length.toNat * a.component.size :=
      Nat.mul_lt_mul_of_pos_right hoff a.component.size_pos
    have ha₁ : s₁.arrays[r]? = some a := by
      rw [harrays]
      exact ha
    obtain ⟨s₃, xs, heq, hlen, hkeep, hmem, -⟩ :=
      putRound_eq offset ha₁ hroom (chunk_size_le a.component (length.toNat - off))
        hbytes hlow hstart hdst
    obtain rfl : s₂ = s₃ := Option.some.inj (hround.symm.trans heq)
    refine ⟨hkeep.arrays_eq.trans harrays, fun _ => ?_⟩
    rw [hkeep.ext_eq]
    change overlay s₁.ext _ xs _ ≠ _
    rcases Nat.eq_zero_or_pos off with rfl | hlater
    · have hc := Nat.pos_of_neZero (TMP_SIZE / a.component.size)
      have hxs : 0 < xs.length := by
        rw [hlen]
        exact Nat.mul_pos (by omega) a.component.size_pos
      have hfirst : overlay s₁.ext (nativeAddress pf address + 0 * a.component.size) xs
          (nativeAddress pf address) = xs[0] := by
        rw [Nat.zero_mul]
        exact overlay_of_mem hxs
      rw [hfirst]
      rcases hmem xs[0] (List.getElem_mem hxs) with hundef | hcell
      · rw [hundef]
        exact fun h => nomatch h
      · exact hcells _ hcell
    · have hbefore : 0 < off * a.component.size := Nat.mul_pos hlater a.component.size_pos
      rw [overlay_of_lt xs (by omega)]
      exact hext hlater

/-- **A checked get** into a region of the array stores there what lies at the address, as the plain
get does, whatever the number of chunks. -/
theorem getArrayChecked_inRange (hrange : Native.inRange offset length a.length)
    (hint : a.length < 2 ^ 31) (hbytes : length.toNat * a.component.size ≤ 2 ^ 31) :
    ∃ s' cells,
      getArrayChecked pf a.component address (some (.array r)) offset length s = some s' ∧
      splice a.cells (offset.toNat * a.component.size)
        (extCells s.ext (nativeAddress pf address) (length.toNat * a.component.size)) = some cells ∧
      Native.KeepsHeap { s with arrays := s.arrays.set r { a with cells := cells } } s' := by
  obtain ⟨h0, h1, h2⟩ := hrange
  obtain ⟨ys, hys⟩ := exists_region ⟨h0, h1, h2⟩
  obtain ⟨hle, -⟩ := slice_eq_some.mp hys
  have hr : r < s.arrays.length := (List.getElem?_eq_some_iff.mp ha).1
  -- after `off` elements the elements of the array hold their bytes
  have hloop := @chunked_exists Native (TMP_SIZE / a.component.size) length.toNat 0 _
    (getRound pf a.component address (some (.array r)) offset) s
    (fun off s' => ∃ cells, splice a.cells (offset.toNat * a.component.size)
        (extCells s.ext (nativeAddress pf address) (off * a.component.size)) = some cells ∧
      Native.KeepsHeap { s with arrays := s.arrays.set r { a with cells := cells } } s')
    ?_ (Nat.zero_le _) (.inl (Nat.dvd_zero _)) ⟨a.cells, ?_, ?_⟩
  · obtain ⟨s', hs', cells, hcells, hkeep⟩ := hloop
    exact ⟨s', cells, hs', hcells, hkeep⟩
  · intro off s₁ hoff hdvd hI
    obtain ⟨cells, hcells, hkeep⟩ := hI
    have hlen := length_of_splice hcells
    have hpos : off * a.component.size < length.toNat * a.component.size :=
      Nat.mul_lt_mul_of_pos_right hoff a.component.size_pos
    have ha₁ : s₁.arrays[r]? = some { a with cells := cells } := by
      rw [hkeep.arrays_eq]
      exact List.getElem?_set_self hr
    have hlength : JavaArray.length { a with cells := cells } = a.length := by
      rw [JavaArray.length, JavaArray.length, hlen]
    obtain ⟨s₂, hround, hinside, -⟩ :=
      getRound_eq offset (a := { a with cells := cells }) ha₁ hroom
        (chunk_size_le a.component (length.toNat - off)) hpos (by omega) (by omega)
        (show off * a.component.size < 2 ^ 31 by omega)
    have hin := inRange_chunk (c := TMP_SIZE / a.component.size) ⟨h0, h1, h2⟩ hoff
    rw [← hlength] at hin
    obtain ⟨cells', hcells', hkeep₂⟩ := hinside hin
    have hext : s₁.ext = s.ext := hkeep.ext_eq
    rw [toNat_chunk_mul h0, hext] at hcells'
    refine ⟨s₂, hround, cells', ?_, ?_⟩
    · rw [Nat.add_mul, extCells_append]
      refine splice_append hcells ?_
      rw [length_extCells]
      exact hcells'
    · refine ⟨hkeep₂.arrays_eq.trans ?_, hkeep₂.ext_eq.trans hext,
        hkeep₂.errors_eq.trans hkeep.errors_eq, hkeep₂.pending_eq.trans hkeep.pending_eq,
        hkeep₂.lastError_eq.trans hkeep.lastError_eq⟩
      change s₁.arrays.set r _ = s.arrays.set r _
      rw [hkeep.arrays_eq]
      exact List.set_set ..
  · rw [Nat.zero_mul]
    exact splice_of_slice (slice_eq_some.mpr ⟨by simp [extCells]; omega, rfl⟩)
  · obtain ⟨hlt, rfl⟩ := List.getElem?_eq_some_iff.mp ha
    exact ⟨(List.set_getElem_self hlt).symm, rfl, rfl, rfl, rfl⟩

/-- **A checked get without a chunk inside of the array** only throws. -/
theorem getArrayChecked_outside (hlow : -2 ^ 31 ≤ offset) (hpos : 0 < length)
    (hbytes : length.toNat * a.component.size ≤ 2 ^ 31)
    (hchunks : ∀ k < length.toNat, TMP_SIZE / a.component.size ∣ k → offset + k < 2 ^ 31 ∧
      ¬Native.inRange (offset + k)
        (min (TMP_SIZE / a.component.size) (length.toNat - k) : ℕ) a.length) :
    ∃ s', getArrayChecked pf a.component address (some (.array r)) offset length s = some s' ∧
      Native.KeepsHeap { s with pending := some .arrayIndexOutOfBounds } s' := by
  have hloop := @chunked_exists Native (TMP_SIZE / a.component.size) length.toNat 0 _
    (getRound pf a.component address (some (.array r)) offset) s
    (fun off s' => Native.KeepsHeap { s with
      pending := if off = 0 then s.pending else some .arrayIndexOutOfBounds } s')
    ?_ (Nat.zero_le _) (.inl (Nat.dvd_zero _)) ⟨rfl, rfl, rfl, rfl, rfl⟩
  · obtain ⟨s', hs', hkeep⟩ := hloop
    rw [if_neg (by omega)] at hkeep
    exact ⟨s', hs', hkeep⟩
  · intro off s₁ hoff hdvd hkeep
    have hbytes' : off * a.component.size < length.toNat * a.component.size :=
      Nat.mul_lt_mul_of_pos_right hoff a.component.size_pos
    have ha₁ : s₁.arrays[r]? = some a := by
      rw [hkeep.arrays_eq]
      exact ha
    obtain ⟨hstart, houtside⟩ := hchunks off hoff hdvd
    obtain ⟨s₂, hround, -, hthrows⟩ :=
      getRound_eq offset ha₁ hroom (chunk_size_le a.component (length.toNat - off))
        hbytes' hlow hstart (by omega)
    have hkeep₂ := hthrows houtside
    have hc := Nat.pos_of_neZero (TMP_SIZE / a.component.size)
    refine ⟨s₂, hround, hkeep₂.arrays_eq.trans hkeep.arrays_eq, hkeep₂.ext_eq.trans hkeep.ext_eq,
      hkeep₂.errors_eq.trans hkeep.errors_eq, hkeep₂.pending_eq.trans ?_,
      hkeep₂.lastError_eq.trans hkeep.lastError_eq⟩
    exact (if_neg (by omega)).symm

/-- **A checked get that ends** has computed with numbers that fit, and every chunk that lies inside
of the array has been overwritten. -/
theorem getArrayChecked_writes (hlow : -2 ^ 31 ≤ offset) (hext : ∀ i, s.ext i = .byte 1)
    (h : getArrayChecked pf a.component address (some (.array r)) offset length s = some s') :
    ∃ cells, s'.arrays[r]? = some { a with cells := cells } ∧
      ∀ k < length.toNat, TMP_SIZE / a.component.size ∣ k → offset + k < 2 ^ 31 ∧
        (Native.inRange (offset + k)
            (min (TMP_SIZE / a.component.size) (length.toNat - k) : ℕ) a.length →
          cells[(offset + k).toNat * a.component.size]? = some (.byte 1)) := by
  have hc := Nat.pos_of_neZero (TMP_SIZE / a.component.size)
  have hloop := @chunked_invariant Native (TMP_SIZE / a.component.size) length.toNat 0 _
    (getRound pf a.component address (some (.array r)) offset) s s'
    (fun off s' => s'.ext = s.ext ∧ ∃ cells, s'.arrays[r]? = some { a with cells := cells } ∧
      cells.length = a.cells.length ∧
      ∀ k < off, TMP_SIZE / a.component.size ∣ k → k < length.toNat → offset + k < 2 ^ 31 ∧
        (Native.inRange (offset + k)
            (min (TMP_SIZE / a.component.size) (length.toNat - k) : ℕ) a.length →
          cells[(offset + k).toNat * a.component.size]? = some (.byte 1)))
    ?_ (Nat.zero_le _) (.inl (Nat.dvd_zero _))
    ⟨rfl, a.cells, ha, rfl, fun k hk => absurd hk (Nat.not_lt_zero k)⟩ h
  · obtain ⟨-, cells, harray, -, hall⟩ := hloop
    exact ⟨cells, harray, fun k hk hdvd => hall k hk hdvd hk⟩
  · intro off s₁ s₂ hoff hdvd hI hround
    obtain ⟨hext₁, cells, ha₁, hlen, hall⟩ := hI
    obtain ⟨hstart, hdst⟩ := getRound_bounds hround
    have hbytes : off * a.component.size < length.toNat * a.component.size :=
      Nat.mul_lt_mul_of_pos_right hoff a.component.size_pos
    have hlength : JavaArray.length { a with cells := cells } = a.length := by
      rw [JavaArray.length, JavaArray.length, hlen]
    obtain ⟨s₃, heq, hinside, houtside⟩ :=
      getRound_eq offset (a := { a with cells := cells }) ha₁ hroom
        (chunk_size_le a.component (length.toNat - off)) hbytes hlow hstart hdst
    obtain rfl : s₂ = s₃ := Option.some.inj (hround.symm.trans heq)
    rw [hlength] at hinside houtside
    -- a chunk in a later round starts at the same place only if it is this one
    have hnext : ∀ k < off + min (TMP_SIZE / a.component.size) (length.toNat - off),
        TMP_SIZE / a.component.size ∣ k → k < off ∨ k = off := by
      intro k hk hkdvd
      rcases Nat.lt_or_ge k off with hlt | hge
      · exact .inl hlt
      · obtain ⟨i, rfl⟩ := hdvd
        obtain ⟨j, rfl⟩ := hkdvd
        have hle := Nat.min_le_left (TMP_SIZE / a.component.size)
          (length.toNat - TMP_SIZE / a.component.size * i)
        have hsucc : TMP_SIZE / a.component.size * j < TMP_SIZE / a.component.size * (i + 1) := by
          rw [Nat.mul_succ]
          omega
        have hji := Nat.lt_of_mul_lt_mul_left hsucc
        have hij := Nat.le_of_mul_le_mul_left hge hc
        exact .inr (by rw [show j = i by omega])
    by_cases hrange : Native.inRange (offset + off)
        (min (TMP_SIZE / a.component.size) (length.toNat - off) : ℕ) a.length
    · obtain ⟨cells', hcells', hkeep⟩ := hinside hrange
      have hr : r < s₁.arrays.length := (List.getElem?_eq_some_iff.mp ha₁).1
      have hget := getElem?_of_splice hcells'
      have hnew : ∀ i, (offset + off).toNat * a.component.size ≤ i →
          i < (offset + off).toNat * a.component.size +
            min (TMP_SIZE / a.component.size) (length.toNat - off) * a.component.size →
          cells'[i]? = some (.byte 1) := by
        intro i hlo hhi
        rw [hget, if_pos ⟨hlo, by rwa [length_extCells]⟩, hext₁]
        simp only [extCells, hext, List.map_const', List.length_range, List.getElem?_replicate]
        exact if_pos (by omega)
      refine ⟨hkeep.ext_eq.trans hext₁, cells', ?_, (length_of_splice hcells').trans hlen, ?_⟩
      · rw [hkeep.arrays_eq]
        exact List.getElem?_set_self hr
      · intro k hk hkdvd hkn
        rcases hnext k hk hkdvd with hlt | rfl
        · refine ⟨(hall k hlt hkdvd hkn).1, fun hkin => ?_⟩
          by_cases hnewer : (offset + off).toNat * a.component.size ≤
              (offset + k).toNat * a.component.size ∧
              (offset + k).toNat * a.component.size < (offset + off).toNat * a.component.size +
                min (TMP_SIZE / a.component.size) (length.toNat - off) * a.component.size
          · exact hnew _ hnewer.1 hnewer.2
          · rw [hget, if_neg (by rwa [length_extCells])]
            exact (hall k hlt hkdvd hkn).2 hkin
        · refine ⟨hstart, fun _ => hnew _ (Nat.le_refl _) ?_⟩
          have hbyte :
              0 < min (TMP_SIZE / a.component.size) (length.toNat - k) * a.component.size :=
            Nat.mul_pos (by omega) a.component.size_pos
          omega
    · have hkeep := houtside hrange
      refine ⟨hkeep.ext_eq.trans hext₁, cells, ?_, hlen, ?_⟩
      · rw [hkeep.arrays_eq]
        exact ha₁
      · intro k hk hkdvd hkn
        rcases hnext k hk hkdvd with hlt | rfl
        · exact hall k hlt hkdvd hkn
        · exact ⟨hstart, fun h => absurd h hrange⟩

end Loops

/-! ### Agreement -/

section Agreement

variable (pf) (t : ComponentType) (address : BitVec 64) (offset length : BitVec 32) (n : ℕ)

/-- The checked put does what the plain one does, to arrays of `n` elements. -/
def PutAgrees : Prop :=
  ∀ s r a, s.arrays[r]? = some a → a.component = t → a.length = n → s.pending = none →
    Option.Rel Native.KeepsHeap
      (putArray pf t address (some (.array r)) offset.toInt length.toInt s)
      (putArrayChecked pf t address (some (.array r)) offset.toInt length.toInt s)

@[inherit_doc PutAgrees]
def GetAgrees : Prop :=
  ∀ s r a, s.arrays[r]? = some a → a.component = t → a.length = n → s.pending = none →
    Option.Rel Native.KeepsHeap
      (getArray pf t address (some (.array r)) offset.toInt length.toInt s)
      (getArrayChecked pf t address (some (.array r)) offset.toInt length.toInt s)

/-- The region lies inside of the array, and its bytes can be counted by an `int`. -/
def PlainRegion : Prop :=
  Native.inRange offset.toInt length.toInt n ∧ length.toInt * t.size ≤ 2 ^ 31

/-- There are chunks, each of them lies at least in part outside of the array, and where they start
can be computed. -/
def OutsideRegion : Prop :=
  0 < length.toInt ∧ length.toInt * t.size ≤ 2 ^ 31 ∧
    ∀ k < length.toInt.toNat, TMP_SIZE / t.size ∣ k → offset.toInt + k < 2 ^ 31 ∧
      ¬Native.inRange (offset.toInt + k)
        (min (TMP_SIZE / t.size) (length.toInt.toNat - k) : ℕ) n

variable {pf t address offset length n}

theorem jint_bound (x : BitVec 32) : -2 ^ 31 ≤ x.toInt := BitVec.le_toInt x

/-- A bound on the bytes of a region is the same for its length and for that length as a natural
number. -/
theorem toNat_mul_le_iff {l : ℤ} {m : ℕ} : l.toNat * m ≤ 2 ^ 31 ↔ l * m ≤ 2 ^ 31 := by
  rcases Int.le_total 0 l with h | h
  · obtain ⟨k, rfl⟩ := Int.eq_ofNat_of_zero_le h
    rw [Int.toNat_natCast]
    exact_mod_cast Iff.rfl
  · have hneg : l * m ≤ 0 := Int.mul_nonpos_of_nonpos_of_nonneg h (Int.natCast_nonneg m)
    rw [Int.toNat_of_nonpos h, Nat.zero_mul]
    exact ⟨fun _ => by omega, fun _ => Nat.zero_le _⟩

/-- The array of the tests below, and the memory around it. -/
def uniform (t : ComponentType) (n : ℕ) (element byte : Cell) : Native where
  arrays := [⟨t, List.replicate (n * t.size) element⟩]
  blocks := []
  ext := fun _ => byte
  errors := ⟨0, 0⟩
  pending := none
  mallocs := 0
  pins := 0
  lastError := 0
  log := []

theorem length_uniform (t : ComponentType) (n : ℕ) (element : Cell) :
    JavaArray.length ⟨t, List.replicate (n * t.size) element⟩ = n := by
  simp only [JavaArray.length, List.length_replicate]
  exact Nat.mul_div_cancel n t.size_pos

/-- The plain put of a region of the array stores its elements at the address, and changes nothing
else of the heap. -/
theorem putArray_inRange {s : Native} {r : ℕ} {a : JavaArray} {offset length : ℤ}
    (ha : s.arrays[r]? = some a) (hne : nativeAddress pf address ≠ 0)
    (hrange : Native.inRange offset length a.length) {xs : List Cell}
    (hxs : slice a.cells (offset.toNat * a.component.size) (length.toNat * a.component.size) =
      some xs) :
    putArray pf a.component address (some (.array r)) offset length s =
      some { s.logged (.jni .getArrayRegion) with
        ext := overlay s.ext (nativeAddress pf address) xs } := by
  obtain ⟨m, rfl⟩ := Int.eq_ofNat_of_zero_le hrange.2.1
  exact Native.getArrayRegion_addr ha hrange hne hxs

/-- The plain get into a region of the array stores there what lies at the address, and changes
nothing else of the heap. -/
theorem getArray_inRange {s : Native} {r : ℕ} {a : JavaArray} {offset length : ℤ}
    (ha : s.arrays[r]? = some a) (hne : nativeAddress pf address ≠ 0)
    (hrange : Native.inRange offset length a.length) {cells : List Cell}
    (hcells : splice a.cells (offset.toNat * a.component.size)
      (extCells s.ext (nativeAddress pf address) (length.toNat * a.component.size)) = some cells) :
    getArray pf a.component address (some (.array r)) offset length s =
      some { s.logged (.jni .setArrayRegion) with
        arrays := s.arrays.set r { a with cells := cells } } := by
  obtain ⟨m, rfl⟩ := Int.eq_ofNat_of_zero_le hrange.2.1
  exact Native.setArrayRegion_of_inRange ha hrange (Native.load_addr hne _) hcells

/-- Where both copies end alike and the one has an outcome, the heap is the same after the other. -/
theorem keepsHeap_of_rel {x : Option Native} {s y : Native}
    (h : Option.Rel Native.KeepsHeap (some s) x) (hx : x = some y) : Native.KeepsHeap s y := by
  subst hx
  cases h with
  | some h => exact h

theorem exists_of_rel {x : Option Native} {s : Native}
    (h : Option.Rel Native.KeepsHeap (some s) x) : ∃ y, x = some y := by
  cases h
  exact ⟨_, rfl⟩

/-- A checked put or get of no elements, or of a negative number of them, makes no round and changes
nothing. -/
theorem chunked_of_nonpos {t : ComponentType} {l : ℤ} (hl : l ≤ 0)
    {round : ℕ → ℕ → Native → Option Native}
    (s : Native) : chunked (TMP_SIZE / t.size) l.toNat round 0 s = some s :=
  chunked_of_le (by omega)

theorem putAgrees_iff (hn : n < 2 ^ 31)
    (hroom : HasRoom pf address (length.toInt.toNat * t.size)) :
    PutAgrees pf t address offset length n ↔ PlainRegion t offset length n := by
  constructor
  · intro hagree
    have ha : (uniform t n (.byte 1) (.byte 0)).arrays[0]? =
        some ⟨t, List.replicate (n * t.size) (.byte 1)⟩ := rfl
    have hlen := length_uniform t n (.byte 1)
    have hrel := hagree _ 0 _ ha rfl hlen rfl
    by_cases hrange : Native.inRange offset.toInt length.toInt n
    · refine ⟨hrange, toNat_mul_le_iff.mp (Nat.le_of_not_lt fun hlarge => ?_)⟩
      obtain ⟨xs, hxs⟩ := exists_region (hlen.symm ▸ hrange)
      rw [putArrayChecked_overflow hlarge, putArray_inRange ha hroom.pos (hlen.symm ▸ hrange) hxs]
        at hrel
      cases hrel
    · exfalso
      rw [putArray, Native.getArrayRegion_of_not_inRange ha (hlen.symm ▸ hrange)] at hrel
      obtain ⟨s', hs'⟩ := exists_of_rel hrel
      have hkeep := keepsHeap_of_rel hrel hs'
      rcases Int.lt_or_le 0 length.toInt with hpos | hnonpos
      · refine putArrayChecked_writes ha hroom (jint_bound offset) hpos ?_ hs' ?_
        · intro x hx
          rw [List.eq_of_mem_replicate hx]
          decide
        · rw [hkeep.ext_eq]
          rfl
      · rw [putArrayChecked, chunked_of_nonpos hnonpos] at hs'
        cases hs'
        exact nomatch hkeep.pending_eq
  · rintro ⟨hrange, hbytes⟩ s r a ha rfl rfl hpending
    obtain ⟨s', xs, hchecked, hxs, hkeep⟩ :=
      putArrayChecked_inRange ha hroom hrange hn (toNat_mul_le_iff.mpr hbytes)
    rw [hchecked, putArray_inRange ha hroom.pos hrange hxs]
    exact .some ⟨hkeep.arrays_eq, hkeep.ext_eq, hkeep.errors_eq, hkeep.pending_eq,
      hkeep.lastError_eq⟩

theorem getAgrees_iff (hn : n < 2 ^ 31)
    (hroom : HasRoom pf address (length.toInt.toNat * t.size)) :
    GetAgrees pf t address offset length n ↔
      PlainRegion t offset length n ∨ OutsideRegion t offset length n := by
  constructor
  · intro hagree
    have ha : (uniform t n (.byte 0) (.byte 1)).arrays[0]? =
        some ⟨t, List.replicate (n * t.size) (.byte 0)⟩ := rfl
    have hlen := length_uniform t n (.byte 0)
    have hrel := hagree _ 0 _ ha rfl hlen rfl
    by_cases hrange : Native.inRange offset.toInt length.toInt n
    · refine .inl ⟨hrange, toNat_mul_le_iff.mp (Nat.le_of_not_lt fun hlarge => ?_)⟩
      obtain ⟨cells, hcells⟩ := exists_replaced (hlen.symm ▸ hrange)
        (extCells (fun _ => .byte 1) (nativeAddress pf address) (length.toInt.toNat * t.size))
        (length_extCells _ _ _)
      rw [getArrayChecked_overflow hlarge,
        getArray_inRange ha hroom.pos (hlen.symm ▸ hrange) hcells] at hrel
      cases hrel
    · right
      rw [getArray, Native.setArrayRegion_of_not_inRange ha (hlen.symm ▸ hrange)] at hrel
      obtain ⟨s', hs'⟩ := exists_of_rel hrel
      have hkeep := keepsHeap_of_rel hrel hs'
      have hpos : 0 < length.toInt := by
        by_contra hnonpos
        rw [getArrayChecked, chunked_of_nonpos (by omega)] at hs'
        cases hs'
        exact nomatch hkeep.pending_eq
      have hbytes : length.toInt * t.size ≤ 2 ^ 31 := by
        refine toNat_mul_le_iff.mp (Nat.le_of_not_lt fun hlarge => ?_)
        rw [getArrayChecked_overflow hlarge] at hs'
        cases hs'
      refine ⟨hpos, hbytes, fun k hk hdvd => ?_⟩
      obtain ⟨cells, harray, hall⟩ :=
        getArrayChecked_writes ha hroom (jint_bound offset) (fun _ => rfl) hs'
      rw [hkeep.arrays_eq] at harray
      obtain rfl : List.replicate (n * t.size) (Cell.byte 0) = cells := by
        have h := ha.symm.trans harray
        cases h
        rfl
      obtain ⟨hstart, hwritten⟩ := hall k hk hdvd
      refine ⟨hstart, fun hin => ?_⟩
      have hcell := hwritten (hlen.symm ▸ hin)
      rw [List.getElem?_replicate] at hcell
      split at hcell
      · cases hcell
      · cases hcell
  · rintro (⟨hrange, hbytes⟩ | ⟨hpos, hbytes, hchunks⟩) s r a ha rfl rfl hpending
    · obtain ⟨s', cells, hchecked, hcells, hkeep⟩ :=
        getArrayChecked_inRange ha hroom hrange hn (toNat_mul_le_iff.mpr hbytes)
      rw [hchecked, getArray_inRange ha hroom.pos hrange hcells]
      exact .some
        ⟨hkeep.arrays_eq, hkeep.ext_eq, hkeep.errors_eq, hkeep.pending_eq, hkeep.lastError_eq⟩
    · obtain ⟨s', hchecked, hkeep⟩ := getArrayChecked_outside ha hroom (jint_bound offset) hpos
        (toNat_mul_le_iff.mpr hbytes) hchunks
      have hrange : ¬Native.inRange offset.toInt length.toInt a.length := by
        rintro ⟨h0, h1, h2⟩
        obtain ⟨-, houtside⟩ := hchunks 0 (by omega) (Nat.dvd_zero _)
        have hle := Nat.min_le_right (TMP_SIZE / a.component.size) (length.toInt.toNat - 0)
        generalize min (TMP_SIZE / a.component.size) (length.toInt.toNat - 0) = len at houtside hle
        exact houtside ⟨by omega, by omega, by omega⟩
      rw [hchecked, getArray, Native.setArrayRegion_of_not_inRange ha hrange]
      exact .some
        ⟨hkeep.arrays_eq, hkeep.ext_eq, hkeep.errors_eq, hkeep.pending_eq, hkeep.lastError_eq⟩

/-- **Checked copies agree with plain ones** when the region lies inside of the array and has at
most `2 ^ 31` bytes. A get agrees as well when there is no chunk it could copy. -/
theorem checkedCopies_agree_iff (hn : n < 2 ^ 31)
    (hroom : HasRoom pf address (length.toInt.toNat * t.size)) :
    (PutAgrees pf t address offset length n ↔ PlainRegion t offset length n) ∧
      (GetAgrees pf t address offset length n ↔
        PlainRegion t offset length n ∨ OutsideRegion t offset length n) :=
  ⟨putAgrees_iff hn hroom, getAgrees_iff hn hroom⟩

end Agreement

/-- 4097 of 5000 bytes, which are two chunks, are put and got alike by both implementations. -/
theorem checkedCopies_agree_iff_twoChunks :
    (PutAgrees .linuxX64 .byte 4096 3 4097 5000 ↔ PlainRegion .byte 3 4097 5000) ∧
      (GetAgrees .linuxX64 .byte 4096 3 4097 5000 ↔
        PlainRegion .byte 3 4097 5000 ∨ OutsideRegion .byte 3 4097 5000) :=
  checkedCopies_agree_iff (by decide) ⟨by decide, by decide⟩

/-- 4097 of 4096 bytes: the first chunk has been copied when the second one throws. -/
theorem not_checkedCopies_agree_lastByte :
    ¬PutAgrees .linuxX64 .byte 4096 0 4097 4096 ∧ ¬GetAgrees .linuxX64 .byte 4096 0 4097 4096 := by
  have hroom : HasRoom .linuxX64 4096 ((4097 : BitVec 32).toInt.toNat * ComponentType.byte.size) :=
    ⟨by decide, by decide⟩
  have hplain : ¬PlainRegion .byte 0 4097 4096 := by
    rintro ⟨⟨-, -, hend⟩, -⟩
    exact absurd hend (by decide)
  constructor
  · intro hagree
    exact hplain ((putAgrees_iff (by decide) hroom).mp hagree)
  · intro hagree
    rcases (getAgrees_iff (by decide) hroom).mp hagree with h | ⟨-, -, hchunks⟩
    · exact hplain h
    · obtain ⟨-, hfirst⟩ := hchunks 0 (by decide) (Nat.dvd_zero _)
      exact hfirst (by decide)

end Jffi
