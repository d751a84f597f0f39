import Jffi.Marshalling
import Jffi.ScalarCall

/-!
# Calls with one array

An array that is passed without `PINNED` reaches the callee as a copy of the elements asked for,
one that is passed with it as a pointer to its own elements. The native functions here work on the
elements they are given and touch nothing else.

The lemmas about copies run backwards: from the fact that the invocation got to its call they tell
what that presupposes.

## Main definitions

* `ElementsCallee` — a native function that works on the elements it is given
* `Acquired` — what the round of a copied array leaves

## Main results

* `copyArray_inv` — what a copy is, wherever it was made
* `arrayStep_inv`, `copied_inv` — a round, and an invocation, that get past a copied array
* `copied_call` — a call with a copy
* `pinned_call` — a call with a pinned array
-/

namespace Jffi

open ObjectBuffer

variable {pf : Platform} {jvm : Jvm} {ctx : NativeCallContext}

/-! ### Flags -/

namespace ArrayFlags

/-- `ArrayFlags.isOut`. -/
def isOut (flags : BitVec 32) : Bool := flags &&& (OUT ||| IN) != IN

/-- `ArrayFlags.isIn`. -/
def isIn (flags : BitVec 32) : Bool := flags &&& (OUT ||| IN) != OUT

end ArrayFlags

/-- A combination of `IN` and `OUT`. -/
def ioFlags (input output : Bool) : BitVec 32 :=
  (if input then IN else 0) ||| (if output then OUT else 0)

section Flags

variable (t : ComponentType) (input output : Bool) (k : ℕ)

/-- The direction of an array, as the C macros read it. -/
theorem arrayFlags_and_direction :
    Put.arrayFlags t (ioFlags input output) k &&& (ARRAY ||| IN ||| OUT) =
      ioFlags input output ||| ARRAY := by
  have hindex : INDEX_MASK &&& (ARRAY ||| IN ||| OUT) = 0#32 := by decide
  rw [Put.arrayFlags, makeObjectFlags_and, hindex, BitVec.and_zero, BitVec.or_zero]
  cases input <;> cases output <;> cases t <;> decide

theorem isInArray_ioFlags :
    isInArray (Put.arrayFlags t (ioFlags input output) k) =
      ArrayFlags.isIn (ioFlags input output) := by
  rw [isInArray, arrayFlags_and_direction]
  cases input <;> cases output <;> decide

theorem isOutArray_ioFlags :
    isOutArray (Put.arrayFlags t (ioFlags input output) k) =
      ArrayFlags.isOut (ioFlags input output) := by
  rw [isOutArray, arrayFlags_and_direction]
  cases input <;> cases output <;> decide

theorem isPinned_ioFlags : isPinned (Put.arrayFlags t (ioFlags input output) k) = false := by
  rw [isPinned_arrayFlags]
  cases input <;> cases output <;> decide

theorem isPinned_ioFlags_pinned :
    isPinned (Put.arrayFlags t (ioFlags input output ||| PINNED) k) = true := by
  rw [isPinned_arrayFlags]
  cases input <;> cases output <;> decide

theorem isCleared_ioFlags : isCleared (Put.arrayFlags t (ioFlags input output) k) = false := by
  rw [isCleared, arrayFlags_and t _ k (by decide) (by decide) (by cases t <;> decide)]
  cases input <;> cases output <;> decide

/-- No `NUL` is stored behind the copy of an array that is passed `OUT` only. -/
theorem isTerminated_ioFlags (h : ArrayFlags.isIn (ioFlags input output) = false) :
    isTerminated (Put.arrayFlags t (ioFlags input output) k) = false := by
  rw [isTerminated, arrayFlags_and t _ k (by decide) (by decide) (by cases t <;> decide)]
  revert h
  cases input <;> cases output <;> decide

end Flags

/-! ### Copies, backwards

From the fact that a copy was acquired to what that presupposes. -/

section Copies

variable {s s' : Native} {blocks : List Block} {blk : Block} {r : ℕ} {a : JavaArray}
  {offset length : ℤ} {type : BitVec 32}

theorem Native.store_top_inv (htop : s.blocks = blocks ++ [blk]) (hlive : blk.live = true) {off : ℕ}
    {xs : List Cell} (h : s.store (.block blocks.length off) xs = some s') :
    ∃ cells, splice blk.cells off xs = some cells ∧
      s'.blocks = blocks ++ [{ blk with cells := cells }] ∧ s.KeepsHeap s' := by
  have hget : s.toMemory.blocks[blocks.length]? = some blk := by
    rw [htop, List.getElem?_append_right (Nat.le_refl _), Nat.sub_self]
    rfl
  obtain ⟨m, hm, rfl⟩ := Option.map_eq_some_iff.mp h
  rw [Memory.store_block hget hlive] at hm
  obtain ⟨cells, hsplice, rfl⟩ := Option.map_eq_some_iff.mp hm
  refine ⟨cells, hsplice, ?_, ⟨rfl, rfl, rfl, rfl, rfl⟩⟩
  simp [htop]

/-- The elements of the array that a copy holds. -/
def CopyOf (offset length : ℤ) (a : JavaArray) (cells : List Cell) : Prop :=
  Native.inRange offset length a.length ∧
    slice cells 0 (length.toNat * a.component.size) =
      slice a.cells (offset.toNat * a.component.size) (length.toNat * a.component.size)

theorem copyData_inv (htop : s.blocks = blocks ++ [blk]) (hlive : blk.live = true)
    (ha : s.arrays[r]? = some a) (hpending : s.pending = none)
    (h : copyData a.component type (some (.array r)) offset length (.block blocks.length 0) s =
      some (true, s')) :
    ∃ cells, s'.blocks = blocks ++ [{ blk with cells := cells }] ∧
      cells.length = blk.cells.length ∧ (isInArray type = true → CopyOf offset length a cells) ∧
      s.KeepsHeap s' := by
  unfold copyData at h
  split at h
  · obtain ⟨s₁, hget, h⟩ := Option.bind_eq_some_iff.mp h
    simp only [Native.getArrayRegion, Native.arrayOf, ha, Option.bind_eq_bind, Option.bind_some,
      if_true] at hget
    split at hget
    · rename_i hrange
      obtain ⟨xs, hxs, hstore⟩ := Option.bind_eq_some_iff.mp hget
      obtain ⟨cells, hsplice, hblocks, hkeep⟩ :=
        Native.store_top_inv (s := s.logged _) htop hlive hstore
      have hnone : s₁.pending = none := hkeep.pending_eq.trans hpending
      simp only [Native.exceptionCheck, hnone] at h
      cases h
      refine ⟨cells, hblocks, length_of_splice hsplice, fun _ => ⟨hrange, ?_⟩,
        (Native.keepsHeap_logged s _).trans
          (hkeep.trans (Native.keepsHeap_logged s₁ (.jni .exceptionCheck)))⟩
      have hself := slice_splice_self hsplice
      rw [length_of_slice hxs] at hself
      rw [hself, hxs]
    · cases hget
      cases h
  · rename_i hin
    split at h
    · obtain ⟨s₁, hset, h⟩ := Option.bind_eq_some_iff.mp h
      cases h
      unfold Native.memset at hset
      split at hset
      · obtain ⟨cells, hsplice, hblocks, hkeep⟩ := Native.store_top_inv htop hlive hset
        exact ⟨cells, hblocks, length_of_splice hsplice, fun h => absurd h hin, hkeep⟩
      · cases hset
    · cases h
      exact ⟨blk.cells, htop, rfl, fun h => absurd h hin, .refl s⟩

theorem terminate_inv {t : ComponentType} (htop : s.blocks = blocks ++ [blk])
    (hlive : blk.live = true)
    (h : terminate pf t type (.block blocks.length 0) length s = some s') :
    ∃ cells, s'.blocks = blocks ++ [{ blk with cells := cells }] ∧
      cells.length = blk.cells.length ∧
      slice cells 0 (length.toNat * t.size) = slice blk.cells 0 (length.toNat * t.size) ∧
      s.KeepsHeap s' := by
  unfold terminate at h
  split at h
  · rename_i hbyte
    by_cases hneg : length < 0
    · obtain ⟨m, hm, -⟩ := Option.map_eq_some_iff.mp h
      obtain ⟨blk', -, hm⟩ := Option.bind_eq_some_iff.mp hm
      rw [if_neg (by omega)] at hm
      cases hm
    · obtain ⟨n, rfl⟩ := Int.eq_ofNat_of_zero_le (Int.not_lt.mp hneg)
      have hadd : Ptr.add pf (.block blocks.length 0) n = .block blocks.length n := by
        simp only [Ptr.add, Int.zero_add]
      rw [hadd] at h
      obtain ⟨cells, hsplice, hblocks, hkeep⟩ := Native.store_top_inv htop hlive h
      refine ⟨cells, hblocks, length_of_splice hsplice, slice_splice_disjoint hsplice ?_, hkeep⟩
      rw [hbyte.1, show ComponentType.byte.size = 1 from rfl, Int.toNat_natCast]
      omega
  · cases h
    exact ⟨blk.cells, htop, rfl, rfl, .refl s⟩

theorem fillArray_inv (htop : s.blocks = blocks ++ [blk]) (hlive : blk.live = true)
    (ha : s.arrays[r]? = some a) (hpending : s.pending = none) {release : Option Release}
    {acquired : NativeArray}
    (h : fillArray pf a.component (some (.array r)) offset length type (.block blocks.length 0)
      release s = some (some acquired, s')) :
    acquired = ⟨some (.array r), .block blocks.length 0, offset, length, type,
        if isOutArray type then some a.component else none, release⟩ ∧
      ∃ cells, s'.blocks = blocks ++ [{ blk with cells := cells }] ∧
        cells.length = blk.cells.length ∧ (isInArray type = true → CopyOf offset length a cells) ∧
        s.KeepsHeap s' := by
  obtain ⟨⟨copied, s₁⟩, hcopy, h⟩ := Option.bind_eq_some_iff.mp h
  cases copied with
  | false => cases h
  | true =>
    obtain ⟨s₂, hterm, h⟩ := Option.bind_eq_some_iff.mp h
    cases h
    obtain ⟨cells, hblocks, hlen, hin, hkeep⟩ := copyData_inv htop hlive ha hpending hcopy
    obtain ⟨cells', hblocks', hlen', hslice, hkeep'⟩ := terminate_inv hblocks hlive hterm
    refine ⟨rfl, cells', hblocks', hlen'.trans hlen, fun h => ?_, hkeep.trans hkeep'⟩
    exact ⟨(hin h).1, hslice.trans (hin h).2⟩

end Copies

/-! ### The round of a copied array, backwards -/

/-- The size in bytes of the copy, with its spare element, as it comes out of `int` arithmetic. -/
def copySize (t : ComponentType) (length : ℤ) : ℤ := toJint ((length + 1) * t.size)

theorem size_le (t : ComponentType) : t.size ≤ 8 := by
  cases t <;> decide

/-- Wrapping around makes a size too large for an `int` smaller than itself by more than one
element. -/
theorem toJint_le_sub {x : ℤ} (h : 2 ^ 31 ≤ x) : toJint x ≤ x - 2 ^ 32 := by
  have hlt : x.bmod (2 ^ 32) < (2 ^ 32 + 1) / 2 := Int.bmod_lt (by decide)
  have hdiv := Int.bmod_add_bdiv x (2 ^ 32)
  have hbdiv : 1 ≤ x.bdiv (2 ^ 32) := by
    by_contra hneg
    omega
  rw [toJint]
  omega

theorem size_lt_of_room {t : ComponentType} {n : ℤ} (h : n * t.size ≤ copySize t n) :
    (n + 1) * t.size < 2 ^ 31 := by
  by_contra hge
  have hwrap := toJint_le_sub (Int.not_lt.mp hge)
  have hsize := size_le t
  rw [copySize, Int.add_mul] at *
  omega

/-- From `s` to `s'` a copy of `length` elements of the array `r` was acquired. -/
structure Acquired (e : ObjectEntry) (r : ℕ) (a : JavaArray) (s s' : Native)
    (acquired : NativeArray) (blk : Block) : Prop where
  acquired_eq : acquired = ⟨some (.array r), .block s.blocks.length 0, e.offset.toInt,
    e.length.toInt, e.flags, if isOutArray e.flags then some a.component else none,
    acquired.release⟩
  release : acquired.release = none ∨ acquired.release = some .heapArray ∧ blk.storage = .heap
  blocks_eq : s'.blocks = s.blocks ++ [blk]
  live : blk.live = true
  size_nonneg : 0 ≤ copySize a.component e.length.toInt
  size_eq : blk.cells.length = (copySize a.component e.length.toInt).toNat
  copied : isInArray e.flags = true → CopyOf e.offset.toInt e.length.toInt a blk.cells
  heap : s.KeepsHeap s'

/-- Where a copy was made, it lies in a new block, on the stack or from `malloc`, that has the size
computed for it and holds the elements if they were to be copied in. -/
theorem copyArray_inv {e : ObjectEntry} {s s' : Native} {r : ℕ} {a : JavaArray}
    {acquired : NativeArray} (htype : componentOf e.flags = some a.component)
    (ha : s.arrays[r]? = some a) (hpending : s.pending = none)
    (h : copyArray pf jvm (some (.array r)) e.offset.toInt e.length.toInt e.flags s =
      some (some acquired, s')) :
    ∃ blk, Acquired e r a s s' acquired blk := by
  rw [copyArray] at h
  split at h
  · obtain ⟨⟨ptr, s₁⟩, halloca, hbuffer⟩ := Option.bind_eq_some_iff.mp h
    simp only [Native.alloca, arraySize, htype] at halloca
    split at halloca
    · rename_i hnonneg
      cases halloca
      simp only [getArrayBuffer, htype] at hbuffer
      let size := toJint ((e.length.toInt + 1) * a.component.size)
      let u := s.newBlock .stack size.toNat
      have htop : u.blocks = s.blocks ++ [⟨.stack, true, List.replicate size.toNat .undef⟩] := rfl
      have hu : s.KeepsHeap u := ⟨rfl, rfl, rfl, rfl, rfl⟩
      obtain ⟨rfl, cells, hblocks, hlen, hin, hkeep⟩ := fillArray_inv htop rfl ha hpending hbuffer
      rw [List.length_replicate] at hlen
      exact ⟨_, rfl, .inl rfl, hblocks, rfl, hnonneg, hlen, hin, hu.trans hkeep⟩
    · cases halloca
  · simp only [getArrayHeap, htype] at h
    split at h
    · unfold Native.malloc at h
      split at h
      · rename_i hmalloc
        split at hmalloc
        · cases hmalloc
        · rename_i hsize
          cases hmalloc
          have hcomm : (a.component.size : ℤ) * (e.length.toInt + 1) =
            (e.length.toInt + 1) * a.component.size := Int.mul_comm ..
          rw [hcomm] at hsize h
          let size := toJint ((e.length.toInt + 1) * a.component.size)
          let u : Native :=
            { (s.newBlock .heap size.toNat).logged (.malloc s.blocks.length) with
              mallocs := s.mallocs + 1 }
          have htop : u.blocks =
            s.blocks ++ [⟨.heap, true, List.replicate size.toNat .undef⟩] := rfl
          have hu : s.KeepsHeap u := ⟨rfl, rfl, rfl, rfl, rfl⟩
          obtain ⟨rfl, cells, hblocks, hlen, hin, hkeep⟩ := fillArray_inv htop rfl ha hpending h
          rw [List.length_replicate] at hlen
          have hnonneg : 0 ≤ size := Int.not_lt.mp fun h => hsize (.inl h)
          exact ⟨_, rfl, .inr ⟨rfl, rfl⟩, hblocks, rfl, hnonneg, hlen, hin, hu.trans hkeep⟩
      · cases h
    · cases h

/-- A round for a copied array that goes on has acquired a copy of it, added it to the record and
passed a pointer to its block. -/
theorem arrayStep_inv {e : ObjectEntry} {l l' : ObjectLoop} {r : ℕ} {a : JavaArray}
    (hpinned : isPinned e.flags = false) (htype : componentOf e.flags = some a.component)
    (hobject : e.object = some (.array r)) (ha : l.native.arrays[r]? = some a)
    (hpending : l.native.pending = none)
    (h : arrayStep pf jvm ctx e l = some (.next l')) :
    ∃ acquired s blk, Acquired e r a l.native s acquired blk ∧
      setArg pf ctx (descriptorIndex e.flags) (.block l.native.blocks.length 0)
        { l with arrays := l.arrays ++ [acquired], native := s } = some (.next l') := by
  rw [arrayStep_eq_copyArray ctx hobject hpinned, hobject] at h
  obtain ⟨⟨acquired, s⟩, hcopy, hadd⟩ := Option.bind_eq_some_iff.mp h
  cases acquired with
  | none => cases hadd
  | some acquired =>
    obtain ⟨blk, hacquired⟩ := copyArray_inv htype ha hpending hcopy
    refine ⟨acquired, s, blk, hacquired, ?_⟩
    rw [addArray, hacquired.acquired_eq] at hadd
    rw [hacquired.acquired_eq]
    exact hadd

/-! ### Native functions that work on elements -/

/-- A pointer that is no number is told from its bytes. -/
theorem Ptr.ofDigits_digits (pf : Platform) {p : Ptr} (hp : ∀ a, p ≠ .addr a) :
    Ptr.ofDigits pf (p.digits pf) = some p := by
  obtain ⟨n, hn⟩ := Nat.exists_eq_succ_of_ne_zero (Nat.ne_of_gt pf.ptrSize_pos)
  have hdigits : p.digits pf = (List.range pf.ptrSize).map (.frag p) := by
    cases p with
    | addr a => exact absurd rfl (hp a)
    | _ => rfl
  have hcons : (List.range pf.ptrSize).map (Cell.frag p) =
      .frag p 0 :: (List.range n).map (Cell.frag p ∘ Nat.succ) := by
    rw [hn, List.range_succ_eq_map, List.map_cons, List.map_map]
  rw [hdigits, hcons, Ptr.ofDigits, if_pos]
  rw [hdigits, hcons]

/-- The pointer passed as argument `k` and the `n` bytes it points to. -/
def received (pf : Platform) (k n : ℕ) (args : List (List Cell)) (m : Memory) :
    Option (Ptr × List Cell) := do
  let digits ← args[k]?
  let p ← Ptr.ofDigits pf digits
  let xs ← m.load p n
  some (p, xs)

/-- What a native function makes of the `n` bytes it is given, and its result. -/
structure ElementsCallee (n : ℕ) where
  write : List Cell → List Cell
  result : List Cell → List Cell
  length_write : ∀ xs, (write xs).length = n

/-- The function finds the bytes through argument `k`, and touches nothing else. -/
def ElementsCallee.run {n : ℕ} (pf : Platform) (k : ℕ) (c : ElementsCallee n) : Callee :=
  fun args m =>
    match received pf k n args m with
    | none => ⟨m, [], none, none⟩
    | some (p, xs) => ⟨(m.store p (c.write xs)).getD m, c.result xs, none, none⟩

/-- It reads the elements only if the array is passed `IN`. -/
def ElementsCallee.Respects {n : ℕ} (c : ElementsCallee n) (flags : BitVec 32) : Prop :=
  ArrayFlags.isIn flags = false → ∀ xs ys, c.write xs = c.write ys ∧ c.result xs = c.result ys

section Callee

variable {k n : ℕ} {args : List (List Cell)} {m : Memory} {p : Ptr}

theorem received_eq (hargs : args[k]? = some (p.digits pf)) (hp : ∀ a, p ≠ .addr a) :
    received pf k n args m = (m.load p n).map (p, ·) := by
  rw [received, hargs]
  simp only [Option.bind_eq_bind, Option.bind_some, Ptr.ofDigits_digits pf hp]
  cases m.load p n <;> rfl

theorem ElementsCallee.thrown_run (c : ElementsCallee n) :
    (c.run pf k args m).thrown = none := by
  rw [ElementsCallee.run]
  split <;> rfl

/-- A function that is given the address of a block reads its first `n` bytes and overwrites them,
and nothing else. -/
theorem ElementsCallee.run_block (c : ElementsCallee n) {b : ℕ} {blk : Block}
    (hargs : args[k]? = some ((Ptr.block b 0).digits pf)) (hb : m.blocks[b]? = some blk)
    (hlive : blk.live = true) (hn : n ≤ blk.cells.length) :
    ∃ xs cells, received pf k n args m = some (.block b 0, xs) ∧ slice blk.cells 0 n = some xs ∧
      splice blk.cells 0 (c.write xs) = some cells ∧
      (c.run pf k args m).memory =
        { m with blocks := m.blocks.set b { blk with cells := cells } } := by
  obtain ⟨xs, hxs⟩ : ∃ xs, slice blk.cells 0 n = some xs := exists_slice (by omega)
  obtain ⟨cells, hcells⟩ : ∃ cells, splice blk.cells 0 (c.write xs) = some cells :=
    exists_splice (by rw [c.length_write]; omega)
  have hload : m.load (.block b 0) n = some xs := (Memory.load_block hb hlive 0 n).trans hxs
  have hstore : m.store (.block b 0) (c.write xs) =
      some { m with blocks := m.blocks.set b { blk with cells := cells } } := by
    have h := Memory.store_block hb hlive 0 (c.write xs)
    rw [hcells] at h
    exact h
  have hreceived : received pf k n args m = some (.block b 0, xs) := by
    rw [received_eq hargs (by simp), hload]
    rfl
  refine ⟨xs, cells, hreceived, hxs, hcells, ?_⟩
  simp only [ElementsCallee.run, hreceived, hstore, Option.getD_some]

/-- A function that is given the address of the elements of a Java array reads `n` bytes from there
on and overwrites them in the array itself. -/
theorem ElementsCallee.run_array (c : ElementsCallee n) {r off : ℕ} {a : JavaArray}
    (hargs : args[k]? = some ((Ptr.array r off).digits pf)) (ha : m.arrays[r]? = some a)
    (hn : off + n ≤ a.cells.length) :
    ∃ xs cells, received pf k n args m = some (.array r off, xs) ∧
      slice a.cells off n = some xs ∧ splice a.cells off (c.write xs) = some cells ∧
      (c.run pf k args m).memory =
        { m with arrays := m.arrays.set r { a with cells := cells } } := by
  obtain ⟨xs, hxs⟩ : ∃ xs, slice a.cells off n = some xs := exists_slice hn
  obtain ⟨cells, hcells⟩ : ∃ cells, splice a.cells off (c.write xs) = some cells :=
    exists_splice (by rw [c.length_write]; exact hn)
  have hload : m.load (.array r off) n = some xs := by
    simp [Memory.load, ha, hxs]
  have hstore : m.store (.array r off) (c.write xs) =
      some { m with arrays := m.arrays.set r { a with cells := cells } } := by
    simp [Memory.store, ha, hcells]
  have hreceived : received pf k n args m = some (.array r off, xs) := by
    rw [received_eq hargs (by simp), hload]
    rfl
  refine ⟨xs, cells, hreceived, hxs, hcells, ?_⟩
  simp only [ElementsCallee.run, hreceived, hstore, Option.getD_some]

end Callee

/-! ### Up to the call and back -/

/-- The loops are through, and parameter `k` is passed `ptr`. -/
structure Ready (pf : Platform) (ctx : NativeCallContext) (k : ℕ) (ptr : Ptr) (l : ObjectLoop) :
    Prop where
  slots : l.frame.InSlots ctx.cif.argTypes.length
  passed : slice l.frame.tmpBuffer (k * slotSize) pf.ptrSize = some (ptr.image pf)

/-- The call passes the pointer that is ready for its parameter, and what follows it is the clean-up
of the state the callee leaves. -/
theorem finishCall_ready {k : ℕ} {ptr : Ptr} {l : ObjectLoop} (h : ctx.Scalar pf)
    (ht : ctx.cif.argTypes[k]? = some .pointer) (hready : Ready pf ctx k ptr l)
    (callee : Callee) :
    ∃ args retval, args[k]? = some (ptr.digits pf) ∧
      finishCall pf ctx callee (returnBuffer pf ctx.cif.rtype) (.next l) =
        (releaseArrays l.arrays
          (saveErrno pf ctx (l.native.returned (callee args l.native.toMemory)))).map fun s =>
            ⟨some ⟨l.frame, args, l.native.toMemory⟩, retval, s⟩ := by
  obtain ⟨args, retval, hargs, -, hfinish⟩ := finishCall_scalar h hready.slots
    (returnBuffer pf ctx.cif.rtype) (.of_max (by simp [returnBuffer])) callee
  obtain ⟨args', hargs', -, hget⟩ := readArgs_scalar h hready.slots l.native.toMemory
  rw [hargs, Option.some.injEq] at hargs'
  subst hargs'
  refine ⟨args, retval, ?_, hfinish⟩
  have hk := hget k .pointer ht
  simp only [FFIType.valueSize, FFIType.size, hready.passed, Option.map_some] at hk
  rw [hk, Ptr.image, ByteOrder.arrange_arrange]

section Invocations

variable {k r : ℕ} {a : JavaArray} {s : Native} {bs : List Byte} {e : ObjectEntry}

/-- The entry of an array at parameter `k`, of type `pointer`. -/
structure ArrayEntry (ctx : NativeCallContext) (k r : ℕ) (t : ComponentType) (e : ObjectEntry) :
    Prop where
  argType : ctx.cif.argTypes[k]? = some .pointer
  kind : decodeKind e.flags = .array
  index : descriptorIndex e.flags = k
  component : componentOf e.flags = some t
  object : e.object = some (.array r)

/-- **What a call with a copy presupposes**, seen from the call. -/
theorem copied_inv (h : ctx.Scalar pf) (he : ArrayEntry ctx k r a.component e)
    (hpinned : isPinned e.flags = false) (hbs : bs.length = ctx.cif.argTypes.length * slotSize)
    (ha : s.arrays[r]? = some a) (hpending : s.pending = none) {l : ObjectLoop}
    (hprepare : prepareCall pf jvm ctx bs [e] s = some (.next l)) :
    ∃ acquired blk, Acquired e r a s l.native acquired blk ∧ l.arrays = [acquired] ∧
      Ready pf ctx k (.block s.blocks.length 0) l := by
  obtain ⟨frame, s₁, hframe, hslots, -, hkeep, hblocks⟩ := newFrame_scalar h s hbs
  rw [prepareCall, hframe] at hprepare
  change resolveObjects pf jvm ctx [e] ⟨frame, [], [], s₁⟩ = some (.next l) at hprepare
  obtain ⟨flow, hloop, hpin⟩ := Option.bind_eq_some_iff.mp hprepare
  rcases loopM_cons_eq_some.mp hloop with ⟨l₁, hstep, hnil⟩ | ⟨l₁, -, rfl⟩
  · cases hnil
    simp only [objectStep, he.kind] at hstep
    obtain ⟨acquired, s₂, blk, hacquired, hset⟩ := arrayStep_inv hpinned he.component he.object
      (by rw [hkeep.arrays_eq]; exact ha) (hkeep.pending_eq.trans hpending) hstep
    rw [he.index] at hset
    obtain ⟨tmpBuffer, htmp, hset', hslots'⟩ := setArg_scalar pf
      (l := ⟨frame, [acquired], [], s₂⟩) he.argType hslots (.block s₁.blocks.length 0)
    rw [List.nil_append, hset', Option.some.injEq, Flow.next.injEq] at hset
    subst hset
    cases hpin
    refine ⟨acquired, blk, ?_, rfl, hslots', ?_⟩
    · refine ⟨?_, hacquired.release, ?_, hacquired.live, hacquired.size_nonneg, hacquired.size_eq,
        hacquired.copied, hkeep.trans hacquired.heap⟩
      · rw [← hblocks]
        exact hacquired.acquired_eq
      · rw [← hblocks]
        exact hacquired.blocks_eq
    · rw [← hblocks]
      have hself := slice_splice_self htmp
      rwa [Ptr.length_image] at hself
  · cases hpin

/-- A round that acquires a copy leads up to the call. -/
theorem exists_prepareCall_copied (h : ctx.Scalar pf) (he : ArrayEntry ctx k r a.component e)
    (hbs : bs.length = ctx.cif.argTypes.length * slotSize)
    (hacquires : ∀ l : ObjectLoop, s.KeepsHeap l.native → ∃ acquired s',
      arrayStep pf jvm ctx e l = addArray pf ctx (descriptorIndex e.flags) l (some acquired, s')) :
    ∃ l, prepareCall pf jvm ctx bs [e] s = some (.next l) := by
  obtain ⟨frame, s₁, hframe, hslots, -, hkeep, -⟩ := newFrame_scalar h s hbs
  obtain ⟨acquired, s', hstep⟩ := hacquires ⟨frame, [], [], s₁⟩ hkeep
  obtain ⟨tmpBuffer, -, hset, -⟩ := setArg_scalar pf ⟨frame, [acquired], [], s'⟩
    he.argType hslots acquired.elems
  refine ⟨⟨⟨tmpBuffer, frame.ffiArgs⟩, [acquired], [], s'⟩, ?_⟩
  have hround : objectStep pf jvm ctx e ⟨frame, [], [], s₁⟩ =
      some (.next ⟨⟨tmpBuffer, frame.ffiArgs⟩, [acquired], [], s'⟩) := by
    simp only [objectStep, he.kind, hstep, addArray, he.index, List.nil_append]
    exact hset
  rw [prepareCall, hframe]
  simp only [Option.bind_eq_bind, Option.bind_some, resolveObjects, loopM_singleton hround]
  rfl

/-- **What a call with a pinned array does** before the call: nothing can go wrong, and the callee
gets the start of the elements plus `offset` bytes. -/
theorem pinned_prepareCall (h : ctx.Scalar pf) (he : ArrayEntry ctx k r a.component e)
    (hpinned : isPinned e.flags = true) (hbs : bs.length = ctx.cif.argTypes.length * slotSize)
    (ha : s.arrays[r]? = some a) :
    ∃ l, prepareCall pf .reliable ctx bs [e] s = some (.next l) ∧ s.KeepsHeap l.native ∧
      l.arrays = [⟨some (.array r), .array r 0, e.offset.toInt, e.length.toInt, e.flags, none,
        some .criticalArray⟩] ∧
      Ready pf ctx k (.array r e.offset.toInt) l := by
  obtain ⟨frame, s₁, hframe, hslots, -, hkeep, -⟩ := newFrame_scalar h s hbs
  let pinned : Pinned := ⟨some (.array r), e.offset.toInt, e.length.toInt, e.flags⟩
  obtain ⟨tmp₁, -, hset₁, hslots₁⟩ := setArg_scalar pf ⟨frame, [], [pinned], s₁⟩
    he.argType hslots (.addr 0)
  let s₂ : Native := { s₁.logged (.pin r) with pins := s₁.pins + 1 }
  obtain ⟨tmp₂, htmp₂, hset₂, hslots₂⟩ := setArg_scalar pf ⟨⟨tmp₁, frame.ffiArgs⟩, [], [pinned], s₂⟩
    he.argType hslots₁ (.array r e.offset.toInt)
  refine ⟨⟨⟨tmp₂, frame.ffiArgs⟩, [⟨some (.array r), .array r 0, e.offset.toInt, e.length.toInt,
    e.flags, none, some .criticalArray⟩], [pinned], s₂⟩, ?_, ?_, rfl, hslots₂, ?_⟩
  · have hround : objectStep pf .reliable ctx e ⟨frame, [], [], s₁⟩ =
        some (.next ⟨⟨tmp₁, frame.ffiArgs⟩, [], [pinned], s₁⟩) := by
      simp only [objectStep, he.kind, arrayStep, he.object, hpinned, if_true, he.index,
        List.nil_append]
      exact hset₁
    have hpin : getArrayCritical pf .reliable pinned.object pinned.offset pinned.length e.flags
        s₁ = some (some (.array r e.offset.toInt, ⟨some (.array r), .array r 0, e.offset.toInt,
          e.length.toInt, e.flags, none, some .criticalArray⟩), s₂) := by
      have ha' : s₁.toMemory.arrays[r]? = some a := by
        rw [hkeep.arrays_eq]
        exact ha
      simp [getArrayCritical, Native.getPrimitiveArrayCritical, pinned, ha', Jvm.reliable, Ptr.add,
        s₂]
    have hpinRound : pinStep pf .reliable ctx pinned ⟨⟨tmp₁, frame.ffiArgs⟩, [], [pinned], s₁⟩ =
        some (.next ⟨⟨tmp₂, frame.ffiArgs⟩, [⟨some (.array r), .array r 0, e.offset.toInt,
          e.length.toInt, e.flags, none, some .criticalArray⟩], [pinned], s₂⟩) := by
      simp only [pinStep, hpin, Option.bind_eq_bind, Option.bind_some,
        show pinned.type = e.flags from rfl, he.index, hset₂, List.nil_append]
    rw [prepareCall, hframe]
    simp only [Option.bind_eq_bind, Option.bind_some, resolveObjects, loopM_singleton hround,
      loopM_singleton hpinRound]
  · exact hkeep.trans ⟨rfl, rfl, rfl, rfl, rfl⟩
  · have hself := slice_splice_self htmp₂
    rwa [Ptr.length_image] at hself

/-! ### The whole invocation -/

theorem free_block {b : ℕ} {blk : Block} (hb : s.blocks[b]? = some blk) (hlive : blk.live = true)
    (hheap : blk.storage = .heap) :
    ∃ s', s.free (.block b 0) = some s' ∧ s'.arrays = s.arrays := by
  refine ⟨{ s with blocks := s.blocks.set b { blk with live := false } }.logged (.free b), ?_, rfl⟩
  simp [Native.free, hb, hlive, hheap]

/-- **Giving back a copy**: an array passed `OUT` gets the elements, if they are all its own. -/
theorem releaseArrays_copy {s₀ s₁ u : Native} {acquired : NativeArray} {blk₀ blk : Block} {n : ℕ}
    (hacquired : Acquired e r a s₀ s₁ acquired blk₀)
    (hn : n = e.length.toInt.toNat * a.component.size) (ha : u.arrays[r]? = some a)
    (hb : u.blocks[s₀.blocks.length]? = some blk) (hlive : blk.live = true)
    (hstorage : blk.storage = blk₀.storage) (hroom : n ≤ blk.cells.length)
    (hpending : u.pending = none) :
    ∃ s', releaseArrays [acquired] u = some s' ∧
      (isOutArray e.flags = true → Native.inRange e.offset.toInt e.length.toInt a.length →
        ∃ xs cells, slice blk.cells 0 n = some xs ∧
          splice a.cells (e.offset.toInt.toNat * a.component.size) xs = some cells ∧
          s'.arrays = u.arrays.set r { a with cells := cells }) ∧
      (¬ (isOutArray e.flags = true ∧
          Native.inRange e.offset.toInt e.length.toInt a.length) → s'.arrays = u.arrays) := by
  have hrelease : ∀ v : Native, v.blocks = u.blocks →
      ∃ s', releaseElems acquired v = some s' ∧ s'.arrays = v.arrays := by
    intro v hv
    rcases hacquired.release with hnone | ⟨hheap, hblk⟩
    · exact ⟨v, by rw [releaseElems, hnone], rfl⟩
    · have hfree := free_block (s := v) (by rw [hv]; exact hb) hlive (hstorage.trans hblk)
      rw [releaseElems, hheap, hacquired.acquired_eq]
      exact hfree
  have hsplit : releaseArrays [acquired] u =
      (copyOut acquired u).bind (releaseElems acquired) := rfl
  rw [hsplit]
  by_cases hout : isOutArray e.flags = true
  · let v := u.logged (.jni .exceptionCheck)
    have hcopy : copyOut acquired u = v.setArrayRegion a.component (some (.array r))
        e.offset.toInt e.length.toInt (.block s₀.blocks.length 0) := by
      rw [hacquired.acquired_eq]
      simp only [copyOut, hout, if_true, Native.exceptionCheck, hpending]
      rfl
    have harray : v.arrayOf a.component (some (.array r)) = some (r, a) := by
      have ha' : v.toMemory.arrays[r]? = some a := ha
      simp [Native.arrayOf, ha']
    by_cases hrange : Native.inRange e.offset.toInt e.length.toInt a.length
    · have hcells : (e.offset.toInt.toNat + e.length.toInt.toNat) * a.component.size ≤
          a.cells.length := by
        obtain ⟨h0, h1, h2⟩ := hrange
        have hle : e.offset.toInt.toNat + e.length.toInt.toNat ≤ a.length := by omega
        exact Nat.le_trans (Nat.mul_le_mul_right _ hle) (Nat.div_mul_le_self _ _)
      rw [Nat.add_mul, ← hn] at hcells
      obtain ⟨xs, hxs⟩ : ∃ xs, slice blk.cells 0 n = some xs := exists_slice (by omega)
      obtain ⟨cells, hsplice⟩ : ∃ cells,
          splice a.cells (e.offset.toInt.toNat * a.component.size) xs = some cells :=
        exists_splice (by rw [length_of_slice hxs]; exact hcells)
      let w : Native := { v.logged (.jni .setArrayRegion) with
        arrays := u.arrays.set r { a with cells := cells } }
      have hload : Native.load (v.logged (.jni .setArrayRegion)) (.block s₀.blocks.length 0)
          (e.length.toInt.toNat * a.component.size) = some xs := by
        rw [← hn, ← hxs]
        exact Memory.load_block hb hlive 0 n
      have hset : copyOut acquired u = some w := by
        rw [hcopy, Native.setArrayRegion, harray]
        simp only [Option.bind_eq_bind, Option.bind_some, if_pos hrange, hload, hsplice]
        rfl
      obtain ⟨s', hs', harrays⟩ := hrelease w rfl
      rw [hset, Option.bind_some]
      refine ⟨s', hs', fun _ _ => ⟨xs, cells, hxs, hsplice, harrays⟩, fun h => ?_⟩
      exact absurd ⟨hout, hrange⟩ h
    · let w : Native := { v.logged (.jni .setArrayRegion) with
        pending := some .arrayIndexOutOfBounds }
      have hset : copyOut acquired u = some w := by
        rw [hcopy, Native.setArrayRegion, harray]
        simp only [Option.bind_eq_bind, Option.bind_some, if_neg hrange]
        rfl
      obtain ⟨s', hs', harrays⟩ := hrelease w rfl
      rw [hset, Option.bind_some]
      exact ⟨s', hs', fun _ h => absurd h hrange, fun _ => harrays⟩
  · have hcopy : copyOut acquired u = some u := by
      rw [hacquired.acquired_eq]
      simp only [copyOut, if_neg hout]
    obtain ⟨s', hs', harrays⟩ := hrelease u rfl
    rw [hcopy, Option.bind_some]
    exact ⟨s', hs', fun h => absurd h hout, fun _ => harrays⟩

/-- **A call with a copy**: the callee works on the copy, and the elements of an array passed `OUT`
are replaced, if they are all its own. -/
theorem copied_call (h : ctx.Scalar pf) (he : ArrayEntry ctx k r a.component e)
    (hpinned : isPinned e.flags = false) (hbs : bs.length = ctx.cif.argTypes.length * slotSize)
    (ha : s.arrays[r]? = some a) (hpending : s.pending = none) {l : ObjectLoop}
    (hprepare : prepareCall pf jvm ctx bs [e] s = some (.next l)) {n : ℕ}
    (hn : n = e.length.toInt.toNat * a.component.size)
    (hroom : (n : ℤ) ≤ copySize a.component e.length.toInt) (c : ElementsCallee n) :
    ∃ o call x, invokeArrayWithObjects_ pf jvm ctx (c.run pf k) bs [e]
        (returnBuffer pf ctx.cif.rtype) s = some o ∧ o.called = some call ∧
      received pf k n call.args call.memory = some x ∧
      (isInArray e.flags = true →
        slice a.cells (e.offset.toInt.toNat * a.component.size) n = some x.2) ∧
      (isOutArray e.flags = true → Native.inRange e.offset.toInt e.length.toInt a.length →
        ∃ cells, splice a.cells (e.offset.toInt.toNat * a.component.size) (c.write x.2) =
            some cells ∧
          o.native.arrays = s.arrays.set r { a with cells := cells }) ∧
      (¬ (isOutArray e.flags = true ∧
          Native.inRange e.offset.toInt e.length.toInt a.length) →
        o.native.arrays = s.arrays) := by
  obtain ⟨acquired, blk, hacquired, harrays, hready⟩ :=
    copied_inv h he hpinned hbs ha hpending hprepare
  obtain ⟨args, retval, hargs, hfinish⟩ := finishCall_ready h he.argType hready (c.run pf k)
  have hblk : l.native.toMemory.blocks[s.blocks.length]? = some blk := by
    rw [hacquired.blocks_eq, List.getElem?_append_right (Nat.le_refl _), Nat.sub_self]
    rfl
  have hsize : n ≤ blk.cells.length := by
    rw [hacquired.size_eq]
    omega
  obtain ⟨xs, cells, hreceived, hxs, hcells, hmemory⟩ := c.run_block hargs hblk hacquired.live hsize
  let u := saveErrno pf ctx (l.native.returned (c.run pf k args l.native.toMemory))
  have humem : u.toMemory = { l.native.toMemory with
      blocks := l.native.blocks.set s.blocks.length { blk with cells := cells } } := by
    rw [toMemory_saveErrno]
    exact hmemory
  have huarrays : u.arrays = s.arrays := by
    rw [humem]
    exact hacquired.heap.arrays_eq
  have hublocks : u.blocks[s.blocks.length]? = some { blk with cells := cells } := by
    rw [humem]
    exact List.getElem?_set_self (List.getElem?_eq_some_iff.mp hblk).1
  have hupending : u.pending = none := by
    rw [pending_saveErrno, Native.returned, c.thrown_run]
    exact hacquired.heap.pending_eq.trans hpending
  obtain ⟨s', hs', hout, hother⟩ := releaseArrays_copy hacquired hn (by rw [huarrays]; exact ha)
    hublocks hacquired.live rfl (by rw [length_of_splice hcells]; exact hsize) hupending
  refine ⟨⟨some ⟨l.frame, args, l.native.toMemory⟩, retval, s'⟩, ⟨l.frame, args, l.native.toMemory⟩,
    (.block s.blocks.length 0, xs), ?_, rfl, hreceived, fun hin => ?_, fun hout' hrange => ?_,
    fun hno => ?_⟩
  · rw [invokeArrayWithObjects_, hprepare]
    simp only [Option.bind_eq_bind, Option.bind_some, hfinish, harrays]
    rw [hs']
    rfl
  · have hcopy := (hacquired.copied hin).2
    rw [← hn] at hcopy
    rw [← hcopy]
    exact hxs
  · obtain ⟨ys, cells', hys, hsplice, hs'arrays⟩ := hout hout' hrange
    have hself := slice_splice_self hcells
    rw [c.length_write, hys, Option.some.injEq] at hself
    rw [← huarrays, ← hself]
    exact ⟨cells', hsplice, hs'arrays⟩
  · rw [← huarrays]
    exact hother hno

/-- An invocation that got to its call and gave the callee its elements got past the copy. -/
theorem copied_call_inv (h : ctx.Scalar pf) (he : ArrayEntry ctx k r a.component e)
    (hpinned : isPinned e.flags = false) (hbs : bs.length = ctx.cif.argTypes.length * slotSize)
    (ha : s.arrays[r]? = some a) (hpending : s.pending = none) {callee : Callee} {o : Outcome}
    {call : Call}
    (ho : invokeArrayWithObjects_ pf jvm ctx callee bs [e] (returnBuffer pf ctx.cif.rtype) s =
      some o) (hcall : o.called = some call) :
    ∃ l, prepareCall pf jvm ctx bs [e] s = some (.next l) ∧
      0 ≤ copySize a.component e.length.toInt ∧
      (isInArray e.flags = true → Native.inRange e.offset.toInt e.length.toInt a.length) ∧
      ∀ n x, received pf k n call.args call.memory = some x →
        (n : ℤ) ≤ copySize a.component e.length.toInt := by
  obtain ⟨flow, hprepare, ho⟩ := Option.bind_eq_some_iff.mp ho
  cases flow with
  | cleanup l =>
    obtain ⟨s', -, ho⟩ := Option.bind_eq_some_iff.mp ho
    cases ho
    cases hcall
  | next l =>
    obtain ⟨acquired, blk, hacquired, -, hready⟩ :=
      copied_inv h he hpinned hbs ha hpending hprepare
    refine ⟨l, hprepare, hacquired.size_nonneg, fun hin => (hacquired.copied hin).1, ?_⟩
    intro n x hx
    obtain ⟨args, retval, hargs, hfinish⟩ := finishCall_ready h he.argType hready callee
    rw [hfinish] at ho
    obtain ⟨s', -, rfl⟩ := Option.map_eq_some_iff.mp ho
    cases hcall
    have hblk : l.native.toMemory.blocks[s.blocks.length]? = some blk := by
      rw [hacquired.blocks_eq, List.getElem?_append_right (Nat.le_refl _), Nat.sub_self]
      rfl
    rw [received_eq hargs (by simp), Option.map_eq_some_iff] at hx
    obtain ⟨xs, hxs, -⟩ := hx
    have hload := Memory.load_block hblk hacquired.live 0 n
    rw [show ((0 : ℕ) : ℤ) = 0 from rfl, hxs] at hload
    have hle := (slice_eq_some.mp hload.symm).1
    rw [hacquired.size_eq] at hle
    have hnonneg := hacquired.size_nonneg
    omega

/-- **A call with a pinned array**: the callee works on the array itself. -/
theorem pinned_call (h : ctx.Scalar pf) (he : ArrayEntry ctx k r a.component e)
    (hpinned : isPinned e.flags = true) (hbs : bs.length = ctx.cif.argTypes.length * slotSize)
    (ha : s.arrays[r]? = some a) (callee : Callee) :
    ∃ o call, invokeArrayWithObjects_ pf .reliable ctx callee bs [e]
        (returnBuffer pf ctx.cif.rtype) s = some o ∧ o.called = some call ∧
      call.args[k]? = some ((Ptr.array r e.offset.toInt).digits pf) ∧
      call.memory.arrays = s.arrays ∧
      o.native.arrays = (callee call.args call.memory).memory.arrays := by
  obtain ⟨l, hprepare, hkeep, harrays, hready⟩ := pinned_prepareCall h he hpinned hbs ha
  obtain ⟨args, retval, hargs, hfinish⟩ := finishCall_ready h he.argType hready callee
  let u := saveErrno pf ctx (l.native.returned (callee args l.native.toMemory))
  refine ⟨⟨some ⟨l.frame, args, l.native.toMemory⟩, retval, u.logged (.unpin r)⟩,
    ⟨l.frame, args, l.native.toMemory⟩, ?_, rfl, hargs, hkeep.arrays_eq, ?_⟩
  · rw [invokeArrayWithObjects_, hprepare]
    simp only [Option.bind_eq_bind, Option.bind_some, hfinish, harrays]
    rfl
  · change u.toMemory.arrays = _
    rw [toMemory_saveErrno]
    rfl

end Invocations

end Jffi
