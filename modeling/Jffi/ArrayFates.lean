import Jffi.ArrayCalls
import Jffi.Lib.Ledger

/-!
# What becomes of a copied array

Whether an array can be copied depends on its descriptor and range, on the Java heap and on what
`malloc` answers, and nothing else. Here that is written down as arithmetic, and the functions of
`Array.c` are shown to follow it. Where they end with an array, the array owns what was acquired for
it; where they end with an exception they have acquired nothing, except in one place: elements that
are refused after `malloc` has answered leave a block that no array owns.

## Main definitions

* `heapLedger`, `pinLedger` — the resources in the trace of a call
* `fillFate`, `stackFate`, `heapFate` — how a copy ends
* `Acquires` — what acquiring arrays does to the state
* `Obtains` — what the fate of a copy says of the array and of the state

## Main results

* `fillArray_fate` — the elements
* `Acquires.trans` — acquiring more keeps what is owned already
* `stackCopy_fate`, `heapCopy_fate` — the two ways to copy an array
-/

namespace Jffi

open ObjectBuffer

/-! ### Ledgers -/

/-- The ledger of memory from `malloc`: a block is opened when it is allocated, and closed by
`free`. -/
def heapLedger : Ledger Event ℕ where
  opens
    | .malloc b => some b
    | _ => none
  closes
    | .free b => some b
    | _ => none

/-- The ledger of pinned arrays: an array is opened when it is pinned, and closed when it is
released. -/
def pinLedger : Ledger Event ℕ where
  opens
    | .pin r => some r
    | _ => none
  closes
    | .unpin r => some r
    | _ => none

/-- Calls into the virtual machine, and nothing else. -/
def OnlyJni (tr : List Event) : Prop := ∀ e ∈ tr, ∃ c, e = .jni c

theorem onlyJni_nil : OnlyJni [] := fun _ he => absurd he List.not_mem_nil

theorem onlyJni_singleton (c : JniCall) : OnlyJni [.jni c] := by
  intro e he
  exact ⟨c, List.mem_singleton.mp he⟩

theorem OnlyJni.append {tr tr' : List Event} (h : OnlyJni tr) (h' : OnlyJni tr') :
    OnlyJni (tr ++ tr') := by
  intro e he
  rcases List.mem_append.mp he with he | he
  · exact h e he
  · exact h' e he

section OnlyJni

variable {tr : List Event}

theorem OnlyJni.mallocs (h : OnlyJni tr) : heapLedger.opened tr = [] :=
  heapLedger.opened_eq_nil fun e he => by
    obtain ⟨c, rfl⟩ := h e he
    rfl

theorem OnlyJni.frees (h : OnlyJni tr) : heapLedger.closed tr = [] :=
  heapLedger.closed_eq_nil fun e he => by
    obtain ⟨c, rfl⟩ := h e he
    rfl

theorem OnlyJni.pins (h : OnlyJni tr) : pinLedger.opened tr = [] :=
  pinLedger.opened_eq_nil fun e he => by
    obtain ⟨c, rfl⟩ := h e he
    rfl

theorem OnlyJni.unpins (h : OnlyJni tr) : pinLedger.closed tr = [] :=
  pinLedger.closed_eq_nil fun e he => by
    obtain ⟨c, rfl⟩ := h e he
    rfl

end OnlyJni

/-! ### Copies -/

/-- How the copy of the elements into a fresh buffer ends. -/
inductive FillFate
  | filled
  | refused
  | undefined
  deriving DecidableEq, Repr

section FillFate

variable (t : ComponentType) (length : ℤ) (type : BitVec 32) (room : ℕ)

/-- The `NUL` is stored inside the buffer, if one is. -/
def NulFits : Prop := t = .byte ∧ isTerminated type = true → 0 ≤ length ∧ length < room

instance : Decidable (NulFits t length type room) := by
  unfold NulFits
  infer_instance

/-- The elements must fit into the buffer of `room` bytes. -/
def roomFate : FillFate :=
  if 0 ≤ length ∧ length.toNat * t.size ≤ room then .filled else .undefined

/-- An array passed `IN` must be one, and have the elements. -/
def copyFate (heap : List JavaArray) (object : Option Obj) (offset : ℤ) : FillFate :=
  if isInArray type then
    match object with
    | some (.array r) =>
      match heap[r]? with
      | some a =>
        if a.component = t then
          if Native.inRange offset length a.length then roomFate t length room else .refused
        else .undefined
      | none => .undefined
    | _ => .undefined
  else if isCleared type then roomFate t length room
  else .filled

/-- The fate of the copying and of the terminating zero that follows it. -/
def fillFate (heap : List JavaArray) (object : Option Obj) (offset : ℤ) : FillFate :=
  match copyFate t length type room heap object offset with
  | .filled => if NulFits t length type room then .filled else .undefined
  | f => f

end FillFate

/-- The state after the calls `tr` into the virtual machine, with the newest block `blk`. -/
def Native.withTop (s : Native) (blocks : List Block) (blk : Block) (tr : List Event) : Native :=
  { s with blocks := blocks ++ [blk], log := s.log ++ tr }

section Fill

variable {pf : Platform} {s : Native} {blocks : List Block} {blk : Block} {t : ComponentType}
  {offset length : ℤ} {type : BitVec 32} {object : Option Obj}

theorem Native.eq_withTop (htop : s.blocks = blocks ++ [blk]) : s = s.withTop blocks blk [] := by
  obtain ⟨⟨arrays, _, ext, errors⟩, _, _, _, _, log⟩ := s
  cases htop
  simp [withTop]

theorem Native.logged_withTop (s : Native) (tr : List Event) (e : Event) :
    (s.withTop blocks blk tr).logged e = s.withTop blocks blk (tr ++ [e]) := by
  simp [withTop, logged]

/-- A store into the newest block changes that block where it lies inside, and has no outcome where
it does not. -/
theorem Native.store_withTop (s : Native) (blocks : List Block) (tr : List Event)
    (hlive : blk.live = true) (off : ℕ)
    (xs : List Cell) :
    (s.withTop blocks blk tr).store (.block blocks.length off) xs =
      (splice blk.cells off xs).map fun cells =>
        s.withTop blocks { blk with cells := cells } tr := by
  have hget : (s.withTop blocks blk tr).toMemory.blocks[blocks.length]? = some blk := by
    change (blocks ++ [blk])[blocks.length]? = some blk
    rw [List.getElem?_append_right (Nat.le_refl _), Nat.sub_self]
    rfl
  rw [store, Memory.store_block hget hlive, Option.map_map]
  cases splice blk.cells off xs with
  | none => rfl
  | some cells =>
    simp only [Option.map_some, Function.comp_apply, Option.some.injEq]
    simp [withTop]

/-- A store in front of the first byte of a block has no outcome. -/
theorem Native.store_negative {s : Native} {b : ℕ} {off : ℤ} {xs : List Cell} (h : off < 0) :
    s.store (.block b off) xs = none := by
  rw [store, Option.map_eq_none_iff, Memory.store]
  cases s.toMemory.blocks[b]? with
  | none => rfl
  | some blk =>
    rw [Option.bind_eq_bind, Option.bind_some, if_neg]
    omega

theorem splice_eq_none {xs ys : List Cell} {off : ℕ} (h : xs.length < off + ys.length) :
    splice xs off ys = none := by
  cases hsplice : splice xs off ys with
  | none => rfl
  | some zs =>
    have := splice_eq_some.mp hsplice
    omega

/-- The `NUL` is stored, where there is one to store, without an effect on the size of the buffer,
if its place lies inside. -/
theorem terminate_fits (pf : Platform) (s : Native) (blocks : List Block) (hlive : blk.live = true)
    (tr : List Event) (h : NulFits t length type blk.cells.length) :
    ∃ cells, cells.length = blk.cells.length ∧
      terminate pf t type (.block blocks.length 0) length (s.withTop blocks blk tr) =
        some (s.withTop blocks { blk with cells := cells } tr) := by
  rw [terminate]
  by_cases hnul : t = .byte ∧ isTerminated type = true
  · rw [if_pos hnul]
    obtain ⟨hnonneg, hlt⟩ := h hnul
    obtain ⟨n, rfl⟩ := Int.eq_ofNat_of_zero_le hnonneg
    obtain ⟨cells, hsplice⟩ : ∃ cells, splice blk.cells n [.byte 0] = some cells :=
      exists_splice (by rw [List.length_singleton]; omega)
    refine ⟨cells, length_of_splice hsplice, ?_⟩
    rw [Ptr.add, Int.zero_add, Native.store_withTop s blocks tr hlive, hsplice]
    rfl
  · rw [if_neg hnul]
    exact ⟨blk.cells, rfl, rfl⟩

/-- Storing the `NUL` has no outcome if its place lies outside the buffer. -/
theorem terminate_outside (pf : Platform) (s : Native) (blocks : List Block)
    (hlive : blk.live = true) (tr : List Event) (h : ¬NulFits t length type blk.cells.length) :
    terminate pf t type (.block blocks.length 0) length (s.withTop blocks blk tr) = none := by
  obtain ⟨hnul, hroom⟩ := Classical.not_imp.mp h
  rw [terminate, if_pos hnul, Ptr.add, Int.zero_add]
  by_cases hneg : length < 0
  · exact Native.store_negative hneg
  · obtain ⟨n, rfl⟩ := Int.eq_ofNat_of_zero_le (Int.not_lt.mp hneg)
    rw [Native.store_withTop s blocks tr hlive, splice_eq_none]
    · rfl
    · rw [List.length_singleton]
      omega

/-- The elements of an array, or zeros, stored at the start of the buffer. -/
theorem store_elements (s : Native) (blocks : List Block) (hlive : blk.live = true)
    (tr : List Event) {xs : List Cell} (hroom : xs.length ≤ blk.cells.length) :
    ∃ cells, cells.length = blk.cells.length ∧
      (s.withTop blocks blk tr).store (.block blocks.length 0) xs =
        some (s.withTop blocks { blk with cells := cells } tr) := by
  obtain ⟨cells, hsplice⟩ : ∃ cells, splice blk.cells 0 xs = some cells :=
    exists_splice (by omega)
  have hstore := Native.store_withTop s blocks tr hlive 0 xs
  rw [hsplice] at hstore
  exact ⟨cells, length_of_splice hsplice, hstore⟩

theorem store_tooMany (hlive : blk.live = true) (tr : List Event) {xs : List Cell}
    (hroom : blk.cells.length < xs.length) :
    (s.withTop blocks blk tr).store (.block blocks.length 0) xs = none := by
  have hstore := Native.store_withTop s blocks tr hlive 0 xs
  rw [splice_eq_none (by omega)] at hstore
  exact hstore

/-- What the fate of a copy says of the state it is left in. -/
def Copies (s : Native) (blocks : List Block) (blk : Block) (tr : List Event)
    (o : Option (Bool × Native)) : FillFate → Prop
  | .filled => ∃ cells tr', cells.length = blk.cells.length ∧ OnlyJni tr' ∧
      o = some (true, s.withTop blocks { blk with cells := cells } (tr ++ tr'))
  | .refused => ∃ tr', OnlyJni tr' ∧ o = some (false,
      { s.withTop blocks blk (tr ++ tr') with pending := some .arrayIndexOutOfBounds })
  | .undefined => o = none

/-- For an array that is there, the elements are copied if the range is one of the array, and an
exception is left pending if it is not. -/
theorem copyData_region (hlive : blk.live = true) (hpending : s.pending = none) (tr : List Event)
    {r : ℕ} {a : JavaArray} (ha : s.arrays[r]? = some a) (hin : isInArray type = true) :
    Copies s blocks blk tr
      (copyData a.component type (some (.array r)) offset length (.block blocks.length 0)
        (s.withTop blocks blk tr))
      (if Native.inRange offset length a.length then roomFate a.component length blk.cells.length
        else .refused) := by
  have harrays : (s.withTop blocks blk tr).arrays[r]? = some a := ha
  rw [copyData, if_pos hin]
  simp only [Native.getArrayRegion, Native.arrayOf, harrays, Option.bind_eq_bind, Option.bind_some,
    if_true, Native.logged_withTop]
  by_cases hrange : Native.inRange offset length a.length
  · rw [if_pos hrange, if_pos hrange]
    obtain ⟨xs, hxs⟩ : ∃ xs, slice a.cells (offset.toNat * a.component.size)
        (length.toNat * a.component.size) = some xs := by
      refine exists_slice ?_
      obtain ⟨h0, h1, h2⟩ := hrange
      have hle : offset.toNat + length.toNat ≤ a.length := by omega
      rw [← Nat.add_mul]
      exact Nat.le_trans (Nat.mul_le_mul_right _ hle) (Nat.div_mul_le_self _ _)
    have hlen := length_of_slice hxs
    simp only [hxs, Option.bind_some]
    by_cases hroom : length.toNat * a.component.size ≤ blk.cells.length
    · rw [roomFate, if_pos ⟨hrange.2.1, hroom⟩]
      obtain ⟨cells, hcells, hstore⟩ := store_elements s blocks hlive
        (tr ++ [.jni .getArrayRegion]) (Nat.le_trans (Nat.le_of_eq hlen) hroom)
      refine ⟨cells, [.jni .getArrayRegion, .jni .exceptionCheck], hcells,
        (onlyJni_singleton _).append (onlyJni_singleton _), ?_⟩
      have hnone : (s.withTop blocks { blk with cells := cells }
        (tr ++ [.jni .getArrayRegion])).pending = none := hpending
      simp only [hstore, Option.bind_some, Native.exceptionCheck, hnone, Native.logged_withTop,
        List.append_assoc]
      rfl
    · rw [roomFate, if_neg fun h => hroom h.2, store_tooMany hlive _ (by omega)]
      rfl
  · rw [if_neg hrange, if_neg hrange]
    refine ⟨[.jni .getArrayRegion, .jni .exceptionCheck],
      (onlyJni_singleton _).append (onlyJni_singleton _), ?_⟩
    simp [Native.exceptionCheck, Native.logged, Native.withTop]

/-- What becomes of the buffer when the elements are copied in: it is filled, left as it was or
cleared, or an exception stops the copy, as `copyFate` says. -/
theorem copyData_fate (hlive : blk.live = true) (hpending : s.pending = none) (tr : List Event) :
    Copies s blocks blk tr
      (copyData t type object offset length (.block blocks.length 0) (s.withTop blocks blk tr))
      (copyFate t length type blk.cells.length s.arrays object offset) := by
  simp only [copyFate]
  by_cases hin : isInArray type = true
  · rw [if_pos hin]
    rcases object with _ | r | address | ref
    · simp only [copyData, if_pos hin]
      rfl
    · dsimp only
      cases ha : s.arrays[r]? with
      | none =>
        have harrays : (s.withTop blocks blk tr).arrays[r]? = none := ha
        simp only [copyData, if_pos hin, Native.getArrayRegion, Native.arrayOf, harrays,
          Option.bind_eq_bind, Option.bind_none]
        rfl
      | some a =>
        by_cases ht : a.component = t
        · subst ht
          simp only [if_true]
          exact copyData_region hlive hpending tr ha hin
        · have harrays : (s.withTop blocks blk tr).arrays[r]? = some a := ha
          dsimp only
          rw [if_neg ht]
          simp only [copyData, if_pos hin, Native.getArrayRegion, Native.arrayOf, harrays,
            if_neg ht, Option.bind_eq_bind, Option.bind_some, Option.bind_none]
          rfl
    · simp only [copyData, if_pos hin]
      rfl
    · simp only [copyData, if_pos hin]
      rfl
  · rw [if_neg hin]
    simp only [copyData, if_neg hin]
    by_cases hclear : isCleared type = true
    · rw [if_pos hclear, if_pos hclear, Native.memset]
      by_cases hneg : length < 0
      · have hbytes : length * t.size < 0 :=
          Int.mul_neg_of_neg_of_pos hneg (by have := t.size_pos; omega)
        rw [if_neg (Int.not_le.mpr hbytes), roomFate, if_neg fun h => Int.not_lt.mpr h.1 hneg]
        rfl
      · obtain ⟨n, rfl⟩ := Int.eq_ofNat_of_zero_le (Int.not_lt.mp hneg)
        have hbytes : ((n : ℤ) * t.size).toNat = n * t.size := rfl
        rw [if_pos (Int.mul_nonneg (Int.natCast_nonneg n) (Int.natCast_nonneg _)), hbytes]
        by_cases hroom : n * t.size ≤ blk.cells.length
        · rw [roomFate, if_pos ⟨Int.natCast_nonneg n, hroom⟩]
          have hzeros : (List.replicate (n * t.size) (Cell.byte 0)).length ≤ blk.cells.length := by
            rw [List.length_replicate]
            exact hroom
          obtain ⟨cells, hcells, hstore⟩ := store_elements s blocks hlive tr hzeros
          refine ⟨cells, [], hcells, onlyJni_nil, ?_⟩
          rw [hstore, List.append_nil]
          rfl
        · rw [roomFate, if_neg fun h => hroom h.2, store_tooMany hlive]
          · rfl
          · rw [List.length_replicate]
            exact Nat.not_le.mp hroom
    · rw [if_neg hclear, if_neg hclear]
      exact ⟨blk.cells, [], rfl, onlyJni_nil, by rw [List.append_nil]⟩

/-- What the fate of a copy says of the array and of the state. -/
def Fills (s : Native) (blocks : List Block) (blk : Block) (a : NativeArray)
    (o : Option (Option NativeArray × Native)) : FillFate → Prop
  | .filled => ∃ cells tr, cells.length = blk.cells.length ∧ OnlyJni tr ∧
      o = some (some a, s.withTop blocks { blk with cells := cells } tr)
  | .refused => ∃ tr, OnlyJni tr ∧ o = some (none,
      { s.withTop blocks blk tr with pending := some .arrayIndexOutOfBounds })
  | .undefined => o = none

/-- What becomes of a copy: the elements, then the `NUL`, as `fillFate` says, and the record that is
to be given back later. -/
theorem fillArray_fate (htop : s.blocks = blocks ++ [blk]) (hlive : blk.live = true)
    (hpending : s.pending = none) (release : Option Release) :
    Fills s blocks blk
      ⟨object, .block blocks.length 0, offset, length, type,
        if isOutArray type then some t else none, release⟩
      (fillArray pf t object offset length type (.block blocks.length 0) release s)
      (fillFate t length type blk.cells.length s.arrays object offset) := by
  have hcopy := @copyData_fate s blocks blk t offset length type object hlive hpending []
  rw [← Native.eq_withTop htop] at hcopy
  rw [fillArray, fillFate]
  revert hcopy
  cases copyFate t length type blk.cells.length s.arrays object offset with
  | undefined =>
    intro hcopy
    rw [show copyData t type object offset length (.block blocks.length 0) s = none from hcopy]
    rfl
  | refused =>
    rintro ⟨tr, htr, hcopy⟩
    rw [List.nil_append] at hcopy
    rw [hcopy]
    exact ⟨tr, htr, rfl⟩
  | filled =>
    rintro ⟨cells, tr, hcells, htr, hcopy⟩
    rw [List.nil_append] at hcopy
    rw [hcopy, ← hcells]
    by_cases hnul : NulFits t length type cells.length
    · obtain ⟨cells', hcells', hterm⟩ := @terminate_fits { blk with cells := cells } t length type
        pf s blocks hlive tr hnul
      dsimp only
      rw [if_pos hnul]
      refine ⟨cells', tr, hcells'.trans hcells, htr, ?_⟩
      simp only [Option.bind_eq_bind, Option.bind_some, if_true, hterm]
    · have hterm := @terminate_outside { blk with cells := cells } t length type pf s blocks hlive
        tr hnul
      dsimp only
      rw [if_neg hnul]
      change Option.bind _ _ = none
      simp only [Option.bind_eq_bind, Option.bind_some, if_true, hterm, Option.bind_none]

end Fill

/-! ### Acquiring -/

/-- The block an array owns. -/
def NativeArray.heapBlock (a : NativeArray) : Option ℕ :=
  match a.release, a.elems with
  | some .heapArray, .block b _ => some b
  | _, _ => none

/-- The Java array whose pin an array owns. -/
def NativeArray.pinnedRef (a : NativeArray) : Option ℕ :=
  match a.release, a.array with
  | some .criticalArray, some (.array r) => some r
  | _, _ => none

/-- An array that knows how to give back what it owns. -/
structure NativeArray.Releasable (a : NativeArray) : Prop where
  heap : a.release = some .heapArray → ∃ b, a.elems = .block b 0
  critical : a.release = some .criticalArray → ∃ r, a.array = some (.array r)

/-- From `s` to `s'` the arrays `new` were acquired, and the blocks `lost` too, which none of them
owns. -/
structure Acquires (s : Native) (new : List NativeArray) (lost : List ℕ) (s' : Native) : Prop where
  arrays_eq : s'.arrays = s.arrays
  ext_eq : s'.ext = s.ext
  errors_eq : s'.errors = s.errors
  lastError_eq : s'.lastError = s.lastError
  blocks : s.blocks <+: s'.blocks
  trace : ∃ tr, s'.log = s.log ++ tr ∧ heapLedger.closed tr = [] ∧ pinLedger.closed tr = [] ∧
    heapLedger.opened tr = new.filterMap NativeArray.heapBlock ++ lost ∧
    pinLedger.opened tr = new.filterMap NativeArray.pinnedRef
  owned : ∀ b ∈ new.filterMap NativeArray.heapBlock, s.blocks.length ≤ b ∧
    ∃ blk, s'.blocks[b]? = some blk ∧ blk.live = true ∧ blk.storage = .heap
  nodup : (new.filterMap NativeArray.heapBlock).Nodup
  releasable : ∀ a ∈ new, a.Releasable

namespace Acquires

variable {s s' s₁ s₂ s₃ : Native} {new new' : List NativeArray} {lost : List ℕ}

theorem refl (s : Native) : Acquires s [] [] s where
  arrays_eq := rfl
  ext_eq := rfl
  errors_eq := rfl
  lastError_eq := rfl
  blocks := List.prefix_rfl
  trace := ⟨[], (List.append_nil _).symm, rfl, rfl, rfl, rfl⟩
  owned _ hb := absurd hb List.not_mem_nil
  nodup := List.nodup_nil
  releasable _ ha := absurd ha List.not_mem_nil

/-- What is acquired after something else adds to it: the new arrays own their blocks and pins, and
those before keep theirs. -/
theorem trans (h : Acquires s₁ new [] s₂) (h' : Acquires s₂ new' lost s₃) :
    Acquires s₁ (new ++ new') lost s₃ where
  arrays_eq := h'.arrays_eq.trans h.arrays_eq
  ext_eq := h'.ext_eq.trans h.ext_eq
  errors_eq := h'.errors_eq.trans h.errors_eq
  lastError_eq := h'.lastError_eq.trans h.lastError_eq
  blocks := h.blocks.trans h'.blocks
  trace := by
    obtain ⟨tr, hlog, hfree, hunpin, hmalloc, hpin⟩ := h.trace
    obtain ⟨tr', hlog', hfree', hunpin', hmalloc', hpin'⟩ := h'.trace
    refine ⟨tr ++ tr', by rw [hlog', hlog, List.append_assoc], ?_, ?_, ?_, ?_⟩
    · rw [Ledger.closed_append, hfree, hfree']
      rfl
    · rw [Ledger.closed_append, hunpin, hunpin']
      rfl
    · rw [Ledger.opened_append, hmalloc, hmalloc', List.filterMap_append, List.append_nil,
        List.append_assoc]
    · rw [Ledger.opened_append, hpin, hpin', List.filterMap_append]
  owned b hb := by
    rw [List.filterMap_append] at hb
    rcases List.mem_append.mp hb with hb | hb
    · obtain ⟨hle, blk, hblk, hown⟩ := h.owned b hb
      obtain ⟨grown, hgrown⟩ := h'.blocks
      refine ⟨hle, blk, ?_, hown⟩
      rw [← hgrown, List.getElem?_append_left (List.getElem?_eq_some_iff.mp hblk).1]
      exact hblk
    · obtain ⟨hle, hown⟩ := h'.owned b hb
      exact ⟨Nat.le_trans h.blocks.length_le hle, hown⟩
  nodup := by
    rw [List.filterMap_append]
    refine List.nodup_append.mpr ⟨h.nodup, h'.nodup, fun b hb b' hb' heq => ?_⟩
    obtain ⟨-, blk, hblk, -⟩ := h.owned b hb
    have hlt := (List.getElem?_eq_some_iff.mp hblk).1
    have hle := (h'.owned b' hb').1
    omega
  releasable a ha := by
    rcases List.mem_append.mp ha with ha | ha
    · exact h.releasable a ha
    · exact h'.releasable a ha

/-- Only calls into the virtual machine were made, and blocks added. -/
theorem of_onlyJni {tr : List Event} (htr : OnlyJni tr) (hlog : s'.log = s.log ++ tr)
    (harrays : s'.arrays = s.arrays) (hext : s'.ext = s.ext) (herrors : s'.errors = s.errors)
    (hlast : s'.lastError = s.lastError) (hblocks : s.blocks <+: s'.blocks) :
    Acquires s [] [] s' where
  arrays_eq := harrays
  ext_eq := hext
  errors_eq := herrors
  lastError_eq := hlast
  blocks := hblocks
  trace := ⟨tr, hlog, htr.frees, htr.unpins, htr.mallocs, htr.pins⟩
  owned _ hb := absurd hb List.not_mem_nil
  nodup := List.nodup_nil
  releasable _ ha := absurd ha List.not_mem_nil

/-- An array on the stack can be added to the record without a duty to give anything back. -/
theorem onStack {a : NativeArray} (h : Acquires s [] lost s') (ha : a.release = none) :
    Acquires s [a] lost s' := by
  have hheap : [a].filterMap NativeArray.heapBlock = [] := by
    simp [NativeArray.heapBlock, ha]
  have hpinned : [a].filterMap NativeArray.pinnedRef = [] := by
    simp [NativeArray.pinnedRef, ha]
  refine ⟨h.arrays_eq, h.ext_eq, h.errors_eq, h.lastError_eq, h.blocks, ?_, ?_, ?_, ?_⟩
  · rw [hheap, hpinned]
    exact h.trace
  · rw [hheap]
    exact h.owned
  · rw [hheap]
    exact List.nodup_nil
  · intro a' ha'
    rw [List.mem_singleton.mp ha']
    constructor
    · intro h
      cases ha.symm.trans h
    · intro h
      cases ha.symm.trans h

theorem throw (s : Native) (e : Exn) : Acquires s [] [] (s.throw e) :=
  of_onlyJni (onlyJni_singleton .throwNew) rfl rfl rfl rfl rfl List.prefix_rfl

end Acquires

/-! ### Fates -/

/-- How the resolution of an object ends. -/
inductive Fate
  | passes
  | throws
  /-- An exception, with a block from `malloc` that no array owns. -/
  | leaks
  | undefined
  deriving DecidableEq, Repr

/-- The fate of a copy on the stack. -/
def stackFate (heap : List JavaArray) (e : ObjectEntry) : Fate :=
  let length := e.length.toInt
  if 0 ≤ arraySize (length + 1) e.flags then
    match componentOf e.flags with
    | some t =>
      match fillFate t length e.flags (copySize t length).toNat heap e.object e.offset.toInt with
      | .filled => .passes
      | .refused => .throws
      | .undefined => .undefined
    | none => .throws
  else .undefined

/-- The fate of a copy from `malloc`, which fails or not. -/
def heapFate (heap : List JavaArray) (fails : Bool) (e : ObjectEntry) : Fate :=
  let length := e.length.toInt
  match componentOf e.flags with
  | some t =>
    if length + 1 < 2 ^ 31 then
      if copySize t length < 0 ∨ fails = true then .throws
      else
        match fillFate t length e.flags (copySize t length).toNat heap e.object e.offset.toInt with
        | .filled => .passes
        | .refused => .leaks
        | .undefined => .undefined
    else .undefined
  | none => .throws

/-! ### The copies, acquired -/

section Copies

variable {e : ObjectEntry} {s : Native}

/-- An array made for a copy of an object, which is copied back only if the object is passed `OUT`
without `PINNED`. -/
structure NativeArray.IsCopy (a : NativeArray) (e : ObjectEntry) : Prop where
  array_eq : a.array = e.object
  type_eq : a.type = e.flags
  copyout : a.copyout.isSome = true → isOutArray e.flags = true ∧ isPinned e.flags = false
  release : a.release ≠ some .criticalArray

/-- What the fate of a copy says of the array and of the state. -/
def Obtains (s : Native) (e : ObjectEntry) (mallocs : ℕ)
    (o : Option (Option NativeArray × Native)) :
    Fate → Prop
  | .passes => ∃ a s', o = some (some a, s') ∧ a.IsCopy e ∧ a.elems = .block s.blocks.length 0 ∧
      Acquires s [a] [] s' ∧ s'.pending = s.pending ∧ s'.mallocs = mallocs ∧ s'.pins = s.pins
  | .throws => ∃ s', o = some (none, s') ∧ Acquires s [] [] s' ∧ s'.pending.isSome = true
  | .leaks => ∃ s' b, o = some (none, s') ∧ Acquires s [] [b] s' ∧ s'.pending.isSome = true
  | .undefined => o = none

/-- Obtaining a copy on the stack, from the allocation on, ends as `stackFate` says, and calls no
`malloc`. -/
theorem stackCopy_fate (pf : Platform) (hpinned : isPinned e.flags = false)
    (hpending : s.pending = none) :
    Obtains s e s.mallocs
      ((s.alloca (arraySize (e.length.toInt + 1) e.flags)).bind fun p =>
        getArrayBuffer pf e.object e.offset.toInt e.length.toInt e.flags p.1 p.2)
      (stackFate s.arrays e) := by
  rw [stackFate]
  by_cases hsize : 0 ≤ arraySize (e.length.toInt + 1) e.flags
  · simp only [if_pos hsize, Native.alloca, Option.bind_some, getArrayBuffer]
    cases htype : componentOf e.flags with
    | none =>
      refine ⟨_, rfl, ?_, rfl⟩
      refine .of_onlyJni (onlyJni_singleton .throwNew) rfl rfl rfl rfl rfl ?_
      exact List.prefix_append ..
    | some t =>
      have hdef : arraySize (e.length.toInt + 1) e.flags = copySize t e.length.toInt := by
        rw [arraySize, htype]
        rfl
      have hfill := @fillArray_fate pf
        (s.newBlock .stack (copySize t e.length.toInt).toNat) s.blocks
        ⟨.stack, true, List.replicate (copySize t e.length.toInt).toNat .undef⟩ t e.offset.toInt
        e.length.toInt e.flags e.object rfl rfl hpending none
      rw [List.length_replicate] at hfill
      rw [hdef]
      dsimp only
      revert hfill
      change Fills _ _ _ _ _ (fillFate t e.length.toInt e.flags (copySize t e.length.toInt).toNat
        s.arrays e.object e.offset.toInt) → _
      cases fillFate t e.length.toInt e.flags (copySize t e.length.toInt).toNat s.arrays e.object
        e.offset.toInt with
      | undefined => exact id
      | refused =>
        rintro ⟨tr, htr, hfill⟩
        exact ⟨_, hfill, .of_onlyJni htr rfl rfl rfl rfl rfl (List.prefix_append ..), rfl⟩
      | filled =>
        rintro ⟨cells, tr, hcells, htr, hfill⟩
        refine ⟨_, _, hfill, ⟨rfl, rfl, ?_, ?_⟩, rfl, ?_, rfl, rfl, rfl⟩
        · intro hout
          refine ⟨?_, hpinned⟩
          by_contra hnot
          rw [if_neg hnot] at hout
          cases hout
        · exact fun h => by cases h
        · refine Acquires.onStack ?_ rfl
          exact .of_onlyJni htr rfl rfl rfl rfl rfl (List.prefix_append ..)
  · simp only [if_neg hsize, Native.alloca, Option.bind_none]
    rfl

theorem mallocs_malloc {tr : List Event} (htr : OnlyJni tr) (b : ℕ) :
    heapLedger.opened (.malloc b :: tr) = [b] := by
  have htail := htr.mallocs
  change b :: heapLedger.opened tr = [b]
  rw [htail]

/-- A block from `malloc` that no array on the record owns is lost: nothing will free it. -/
theorem acquires_lost {s' : Native} {tr : List Event} (htr : OnlyJni tr)
    (hlog : s'.log = s.log ++ (.malloc s.blocks.length :: tr)) (harrays : s'.arrays = s.arrays)
    (hext : s'.ext = s.ext) (herrors : s'.errors = s.errors) (hlast : s'.lastError = s.lastError)
    (hblocks : s.blocks <+: s'.blocks) : Acquires s [] [s.blocks.length] s' where
  arrays_eq := harrays
  ext_eq := hext
  errors_eq := herrors
  lastError_eq := hlast
  blocks := hblocks
  trace := ⟨_, hlog, htr.frees, htr.unpins, mallocs_malloc htr _, htr.pins⟩
  owned _ hb := absurd hb List.not_mem_nil
  nodup := List.nodup_nil
  releasable _ ha := absurd ha List.not_mem_nil

/-- A block from `malloc` with the array that owns it on the record is one that is to be freed. -/
theorem acquires_heap {s' : Native} {tr : List Event} {cells : List Cell} {a : NativeArray}
    (htr : OnlyJni tr) (hlog : s'.log = s.log ++ (.malloc s.blocks.length :: tr))
    (harrays : s'.arrays = s.arrays) (hext : s'.ext = s.ext) (herrors : s'.errors = s.errors)
    (hlast : s'.lastError = s.lastError) (hblocks : s'.blocks = s.blocks ++ [⟨.heap, true, cells⟩])
    (helems : a.elems = .block s.blocks.length 0) (hrelease : a.release = some .heapArray) :
    Acquires s [a] [] s' := by
  have hheap : [a].filterMap NativeArray.heapBlock = [s.blocks.length] := by
    simp [NativeArray.heapBlock, hrelease, helems]
  have hpinned : [a].filterMap NativeArray.pinnedRef = [] := by
    simp [NativeArray.pinnedRef, hrelease]
  refine ⟨harrays, hext, herrors, hlast, ⟨_, hblocks.symm⟩,
    ⟨_, hlog, htr.frees, htr.unpins, ?_, ?_⟩, ?_, ?_, ?_⟩
  · rw [mallocs_malloc htr, hheap]
    rfl
  · rw [hpinned]
    exact htr.pins
  · rw [hheap]
    intro b hb
    rw [List.mem_singleton.mp hb]
    refine ⟨Nat.le_refl _, ⟨.heap, true, cells⟩, ?_, rfl, rfl⟩
    rw [hblocks, List.getElem?_append_right (Nat.le_refl _), Nat.sub_self]
    rfl
  · rw [hheap]
    exact List.nodup_cons.mpr ⟨List.not_mem_nil, List.nodup_nil⟩
  · intro a' ha'
    rw [List.mem_singleton.mp ha']
    constructor
    · intro _
      exact ⟨_, helems⟩
    · intro h
      cases hrelease.symm.trans h

/-- Obtaining a copy in memory from `malloc` ends as `heapFate` says, after one call of `malloc`. -/
theorem heapCopy_fate (pf : Platform) (jvm : Jvm) (hpinned : isPinned e.flags = false)
    (hpending : s.pending = none) :
    Obtains s e (s.mallocs + 1)
      (getArrayHeap pf jvm e.object e.offset.toInt e.length.toInt e.flags s)
      (heapFate s.arrays (jvm.mallocFails s.mallocs) e) := by
  rw [heapFate, getArrayHeap]
  cases htype : componentOf e.flags with
  | none => exact ⟨_, rfl, .throw _ _, rfl⟩
  | some t =>
    dsimp only
    by_cases hlt : e.length.toInt + 1 < 2 ^ 31
    · have hdef : toJint (t.size * (e.length.toInt + 1)) = copySize t e.length.toInt :=
        congrArg toJint (Int.mul_comm ..)
      rw [if_pos hlt, if_pos hlt, hdef]
      by_cases hfails : copySize t e.length.toInt < 0 ∨ jvm.mallocFails s.mallocs = true
      · rw [if_pos hfails]
        simp only [Native.malloc, if_pos hfails]
        exact ⟨_, rfl, .of_onlyJni (onlyJni_singleton .throwNew) rfl rfl rfl rfl rfl
          List.prefix_rfl, rfl⟩
      · rw [if_neg hfails]
        simp only [Native.malloc, if_neg hfails]
        let size := (copySize t e.length.toInt).toNat
        let u : Native := { (s.newBlock .heap size).logged (.malloc s.blocks.length) with
          mallocs := s.mallocs + 1 }
        have hlog : ∀ tr, u.log ++ tr = s.log ++ (.malloc s.blocks.length :: tr) := fun tr =>
          List.append_assoc ..
        have hfill := @fillArray_fate pf u s.blocks ⟨.heap, true, List.replicate size .undef⟩ t
          e.offset.toInt e.length.toInt e.flags e.object rfl rfl hpending (some .heapArray)
        rw [List.length_replicate] at hfill
        revert hfill
        change Fills _ _ _ _ _ (fillFate t e.length.toInt e.flags size s.arrays e.object
          e.offset.toInt) → _
        cases fillFate t e.length.toInt e.flags size s.arrays e.object e.offset.toInt with
        | undefined => exact id
        | refused =>
          rintro ⟨tr, htr, hfill⟩
          refine ⟨_, s.blocks.length, hfill, ?_, rfl⟩
          exact acquires_lost htr (hlog tr) rfl rfl rfl rfl (List.prefix_append ..)
        | filled =>
          rintro ⟨cells, tr, hcells, htr, hfill⟩
          refine ⟨_, _, hfill, ⟨rfl, rfl, ?_, ?_⟩, rfl, ?_, rfl, rfl, rfl⟩
          · intro hout
            refine ⟨?_, hpinned⟩
            by_contra hnot
            rw [if_neg hnot] at hout
            cases hout
          · exact fun h => by cases h
          · exact acquires_heap htr (hlog tr) rfl rfl rfl rfl rfl rfl rfl
    · rw [if_neg hlt, if_neg hlt]
      rfl

end Copies

end Jffi
