import Jffi.ArrayCalls

/-!
# Pinned and copied arrays

The copy of an array is made and copied back by functions of the virtual machine, which count in
elements and check the range. The pointer of a pinned array is the start of its elements plus
`offset` *bytes*, and nothing is checked. The two agree where the difference cannot be seen.

## Main definitions

* `Interchangeable` — with `PINNED` and without it, all goes the same way

## Main results

* `interchangeable_iff` — when the two are interchangeable
-/

namespace Jffi

open ObjectBuffer

variable {pf : Platform} {ctx : NativeCallContext} {k L : ℕ} {t : ComponentType}
  {offset length : BitVec 32} {input output : Bool}

/-! ### The statement -/

/-- The descriptor and the range of an array passed as parameter `k`. -/
def arrayEntry (t : ComponentType) (flags : BitVec 32) (k r : ℕ) (offset length : BitVec 32) :
    ObjectEntry :=
  ⟨some (.array r), Put.arrayFlags t flags k, offset, length⟩

/-- The size of the elements asked for. -/
def elementBytes (t : ComponentType) (length : BitVec 32) : ℕ := length.toInt.toNat * t.size

/-- What makes a call with a pinned array and one with a copy the same, seen from the callee and
from the Java array `r`. -/
structure SameCall (pf : Platform) (k n r : ℕ) (flags : BitVec 32) (elements : Option (List Cell))
    (o o' : Outcome) : Prop where
  /-- An exception prevents both calls or none. -/
  called : o.called.isSome = o'.called.isSome
  /-- The callee gets its elements, those asked for if the array is passed `IN`. -/
  elements : 0 < n → ∀ c c', o.called = some c → o'.called = some c' →
    ∃ x x', received pf k n c.args c.memory = some x ∧ received pf k n c'.args c'.memory = some x' ∧
      (ArrayFlags.isIn flags = true → elements = some x.2 ∧ elements = some x'.2)
  /-- The array ends up with the same contents if it is passed `OUT`. -/
  contents : ArrayFlags.isOut flags = true → o.native.arrays[r]? = o'.native.arrays[r]?

/-- For every array of `L` elements, and every function that works on the elements it is given, a
call with the array pinned and one with a copy are the same. -/
def Interchangeable (pf : Platform) (ctx : NativeCallContext) (k : ℕ) (t : ComponentType) (L : ℕ)
    (offset length : BitVec 32) (input output : Bool) : Prop :=
  ∀ (bs : List Byte) (s : Native) (r : ℕ) (contents : List Byte)
    (c : ElementsCallee (elementBytes t length)),
    bs.length = ctx.cif.argTypes.length * slotSize → contents.length = L * t.size →
    s.arrays[r]? = some ⟨t, contents.map .byte⟩ → s.pending = none →
    c.Respects (ioFlags input output) →
    ∃ o o', invokeArrayWithObjects_ pf .reliable ctx (c.run pf k) bs
        [arrayEntry t (ioFlags input output) k r offset length]
        (returnBuffer pf ctx.cif.rtype) s = some o ∧
      invokeArrayWithObjects_ pf .reliable ctx (c.run pf k) bs
        [arrayEntry t (ioFlags input output ||| PINNED) k r offset length]
        (returnBuffer pf ctx.cif.rtype) s = some o' ∧
      SameCall pf k (elementBytes t length) r (ioFlags input output)
        (slice (contents.map .byte) (offset.toInt.toNat * t.size) (elementBytes t length)) o o'

/-! ### Where they agree -/

theorem arrayEntry_spec (ht : ctx.cif.argTypes[k]? = some .pointer) (hk : k < 256) (r : ℕ)
    (flags : BitVec 32) : ArrayEntry ctx k r t (arrayEntry t flags k r offset length) where
  argType := ht
  kind := decodeKind_arrayFlags t flags k
  index := index_arrayFlags t flags hk
  component := componentOf_arrayFlags t flags k
  object := rfl

theorem splice_nil {α : Type} {l : List α} {off : ℕ} (h : off ≤ l.length) :
    splice l off [] = some l := by
  refine splice_of_slice ?_
  rw [slice_eq_some]
  exact ⟨h, by simp⟩

/-- A copy small enough for `int` arithmetic has room for its elements. -/
theorem elementBytes_le_copySize (h0 : 0 ≤ length.toInt)
    (hsize : (length.toInt + 1) * t.size < 2 ^ 31) :
    (elementBytes t length : ℤ) ≤ copySize t length.toInt := by
  rw [copySize, toJint_copySize h0 hsize, elementBytes]
  exact Int.ofNat_le.mpr (Nat.mul_le_mul_right _ (Nat.le_succ _))

/-- A function that is given nothing leaves a Java array alone. -/
theorem ElementsCallee.arrays_run_zero {args : List (List Cell)} {m : Memory} {r : ℕ} {off : ℤ}
    {n : ℕ} (c : ElementsCallee n) (hn : n = 0)
    (hargs : args[k]? = some ((Ptr.array r off).digits pf)) :
    ∀ a, m.arrays[r]? = some a → (c.run pf k args m).memory.arrays[r]? = some a := by
  subst hn
  intro a ha
  cases hload : m.load (.array r off) 0 with
  | none =>
    have hreceived : received pf k 0 args m = none := by
      rw [received_eq hargs (by simp), hload]
      rfl
    simpa only [ElementsCallee.run, hreceived] using ha
  | some xs =>
    obtain ⟨a', ha', hslice⟩ := Option.bind_eq_some_iff.mp hload
    split at hslice
    · rename_i hoff
      obtain ⟨n, rfl⟩ := Int.eq_ofNat_of_zero_le hoff
      obtain rfl : a' = a := Option.some.inj (ha'.symm.trans ha)
      rw [Int.toNat_natCast] at hslice
      obtain ⟨xs', cells, -, -, hsplice, hmemory⟩ :=
        c.run_array hargs ha (slice_eq_some.mp hslice).1
      have hle : n ≤ a'.cells.length := (slice_eq_some.mp hslice).1
      rw [List.eq_nil_of_length_eq_zero (c.length_write _), splice_nil hle] at hsplice
      cases hsplice
      rw [hmemory]
      exact List.getElem?_set_self (List.getElem?_eq_some_iff.mp ha).1
    · cases hslice

/-- Acquiring a copy succeeds where the array has the elements and their size does not overflow. -/
theorem acquires_inRange {a : JavaArray} {r : ℕ} {s : Native} (ha : s.arrays[r]? = some a)
    (hpending : s.pending = none)
    (hrange : Native.inRange offset.toInt length.toInt a.length)
    (hsize : (length.toInt + 1) * a.component.size < 2 ^ 31) (l : ObjectLoop)
    (hkeep : s.KeepsHeap l.native) :
    let e := arrayEntry a.component (ioFlags input output) k r offset length
    ∃ acquired s', arrayStep pf .reliable ctx e l =
      addArray pf ctx (descriptorIndex e.flags) l (some acquired, s') := by
  intro e
  have hmalloc : ∀ n, Jvm.reliable.mallocFails n = false := fun _ => rfl
  obtain ⟨release, s', blk, hstep, -⟩ := arrayStep_acquires pf ctx (e := e) (l := l) hmalloc
    (isPinned_ioFlags _ _ _ _) (componentOf_arrayFlags _ _ _) rfl
    (by rw [hkeep.arrays_eq]; exact ha) hrange hsize (hkeep.pending_eq.trans hpending)
  exact ⟨_, s', hstep⟩

/-- It also succeeds, without a look at the range, where nothing is copied in and the number of
elements is not positive. -/
theorem acquires_outOnly {a : JavaArray} {r : ℕ}
    (hin : ArrayFlags.isIn (ioFlags input output) = false) (hlength : length.toInt ≤ 0)
    (hsize : 0 ≤ copySize a.component length.toInt) (l : ObjectLoop) :
    let e := arrayEntry a.component (ioFlags input output) k r offset length
    ∃ acquired s', arrayStep pf .reliable ctx e l =
      addArray pf ctx (descriptorIndex e.flags) l (some acquired, s') := by
  intro e
  have hpinned : isPinned e.flags = false := isPinned_ioFlags _ _ _ _
  have hcomponent : componentOf e.flags = some a.component := componentOf_arrayFlags _ _ _
  have hin' : isInArray e.flags = false := (isInArray_ioFlags _ _ _ _).trans hin
  have hcleared : isCleared e.flags = false := isCleared_ioFlags _ _ _ _
  have hterminated : isTerminated e.flags = false := isTerminated_ioFlags _ _ _ _ hin
  have hlt : e.length.toInt < MAX_STACK_ARRAY := Int.lt_of_le_of_lt hlength (by decide)
  have hobject : e.object = some (.array r) := rfl
  have halloca : (0 : ℤ) ≤ toJint ((e.length.toInt + 1) * a.component.size) := hsize
  simp only [arrayStep, hobject, hpinned, Bool.false_eq_true, if_false, if_pos hlt,
    Native.alloca, arraySize, hcomponent, if_pos halloca, Option.bind_eq_bind, Option.bind_some,
    getArrayBuffer, fillArray, copyData, hin', hcleared, terminate, hterminated, and_false,
    if_true]
  exact ⟨_, _, rfl⟩

/-- A function that is given nothing has nothing to write back. -/
theorem ElementsCallee.splice_write_zero {n off : ℕ} (c : ElementsCallee n) (hn : n = 0)
    {xs cells cells' : List Cell} (h : splice cells off (c.write xs) = some cells') :
    cells' = cells := by
  have hnil : c.write xs = [] := List.eq_nil_of_length_eq_zero ((c.length_write _).trans hn)
  have hle := Nat.le_of_add_right_le (splice_eq_some.mp h).1
  rw [hnil, splice_nil hle] at h
  exact (Option.some.inj h).symm

/-- The byte offset that a pinned array is passed with is that of its elements, which lie in the
array. -/
theorem offset_of_aligned (hrange : Native.inRange offset.toInt length.toInt L)
    (hlength : length.toInt ≠ 0) (h : length.toInt = 0 ∨ offset.toInt = 0 ∨ t.size = 1) :
    offset.toInt.toNat * t.size = offset.toInt.toNat ∧
      offset.toInt.toNat + elementBytes t length ≤ L * t.size := by
  have hoffset : offset.toInt.toNat * t.size = offset.toInt.toNat := by
    rcases h with h0 | h0 | h1
    · exact absurd h0 hlength
    · rw [h0, Int.toNat_zero, Nat.zero_mul]
    · rw [h1, Nat.mul_one]
  refine ⟨hoffset, ?_⟩
  rw [elementBytes]
  nth_rewrite 1 [← hoffset]
  rw [← Nat.add_mul]
  refine Nat.mul_le_mul_right _ ?_
  obtain ⟨h0, h1, h2⟩ := hrange
  omega

/-- Where the array has the elements and the offset counts the same in bytes, or nothing is asked
for and nothing copied in, the callee cannot see the difference. -/
theorem interchangeable_of_fits (h : ctx.Scalar pf) (ht : ctx.cif.argTypes[k]? = some .pointer)
    (hk : k < 256)
    (hfits : (Native.inRange offset.toInt length.toInt L ∧
        (length.toInt = 0 ∨ offset.toInt = 0 ∨ t.size = 1) ∧
        (length.toInt + 1) * t.size < 2 ^ 31) ∨
      (ArrayFlags.isIn (ioFlags input output) = false ∧ length.toInt ≤ 0 ∧
        0 ≤ copySize t length.toInt)) :
    Interchangeable pf ctx k t L offset length input output := by
  intro bs s r contents c hbs hcontents ha hpending hrespects
  let a : JavaArray := ⟨t, contents.map .byte⟩
  have hcells : a.cells.length = L * t.size := by
    rw [← hcontents]
    exact List.length_map _
  have hlen : a.length = L := by
    rw [JavaArray.length, hcells]
    exact Nat.mul_div_cancel L t.size_pos
  have hentry : ∀ flags, ArrayEntry ctx k r a.component (arrayEntry t flags k r offset length) :=
    arrayEntry_spec ht hk r
  obtain ⟨⟨l, hprepare⟩, hroom⟩ : (∃ l, prepareCall pf .reliable ctx bs
      [arrayEntry t (ioFlags input output) k r offset length] s = some (.next l)) ∧
      (elementBytes t length : ℤ) ≤ copySize t length.toInt := by
    rcases hfits with ⟨hrange, -, hsize⟩ | ⟨hin, hlength, hsize⟩
    · refine ⟨exists_prepareCall_copied h (hentry _) hbs ?_,
        elementBytes_le_copySize hrange.2.1 hsize⟩
      intro l hkeep
      exact acquires_inRange ha hpending (by rw [hlen]; exact hrange) hsize l hkeep
    · refine ⟨exists_prepareCall_copied h (hentry _) hbs ?_, ?_⟩
      · intro l _
        exact acquires_outOnly (a := a) hin hlength hsize l
      · rw [elementBytes, Int.toNat_of_nonpos hlength, Nat.zero_mul]
        exact hsize
  obtain ⟨o, call, x, ho, hcall, hx, hin, hout, hother⟩ := copied_call h (hentry _)
    (isPinned_ioFlags _ _ _ _) hbs ha hpending hprepare rfl hroom c
  obtain ⟨o', call', ho', hcall', hargs', harrays', hnative'⟩ := pinned_call h
    (hentry (ioFlags input output ||| PINNED)) (isPinned_ioFlags_pinned _ _ _ _) hbs ha (c.run pf k)
  refine ⟨o, o', ho, ho', ?_⟩
  have ha' : call'.memory.arrays[r]? = some a := by
    rw [harrays']
    exact ha
  by_cases hzero : elementBytes t length = 0
  · refine ⟨by rw [hcall, hcall']; rfl, fun hpos => absurd hzero (Nat.ne_of_gt hpos), fun _ => ?_⟩
    rw [hnative', c.arrays_run_zero hzero hargs' a ha']
    by_cases hboth : isOutArray (Put.arrayFlags t (ioFlags input output) k) = true ∧
        Native.inRange offset.toInt length.toInt a.length
    · obtain ⟨cells, hsplice, harrays⟩ := hout hboth.1 hboth.2
      rw [c.splice_write_zero hzero hsplice] at harrays
      rw [harrays]
      exact List.getElem?_set_self (List.getElem?_eq_some_iff.mp ha).1
    · rw [hother hboth]
      exact ha
  · have hlength : length.toInt ≠ 0 ∧ ¬ length.toInt ≤ 0 := by
      rw [elementBytes] at hzero
      have : length.toInt.toNat ≠ 0 := fun h => hzero (by rw [h, Nat.zero_mul])
      omega
    obtain ⟨hrange, haligned, -⟩ : Native.inRange offset.toInt length.toInt L ∧
        (length.toInt = 0 ∨ offset.toInt = 0 ∨ t.size = 1) ∧ _ := by
      rcases hfits with hfits | ⟨-, hle, -⟩
      · exact hfits
      · exact absurd hle hlength.2
    obtain ⟨hoffset, hfit⟩ := offset_of_aligned hrange hlength.1 haligned
    rw [← hcells] at hfit
    have hnat : ((offset.toInt.toNat : ℕ) : ℤ) = offset.toInt := Int.toNat_of_nonneg hrange.1
    change call'.args[k]? = some ((Ptr.array r offset.toInt).digits pf) at hargs'
    rw [← hnat] at hargs'
    obtain ⟨xs', cells', hx', hslice', hsplice', hmemory'⟩ := c.run_array hargs' ha' hfit
    have hsame : ArrayFlags.isIn (ioFlags input output) = true →
        slice a.cells (offset.toInt.toNat * t.size) (elementBytes t length) = some x.2 ∧
          slice a.cells (offset.toInt.toNat * t.size) (elementBytes t length) = some xs' := by
      intro hin'
      refine ⟨hin ((isInArray_ioFlags _ _ _ _).trans hin'), ?_⟩
      rw [hoffset]
      exact hslice'
    refine ⟨by rw [hcall, hcall']; rfl, fun _ c₁ c₂ hc₁ hc₂ => ?_, fun hout' => ?_⟩
    · obtain rfl : call = c₁ := Option.some.inj (hcall.symm.trans hc₁)
      obtain rfl : call' = c₂ := Option.some.inj (hcall'.symm.trans hc₂)
      exact ⟨x, _, hx, hx', hsame⟩
    · have hwrite : c.write x.2 = c.write xs' := by
        by_cases hin' : ArrayFlags.isIn (ioFlags input output) = true
        · obtain ⟨h₁, h₂⟩ := hsame hin'
          rw [Option.some.inj (h₁.symm.trans h₂)]
        · exact (hrespects (Bool.eq_false_iff.mpr hin') _ _).1
      obtain ⟨cells, hsplice, harrays⟩ := hout ((isOutArray_ioFlags _ _ _ _).trans hout')
        (by rw [hlen]; exact hrange)
      rw [hwrite] at hsplice
      change splice a.cells (offset.toInt.toNat * t.size) (c.write xs') = some cells at hsplice
      rw [hoffset, hsplice', Option.some.injEq] at hsplice
      rw [hnative', hmemory', harrays, harrays', hsplice]

/-! ### Where they do not -/

/-- An array of `n` bytes that are `0` before position `m` and `2` from there on. -/
def marked (m n : ℕ) : List Byte := (List.range n).map fun i => if i < m then 0 else 2

/-- The contents of an array of `L` elements that changes where the elements from `off` on begin. -/
def markedCells (t : ComponentType) (L off : ℕ) : List Cell :=
  (marked (off * t.size) (L * t.size)).map .byte

section Marked

variable {off n : ℕ} {xs cells : List Cell}

theorem length_markedCells (t : ComponentType) (L off : ℕ) :
    (markedCells t L off).length = L * t.size := by
  simp [markedCells, marked]

theorem markedCells_getElem? {i : ℕ} (hi : i < L * t.size) :
    (markedCells t L off)[i]? = some (.byte (if i < off * t.size then 0 else 2)) := by
  rw [markedCells, List.getElem?_map, marked, List.getElem?_map, List.getElem?_range hi]
  rfl

theorem markedCells_ne_one (i : ℕ) : (markedCells t L off)[i]? ≠ some (.byte 1) := by
  by_cases hi : i < L * t.size
  · rw [markedCells_getElem? hi]
    split <;> decide
  · rw [List.getElem?_eq_none (by rw [length_markedCells]; omega)]
    decide

/-- Elements read with the offset in elements and with the offset in bytes are the same only if the
two offsets are. -/
theorem aligned_of_slices (hpos : 0 < n)
    (hcopied : slice (markedCells t L off) (off * t.size) n = some xs)
    (hpinned : slice (markedCells t L off) off n = some xs) : ¬off < off * t.size := by
  intro hlt
  have hlast := (slice_eq_some.mp hcopied).1
  rw [length_markedCells] at hlast
  have hfirst := getElem?_of_slice hcopied hpos
  rw [getElem?_of_slice hpinned hpos, Nat.add_zero, Nat.add_zero,
    markedCells_getElem? (by omega), markedCells_getElem? (by omega), if_pos hlt,
    if_neg (Nat.lt_irrefl _)] at hfirst
  exact absurd hfirst (by decide)

/-- Elements written back from the offset in elements on reach the offset in bytes only if the two
are the same. -/
theorem aligned_of_splice (hcopied : splice (markedCells t L off) (off * t.size) xs = some cells)
    (hone : cells[off]? = some (.byte 1)) : ¬off < off * t.size := by
  intro hlt
  have hget := getElem?_of_splice hcopied off
  rw [if_neg (fun hle => Nat.not_lt.mpr hle.1 hlt)] at hget
  exact markedCells_ne_one off (hget.symm.trans hone)

end Marked

/-- A function that overwrites all it is given. -/
def writeOnes (n : ℕ) : ElementsCallee n where
  write _ := List.replicate n (.byte 1)
  result _ := []
  length_write _ := List.length_replicate

/-- What it makes of a pinned array, if it can get at its elements. -/
theorem writeOnes_array {args : List (List Cell)} {m : Memory} {n r : ℕ} {off : ℤ} {a : JavaArray}
    {x : Ptr × List Cell} (hargs : args[k]? = some ((Ptr.array r off).digits pf))
    (ha : m.arrays[r]? = some a) (hpos : 0 < n) (hx : received pf k n args m = some x) :
    slice a.cells off.toNat n = some x.2 ∧
      ∃ cells, ((writeOnes n).run pf k args m).memory.arrays[r]? = some { a with cells := cells } ∧
        cells[off.toNat]? = some (.byte 1) := by
  rw [received_eq hargs (by simp), Option.map_eq_some_iff] at hx
  obtain ⟨xs, hload, rfl⟩ := hx
  simp only [Memory.load, ha, Option.bind_eq_bind, Option.bind_some] at hload
  split at hload
  · rename_i hoff
    obtain ⟨i, rfl⟩ := Int.eq_ofNat_of_zero_le hoff
    rw [Int.toNat_natCast] at hload
    obtain ⟨ys, cells, -, -, hsplice, hmemory⟩ :=
      (writeOnes n).run_array hargs ha (slice_eq_some.mp hload).1
    refine ⟨hload, cells, ?_, ?_⟩
    · rw [hmemory]
      exact List.getElem?_set_self (List.getElem?_eq_some_iff.mp ha).1
    · rw [getElem?_of_splice hsplice, (writeOnes n).length_write, Int.toNat_natCast,
        if_pos (by omega), Nat.sub_self]
      exact List.getElem?_replicate_of_lt hpos
  · cases hload

theorem isOut_of_not_isIn (h : ArrayFlags.isIn (ioFlags input output) = false) :
    ArrayFlags.isOut (ioFlags input output) = true := by
  revert h
  cases input <;> cases output <;> decide

/-- Where no element is asked for, a copy takes place only if the condition holds. -/
theorem fits_of_nonpos (hle : length.toInt ≤ 0) (hsize : 0 ≤ copySize t length.toInt)
    (hrange : ArrayFlags.isIn (ioFlags input output) = true →
      Native.inRange offset.toInt length.toInt L) :
    (Native.inRange offset.toInt length.toInt L ∧
        (length.toInt = 0 ∨ offset.toInt = 0 ∨ t.size = 1) ∧
        (length.toInt + 1) * t.size < 2 ^ 31) ∨
      (ArrayFlags.isIn (ioFlags input output) = false ∧ length.toInt ≤ 0 ∧
        0 ≤ copySize t length.toInt) := by
  by_cases hin : ArrayFlags.isIn (ioFlags input output) = true
  · have hrange := hrange hin
    have hzero : length.toInt = 0 := Int.le_antisymm hle hrange.2.1
    refine .inl ⟨hrange, .inl hzero, ?_⟩
    have := size_le t
    rw [hzero]
    omega
  · exact .inr ⟨Bool.eq_false_iff.mpr hin, hle, hsize⟩

/-- **A difference can be seen** everywhere else: by a function that overwrites an array of zeros,
with other numbers from the first element asked for on. -/
theorem fits_of_interchangeable (h : ctx.Scalar pf) (ht : ctx.cif.argTypes[k]? = some .pointer)
    (hk : k < 256) (hinter : Interchangeable pf ctx k t L offset length input output) :
    (Native.inRange offset.toInt length.toInt L ∧
        (length.toInt = 0 ∨ offset.toInt = 0 ∨ t.size = 1) ∧
        (length.toInt + 1) * t.size < 2 ^ 31) ∨
      (ArrayFlags.isIn (ioFlags input output) = false ∧ length.toInt ≤ 0 ∧
        0 ≤ copySize t length.toInt) := by
  let contents := marked (offset.toInt.toNat * t.size) (L * t.size)
  have hcontents : contents.length = L * t.size := by simp [contents, marked]
  let a : JavaArray := ⟨t, markedCells t L offset.toInt.toNat⟩
  have hlen : a.length = L := by
    rw [JavaArray.length, length_markedCells]
    exact Nat.mul_div_cancel L t.size_pos
  let s : Native := ⟨⟨[a], [], fun _ => .undef, ⟨0, 0⟩⟩, none, 0, 0, 0, []⟩
  have ha : s.arrays[0]? = some a := rfl
  let c := writeOnes (elementBytes t length)
  let bs : List Byte := List.replicate (ctx.cif.argTypes.length * slotSize) 0
  have hbs : bs.length = ctx.cif.argTypes.length * slotSize := List.length_replicate
  obtain ⟨o, o', ho, ho', hsame⟩ := hinter bs s 0 contents c hbs hcontents ha rfl
    fun _ _ _ => ⟨rfl, rfl⟩
  have hentry : ∀ flags, ArrayEntry ctx k 0 a.component (arrayEntry t flags k 0 offset length) :=
    arrayEntry_spec ht hk 0
  -- the call with the pinned array takes place, so the other one does too
  obtain ⟨o'', call', ho'', hcall', hargs', harrays', hnative'⟩ := pinned_call h
    (hentry (ioFlags input output ||| PINNED)) (isPinned_ioFlags_pinned _ _ _ _) hbs ha (c.run pf k)
  obtain rfl : o' = o'' := Option.some.inj (ho'.symm.trans ho'')
  obtain ⟨call, hcall⟩ : ∃ call, o.called = some call := by
    rw [← Option.isSome_iff_exists, hsame.called, hcall']
    rfl
  obtain ⟨l, hprepare, hsize, hrange, hroom⟩ := copied_call_inv h (hentry (ioFlags input output))
    (isPinned_ioFlags _ _ _ _) hbs ha rfl ho hcall
  change 0 ≤ copySize t length.toInt at hsize
  change isInArray (Put.arrayFlags t (ioFlags input output) k) = true →
    Native.inRange offset.toInt length.toInt a.length at hrange
  rw [isInArray_ioFlags, hlen] at hrange
  by_cases hle : length.toInt ≤ 0
  · exact fits_of_nonpos hle hsize hrange
  have hpos : 0 < elementBytes t length := by
    have hlength : 0 < length.toInt.toNat := by omega
    exact Nat.mul_pos hlength t.size_pos
  obtain ⟨x, x', hx, hx', helements⟩ := hsame.elements hpos call call' hcall hcall'
  have hroom := hroom _ x hx
  have hnat : (length.toInt.toNat : ℤ) = length.toInt := Int.toNat_of_nonneg (by omega)
  have hbytes : length.toInt * t.size = (elementBytes t length : ℤ) := by
    rw [elementBytes, Int.natCast_mul, hnat]
  have hfit := size_lt_of_room (by rw [hbytes]; exact hroom)
  change call'.args[k]? = some ((Ptr.array 0 offset.toInt).digits pf) at hargs'
  obtain ⟨hslice', cells', harray', hone⟩ := writeOnes_array hargs' (by rw [harrays']; exact ha)
    hpos hx'
  rw [← hnative'] at harray'
  obtain ⟨o₂, call₂, x₂, ho₂, -, -, -, hout, hother⟩ := copied_call h (hentry _)
    (isPinned_ioFlags _ _ _ _) hbs ha rfl hprepare rfl hroom c
  obtain rfl : o = o₂ := Option.some.inj (ho.symm.trans ho₂)
  obtain ⟨hinRange, haligned⟩ : Native.inRange offset.toInt length.toInt L ∧
      ¬ offset.toInt.toNat < offset.toInt.toNat * t.size := by
    by_cases hin : ArrayFlags.isIn (ioFlags input output) = true
    · exact ⟨hrange hin, aligned_of_slices hpos (helements hin).2 hslice'⟩
    · have hout' := isOut_of_not_isIn (Bool.eq_false_iff.mpr hin)
      have hcontents' := hsame.contents hout'
      rw [harray'] at hcontents'
      by_cases hinRange : Native.inRange offset.toInt length.toInt a.length
      · obtain ⟨cells, hsplice, harrays⟩ := hout ((isOutArray_ioFlags _ _ _ _).trans hout') hinRange
        rw [harrays] at hcontents'
        cases hcontents'
        exact ⟨hlen ▸ hinRange, aligned_of_splice hsplice hone⟩
      · -- nothing is written back, so the first element asked for cannot have changed
        rw [hother fun hboth => hinRange hboth.2] at hcontents'
        have hsame := Option.some.inj (ha.symm.trans hcontents')
        have hget := (congrArg (fun b => b.cells[offset.toInt.toNat]?) hsame).trans hone
        exact absurd hget (markedCells_ne_one _)
  refine .inl ⟨hinRange, .inr ?_, hfit⟩
  by_contra hne
  rw [not_or] at hne
  have hsize := t.size_pos
  have hoffset := hinRange.1
  exact haligned ((Nat.lt_mul_iff_one_lt_right (by omega)).mpr (by omega))

/-- **Pinned and copied arrays are interchangeable** where the elements asked for are there, the
size of the copy fits an `int`, and the offset in bytes is the offset in elements; and where nothing
is given to the callee and nothing is checked. -/
theorem interchangeable_iff (pf : Platform) (ctx : NativeCallContext) (h : ctx.Scalar pf) (k : ℕ)
    (ht : ctx.cif.argTypes[k]? = some .pointer) (hk : k < 256) (t : ComponentType) (L : ℕ)
    (offset length : BitVec 32) (input output : Bool) :
    Interchangeable pf ctx k t L offset length input output ↔
      (Native.inRange offset.toInt length.toInt L ∧
        (length.toInt = 0 ∨ offset.toInt = 0 ∨ t.size = 1) ∧
        (length.toInt + 1) * t.size < 2 ^ 31) ∨
      (ArrayFlags.isIn (ioFlags input output) = false ∧ length.toInt ≤ 0 ∧
        0 ≤ copySize t length.toInt) := by
  constructor
  · intro hinter
    exact fits_of_interchangeable h ht hk hinter
  · intro hfits
    exact interchangeable_of_fits h ht hk hfits

theorem scalar_onePointer : onePointer.native.Scalar .linuxX64 := by
  intro t ht
  rw [CallContext.argTypes_eq] at ht
  obtain rfl : t = .pointer := List.mem_singleton.mp ht
  decide

theorem interchangeable_shorts :
    Interchangeable .linuxX64 onePointer.native 0 .short 4 0 4 true true :=
  (interchangeable_iff .linuxX64 onePointer.native scalar_onePointer 0 rfl (by decide) .short 4 0 4
    true true).mpr (.inl ⟨by decide, .inr (.inl rfl), by decide⟩)

/-- Two shorts out of four, from the second on: the callee gets other bytes than it should. -/
theorem not_interchangeable_shorts :
    ¬ Interchangeable .linuxX64 onePointer.native 0 .short 4 1 2 true true := by
  intro hinter
  rcases fits_of_interchangeable scalar_onePointer rfl (by decide) hinter with
    ⟨-, h, -⟩ | ⟨-, h, -⟩
  · revert h
    decide
  · revert h
    decide

end Jffi
