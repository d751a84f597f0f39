import Jffi.ArrayCalls
import Jffi.Libffi.ArgumentClasses
import Jffi.Libffi.Unix64

/-!
# Arguments from a call to a closure

Three loops of libffi run over the arguments of a function on x86-64: one counts the bytes they take
on the stack, one puts them into registers and onto the stack, and one, behind the trampoline of a
closure, finds them again. All three move through the same positions, and what one argument leaves
behind is not touched by the ones after it.

What arrives are the numbers and pointers in each argument. Padding may get lost: four bytes behind
a `float`.

## Main definitions

* `Position` — the registers in use and the bytes on the stack
* `AtPosition` — an argument lies where its position says
* `SameLeaves` — two values with the same numbers and pointers

## Main results

* `prepCifMachdep_spec` — the size of the area
* `passArguments_spec` — a call delivers every argument, inside of its arrays
* `closureInner_spec` — a closure finds them
* `ffiCallInt_closureInner` — both together
-/

namespace Jffi

/-! ### Positions -/

/-- What `examine_argument` stores for an argument. -/
def examined (t : FfiType .linuxX64) : Examined := (examineArgument t false).getD ⟨0, [], 0, 0⟩

/-- The registers in use, and the bytes of the area. -/
structure Position where
  counts : RegCounts
  offset : ℕ

namespace Position

/-- The position behind an argument of type `t`: in registers, if they suffice for it, or on the
stack. -/
def next (p : Position) (t : FfiType .linuxX64) : Position :=
  if p.counts.inMemory (examined t) then
    ⟨p.counts, alignUp p.offset (stackAlign t).toNat + t.size.toNat⟩
  else ⟨p.counts.add (examined t), p.offset⟩

/-- The position behind arguments of all the types. -/
def after (p : Position) (types : List (FfiType .linuxX64)) : Position := types.foldl next p

/-- The counts are those of registers there are. -/
def InRange (p : Position) : Prop :=
  p.counts.gprcount ≤ MAX_GPR_REGS ∧ p.counts.ssecount ≤ MAX_SSE_REGS

/-- One position is not behind another, in the registers of either file and on the stack. -/
structure Le (p q : Position) : Prop where
  gprcount : p.counts.gprcount ≤ q.counts.gprcount
  ssecount : p.counts.ssecount ≤ q.counts.ssecount
  offset : p.offset ≤ q.offset

theorem Le.refl (p : Position) : p.Le p := ⟨Nat.le_refl _, Nat.le_refl _, Nat.le_refl _⟩

theorem Le.trans {p q r : Position} (h : p.Le q) (h' : q.Le r) : p.Le r :=
  ⟨h.gprcount.trans h'.gprcount, h.ssecount.trans h'.ssecount, h.offset.trans h'.offset⟩

theorem next_of_inMemory {p : Position} {t : FfiType .linuxX64}
    (h : p.counts.inMemory (examined t) = true) :
    p.next t = ⟨p.counts, alignUp p.offset (stackAlign t).toNat + t.size.toNat⟩ := if_pos h

theorem next_of_not_inMemory {p : Position} {t : FfiType .linuxX64}
    (h : ¬p.counts.inMemory (examined t) = true) :
    p.next t = ⟨p.counts.add (examined t), p.offset⟩ := if_neg h

theorem InRange.next {p : Position} (h : p.InRange) (t : FfiType .linuxX64) :
    (p.next t).InRange := by
  by_cases hmem : p.counts.inMemory (examined t) = true
  · rw [next_of_inMemory hmem]
    exact h
  · rw [next_of_not_inMemory hmem]
    simp only [RegCounts.inMemory, Bool.or_eq_true, decide_eq_true_eq, not_or, Nat.not_lt] at hmem
    exact ⟨hmem.1.2, hmem.2⟩

end Position

/-! ### The alignment on the stack -/

/-- On the stack an argument is aligned to eight or sixteen bytes, whatever the alignment of its
type. -/
theorem Natural.stackAlign {t : FfiType .linuxX64} (h : Natural t) :
    IsPowerOfTwo (Jffi.stackAlign t) ∧ 8 ≤ (Jffi.stackAlign t).toNat ∧
      (Jffi.stackAlign t).toNat ∣ 16 := by
  rw [Jffi.stackAlign]
  obtain ⟨j, hj, heq⟩ := h.alignment
  split
  case isTrue => exact ⟨⟨3, rfl⟩, by decide, by decide⟩
  case isFalse hle =>
    refine ⟨⟨j, heq⟩, ?_, ?_⟩
    · rw [BitVec.lt_def] at hle
      exact Nat.le_of_not_lt hle
    · rw [heq]
      exact Nat.pow_dvd_pow 2 hj

theorem alignUp_lt (n : ℕ) {a : ℕ} (ha : 0 < a) : alignUp n a < n + a := by
  have hdiv := Nat.div_mul_le_self (n + (a - 1)) a
  rw [alignUp]
  omega

namespace Position

theorem le_next (p : Position) {t : FfiType .linuxX64} (h : Natural t) : p.Le (p.next t) := by
  by_cases hmem : p.counts.inMemory (examined t) = true
  · rw [next_of_inMemory hmem]
    have hle := le_alignUp p.offset (show 0 < (stackAlign t).toNat by
      have := h.stackAlign.2.1
      omega)
    exact ⟨Nat.le_refl _, Nat.le_refl _, hle.trans (Nat.le_add_right _ _)⟩
  · rw [next_of_not_inMemory hmem]
    exact ⟨Nat.le_add_right _ _, Nat.le_add_right _ _, Nat.le_refl _⟩

theorem le_after (p : Position) {types : List (FfiType .linuxX64)} (h : ∀ t ∈ types, Natural t) :
    p.Le (p.after types) := by
  induction types generalizing p with
  | nil => exact .refl p
  | cons t ts ih =>
    exact (p.le_next (h t (List.mem_cons_self ..))).trans
      (ih (p.next t) fun u hu => h u (List.mem_cons_of_mem t hu))

/-- The bytes an argument may take on the stack, with the padding before it. -/
def room (types : List (FfiType .linuxX64)) : ℕ := (types.map fun t => t.size.toNat + 16).sum

theorem offset_next_le (p : Position) {t : FfiType .linuxX64} (h : Natural t) :
    (p.next t).offset ≤ p.offset + (t.size.toNat + 16) := by
  by_cases hmem : p.counts.inMemory (examined t) = true
  · rw [next_of_inMemory hmem]
    obtain ⟨-, hle, hdvd⟩ := h.stackAlign
    have hlt := alignUp_lt p.offset (show 0 < (stackAlign t).toNat by omega)
    have := Nat.le_of_dvd (by decide) hdvd
    simp only
    omega
  · rw [next_of_not_inMemory hmem]
    exact Nat.le_add_right _ _

theorem offset_after_le (p : Position) {types : List (FfiType .linuxX64)}
    (h : ∀ t ∈ types, Natural t) : (p.after types).offset ≤ p.offset + room types := by
  induction types generalizing p with
  | nil => exact Nat.le_refl _
  | cons t ts ih =>
    have hnext := p.offset_next_le (h t (List.mem_cons_self ..))
    have ih := ih (p.next t) fun u hu => h u (List.mem_cons_of_mem t hu)
    simp only [room, List.map_cons, List.sum_cons] at ih ⊢
    exact ih.trans (by omega)

end Position

/-! ### `ffi_prep_cif_machdep` -/

theorem Natural.examineArgument_eq {t : FfiType .linuxX64} (h : Natural t) :
    examineArgument t false = some (examined t) := by
  by_cases hin : t.InMemory
  · obtain ⟨e, he, -⟩ := h.examine_inMemory hin false
    rw [examined, he]
    rfl
  · obtain ⟨e, he, -⟩ := h.examine_inRegisters hin false
    rw [examined, he]
    rfl

/-- When the registers that are left suffice for an argument, it is one that may travel in
registers. -/
theorem Natural.inRegisters {t : FfiType .linuxX64} (h : Natural t) {r : RegCounts}
    (hmem : ¬r.inMemory (examined t) = true) : InRegisters t (examined t) := by
  have hin : ¬t.InMemory := by
    intro hin
    obtain ⟨e, he, hzero⟩ := h.examine_inMemory hin false
    rw [examined, he] at hmem
    exact hmem (by simp [RegCounts.inMemory, hzero (.inl rfl)])
  obtain ⟨e, he, hregisters⟩ := h.examine_inRegisters hin false
  rw [examined, he]
  exact hregisters

/-- Aligning and adding a size do not wrap around, as long as the end that they should arrive at is
within the address space. -/
theorem toNat_align_add {b : SizeT .linuxX64} {a : BitVec 16} (ha : IsPowerOfTwo a)
    (size : SizeT .linuxX64) (hfits : alignUp b.toNat a.toNat + size.toNat < 2 ^ 64) :
    (FFI_ALIGN b a).toNat = alignUp b.toNat a.toNat ∧
      (FFI_ALIGN b a + size).toNat = alignUp b.toNat a.toNat + size.toNat := by
  have halign := toNat_FFI_ALIGN (v := b) ha (Nat.lt_of_le_of_lt (Nat.le_add_right _ _) hfits)
  refine ⟨halign, ?_⟩
  rw [BitVec.toNat_add, halign]
  exact Nat.mod_eq_of_lt hfits

theorem prepStep_spec {p : Position} {b : SizeT .linuxX64} (hb : b.toNat = p.offset)
    {t : FfiType .linuxX64} (h : Natural t) (hfits : (p.next t).offset < 2 ^ 64) :
    ∃ b', prepStep (p.counts, b) t = some ((p.next t).counts, b') ∧
      b'.toNat = (p.next t).offset := by
  rw [prepStep, h.examineArgument_eq]
  simp only [Option.bind_eq_bind, Option.bind_some]
  by_cases hmem : p.counts.inMemory (examined t) = true
  · rw [Position.next_of_inMemory hmem] at hfits ⊢
    rw [if_pos hmem, ← hb]
    rw [← hb] at hfits
    exact ⟨_, rfl, (toNat_align_add h.stackAlign.1 t.size hfits).2⟩
  · rw [Position.next_of_not_inMemory hmem, if_neg hmem]
    exact ⟨b, rfl, hb⟩

theorem foldlM_prepStep {types : List (FfiType .linuxX64)} (h : ∀ t ∈ types, Natural t)
    {p : Position} {b : SizeT .linuxX64} (hb : b.toNat = p.offset)
    (hfits : (p.after types).offset < 2 ^ 64) :
    ∃ b', types.foldlM prepStep (p.counts, b) = some ((p.after types).counts, b') ∧
      b'.toNat = (p.after types).offset := by
  induction types generalizing p b with
  | nil => exact ⟨b, rfl, hb⟩
  | cons t ts ih =>
    have htail := fun u hu => h u (List.mem_cons_of_mem t hu)
    have hle := ((p.next t).le_after htail).offset
    obtain ⟨b', hstep, hb'⟩ := prepStep_spec hb (h t (List.mem_cons_self ..))
      (Nat.lt_of_le_of_lt hle hfits)
    rw [List.foldlM_cons, hstep]
    exact ih htail hb' hfits

theorem and_or_flag (flags : BitVec 32) :
    (flags ||| UNIX64_FLAG_XMM_ARGS) &&& UNIX64_FLAG_RET_IN_MEM =
      flags &&& UNIX64_FLAG_RET_IN_MEM := by
  rw [BitVec.and_comm, BitVec.and_or_distrib_left, BitVec.and_comm]
  exact BitVec.or_zero

theorem or_flag_ne_zero (flags : BitVec 32) :
    (flags ||| UNIX64_FLAG_XMM_ARGS) &&& UNIX64_FLAG_XMM_ARGS ≠ 0 := by
  intro h
  have hbit := congrArg (BitVec.getLsbD · 11) h
  simp [UNIX64_FLAG_XMM_ARGS] at hbit

/-- The position at which the loops start, behind the address of a result in memory. -/
def Position.start (flags : BitVec 32) : Position := ⟨firstCounts flags, 0⟩

theorem Position.inRange_start (flags : BitVec 32) : (Position.start flags).InRange := by
  rw [InRange, start, firstCounts]
  split <;> decide

/-- **What is prepared for a call**: room for the arguments on the stack, and a flag when vector
registers are in use. -/
theorem prepCifMachdep_spec {rtype : FfiType .linuxX64} {flags : BitVec 32}
    (hflags : returnFlags rtype = some flags) {types : List (FfiType .linuxX64)}
    (h : ∀ t ∈ types, Natural t) (hroom : Position.room types < 2 ^ 32 - 8) :
    ∃ cif, prepCifMachdep rtype types = some cif ∧ cif.rtype = rtype ∧ cif.argTypes = types ∧
      firstCounts cif.flags = firstCounts flags ∧
      (cif.flags = flags ∨ cif.flags = flags ||| UNIX64_FLAG_XMM_ARGS) ∧
      (((Position.start flags).after types).counts.ssecount ≠ 0 →
        cif.flags &&& UNIX64_FLAG_XMM_ARGS ≠ 0) ∧
      ((Position.start flags).after types).offset ≤ cif.bytes.toNat := by
  have hle := (Position.start flags).offset_after_le h
  have hzero : (Position.start flags).offset = 0 := rfl
  obtain ⟨b, hloop, hb⟩ := foldlM_prepStep h (p := Position.start flags) (b := 0) rfl (by omega)
  have halign : (FFI_ALIGN b 8).toNat = alignUp b.toNat 8 := by
    refine toNat_FFI_ALIGN ⟨3, rfl⟩ ?_
    have := alignUp_lt b.toNat (show 0 < 8 by decide)
    refine Nat.lt_of_lt_of_le this ?_
    change b.toNat + 8 ≤ 2 ^ 64
    omega
  have hbytes : ((FFI_ALIGN b 8).setWidth 32).toNat = alignUp b.toNat 8 := by
    have := alignUp_lt b.toNat (show 0 < 8 by decide)
    rw [BitVec.toNat_setWidth, halign]
    refine Nat.mod_eq_of_lt ?_
    omega
  refine ⟨⟨rtype, types, if ((Position.start flags).after types).counts.ssecount ≠ 0 then
    flags ||| UNIX64_FLAG_XMM_ARGS else flags, (FFI_ALIGN b 8).setWidth 32⟩, ?_, rfl, rfl, ?_, ?_,
    fun hsse => ?_, ?_⟩
  · rw [prepCifMachdep, hflags]
    change (types.foldlM prepStep ((Position.start flags).counts, 0)).bind _ = _
    rw [hloop]
    rfl
  · simp only [firstCounts]
    split
    · rw [and_or_flag]
    · rfl
  · simp only
    split
    · exact .inr rfl
    · exact .inl rfl
  · simp only [if_pos hsse]
    exact or_flag_ne_zero flags
  · simp only [hbytes, ← hb]
    exact le_alignUp _ (by decide)

/-! ### Registers -/

/-- The registers behind a class of an argument. -/
def RegCounts.next (r : RegCounts) (c : RegClass) : RegCounts :=
  if c.isInteger then { r with gprcount := r.gprcount + 1 }
  else { r with ssecount := r.ssecount + 1 }

/-- The bytes of a value that a class moves to a register lie there: the classes from `k` on, from
the registers `r` on. -/
def Stored (gpr sse v : List Cell) : List RegClass → ℕ → RegCounts → Prop
  | [], _, _ => True
  | c :: cs, k, r =>
    (∀ i < 8, 8 * k + i < v.length → (c = .ssesf → i < 4) →
      (if c.isInteger then gpr[8 * r.gprcount + i]? else sse[16 * r.ssecount + i]?) =
        v[8 * k + i]?) ∧
    Stored gpr sse v cs (k + 1) (r.next c)

/-- Several classes, each for one of the two register files, move both counts by the number of
classes for that file. -/
theorem foldl_next {cs : List RegClass} (h : ∀ c ∈ cs, c.isSse = !c.isInteger) (r : RegCounts) :
    cs.foldl RegCounts.next r =
      ⟨r.gprcount + cs.countP RegClass.isInteger, r.ssecount + cs.countP RegClass.isSse⟩ := by
  induction cs generalizing r with
  | nil => rfl
  | cons c cs ih =>
    have hc := h c (List.mem_cons_self ..)
    rw [List.foldl_cons, ih fun d hd => h d (List.mem_cons_of_mem c hd), List.countP_cons,
      List.countP_cons, RegCounts.next]
    cases hint : c.isInteger
    · rw [hint] at hc
      simp [hc, Nat.add_assoc, Nat.add_comm 1]
    · rw [hint] at hc
      simp [hc, Nat.add_assoc, Nat.add_comm 1]

/-- When other registers are loaded, those that hold the words of an argument still hold them. -/
theorem Stored.keep {gpr sse gpr' sse' v : List Cell} {cs : List RegClass} {k : ℕ} {r : RegCounts}
    (h : Stored gpr sse v cs k r) (hcs : ∀ c ∈ cs, c.isSse = !c.isInteger)
    (hgpr : ∀ i < 8 * (r.gprcount + cs.countP RegClass.isInteger), gpr'[i]? = gpr[i]?)
    (hsse : ∀ i < 16 * (r.ssecount + cs.countP RegClass.isSse), sse'[i]? = sse[i]?) :
    Stored gpr' sse' v cs k r := by
  induction cs generalizing k r with
  | nil => trivial
  | cons c cs ih =>
    have hc := hcs c (List.mem_cons_self ..)
    rw [List.countP_cons] at hgpr hsse
    refine ⟨fun i hi hlt hlow => ?_, ih h.2 (fun d hd => hcs d (List.mem_cons_of_mem c hd)) ?_ ?_⟩
    · rw [← h.1 i hi hlt hlow]
      cases hint : c.isInteger
      · rw [hint] at hc
        simp only [hc, Bool.not_false, if_true] at hsse
        simp only [Bool.false_eq_true, if_false]
        exact hsse _ (by omega)
      · simp only [hint, if_true] at hgpr
        simp only [if_true]
        exact hgpr _ (by omega)
    · intro i hi
      refine hgpr i (Nat.lt_of_lt_of_le hi ?_)
      rw [RegCounts.next]
      split <;> simp only <;> omega
    · intro i hi
      refine hsse i (Nat.lt_of_lt_of_le hi ?_)
      rw [RegCounts.next]
      cases hint : c.isInteger
      · rw [hint] at hc
        simp only [Bool.false_eq_true, if_false, hc, Bool.not_false, if_true]
        omega
      · simp only [if_true]
        omega

/-- The types whose values are extended have the size that is extended. -/
structure SignedSizes (type : FFICode) (n : ℕ) : Prop where
  sint8 : type = .sint8 → n = 1
  sint16 : type = .sint16 → n = 2
  sint32 : type = .sint32 → n = 4

theorem Natural.signedSizes {t : FfiType .linuxX64} (h : Natural t) :
    SignedSizes t.type t.size.toNat := by
  cases h with
  | scalar s hs =>
    rw [(scalar_size hs).1]
    cases s with
    | void => cases hs
    | struct => cases hs
    | _ => constructor <;> decide
  | struct => constructor <;> (intro h; cases h)

/-- The eight bytes that a general register is loaded with are the next ones of the argument, as far
as it has them. -/
theorem gprImage_spec {type : FFICode} {v : List Cell} {k : ℕ} (hk : 8 * k < v.length)
    (hsigned : SignedSizes type v.length) :
    ∃ ds, gprImage type (v.drop (8 * k)) (v.length - 8 * k) = some ds ∧ ds.length = 8 ∧
      ∀ i < 8, 8 * k + i < v.length → ds[i]? = v[8 * k + i]? := by
  -- the first `n` bytes, and something behind them
  have hfill (n : ℕ) (hn : n ≤ 8) (hle : 8 * k + n ≤ v.length)
      (hall : ∀ i < 8, 8 * k + i < v.length → i < n) (fill : List Cell → Cell) :
      ∃ ds, ((slice (v.drop (8 * k)) 0 n).map fun ds => ds ++ List.replicate (8 - n) (fill ds)) =
        some ds ∧ ds.length = 8 ∧ ∀ i < 8, 8 * k + i < v.length → ds[i]? = v[8 * k + i]? := by
    obtain ⟨ys, hys⟩ : ∃ ys, slice (v.drop (8 * k)) 0 n = some ys :=
      exists_slice (by rw [List.length_drop]; omega)
    have hlen := length_of_slice hys
    refine ⟨_, by rw [hys]; rfl, by simp [hlen]; omega, fun i hi hlt => ?_⟩
    have hin := hall i hi hlt
    rw [List.getElem?_append_left (by omega), getElem?_of_slice hys hin, Nat.zero_add,
      List.getElem?_drop]
  have hzero {n : ℕ} (hlen : v.length = n) (hn : n ≤ 8) : k = 0 := by omega
  cases type with
  | sint8 =>
    have hlen := hsigned.sint8 rfl
    have hk0 := hzero hlen (by decide)
    exact hfill 1 (by decide) (by omega) (fun i _ hi => by omega) (extension true)
  | sint16 =>
    have hlen := hsigned.sint16 rfl
    have hk0 := hzero hlen (by decide)
    exact hfill 2 (by decide) (by omega) (fun i _ hi => by omega) (extension true)
  | sint32 =>
    have hlen := hsigned.sint32 rfl
    have hk0 := hzero hlen (by decide)
    exact hfill 4 (by decide) (by omega) (fun i _ hi => by omega) (extension true)
  | _ =>
    refine hfill (if v.length - 8 * k ≤ 8 then v.length - 8 * k else 8) ?_ ?_ ?_ (fun _ => .byte 0)
    · split <;> omega
    · split <;> omega
    · intro i hi hlt
      split <;> omega

/-- What the loop over the classes from `k` on has done: the registers before are kept, and the
bytes of the value are stored. -/
structure ClassesPassed (v : List Cell) (cs : List RegClass) (k : ℕ) (l l' : PassLoop) : Prop where
  gpr_length : l'.gpr.length = l.gpr.length
  sse_length : l'.sse.length = l.sse.length
  counts : l'.counts = cs.foldl RegCounts.next l.counts
  argp : l'.argp = l.argp
  stack : l'.stack = l.stack
  gpr : ∀ i < 8 * l.counts.gprcount, l'.gpr[i]? = l.gpr[i]?
  sse : ∀ i < 16 * l.counts.ssecount, l'.sse[i]? = l.sse[i]?
  stored : Stored l'.gpr l'.sse v cs k l.counts

/-- A word that was loaded into a general register, and then the other words behind it: so all of
them are passed. -/
theorem ClassesPassed.cons_integer {v : List Cell} {c : RegClass} {cs : List RegClass} {k : ℕ}
    {l l' : PassLoop} {ds gpr : List Cell} (hint : c.isInteger = true)
    (hlen : ds.length = 8) (hds : ∀ i < 8, 8 * k + i < v.length → ds[i]? = v[8 * k + i]?)
    (hsplice : splice l.gpr (8 * l.counts.gprcount) ds = some gpr)
    (h : ClassesPassed v cs (k + 1)
      { l with gpr := gpr, counts := { l.counts with gprcount := l.counts.gprcount + 1 } } l') :
    ClassesPassed v (c :: cs) k l l' := by
  have hget := getElem?_of_splice hsplice
  have hnext : l.counts.next c = { l.counts with gprcount := l.counts.gprcount + 1 } := if_pos hint
  refine ⟨h.gpr_length.trans (length_of_splice hsplice), h.sse_length, ?_, h.argp, h.stack,
    fun i hi => ?_, h.sse, fun i hi hlt _ => ?_, hnext ▸ h.stored⟩
  · rw [h.counts, List.foldl_cons, hnext]
  · rw [h.gpr i (by simp only; omega)]
    simp only [hget]
    rw [if_neg (by omega)]
  · rw [if_pos hint, h.gpr _ (by simp only; omega)]
    simp only [hget]
    rw [if_pos (by omega), Nat.add_sub_cancel_left]
    exact hds i hi hlt

/-- A word that was loaded into a vector register, and then the other words behind it: so all of
them are passed. -/
theorem ClassesPassed.cons_sse {v : List Cell} {c : RegClass} {cs : List RegClass} {k : ℕ}
    {l l' : PassLoop} {ds sse : List Cell} (hint : c.isInteger = false)
    (hds : ∀ i < 8, (c = .ssesf → i < 4) → i < ds.length ∧ ds[i]? = v[8 * k + i]?)
    (hsplice : splice l.sse (16 * l.counts.ssecount) ds = some sse)
    (h : ClassesPassed v cs (k + 1)
      { l with sse := sse, counts := { l.counts with ssecount := l.counts.ssecount + 1 } } l') :
    ClassesPassed v (c :: cs) k l l' := by
  have hget := getElem?_of_splice hsplice
  have hnext : l.counts.next c = { l.counts with ssecount := l.counts.ssecount + 1 } :=
    if_neg (Bool.eq_false_iff.mp hint)
  refine ⟨h.gpr_length, h.sse_length.trans (length_of_splice hsplice), ?_, h.argp, h.stack,
    h.gpr, fun i hi => ?_, fun i hi hlt hlow => ?_, hnext ▸ h.stored⟩
  · rw [h.counts, List.foldl_cons, hnext]
  · rw [h.sse i (by simp only; omega)]
    simp only [hget]
    rw [if_neg (by omega)]
  · obtain ⟨hin, hds⟩ := hds i hi hlow
    rw [if_neg (Bool.eq_false_iff.mp hint), h.sse _ (by simp only; omega)]
    simp only [hget]
    rw [if_pos (by omega), Nat.add_sub_cancel_left, hds]

/-- **The loop over the classes** stays inside of the registers and of the value. -/
theorem passClasses_spec {type : FFICode} {v : List Cell} (hsigned : SignedSizes type v.length)
    {cs : List RegClass} (hsse : ∀ c ∈ cs, c.isSse = !c.isInteger) (hsup : ∀ c ∈ cs, c ≠ .sseup)
    {k : ℕ} (hwords : 8 * (k + cs.length) < v.length + 8)
    (hroom : ∀ j c, cs[j]? = some c → c.isSse = true →
      8 * (k + j) + (if c = .ssesf then 4 else 8) ≤ v.length)
    {l : PassLoop} (hgpr : 8 * (l.counts.gprcount + cs.countP RegClass.isInteger) ≤ l.gpr.length)
    (hxmm : 16 * (l.counts.ssecount + cs.countP RegClass.isSse) ≤ l.sse.length) :
    ∃ l', passClasses type cs (v.drop (8 * k)) (v.length - 8 * k) l = some l' ∧
      ClassesPassed v cs k l l' := by
  induction cs generalizing k l with
  | nil => exact ⟨l, rfl, rfl, rfl, rfl, rfl, rfl, fun _ _ => rfl, fun _ _ => rfl, trivial⟩
  | cons c cs ih =>
    have hc := hsse c (List.mem_cons_self ..)
    have hcsup := hsup c (List.mem_cons_self ..)
    rw [List.length_cons] at hwords
    rw [List.countP_cons] at hgpr hxmm
    have ih {l : PassLoop} := ih (fun d hd => hsse d (List.mem_cons_of_mem c hd))
      (fun d hd => hsup d (List.mem_cons_of_mem c hd)) (k := k + 1) (by omega)
      (fun j d hd hd' => by
        have := hroom (j + 1) d hd hd'
        rw [Nat.add_assoc, Nat.add_comm 1 j]
        exact this) (l := l)
    have hdrop : (v.drop (8 * k)).drop 8 = v.drop (8 * (k + 1)) := by
      rw [List.drop_drop, Nat.mul_succ]
    have hsize : v.length - 8 * k - 8 = v.length - 8 * (k + 1) := by omega
    have hvector (n : ℕ) (hn : n ≤ 8) (hle : 8 * k + n ≤ v.length) (hcsse : c.isSse = true)
        (hlow : ∀ i < 8, (c = .ssesf → i < 4) → i < n) :
        ∃ l', (do
          let ds ← slice (v.drop (8 * k)) 0 n
          let sse ← splice l.sse (16 * l.counts.ssecount) ds
          passClasses type cs (v.drop (8 * (k + 1))) (v.length - 8 * (k + 1))
            { l with
              sse := sse
              counts := { l.counts with ssecount := l.counts.ssecount + 1 } }) = some l' ∧
          ClassesPassed v (c :: cs) k l l' := by
      have hint : c.isInteger = false := by
        rw [hcsse] at hc
        simpa using hc.symm
      simp only [hcsse, if_true, hint, Bool.false_eq_true, if_false, Nat.add_zero] at hxmm hgpr
      obtain ⟨ds, hds⟩ : ∃ ds, slice (v.drop (8 * k)) 0 n = some ds :=
        exists_slice (by rw [List.length_drop]; omega)
      have hlen := length_of_slice hds
      obtain ⟨sse, hsplice⟩ : ∃ sse, splice l.sse (16 * l.counts.ssecount) ds = some sse :=
        exists_splice (by omega)
      have hslen := length_of_splice hsplice
      obtain ⟨l', hl', hpassed⟩ := ih (l := { l with
          sse := sse
          counts := { l.counts with ssecount := l.counts.ssecount + 1 } }) hgpr
        (by simp only [hslen]; omega)
      refine ⟨l', by rw [hds]; simp only [Option.bind_eq_bind, Option.bind_some, hsplice, hl'],
        hpassed.cons_sse hint (fun i hi hlow' => ?_) hsplice⟩
      have hin := hlow i hi hlow'
      refine ⟨by omega, ?_⟩
      rw [getElem?_of_slice hds hin, Nat.zero_add, List.getElem?_drop]
    have hinteger (hint : c.isInteger = true) :
        ∃ l', (do
          let ds ← gprImage type (v.drop (8 * k)) (v.length - 8 * k)
          let gpr ← splice l.gpr (8 * l.counts.gprcount) ds
          passClasses type cs (v.drop (8 * (k + 1))) (v.length - 8 * (k + 1))
            { l with
              gpr := gpr
              counts := { l.counts with gprcount := l.counts.gprcount + 1 } }) = some l' ∧
          ClassesPassed v (c :: cs) k l l' := by
      have hnsse : c.isSse = false := by
        rw [hc, hint]
        rfl
      simp only [hint, if_true, hnsse, Bool.false_eq_true, if_false, Nat.add_zero] at hxmm hgpr
      obtain ⟨ds, hds, hlen, hbytes⟩ := gprImage_spec (k := k) (by omega) hsigned
      obtain ⟨gpr, hsplice⟩ : ∃ gpr, splice l.gpr (8 * l.counts.gprcount) ds = some gpr :=
        exists_splice (by omega)
      have hglen := length_of_splice hsplice
      obtain ⟨l', hl', hpassed⟩ := ih (l := { l with
          gpr := gpr
          counts := { l.counts with gprcount := l.counts.gprcount + 1 } })
        (by simp only [hglen]; omega) hxmm
      exact ⟨l', by rw [hds]; simp only [Option.bind_eq_bind, Option.bind_some, hsplice, hl'],
        hpassed.cons_integer hint hlen hbytes hsplice⟩
    have hcroom := hroom 0 c rfl
    cases c with
    | integer | integersi =>
      simpa only [passClasses, hdrop, hsize, Option.bind_eq_bind, Option.bind_assoc,
        Option.bind_some] using hinteger rfl
    | sse | ssedf =>
      simpa only [passClasses, hdrop, hsize, Option.bind_eq_bind, Option.bind_assoc,
        Option.bind_some] using hvector 8 (by decide) (hcroom rfl) rfl fun i hi _ => hi
    | ssesf =>
      simpa only [passClasses, hdrop, hsize, Option.bind_eq_bind, Option.bind_assoc,
        Option.bind_some] using hvector 4 (by decide) (hcroom rfl) rfl fun i _ hi => hi rfl
    | sseup => exact absurd rfl hcsup
    | no | x87 | x87up | complexX87 | memory => cases hc

/-! ### One argument -/

/-- An argument at position `p` lies where it was put, on the stack or in the registers. -/
def AtPosition (gpr sse stack : List Cell) (p : Position) (t : FfiType .linuxX64) (v : List Cell) :
    Prop :=
  if p.counts.inMemory (examined t) then
    ∀ i < v.length, stack[alignUp p.offset (stackAlign t).toNat + i]? = v[i]?
  else Stored gpr sse v (examined t).classes 0 p.counts

/-- What lies before position `p` is kept. -/
structure Keeps (p : Position) (l l' : PassLoop) : Prop where
  gpr : ∀ i < 8 * p.counts.gprcount, l'.gpr[i]? = l.gpr[i]?
  sse : ∀ i < 16 * p.counts.ssecount, l'.sse[i]? = l.sse[i]?
  stack : ∀ i < p.offset, l'.stack[i]? = l.stack[i]?

theorem Keeps.refl (p : Position) (l : PassLoop) : Keeps p l l :=
  ⟨fun _ _ => rfl, fun _ _ => rfl, fun _ _ => rfl⟩

theorem Keeps.trans {p q : Position} {l l' l'' : PassLoop} (h : Keeps p l l') (hle : p.Le q)
    (h' : Keeps q l' l'') : Keeps p l l'' where
  gpr := fun i hi => by
    have := hle.gprcount
    rw [h'.gpr i (by omega), h.gpr i hi]
  sse := fun i hi => by
    have := hle.ssecount
    rw [h'.sse i (by omega), h.sse i hi]
  stack := fun i hi => by
    have := hle.offset
    rw [h'.stack i (by omega), h.stack i hi]

/-- What was delivered at a position stays delivered, when the loop goes on without touching what
lies before the next position. -/
theorem AtPosition.keep {l l' : PassLoop} {p : Position} {t : FfiType .linuxX64} {v : List Cell}
    (h : AtPosition l.gpr l.sse l.stack p t v) (ht : Natural t) (hv : v.length = t.size.toNat)
    (hkeep : Keeps (p.next t) l l') : AtPosition l'.gpr l'.sse l'.stack p t v := by
  rw [AtPosition] at h ⊢
  by_cases hmem : p.counts.inMemory (examined t) = true
  · rw [Position.next_of_inMemory hmem] at hkeep
    rw [if_pos hmem] at h ⊢
    intro i hi
    rw [hkeep.stack _ (by simp only; omega), h i hi]
  · rw [Position.next_of_not_inMemory hmem] at hkeep
    rw [if_neg hmem] at h ⊢
    have hreg := ht.inRegisters hmem
    refine h.keep hreg.isSse (fun i hi => hkeep.gpr i ?_) fun i hi => hkeep.sse i ?_
    · rw [RegCounts.add, hreg.ngpr_eq]
      exact hi
    · rw [RegCounts.add, hreg.nsse_eq]
      exact hi

/-- The loop stands at position `p`, in arrays of the sizes they have. -/
structure PassLoop.At (l : PassLoop) (area : SizeT .linuxX64) (bytes : ℕ) (p : Position) :
    Prop where
  gpr_length : l.gpr.length = 8 * MAX_GPR_REGS
  sse_length : l.sse.length = 16 * MAX_SSE_REGS
  stack_length : l.stack.length = bytes
  counts : l.counts = p.counts
  argp : l.argp.toNat = area.toNat + p.offset

/-- The address of an argument on the stack, less the start of the area, is the aligned offset of
the position. -/
theorem toNat_argp {area argp : SizeT .linuxX64} {p : Position} (harea : 16 ∣ area.toNat)
    (hargp : argp.toNat = area.toNat + p.offset) {t : FfiType .linuxX64} (ht : Natural t)
    (hfits : area.toNat + (alignUp p.offset (stackAlign t).toNat + t.size.toNat) < 2 ^ 64) :
    (FFI_ALIGN argp (stackAlign t) - area).toNat = alignUp p.offset (stackAlign t).toNat ∧
      (FFI_ALIGN argp (stackAlign t) + t.size).toNat =
        area.toNat + (alignUp p.offset (stackAlign t).toNat + t.size.toNat) := by
  obtain ⟨hpow, -, hdvd⟩ := ht.stackAlign
  have hup : alignUp argp.toNat (stackAlign t).toNat =
      area.toNat + alignUp p.offset (stackAlign t).toNat := by
    rw [hargp, alignUp_add (Nat.dvd_trans hdvd harea)]
  obtain ⟨halign, hadd⟩ := toNat_align_add (b := argp) hpow t.size
    (by rw [hup, Nat.add_assoc]; exact hfits)
  rw [hup] at halign hadd
  refine ⟨?_, hadd.trans (Nat.add_assoc ..)⟩
  rw [BitVec.toNat_sub_of_le, halign, Nat.add_sub_cancel_left]
  rw [BitVec.le_def, halign]
  exact Nat.le_add_right _ _

/-- A round of the loop of `ffi_call_int` delivers its argument at the position, keeps what lies
before it, and ends at the next position. -/
theorem passStep_spec {area : SizeT .linuxX64} {bytes : ℕ} (harea : 16 ∣ area.toNat)
    (hbytes : area.toNat + bytes < 2 ^ 64) {p : Position} (hrange : p.InRange) {l : PassLoop}
    (hl : l.At area bytes p) {t : FfiType .linuxX64} (ht : Natural t) {v : List Cell}
    (hv : v.length = t.size.toNat) (hfits : (p.next t).offset ≤ bytes) :
    ∃ l', passStep area l (t, v) = some l' ∧ l'.At area bytes (p.next t) ∧ Keeps p l l' ∧
      AtPosition l'.gpr l'.sse l'.stack p t v := by
  rw [passStep]
  simp only [ht.examineArgument_eq, Option.bind_eq_bind, Option.bind_some, hl.counts]
  by_cases hmem : p.counts.inMemory (examined t) = true
  · rw [Position.next_of_inMemory hmem] at hfits ⊢
    simp only at hfits
    obtain ⟨hoffset, hargp⟩ := toNat_argp harea hl.argp ht (by omega)
    have hslice : slice v 0 t.size.toNat = some v := hv ▸ slice_all v
    obtain ⟨stack, hsplice⟩ : ∃ stack,
        splice l.stack (alignUp p.offset (stackAlign t).toNat) v = some stack :=
      exists_splice (by rw [hl.stack_length, hv]; exact hfits)
    have hget := getElem?_of_splice hsplice
    have hle := le_alignUp p.offset (show 0 < (stackAlign t).toNat by
      have := ht.stackAlign.2.1
      omega)
    rw [if_pos hmem, hslice, hoffset]
    simp only [Option.bind_some, hsplice]
    refine ⟨_, rfl, ⟨hl.gpr_length, hl.sse_length, ?_, rfl, hargp⟩,
      ⟨fun _ _ => rfl, fun _ _ => rfl, fun i hi => ?_⟩, ?_⟩
    · exact (length_of_splice hsplice).trans hl.stack_length
    · simp only [hget]
      rw [if_neg (by omega)]
    · rw [AtPosition, if_pos hmem]
      intro i hi
      simp only [hget]
      rw [if_pos (by omega), Nat.add_sub_cancel_left]
  · have hreg := ht.inRegisters hmem
    have hrange' := hrange.next t
    rw [Position.next_of_not_inMemory hmem] at hrange' ⊢
    obtain ⟨hgprs, hsses⟩ := hrange'
    simp only [RegCounts.add] at hgprs hsses
    have hlen : (examined t).classes.length = (v.length + 7) / 8 := by
      rw [hreg.length_eq, hreg.n_eq, hv]
    have hpos := ht.size_pos
    obtain ⟨l', hl', hpassed⟩ := passClasses_spec (v := v) (hv ▸ ht.signedSizes) hreg.isSse
      hreg.ne_sseup (k := 0) (by omega)
      (fun j c hc hsse => by rw [Nat.zero_add, hv]; exact hreg.room j c hc hsse) (l := l)
      (by rw [hl.counts, hl.gpr_length, ← hreg.ngpr_eq]; omega)
      (by rw [hl.counts, hl.sse_length, ← hreg.nsse_eq]; omega)
    rw [if_neg hmem, ← hreg.length_eq, List.take_length, ← hv]
    refine ⟨l', hl', ⟨hpassed.gpr_length.trans hl.gpr_length,
      hpassed.sse_length.trans hl.sse_length, hpassed.stack ▸ hl.stack_length, ?_,
      hpassed.argp ▸ hl.argp⟩, ⟨hl.counts ▸ hpassed.gpr, hl.counts ▸ hpassed.sse,
      fun i _ => by rw [hpassed.stack]⟩, ?_⟩
    · rw [hpassed.counts, hl.counts, foldl_next hreg.isSse, ← hreg.ngpr_eq, ← hreg.nsse_eq]
      rfl
    · rw [AtPosition, if_neg hmem]
      exact hl.counts ▸ hpassed.stored

/-! ### All arguments -/

/-- The arguments lie at their positions. -/
def AllAtPositions (gpr sse stack : List Cell) :
    Position → List (FfiType .linuxX64) → List (List Cell) → Prop
  | p, t :: ts, v :: vs =>
    AtPosition gpr sse stack p t v ∧ AllAtPositions gpr sse stack (p.next t) ts vs
  | _, _, _ => True

/-- The values have the sizes of their types. -/
def Sized (types : List (FfiType .linuxX64)) (values : List (List Cell)) : Prop :=
  List.Forall₂ (fun t v => Natural t ∧ v.length = t.size.toNat) types values

theorem Sized.natural {types : List (FfiType .linuxX64)} {values : List (List Cell)}
    (h : Sized types values) : ∀ t ∈ types, Natural t := by
  induction h with
  | nil => simp
  | cons hhead _ ih => exact List.forall_mem_cons.mpr ⟨hhead.1, ih⟩

/-- The loop of `ffi_call_int` delivers all arguments at their positions, because no round touches
what an earlier one has delivered. -/
theorem passArguments_spec {area : SizeT .linuxX64} {bytes : ℕ} (harea : 16 ∣ area.toNat)
    (hbytes : area.toNat + bytes < 2 ^ 64) {types : List (FfiType .linuxX64)}
    {values : List (List Cell)} (h : Sized types values) {p : Position} (hrange : p.InRange)
    {l : PassLoop} (hl : l.At area bytes p) (hfits : (p.after types).offset ≤ bytes) :
    ∃ l', (types.zip values).foldlM (passStep area) l = some l' ∧
      l'.At area bytes (p.after types) ∧ Keeps p l l' ∧
      AllAtPositions l'.gpr l'.sse l'.stack p types values := by
  induction h generalizing p l with
  | nil => exact ⟨l, rfl, hl, .refl p l, trivial⟩
  | @cons t v ts vs hhead htail ih =>
    obtain ⟨ht, hv⟩ := hhead
    have hle := (p.next t).le_after (Sized.natural htail)
    obtain ⟨l₁, hstep, hl₁, hkeep, hat⟩ := passStep_spec harea hbytes hrange hl ht hv
      (hle.offset.trans hfits)
    obtain ⟨l', hloop, hl', hkeep', hall⟩ := ih (hrange.next t) hl₁ hfits
    refine ⟨l', ?_, hl', hkeep.trans (p.le_next ht) hkeep', hat.keep ht hv hkeep', hall⟩
    rw [List.zip_cons_cons, List.foldlM_cons, hstep]
    exact hloop

/-! ### What arrives -/

/-- Two values of a type have the same numbers and pointers; their padding may differ. -/
def SameLeaves (t : FfiType .linuxX64) (v w : List Cell) : Prop :=
  ∀ l ∈ leaves t, slice w l.offset l.size = slice v l.offset l.size

/-- It is enough to have the bytes that the classes move. -/
theorem sameLeaves_of_words {t : FfiType .linuxX64} (ht : Natural t) {e : Examined}
    (hreg : InRegisters t e) {v w : List Cell} (hv : v.length = t.size.toNat)
    (hw : w.length = t.size.toNat)
    (h : ∀ k c, e.classes[k]? = some c → ∀ i < 8, 8 * k + i < v.length → (c = .ssesf → i < 4) →
      w[8 * k + i]? = v[8 * k + i]?) : SameLeaves t v w := by
  intro l hl
  refine slice_congr (hw.trans hv.symm) fun i hi => ?_
  have hstop := (ht.leafOf hl).stop_le
  rw [Leaf.stop] at hstop
  -- the word the byte lies in
  obtain ⟨k, j, hj, hkj⟩ : ∃ k j, j < 8 ∧ l.offset + i = 8 * k + j :=
    ⟨(l.offset + i) / 8, (l.offset + i) % 8, Nat.mod_lt _ (by decide),
      (Nat.div_add_mod _ _).symm⟩
  have hk : k < e.classes.length := by
    rw [hreg.length_eq, hreg.n_eq]
    omega
  rw [hkj]
  refine h k _ (List.getElem?_eq_getElem hk) j hj (by omega) fun hc => ?_
  have hlow := hreg.low k (hc ▸ List.getElem?_eq_getElem hk) l hl
    ⟨by omega, by rw [Leaf.stop]; omega⟩
  rw [Leaf.stop] at hlow
  omega

/-- The words of an argument that lie in registers of both files are gathered, one behind the other,
to the bytes of the argument. -/
theorem gatherClasses_spec {flags : BitVec 32} {entry : NativeEntry} {v : List Cell}
    {cs : List RegClass} (hcs : ∀ c ∈ cs, c.isSse = !c.isInteger) {k : ℕ} {r : RegCounts}
    (hgpr : 8 * (r.gprcount + cs.countP RegClass.isInteger) ≤ entry.gpr.length)
    (hsse : 16 * (r.ssecount + cs.countP RegClass.isSse) ≤ (savedSse flags entry).length)
    (h : Stored entry.gpr (savedSse flags entry) v cs k r) :
    ∃ cells, gatherClasses flags entry cs r = some (cells, cs.foldl RegCounts.next r) ∧
      cells.length = 8 * cs.length ∧
      ∀ j c, cs[j]? = some c → ∀ i < 8, 8 * (k + j) + i < v.length → (c = .ssesf → i < 4) →
        cells[8 * j + i]? = v[8 * (k + j) + i]? := by
  induction cs generalizing k r with
  | nil => exact ⟨[], rfl, rfl, by simp⟩
  | cons c cs ih =>
    have hc := hcs c (List.mem_cons_self ..)
    obtain ⟨hfirst, hrest⟩ := h
    rw [List.countP_cons] at hgpr hsse
    have hcounts : 8 * ((r.next c).gprcount + cs.countP RegClass.isInteger) ≤ entry.gpr.length ∧
        16 * ((r.next c).ssecount + cs.countP RegClass.isSse) ≤
          (savedSse flags entry).length := by
      rw [hc] at hsse
      rw [RegCounts.next]
      cases hint : c.isInteger <;> simp [hint] at hgpr hsse ⊢ <;> omega
    obtain ⟨rest, hgather, hlen, hbytes⟩ :=
      ih (fun d hd => hcs d (List.mem_cons_of_mem c hd)) hcounts.1 hcounts.2 hrest
    -- eight bytes from one of the files, then the others
    have hcons (file : List Cell) (off : ℕ) (hfile : off + 8 ≤ file.length)
        (hstored : ∀ i < 8, 8 * k + i < v.length → (c = .ssesf → i < 4) →
          file[off + i]? = v[8 * k + i]?) :
        ∃ ds, slice file off 8 = some ds ∧ (ds ++ rest).length = 8 * (c :: cs).length ∧
          ∀ j d, (c :: cs)[j]? = some d → ∀ i < 8, 8 * (k + j) + i < v.length →
            (d = .ssesf → i < 4) → (ds ++ rest)[8 * j + i]? = v[8 * (k + j) + i]? := by
      obtain ⟨ds, hds⟩ : ∃ ds, slice file off 8 = some ds := exists_slice hfile
      have hdslen := length_of_slice hds
      refine ⟨ds, hds, ?_, fun j d hd i hi hlt hlow => ?_⟩
      · rw [List.length_append, hdslen, hlen, List.length_cons]
        omega
      · cases j with
        | zero =>
          cases hd
          rw [List.getElem?_append_left (by omega), getElem?_of_slice hds (by omega),
            Nat.mul_zero, Nat.zero_add]
          exact hstored i hi hlt hlow
        | succ j =>
          have hindex : 8 * (k + (j + 1)) = 8 * (k + 1 + j) := by omega
          rw [hindex] at hlt ⊢
          rw [List.getElem?_append_right (by omega), hdslen, ← hbytes j d hd i hi hlt hlow]
          congr 1
          omega
    rw [gatherClasses]
    cases hint : c.isInteger
    · replace hc : c.isSse = true := hc.trans (congrArg not hint)
      have hnext : r.next c = { r with ssecount := r.ssecount + 1 } :=
        if_neg (Bool.eq_false_iff.mp hint)
      simp only [hint, hc, if_true, Bool.false_eq_true, if_false] at hsse hfirst
      obtain ⟨ds, hds, hdslen, hdsbytes⟩ := hcons (savedSse flags entry)
        (16 * r.ssecount) (by omega) hfirst
      rw [if_pos hc, hds, ← hnext]
      simp only [Option.bind_eq_bind, Option.bind_some, hgather]
      exact ⟨_, rfl, hdslen, hdsbytes⟩
    · replace hc : c.isSse = false := hc.trans (congrArg not hint)
      have hnext : r.next c = { r with gprcount := r.gprcount + 1 } := if_pos hint
      simp only [hint, if_true] at hgpr hfirst
      obtain ⟨ds, hds, hdslen, hdsbytes⟩ := hcons entry.gpr
        (8 * r.gprcount) (by omega) fun i hi hlt _ => hfirst i hi hlt (fun h => by
          rw [h] at hint
          cases hint)
      rw [if_neg (Bool.eq_false_iff.mp hc), hds, ← hnext]
      simp only [Option.bind_eq_bind, Option.bind_some, hgather]
      exact ⟨_, rfl, hdslen, hdsbytes⟩

/-- General registers lie one behind the other, so that an argument in several of them can be read
where it is. -/
theorem Stored.consecutive {gpr sse v : List Cell} {cs : List RegClass} {k : ℕ} {r : RegCounts}
    (h : Stored gpr sse v cs k r) (hcs : ∀ c ∈ cs, c.isInteger = true) {j i : ℕ}
    (hj : j < cs.length) (hi : i < 8) (hlt : 8 * (k + j) + i < v.length) :
    gpr[8 * (r.gprcount + j) + i]? = v[8 * (k + j) + i]? := by
  induction cs generalizing k r j with
  | nil => cases hj
  | cons c cs ih =>
    obtain ⟨hfirst, hrest⟩ := h
    have hint := hcs c (List.mem_cons_self ..)
    cases j with
    | zero =>
      simp only [hint, if_true] at hfirst
      exact hfirst i hi hlt fun hc => by
        rw [hc] at hint
        cases hint
    | succ j =>
      have hnext : r.next c = { r with gprcount := r.gprcount + 1 } := if_pos hint
      have hindex : 8 * (k + (j + 1)) = 8 * (k + 1 + j) := by omega
      rw [hindex] at hlt ⊢
      rw [← ih hrest (fun d hd => hcs d (List.mem_cons_of_mem c hd)) (Nat.lt_of_succ_lt_succ hj)
        hlt, hnext]
      congr 1
      simp only
      omega

/-- What a closure reads at `source` has the numbers and pointers of `v`. -/
def ArgSource.Finds (flags : BitVec 32) (entry : NativeEntry) (t : FfiType .linuxX64)
    (v : List Cell) (source : ArgSource) : Prop :=
  ∃ w, source.read flags entry t.size.toNat = some w ∧ SameLeaves t v w

section Sources

variable {flags : BitVec 32} {entry : NativeEntry} {t : FfiType .linuxX64} {v : List Cell}
  {r : RegCounts}

/-- Cells that have the words of an argument have its numbers and pointers. -/
theorem exists_sameLeaves (ht : Natural t) (hreg : InRegisters t (examined t))
    (hv : v.length = t.size.toNat) {cells : List Cell} {off : ℕ}
    (hroom : off + t.size.toNat ≤ cells.length)
    (hwords : ∀ k c, (examined t).classes[k]? = some c → ∀ i < 8, 8 * k + i < v.length →
      (c = .ssesf → i < 4) → cells[off + (8 * k + i)]? = v[8 * k + i]?) :
    ∃ w, slice cells off t.size.toNat = some w ∧ SameLeaves t v w := by
  obtain ⟨w, hw⟩ := exists_slice hroom
  refine ⟨w, hw, sameLeaves_of_words ht hreg hv (length_of_slice hw) fun k c hc i hi hlt hlow => ?_⟩
  rw [getElem?_of_slice hw (by omega), hwords k c hc i hi hlt hlow]

variable (ht : Natural t) (hreg : InRegisters t (examined t)) (hv : v.length = t.size.toNat)
  (hgpr : 8 * (r.gprcount + (examined t).classes.countP RegClass.isInteger) ≤ entry.gpr.length)
  (hsse : 16 * (r.ssecount + (examined t).classes.countP RegClass.isSse) ≤
    (savedSse flags entry).length)
  (h : Stored entry.gpr (savedSse flags entry) v (examined t).classes 0 r)

include ht hreg hv h

include hgpr in
/-- An argument in general registers only is found in the saved registers, where it starts. -/
theorem finds_gpr (hall : ∀ c ∈ (examined t).classes, c.isInteger = true) :
    ArgSource.Finds flags entry t v (.gpr r.gprcount) := by
  have hn := hreg.n_eq
  have hlen := hreg.length_eq
  rw [List.countP_eq_length.mpr hall] at hgpr
  refine exists_sameLeaves ht hreg hv (by omega) fun k c hc i hi hlt _ => ?_
  have hk := (List.getElem?_eq_some_iff.mp hc).1
  have hword := h.consecutive hall hk hi (by rw [Nat.zero_add]; exact hlt)
  rw [Nat.zero_add] at hword
  rw [← hword]
  congr 1
  omega

include hsse in
/-- An argument in one vector register is found in the saved one. -/
theorem finds_sse {c : RegClass} (hone : (examined t).classes = [c]) (hint : c.isInteger = false) :
    ArgSource.Finds flags entry t v (.sse r.ssecount) := by
  have hn := hreg.n_eq
  have hlen := hreg.length_eq
  have hc : c.isSse = true := by
    rw [hreg.isSse c (hone ▸ List.mem_singleton_self c), hint]
    rfl
  rw [hone] at h hsse hlen
  rw [List.countP_singleton, if_pos hc] at hsse
  rw [List.length_singleton] at hlen
  refine exists_sameLeaves ht hreg hv (by omega) fun k d hk i hi hlt hlow => ?_
  rw [hone] at hk
  obtain rfl : k = 0 := by
    have := (List.getElem?_eq_some_iff.mp hk).1
    rw [List.length_singleton] at this
    omega
  cases hk
  have hword := h.1 i hi hlt hlow
  rw [if_neg (Bool.eq_false_iff.mp hint)] at hword
  rw [Nat.mul_zero, Nat.zero_add] at hword ⊢
  exact hword

include hgpr hsse in
/-- The copy that is made of an argument in registers of both files has all of its words. -/
theorem finds_copy :
    ∃ cells, gatherClasses flags entry (examined t).classes r =
        some (cells, ⟨r.gprcount + (examined t).classes.countP RegClass.isInteger,
          r.ssecount + (examined t).classes.countP RegClass.isSse⟩) ∧
      ArgSource.Finds flags entry t v
        (.copy (cells ++ List.replicate (16 - cells.length) .undef)) := by
  have hn := hreg.n_eq
  have hlen := hreg.length_eq
  obtain ⟨cells, hgather, hcells, hwords⟩ := gatherClasses_spec hreg.isSse hgpr hsse h
  rw [foldl_next hreg.isSse] at hgather
  refine ⟨cells, hgather, exists_sameLeaves ht hreg hv ?_ fun k c hk i hi hlt hlow => ?_⟩
  · rw [List.length_append, List.length_replicate, hcells, hlen]
    omega
  · have hk' := (List.getElem?_eq_some_iff.mp hk).1
    rw [Nat.zero_add, List.getElem?_append_left (by omega)]
    have hword := hwords k c hk i hi (by rw [Nat.zero_add]; exact hlt) hlow
    rw [Nat.zero_add] at hword
    exact hword

end Sources

/-- Of two registers that are not both general ones, one is a vector register, as the closure's code
tests it. -/
theorem InRegisters.mixed {t : FfiType .linuxX64} {e : Examined} (hreg : InRegisters t e)
    (htwo : e.classes.length = 2) {c : RegClass} (hc : c ∈ e.classes) (hint : c.isInteger = false) :
    ((e.classes[0]?.map RegClass.isSse).getD false ||
      (e.classes[1]?.map RegClass.isSse).getD false) = true := by
  have hsse : c.isSse = true := by
    rw [hreg.isSse c hc, hint]
    rfl
  obtain ⟨d, d', hd⟩ := List.length_eq_two.mp htwo
  rw [hd] at hc ⊢
  simp only [List.mem_cons, List.not_mem_nil, or_false] at hc
  rcases hc with rfl | rfl
  · simp [hsse]
  · simp [hsse]

/-- A round of the closure's loop names a place with the numbers and pointers of its argument, if
the call has put the argument at the position where the closure looks for it. -/
theorem innerStep_spec {flags : BitVec 32} {entry : NativeEntry} (harea : 16 ∣ entry.argp.toNat)
    (hbytes : entry.argp.toNat + entry.stack.length < 2 ^ 64)
    (hgpr : entry.gpr.length = 8 * MAX_GPR_REGS)
    (hsse : (savedSse flags entry).length = 16 * MAX_SSE_REGS) {p : Position}
    (hrange : p.InRange) {l : InnerLoop} (hcounts : l.counts = p.counts)
    (hargp : l.argp.toNat = entry.argp.toNat + p.offset) {t : FfiType .linuxX64} (ht : Natural t)
    {v : List Cell} (hv : v.length = t.size.toNat)
    (hfits : (p.next t).offset ≤ entry.stack.length)
    (h : AtPosition entry.gpr (savedSse flags entry) entry.stack p t v) :
    ∃ source argp, innerStep flags entry l t =
        some ⟨l.avalue ++ [source], (p.next t).counts, argp⟩ ∧
      argp.toNat = entry.argp.toNat + (p.next t).offset ∧ source.Finds flags entry t v := by
  rw [innerStep]
  simp only [ht.examineArgument_eq, Option.bind_eq_bind, Option.bind_some, hcounts]
  by_cases hmem : p.counts.inMemory (examined t) = true
  · -- on the stack
    rw [Position.next_of_inMemory hmem] at hfits ⊢
    simp only at hfits
    obtain ⟨hoffset, hargp'⟩ := toNat_argp harea hargp ht (by omega)
    rw [AtPosition, if_pos hmem, hv] at h
    rw [if_pos hmem]
    refine ⟨_, _, rfl, hargp', v, ?_, fun _ _ => rfl⟩
    rw [ArgSource.read, hoffset]
    exact slice_of_getElem? hfits hv h
  have hreg := ht.inRegisters hmem
  obtain ⟨hgprs, hsses⟩ : (p.next t).InRange := hrange.next t
  rw [Position.next_of_not_inMemory hmem] at hgprs hsses ⊢
  simp only [RegCounts.add, hreg.ngpr_eq, hreg.nsse_eq] at hgprs hsses ⊢
  rw [AtPosition, if_neg hmem] at h
  rw [if_neg hmem]
  have hlen := hreg.length_eq
  have hone : (examined t).n = 1 ∨ (examined t).n = 2 := by
    have hpos := ht.size_pos
    have hsize := hreg.size_le
    have hn := hreg.n_eq
    omega
  have hgprRoom : 8 * (p.counts.gprcount + (examined t).classes.countP RegClass.isInteger) ≤
    entry.gpr.length := by rw [hgpr]; omega
  have hsseRoom : 16 * (p.counts.ssecount + (examined t).classes.countP RegClass.isSse) ≤
    (savedSse flags entry).length := by rw [hsse]; omega
  by_cases hall : ∀ c ∈ (examined t).classes, c.isInteger = true
  · -- in general registers only
    have hnone : ∀ c ∈ (examined t).classes, c.isSse = false := fun c hc => by
      rw [hreg.isSse c hc, hall c hc]
      rfl
    have hword (k : ℕ) : ((examined t).classes[k]?.map RegClass.isSse).getD false = false := by
      cases hget : (examined t).classes[k]? with
      | none => rfl
      | some c => exact hnone c (List.mem_of_getElem? hget)
    rw [hword 0, hword 1, if_pos (hone.imp_right fun h => ⟨h, by decide⟩), if_neg (by decide),
      List.countP_eq_length.mpr hall, hlen, List.countP_eq_zero.mpr fun c hc => by
        rw [hnone c hc]; decide]
    exact ⟨_, _, rfl, hargp, finds_gpr ht hreg hv hgprRoom h hall⟩
  simp only [not_forall, Bool.not_eq_true] at hall
  obtain ⟨c, hc, hint⟩ := hall
  rcases hone with hone | htwo
  · -- in one vector register
    obtain ⟨d, hd⟩ := List.length_eq_one_iff.mp (hlen.trans hone)
    obtain rfl : c = d := by simpa [hd] using hc
    have hcsse : c.isSse = true := by
      rw [hreg.isSse c hc, hint]
      rfl
    have hfound := finds_sse ht hreg hv hsseRoom h hd hint
    simp only [hd, List.getElem?_cons_zero, Option.map_some, Option.getD_some, hcsse,
      List.countP_singleton, hint, if_true, Bool.false_eq_true, if_false]
    rw [if_pos (.inl hone), hone]
    exact ⟨_, _, rfl, hargp, hfound⟩
  · -- in two registers, one of them for vectors
    obtain ⟨cells, hgather, hfound⟩ := finds_copy ht hreg hv hgprRoom hsseRoom h
    rw [if_neg (by rw [hreg.mixed (hlen.trans htwo) hc hint, htwo]; decide), if_neg (by omega),
      ← hlen, List.take_length, hgather]
    exact ⟨_, _, rfl, hargp, hfound⟩

/-- When what lies before the end position is kept, all the arguments that were delivered before it
are still there. -/
theorem AllAtPositions.keep {types : List (FfiType .linuxX64)} {values : List (List Cell)}
    (hsized : Sized types values) {p : Position} {l l' : PassLoop}
    (h : AllAtPositions l.gpr l.sse l.stack p types values) (hkeep : Keeps (p.after types) l l') :
    AllAtPositions l'.gpr l'.sse l'.stack p types values := by
  induction hsized generalizing p with
  | nil => trivial
  | @cons t v ts vs hhead htail ih =>
    obtain ⟨ht, hv⟩ := hhead
    have hle := (p.next t).le_after (Sized.natural htail)
    have hnext : Keeps (p.next t) l l' := ⟨
      fun i hi => hkeep.gpr i (Nat.lt_of_lt_of_le hi (Nat.mul_le_mul_left 8 hle.gprcount)),
      fun i hi => hkeep.sse i (Nat.lt_of_lt_of_le hi (Nat.mul_le_mul_left 16 hle.ssecount)),
      fun i hi => hkeep.stack i (Nat.lt_of_lt_of_le hi hle.offset)⟩
    exact ⟨h.1.keep ht hv hnext, ih h.2 hkeep⟩

/-- Values with the same numbers and pointers, one for each argument. -/
def AllSameLeaves (types : List (FfiType .linuxX64)) (values found : List (List Cell)) : Prop :=
  List.Forall₂ (fun p w => SameLeaves p.1 p.2 w) (types.zip values) found

/-- The loop of `ffi_closure_unix64_inner` finds every argument that was delivered at its position,
with the same numbers and pointers. -/
theorem innerArguments_spec (flags : BitVec 32) (entry : NativeEntry)
    (harea : 16 ∣ entry.argp.toNat)
    (hbytes : entry.argp.toNat + entry.stack.length < 2 ^ 64)
    (hgpr : entry.gpr.length = 8 * MAX_GPR_REGS)
    (hsse : (savedSse flags entry).length = 16 * MAX_SSE_REGS)
    {types : List (FfiType .linuxX64)} {values : List (List Cell)} (h : Sized types values)
    {p : Position} (hrange : p.InRange) {l : InnerLoop} (hcounts : l.counts = p.counts)
    (hargp : l.argp.toNat = entry.argp.toNat + p.offset)
    (hfits : (p.after types).offset ≤ entry.stack.length)
    (hall : AllAtPositions entry.gpr (savedSse flags entry) entry.stack p types values) :
    ∃ sources found l', types.foldlM (innerStep flags entry) l = some l' ∧
      l'.avalue = l.avalue ++ sources ∧
      (types.zip sources).mapM (fun p => p.2.read flags entry p.1.size.toNat) = some found ∧
      AllSameLeaves types values found := by
  induction h generalizing p l with
  | nil => exact ⟨[], [], l, rfl, (List.append_nil _).symm, rfl, .nil⟩
  | @cons t v ts vs hhead htail ih =>
    obtain ⟨ht, hv⟩ := hhead
    have hle := (p.next t).le_after (Sized.natural htail)
    obtain ⟨source, argp, hstep, hargp', w, hread, hsame⟩ := innerStep_spec harea hbytes hgpr hsse
      hrange hcounts hargp ht hv (hle.offset.trans hfits) hall.1
    obtain ⟨sources, found, l', hloop, havalue, hreads, hfound⟩ := ih (hrange.next t)
      (l := ⟨l.avalue ++ [source], (p.next t).counts, argp⟩) rfl hargp' hfits hall.2
    refine ⟨source :: sources, w :: found, l', ?_, ?_, ?_, .cons hsame hfound⟩
    · rw [List.foldlM_cons, hstep]
      exact hloop
    · rw [havalue, List.append_assoc]
      rfl
    · rw [List.zip_cons_cons, List.mapM_cons, hread]
      simp only [Option.bind_eq_bind, Option.bind_some, hreads]
      rfl

/-! ### From a call to a closure -/

/-- A result of a function: nothing, or a value of a type laid out as C lays it out. -/
def ReturnsNaturally (rtype : FfiType .linuxX64) : Prop :=
  rtype = ⟨1, 1, .void, []⟩ ∨ Natural rtype

theorem Describes.returnsNaturally {t : FFIType} {rtype : FfiType .linuxX64}
    (h : Describes t rtype) : ReturnsNaturally rtype := by
  cases h with
  | void => exact .inl rfl
  | scalar _ hs => exact .inr (.scalar t hs)
  | struct hnatural => exact .inr hnatural

theorem ReturnsNaturally.flags {rtype : FfiType .linuxX64} (h : ReturnsNaturally rtype) :
    ∃ flags, returnFlags rtype = some flags := by
  rcases h with rfl | h
  · exact ⟨_, rfl⟩
  · cases h with
    | scalar s hs =>
      cases s with
      | void => cases hs
      | struct => cases hs
      | _ => exact ⟨_, rfl⟩
    | @struct size alignment elements hne hnatural hlayout =>
      have hnat := Natural.struct hne hnatural hlayout
      obtain ⟨e, he⟩ : ∃ e, examineArgument ⟨size, alignment, .struct, elements⟩ true = some e := by
        by_cases hin : FfiType.InMemory ⟨size, alignment, .struct, elements⟩
        · obtain ⟨e, he, -⟩ := hnat.examine_inMemory hin true
          exact ⟨e, he⟩
        · obtain ⟨e, he, -⟩ := hnat.examine_inRegisters hin true
          exact ⟨e, he⟩
      refine ⟨if e.n = 0 then UNIX64_RET_VOID ||| UNIX64_FLAG_RET_IN_MEM else
        structFlags e size, ?_⟩
      rw [returnFlags]
      simp only [he, Option.map_some]

/-- The bytes of a pointer that the machine can hold are read back as this pointer. -/
theorem Ptr.ofDigits_image {p : Ptr} (hp : ∀ a, p = .addr a → a < 2 ^ 64) :
    Ptr.ofDigits .linuxX64 (p.image .linuxX64) = some p := by
  change Ptr.ofDigits .linuxX64 (p.digits .linuxX64) = some p
  cases p with
  | addr a =>
    have hlt := hp a rfl
    refine (Ptr.ofDigits_leBytes .linuxX64 (BitVec.ofNat 64 a)).trans ?_
    rw [Ptr.ofLong, BitVec.toNat_ofNat, Nat.mod_eq_of_lt hlt]
    exact congrArg (some ∘ Ptr.addr) (Nat.mod_eq_of_lt hlt)
  | _ => exact Ptr.ofDigits_digits .linuxX64 (by simp)

theorem PassLoop.at_start {cif : Cif64} {flags : BitVec 32}
    (hcounts : firstCounts cif.flags = firstCounts flags) (raddr : Ptr) (area : SizeT .linuxX64) :
    (PassLoop.start cif raddr area).At area cif.bytes.toNat (Position.start flags) where
  gpr_length := by
    have hlen : (raddr.image .linuxX64).length = 8 := raddr.length_image .linuxX64
    rw [PassLoop.start]
    simp only
    split
    · rw [List.length_append, hlen, List.length_replicate]
      rfl
    · exact List.length_replicate ..
  sse_length := List.length_replicate ..
  stack_length := List.length_replicate ..
  counts := hcounts
  argp := rfl

/-- The first register is read for the address of a result in memory. -/
theorem closureInner_spec {cif : Cif64} {flags : BitVec 32}
    (hcounts : firstCounts cif.flags = firstCounts flags) {raddr : Ptr}
    (hraddr : ∀ a, raddr = .addr a → a < 2 ^ 64) {area : SizeT .linuxX64} {l : PassLoop}
    (hkeep : Keeps (Position.start flags) (PassLoop.start cif raddr area) l)
    {entry : NativeEntry} (hgpr : entry.gpr = l.gpr) (hlen : l.gpr.length = 8 * MAX_GPR_REGS)
    {inner : InnerLoop} (hloop : cif.argTypes.foldlM (innerStep cif.flags entry)
      ⟨[], firstCounts cif.flags, entry.argp⟩ = some inner) :
    closureInner cif entry =
      some (if cif.flags &&& UNIX64_FLAG_RET_IN_MEM ≠ 0 then some raddr else none,
        inner.avalue) := by
  rw [closureInner]
  by_cases hmem : cif.flags &&& UNIX64_FLAG_RET_IN_MEM ≠ 0
  · have himage : (raddr.image .linuxX64).length = 8 := raddr.length_image .linuxX64
    have hone : (Position.start flags).counts.gprcount = 1 := by
      rw [Position.start, ← hcounts, firstCounts, if_pos hmem]
    have hread : slice entry.gpr 0 8 = some (raddr.image .linuxX64) := by
      refine slice_of_getElem? (by rw [hgpr, hlen]; decide) himage fun i hi => ?_
      rw [hgpr, Nat.zero_add, hkeep.gpr i (by omega), PassLoop.start]
      simp only [if_pos hmem]
      rw [List.getElem?_append_left (by omega)]
    simp only [if_pos hmem, hread, Option.bind_eq_bind, Option.bind_some,
      Ptr.ofDigits_image hraddr, hloop]
  · simp only [if_neg hmem, hloop, Option.bind_eq_bind, Option.bind_some]

/-- What `ffi_call_int` leaves in registers and on the stack is what `ffi_closure_unix64_inner`
finds, whatever the flags of the result are. -/
theorem exists_closureInner {rtype : FfiType .linuxX64} {flags : BitVec 32}
    (hflags : returnFlags rtype = some flags) {types : List (FfiType .linuxX64)}
    {values : List (List Cell)} (h : Sized types values)
    (hroom : Position.room types < 2 ^ 32 - 8) {area : SizeT .linuxX64}
    (harea : 16 ∣ area.toNat) (hspace : area.toNat + 2 ^ 32 ≤ 2 ^ 64) {raddr : Ptr}
    (hraddr : ∀ a, raddr = .addr a → a < 2 ^ 64) :
    ∃ cif entry sources found, prepCifMachdep rtype types = some cif ∧
      (cif.flags = flags ∨ cif.flags = flags ||| UNIX64_FLAG_XMM_ARGS) ∧
      ffiCallInt cif raddr area values = some entry ∧
      closureInner cif entry =
        some (if cif.flags &&& UNIX64_FLAG_RET_IN_MEM ≠ 0 then some raddr else none, sources) ∧
      closureValues cif entry sources = some found ∧ AllSameLeaves types values found := by
  obtain ⟨cif, hcif, -, htypes, hcounts, hflag, hxmm, hfits⟩ :=
    prepCifMachdep_spec hflags h.natural hroom
  have hbytes : area.toNat + cif.bytes.toNat < 2 ^ 64 := by
    have := cif.bytes.isLt
    omega
  -- the call
  obtain ⟨l, hpass, hl, hkeep, hall⟩ := passArguments_spec harea hbytes h
    (Position.inRange_start flags) (PassLoop.at_start hcounts raddr area) hfits
  let entry : NativeEntry :=
    { gpr := l.gpr
      xmm := if l.counts.ssecount ≠ 0 then l.sse else List.replicate (16 * MAX_SSE_REGS) .undef
      argp := area
      stack := l.stack }
  have hentry : ffiCallInt cif raddr area values = some entry := by
    rw [ffiCallInt, htypes, hpass]
    rfl
  -- the trampoline saves the vector registers that are in use
  have hsaved : (savedSse cif.flags entry).length = 16 * MAX_SSE_REGS ∧
      ∀ i < 16 * ((Position.start flags).after types).counts.ssecount,
        (savedSse cif.flags entry)[i]? = l.sse[i]? := by
    by_cases hsse : ((Position.start flags).after types).counts.ssecount = 0
    · refine ⟨?_, fun i hi => by omega⟩
      have hundef : entry.xmm = List.replicate (16 * MAX_SSE_REGS) .undef :=
        if_neg (not_not_intro ((congrArg RegCounts.ssecount hl.counts).trans hsse))
      rw [savedSse, hundef, ite_self]
      exact List.length_replicate ..
    · have hload : entry.xmm = l.sse :=
        if_pos fun hzero => hsse ((congrArg RegCounts.ssecount hl.counts).symm.trans hzero)
      rw [savedSse, if_pos (hxmm hsse), hload]
      exact ⟨hl.sse_length, fun _ _ => rfl⟩
  have hkeeps : Keeps ((Position.start flags).after types) l
      { l with sse := savedSse cif.flags entry } := ⟨fun _ _ => rfl, hsaved.2, fun _ _ => rfl⟩
  -- the closure
  obtain ⟨sources, found, inner, hloop, havalue, hreads, hfound⟩ := innerArguments_spec
    cif.flags entry harea (hl.stack_length ▸ hbytes) hl.gpr_length hsaved.1 h
    (Position.inRange_start flags) (l := ⟨[], firstCounts cif.flags, area⟩) hcounts rfl
    (hl.stack_length ▸ hfits) (hall.keep h hkeeps)
  refine ⟨cif, entry, sources, found, hcif, hflag, hentry, ?_, ?_, hfound⟩
  · rw [← List.nil_append sources, ← havalue]
    exact closureInner_spec hcounts hraddr hkeep rfl hl.gpr_length (htypes ▸ hloop)
  · rw [closureValues, htypes]
    exact hreads

/-- **A closure finds what a call passes**: the address for a result in memory, and the numbers and
pointers in every argument. Neither the call nor the closure leaves the registers for arguments, or
the area of the stack that was prepared. -/
theorem ffiCallInt_closureInner {rtype : FfiType .linuxX64} (hrtype : ReturnsNaturally rtype)
    {types : List (FfiType .linuxX64)} {values : List (List Cell)} (h : Sized types values)
    (hroom : Position.room types < 2 ^ 32 - 8) {area : SizeT .linuxX64}
    (harea : 16 ∣ area.toNat) (hspace : area.toNat + 2 ^ 32 ≤ 2 ^ 64) {raddr : Ptr}
    (hraddr : ∀ a, raddr = .addr a → a < 2 ^ 64) :
    ∃ cif entry sources found, prepCifMachdep rtype types = some cif ∧
      ffiCallInt cif raddr area values = some entry ∧
      closureInner cif entry =
        some (if cif.flags &&& UNIX64_FLAG_RET_IN_MEM ≠ 0 then some raddr else none, sources) ∧
      closureValues cif entry sources = some found ∧ AllSameLeaves types values found := by
  obtain ⟨flags, hflags⟩ := hrtype.flags
  obtain ⟨cif, entry, sources, found, hcif, -, hrest⟩ :=
    exists_closureInner hflags h hroom harea hspace hraddr
  exact ⟨cif, entry, sources, found, hcif, hrest⟩

/-- A struct of three `double`s, which is returned in memory. -/
def threeDoubles : FfiType .linuxX64 :=
  ⟨24, 8, .struct, List.replicate 3 FFIType.double.scalarType⟩

theorem natural_threeDoubles : Natural threeDoubles := by
  refine .struct (by simp) (fun e he => ?_) (by decide)
  rw [List.eq_of_mem_replicate he]
  exact .scalar .double rfl

theorem natural_doubleFloatInt : Natural doubleFloatInt :=
  builds_doubleFloatInt.natural ofScalars_doubleFloatInt (by decide)

/-- A general register behind the address of the result, one of each kind, and the stack. -/
theorem ffiCallInt_closureInner_threeDoubles :
    ∃ cif entry sources found, prepCifMachdep threeDoubles
        [FFIType.sint8.scalarType, doubleFloatInt, FFIType.longdouble.scalarType] = some cif ∧
      ffiCallInt cif (.addr 0x8000) 0x7000
        [[.byte 0x81], List.replicate 16 (.byte 1), List.replicate 16 (.byte 2)] = some entry ∧
      closureInner cif entry =
        some (if cif.flags &&& UNIX64_FLAG_RET_IN_MEM ≠ 0 then some (.addr 0x8000) else none,
          sources) ∧
      closureValues cif entry sources = some found ∧
      AllSameLeaves [FFIType.sint8.scalarType, doubleFloatInt, FFIType.longdouble.scalarType]
        [[.byte 0x81], List.replicate 16 (.byte 1), List.replicate 16 (.byte 2)] found :=
  ffiCallInt_closureInner (.inr natural_threeDoubles)
    (.cons ⟨.scalar .sint8 rfl, rfl⟩ (.cons ⟨natural_doubleFloatInt, rfl⟩
      (.cons ⟨.scalar .longdouble rfl, rfl⟩ .nil)))
    (by decide) (by decide) (by decide) (fun a ha => by cases ha; decide)

end Jffi
