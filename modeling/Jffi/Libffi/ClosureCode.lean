import Jffi.ClosureMagazine
import Jffi.Lib.Pieces
import Jffi.Libffi.Unix64

/-!
# The code of a closure

The address of a closure is that of a few instructions, which `ffi_prep_closure_loc` writes at the
beginning of its `ffi_closure`. They load the address of the `ffi_closure` itself into a register,
relative to where they lie, and jump to an entry of libffi, which is the same for all closures and
finds the function and its argument through that register.

Which of the two entries it is depends on the flags of the description: one of them saves the
vector registers.

## Main definitions

* `Instruction`, `decode`, `Cpu.step` — the instructions of a trampoline
* `ffiPrepClosureLoc` — what libffi writes
* `enterClosure` — a call of an address, until libffi has read its closure

## Main results

* `ffiPrepClosureLoc_eq` — it is one piece of memory
* `enterClosure_of_installed` — the entry finds the closure that was prepared
-/

namespace Jffi

/-! ### Reading memory -/

/-- The number in the eight bytes from `a` on. -/
def wordAt (m : ℕ → Byte) (a : ℕ) : ℕ := leNat (readAt m a 8)

theorem wordAt_of_readAt {m : ℕ → Byte} {a k : ℕ} {xs : List Byte} {x : BitVec 64}
    (h : readAt m a xs.length = xs) (hle : k + 8 ≤ xs.length)
    (hx : (xs.drop k).take 8 = leBytes 8 x) : wordAt m (a + k) = x.toNat := by
  rw [wordAt, readAt_middle h hle, hx]
  exact leNat_leBytes_eq (n := 8) x

/-! ### The instructions -/

/-- The instructions of a trampoline. -/
inductive Instruction
  | endbr64
  /-- `leaq disp(%rip),%r10`. -/
  | leaq (disp : BitVec 32)
  /-- `jmpq *disp(%rip)`. -/
  | jmpq (disp : BitVec 32)
  deriving DecidableEq, Repr

/-- The displacement in the four bytes from `a` on. -/
def dispAt (m : ℕ → Byte) (a : ℕ) : BitVec 32 := BitVec.ofNat 32 (leNat (readAt m a 4))

/-- The instruction at `rip`, and its length. -/
def decode (m : ℕ → Byte) (rip : ℕ) : Option (Instruction × ℕ) :=
  if readAt m rip 4 = [0xf3, 0x0f, 0x1e, 0xfa] then some (.endbr64, 4)
  else if readAt m rip 3 = [0x4c, 0x8d, 0x15] then some (.leaq (dispAt m (rip + 3)), 7)
  else if readAt m rip 2 = [0xff, 0x25] then some (.jmpq (dispAt m (rip + 2)), 6)
  else none

/-- The registers that a trampoline uses. -/
structure Cpu where
  rip : ℕ
  r10 : ℕ
  deriving DecidableEq, Repr

/-- An address relative to another one. -/
def advance (a : ℕ) (d : ℤ) : ℕ := ((a + d) % 2 ^ 64).toNat

/-- One instruction is fetched, decoded and executed. -/
def Cpu.step (m : ℕ → Byte) (c : Cpu) : Option Cpu :=
  (decode m c.rip).map fun (instruction, length) =>
    -- relative to the next instruction
    let next := advance c.rip length
    match instruction with
    | .endbr64 => { c with rip := next }
    | .leaq disp => ⟨next, advance next disp.toInt⟩
    | .jmpq disp => { c with rip := wordAt m (advance next disp.toInt) }

/-- As many instructions are executed, one after the other. -/
def Cpu.steps (m : ℕ → Byte) : ℕ → Cpu → Option Cpu
  | 0, c => some c
  | n + 1, c => (c.step m).bind (Cpu.steps m n)

theorem advance_of_lt {a b : ℕ} {d : ℤ} (h : (a : ℤ) + d = b) (hlt : b < 2 ^ 64) :
    advance a d = b := by
  rw [advance, h]
  omega

section Step

variable {m : ℕ → Byte} {c : Cpu}

theorem step_endbr64 (h : readAt m c.rip 4 = [0xf3, 0x0f, 0x1e, 0xfa])
    (hlt : c.rip + 4 < 2 ^ 64) : c.step m = some { c with rip := c.rip + 4 } := by
  rw [Cpu.step, decode, if_pos h]
  exact congrArg some (congrArg (Cpu.mk · c.r10) (advance_of_lt rfl hlt))

theorem step_leaq (h : readAt m c.rip 3 = [0x4c, 0x8d, 0x15]) (hlt : c.rip + 7 < 2 ^ 64) {b : ℕ}
    (hb : ((c.rip + 7 : ℕ) : ℤ) + (dispAt m (c.rip + 3)).toInt = b) (hb' : b < 2 ^ 64) :
    c.step m = some ⟨c.rip + 7, b⟩ := by
  have hother : readAt m c.rip 4 ≠ [0xf3, 0x0f, 0x1e, 0xfa] := by
    intro h'
    have htake : readAt m c.rip 3 = (readAt m c.rip 4).take 3 := rfl
    rw [h', h] at htake
    exact absurd htake (by decide)
  have hnext : advance c.rip (7 : ℕ) = c.rip + 7 := advance_of_lt rfl hlt
  rw [Cpu.step, decode, if_neg hother, if_pos h, Option.map_some]
  simp only [hnext]
  exact congrArg some (congrArg (Cpu.mk _) (advance_of_lt hb hb'))

theorem step_jmpq (h : readAt m c.rip 2 = [0xff, 0x25]) (hlt : c.rip + 6 < 2 ^ 64) {b : ℕ}
    (hb : ((c.rip + 6 : ℕ) : ℤ) + (dispAt m (c.rip + 2)).toInt = b) (hb' : b < 2 ^ 64) :
    c.step m = some { c with rip := wordAt m b } := by
  have hendbr : readAt m c.rip 4 ≠ [0xf3, 0x0f, 0x1e, 0xfa] := by
    intro h'
    have htake : readAt m c.rip 2 = (readAt m c.rip 4).take 2 := rfl
    rw [h', h] at htake
    exact absurd htake (by decide)
  have hleaq : readAt m c.rip 3 ≠ [0x4c, 0x8d, 0x15] := by
    intro h'
    have htake : readAt m c.rip 2 = (readAt m c.rip 3).take 2 := rfl
    rw [h', h] at htake
    exact absurd htake (by decide)
  have hnext : advance c.rip (6 : ℕ) = c.rip + 6 := advance_of_lt rfl hlt
  rw [Cpu.step, decode, if_neg hendbr, if_neg hleaq, if_pos h, Option.map_some]
  simp only [hnext]
  rw [advance_of_lt hb hb']

end Step

/-! ### `ffi_prep_closure_loc` -/

/-- Where libffi's entries and the function behind a closure are in memory. -/
structure Symbols where
  ffiClosureUnix64 : BitVec 64
  ffiClosureUnix64Sse : BitVec 64
  closureInvoke : BitVec 64

/-- `trampoline`. -/
def trampolineCode : List Byte :=
  [ /- endbr64 -/ 0xf3, 0x0f, 0x1e, 0xfa,
    /- leaq -0xb(%rip),%r10 -/ 0x4c, 0x8d, 0x15, 0xf5, 0xff, 0xff, 0xff,
    /- jmpq *0x7(%rip) -/ 0xff, 0x25, 0x07, 0x00, 0x00, 0x00,
    /- nopl 0(%rax) -/ 0x0f, 0x1f, 0x80, 0x00, 0x00, 0x00, 0x00]

def FFI_TRAMPOLINE_SIZE : ℕ := 32

/-- `sizeof(ffi_closure)`. -/
def sizeofFfiClosure64 : ℕ := FFI_TRAMPOLINE_SIZE + 3 * 8

section Prep

variable (sym : Symbols)

/-- The entry for a description with these flags. -/
def closureEntry (flags : BitVec 32) : BitVec 64 :=
  if flags &&& UNIX64_FLAG_XMM_ARGS ≠ 0 then sym.ffiClosureUnix64Sse else sym.ffiClosureUnix64

/-- `ffi_prep_closure_loc`, for the `ffi_closure` at `closure` and a description with `flags` at
`cif`. -/
def ffiPrepClosureLoc (flags : BitVec 32) (closure : ℕ) (cif fn userData : BitVec 64)
    (m : ℕ → Byte) : ℕ → Byte :=
  let m := overlay m closure trampolineCode
  let m := overlay m (closure + trampolineCode.length) (leBytes 8 (closureEntry sym flags))
  let m := overlay m (closure + FFI_TRAMPOLINE_SIZE) (leBytes 8 cif)
  let m := overlay m (closure + FFI_TRAMPOLINE_SIZE + 8) (leBytes 8 fn)
  overlay m (closure + FFI_TRAMPOLINE_SIZE + 16) (leBytes 8 userData)

/-- The bytes of an `ffi_closure`. -/
def closureImage (flags : BitVec 32) (cif fn userData : BitVec 64) : List Byte :=
  trampolineCode ++ leBytes 8 (closureEntry sym flags) ++ leBytes 8 cif ++ leBytes 8 fn ++
    leBytes 8 userData

variable {sym} {flags : BitVec 32} {cif fn userData : BitVec 64}

@[simp] theorem length_closureImage :
    (closureImage sym flags cif fn userData).length = sizeofFfiClosure64 := by
  simp [closureImage, trampolineCode, sizeofFfiClosure64, FFI_TRAMPOLINE_SIZE]

/-- `ffi_prep_closure_loc` writes one piece of memory: the trampoline with the three members behind
it. -/
theorem ffiPrepClosureLoc_eq (closure : ℕ) (m : ℕ → Byte) :
    ffiPrepClosureLoc sym flags closure cif fn userData m =
      overlay m closure (closureImage sym flags cif fn userData) := by
  rw [closureImage, ← overlay_overlay, ← overlay_overlay, ← overlay_overlay, ← overlay_overlay]
  simp only [List.length_append, length_leBytes]
  rfl

end Prep

/-! ### A call -/

/-- What an entry of libffi has read. -/
structure EnteredClosure where
  /-- The vector registers have been saved. -/
  sse : Bool
  cif : ℕ
  fn : ℕ
  userData : ℕ
  deriving DecidableEq, Repr

/-- A call of the native address `a`, whatever is in the register, until libffi calls
`ffi_closure_unix64_inner`. -/
def enterClosure (sym : Symbols) (m : ℕ → Byte) (a r10 : ℕ) : Option EnteredClosure := do
  let c ← Cpu.steps m 3 ⟨a, r10⟩
  let sse ← if c.rip = sym.ffiClosureUnix64Sse.toNat then some true
    else if c.rip = sym.ffiClosureUnix64.toNat then some false
    else none
  some
    { sse := sse
      cif := wordAt m (c.r10 + FFI_TRAMPOLINE_SIZE)
      fn := wordAt m (c.r10 + FFI_TRAMPOLINE_SIZE + 8)
      userData := wordAt m (c.r10 + FFI_TRAMPOLINE_SIZE + 16) }

section Enter

variable {sym : Symbols} {flags : BitVec 32} {cif fn userData : BitVec 64} {m : ℕ → Byte} {a : ℕ}

/-- Each eight bytes of the image can be read back from the memory that it was written to. -/
theorem wordAt_of_closureImage {before after : List Byte} {x : BitVec 64}
    (h : readAt m a sizeofFfiClosure64 = closureImage sym flags cif fn userData)
    (heq : closureImage sym flags cif fn userData = before ++ leBytes 8 x ++ after) :
    wordAt m (a + before.length) = x.toNat := by
  have hlen := @length_closureImage sym flags cif fn userData
  rw [heq] at h hlen
  rw [← hlen] at h
  refine wordAt_of_readAt h ?_ ?_
  · simp only [List.length_append, length_leBytes]
    omega
  · rw [List.append_assoc, List.drop_left, List.take_left' (length_leBytes 8 x)]

theorem wordAt_closureEntry
    (h : readAt m a sizeofFfiClosure64 = closureImage sym flags cif fn userData) :
    wordAt m (a + 24) = (closureEntry sym flags).toNat := by
  refine @wordAt_of_closureImage _ _ _ _ _ _ _ trampolineCode
    (leBytes 8 cif ++ leBytes 8 fn ++ leBytes 8 userData) _ h ?_
  simp only [closureImage, List.append_assoc]

/-- Behind the trampoline lie the `ffi_cif`, the function and its user data, in this order. -/
theorem wordAt_members
    (h : readAt m a sizeofFfiClosure64 = closureImage sym flags cif fn userData) :
    wordAt m (a + FFI_TRAMPOLINE_SIZE) = cif.toNat ∧
      wordAt m (a + FFI_TRAMPOLINE_SIZE + 8) = fn.toNat ∧
      wordAt m (a + FFI_TRAMPOLINE_SIZE + 16) = userData.toNat := by
  set entry := trampolineCode ++ leBytes 8 (closureEntry sym flags) with hentry
  have hlen : entry.length = FFI_TRAMPOLINE_SIZE := by simp [hentry, trampolineCode,
    FFI_TRAMPOLINE_SIZE]
  have hcif := @wordAt_of_closureImage _ _ _ _ _ _ _ entry
    (leBytes 8 fn ++ leBytes 8 userData) cif h
    (by simp only [closureImage, hentry, List.append_assoc])
  have hfn := @wordAt_of_closureImage _ _ _ _ _ _ _ (entry ++ leBytes 8 cif)
    (leBytes 8 userData) fn h (by simp only [closureImage, hentry, List.append_assoc])
  have huserData := @wordAt_of_closureImage _ _ _ _ _ _ _
    (entry ++ leBytes 8 cif ++ leBytes 8 fn) [] userData h
    (by simp only [closureImage, hentry, List.append_nil])
  simp only [List.length_append, length_leBytes, hlen] at hcif hfn huserData
  exact ⟨hcif, hfn, huserData⟩

/-- **A trampoline** jumps to the entry, and leaves its address in the register. -/
theorem steps_of_installed
    (h : readAt m a sizeofFfiClosure64 = closureImage sym flags cif fn userData)
    (hend : a + sizeofFfiClosure64 ≤ 2 ^ 64) (r10 : ℕ) :
    Cpu.steps m 3 ⟨a, r10⟩ = some ⟨(closureEntry sym flags).toNat, a⟩ := by
  have hend : a + 56 ≤ 2 ^ 64 := hend
  have hcode {k n : ℕ} (hle : k + n ≤ 24) :
      readAt m (a + k) n = (trampolineCode.drop k).take n := by
    rw [← @length_closureImage sym flags cif fn userData] at h
    rw [readAt_middle h (by rw [length_closureImage, sizeofFfiClosure64]; omega)]
    simp only [closureImage, List.append_assoc]
    rw [List.drop_append_of_le_length (show k ≤ 24 by omega),
      List.take_append_of_le_length (by
        rw [List.length_drop]
        exact Nat.le_sub_of_add_le (show n + k ≤ 24 by omega))]
  have hendbr : Cpu.step m ⟨a, r10⟩ = some ⟨a + 4, r10⟩ :=
    step_endbr64 (hcode (k := 0) (by omega)) (show a + 4 < 2 ^ 64 by omega)
  have hdisp : dispAt m (a + 4 + 3) = -11 := by
    rw [dispAt, Nat.add_assoc, hcode (by omega)]
    decide
  have hleaq : Cpu.step m ⟨a + 4, r10⟩ = some ⟨a + 11, a⟩ := by
    refine step_leaq (c := ⟨a + 4, r10⟩) (hcode (by omega)) (show a + 4 + 7 < 2 ^ 64 by omega) ?_
      (show a < 2 ^ 64 by omega)
    have hneg : (-11 : BitVec 32).toInt = -11 := by decide
    dsimp only
    rw [hdisp, hneg]
    omega
  have hdisp' : dispAt m (a + 11 + 2) = 7 := by
    rw [dispAt, Nat.add_assoc, hcode (by omega)]
    decide
  have hjmpq : Cpu.step m ⟨a + 11, a⟩ = some ⟨wordAt m (a + 24), a⟩ := by
    refine step_jmpq (c := ⟨a + 11, a⟩) (hcode (by omega)) (show a + 11 + 6 < 2 ^ 64 by omega) ?_
      (show a + 24 < 2 ^ 64 by omega)
    have hpos : (7 : BitVec 32).toInt = 7 := by decide
    dsimp only
    rw [hdisp', hpos]
    omega
  rw [wordAt_closureEntry h] at hjmpq
  rw [Cpu.steps, hendbr, Option.bind_some, Cpu.steps, hleaq, Option.bind_some, Cpu.steps, hjmpq]
  rfl

/-- **The entry finds the closure** that was prepared, and saves the vector registers when there is
an argument in them. -/
theorem enterClosure_of_installed (hsym : sym.ffiClosureUnix64 ≠ sym.ffiClosureUnix64Sse)
    (h : readAt m a sizeofFfiClosure64 = closureImage sym flags cif fn userData)
    (hend : a + sizeofFfiClosure64 ≤ 2 ^ 64) (r10 : ℕ) :
    enterClosure sym m a r10 =
      some ⟨decide (flags &&& UNIX64_FLAG_XMM_ARGS ≠ 0), cif.toNat, fn.toNat, userData.toNat⟩ := by
  obtain ⟨hcif, hfn, huserData⟩ := wordAt_members h
  have hne : sym.ffiClosureUnix64.toNat ≠ sym.ffiClosureUnix64Sse.toNat := fun heq =>
    hsym (BitVec.eq_of_toNat_eq heq)
  rw [enterClosure, steps_of_installed h hend r10]
  simp only [Option.bind_eq_bind, Option.bind_some, hcif, hfn, huserData]
  by_cases hflag : flags &&& UNIX64_FLAG_XMM_ARGS ≠ 0
  · rw [closureEntry, if_pos hflag, if_pos rfl, decide_eq_true hflag]
  · rw [closureEntry, if_neg hflag, if_neg hne, if_pos rfl, decide_eq_false hflag]

end Enter

end Jffi
