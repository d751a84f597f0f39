import Jffi.Libffi.InitializeAggregate

/-!
# How x86-64 passes a value

The classification of arguments in libffi's `ffi64.c`: each eight bytes of a value get a class, and
the classes say whether they travel in a general register, in a vector register, or, with the
whole value, in memory. The code is recursive in the type and writes into arrays of four classes.

## Main definitions

* `RegClass`, `mergeClasses`
* `classifyArgument`, `examineArgument`

## Main results

* `mergeClasses_isPlain`, `isInteger_mergeClasses` — what two merged classes have in common
* `finishStruct_of_two_lt` — no struct of more than two words travels in registers
-/

namespace Jffi

/-! ### Classes -/

/-- `enum x86_64_reg_class`. -/
inductive RegClass
  | no | integer | integersi | sse | ssesf | ssedf | sseup | x87 | x87up | complexX87 | memory
  deriving DecidableEq, Repr

/-- `SSE_CLASS_P`. -/
def RegClass.isSse : RegClass → Bool
  | .sse | .ssesf | .ssedf | .sseup => true
  | _ => false

/-- `INTEGER_CLASS` and `INTEGERSI_CLASS`. -/
def RegClass.isInteger : RegClass → Bool
  | .integer | .integersi => true
  | _ => false

/-- The classes of the floating point stack. -/
def RegClass.isX87 : RegClass → Bool
  | .x87 | .x87up | .complexX87 => true
  | _ => false

/-- `merge_classes`. -/
def mergeClasses (class1 class2 : RegClass) : RegClass :=
  -- Rule #1
  if class1 = class2 then class1
  -- Rule #2
  else if class1 = .no then class2
  else if class2 = .no then class1
  -- Rule #3
  else if class1 = .memory ∨ class2 = .memory then .memory
  -- Rule #4
  else if (class1 = .integersi ∧ class2 = .ssesf) ∨ (class2 = .integersi ∧ class1 = .ssesf) then
    .integersi
  else if class1.isInteger ∨ class2.isInteger then .integer
  -- Rule #5
  else if class1.isX87 ∨ class2.isX87 then .memory
  -- Rule #6
  else .sse

/-- `MAX_CLASSES`. -/
def MAX_CLASSES : ℕ := 4

/-! ### `classify_argument` -/

/-- The branch `do_integer`. Past sixteen bytes its assertion, which is not compiled, is followed by
the branch of a `float`. -/
def classifyInteger (size byteOffset : SizeT .linuxX64) : List RegClass :=
  let size := byteOffset + size
  if size ≤ 4 then [.integersi]
  else if size ≤ 8 then [.integer]
  else if size ≤ 12 then [.integer, .integersi]
  else if size ≤ 16 then [.integer, .integer]
  else if byteOffset % 8 = 0 then [.ssesf] else [.sse]

/-- Merge the classes of an element into the words it starts at. -/
def mergeAt (pos : ℕ) (subclasses classes : List RegClass) : List RegClass :=
  classes.mapIdx fun i c =>
    if pos ≤ i then
      match subclasses[i - pos]? with
      | some s => mergeClasses s c
      | none => c
    else c

/-- The loop of the final merger cleanup, `none` where it returns zero. -/
def mergerCleanup (i : ℕ) (previous : RegClass) : List RegClass → Option (List RegClass)
  | [] => some []
  | c :: cs =>
    if c = .memory then none
    else
      let c := if 1 < i ∧ c = .sseup ∧ previous ≠ .sse ∧ previous ≠ .sseup then .sse else c
      if 1 < i ∧ c = .x87up ∧ previous ≠ .x87 then none
      else (mergerCleanup (i + 1) c cs).map (c :: ·)

/-- What follows the loop over the elements: the classes, none of them for memory. -/
def finishStruct (classes : List RegClass) : List RegClass :=
  if 2 < classes.length ∧ (classes.head? ≠ some .sse ∨ ∃ c ∈ classes.tail, c ≠ .sseup) then []
  else (mergerCleanup 0 .no classes).getD []

mutual

/-- `classify_argument`: no class says that the value is passed in memory. There is no result
where the code would write past an array of `MAX_CLASSES` classes, or abort. -/
def classifyArgument :
    FfiType .linuxX64 → SizeT .linuxX64 → Option (List RegClass)
  | ⟨size, _, type, elements⟩, byteOffset =>
    match type with
    | .uint8 | .sint8 | .uint16 | .sint16 | .uint32 | .sint32 | .uint64 | .sint64 | .pointer =>
      some (classifyInteger size byteOffset)
    | .float => if byteOffset % 8 = 0 then some [.ssesf] else some [.sse]
    | .double => some [.ssedf]
    | .longdouble => some [.x87, .x87up]
    | .struct =>
      let words := ((size + byteOffset + 8 - 1) / 8).toNat
      if 32 < size then some []
      else if MAX_CLASSES < words then none
      else if words = 0 then some [.no]
      else classifyElements elements byteOffset (List.replicate words .no)
    | .void => some [.no]
    | .int => none

/-- The loop over the elements of a struct, and what follows it. -/
def classifyElements :
    List (FfiType .linuxX64) → SizeT .linuxX64 → List RegClass → Option (List RegClass)
  | [], _, classes => some (finishStruct classes)
  | elem :: elems, byteOffset, classes => do
    let byteOffset := FFI_ALIGN byteOffset elem.alignment
    let subclasses ← classifyArgument elem (byteOffset % 8)
    if subclasses = [] then
      some []
    else
      let classes := mergeAt (byteOffset / 8).toNat subclasses classes
      classifyElements elems (byteOffset + elem.size) classes

end

theorem classifyElements_cons {elem : FfiType .linuxX64} {elems : List (FfiType .linuxX64)}
    {byteOffset : SizeT .linuxX64} {classes subclasses : List RegClass}
    (h : classifyArgument elem (FFI_ALIGN byteOffset elem.alignment % 8) = some subclasses) :
    classifyElements (elem :: elems) byteOffset classes =
      if subclasses = [] then some []
      else classifyElements elems (FFI_ALIGN byteOffset elem.alignment + elem.size)
        (mergeAt (FFI_ALIGN byteOffset elem.alignment / 8).toNat subclasses classes) := by
  rw [classifyElements, h]
  rfl

/-! ### `examine_argument` -/

/-- The result of `examine_argument`, zero of which is for memory, with what it stores: the classes
and the numbers of registers. -/
structure Examined where
  n : ℕ
  classes : List RegClass
  ngpr : ℕ
  nsse : ℕ
  deriving DecidableEq, Repr

/-- The `switch` on each class. A class of the floating point stack ends the function with the
answer `in_return`, and stores no numbers. -/
def countClasses (inReturn : Bool) (classes : List RegClass) :
    List RegClass → ℕ → ℕ → Option Examined
  | [], ngpr, nsse => some ⟨classes.length, classes, ngpr, nsse⟩
  | c :: cs, ngpr, nsse =>
    match c with
    | .integer | .integersi => countClasses inReturn classes cs (ngpr + 1) nsse
    | .sse | .ssesf | .ssedf => countClasses inReturn classes cs ngpr (nsse + 1)
    | .no | .sseup => countClasses inReturn classes cs ngpr nsse
    | .x87 | .x87up | .complexX87 => some ⟨inReturn.toNat, classes, 0, 0⟩
    | .memory => none

/-- `examine_argument`. -/
def examineArgument (type : FfiType .linuxX64) (inReturn : Bool) : Option Examined := do
  let classes ← classifyArgument type 0
  countClasses inReturn classes classes 0 0

/-! ### Merging -/

/-- The classes the loop over the elements of a struct arrives at when no value is passed in
memory. -/
def RegClass.isPlain : RegClass → Bool
  | .sseup | .complexX87 | .memory => false
  | _ => true

theorem mergeClasses_no (c : RegClass) : mergeClasses .no c = c := by
  cases c <;> rfl

theorem mergeClasses_ne_sseup {c d : RegClass} (hc : c ≠ .sseup) (hd : d ≠ .sseup) :
    mergeClasses c d ≠ .sseup := by
  cases c <;> cases d <;> first | decide | exact absurd rfl hc | exact absurd rfl hd

theorem mergeClasses_eq_no {c d : RegClass} : mergeClasses c d = .no ↔ c = .no ∧ d = .no := by
  cases c <;> cases d <;> decide

theorem isInteger_mergeClasses {c d : RegClass} (hc : c ≠ .memory) (hd : d ≠ .memory) :
    (mergeClasses c d).isInteger = (c.isInteger || d.isInteger) := by
  cases c <;> cases d <;> first | rfl | exact absurd rfl hc | exact absurd rfl hd

theorem isSse_of_mergeClasses {c d : RegClass} (h : (mergeClasses c d).isSse = true) :
    (c = .no ∨ c.isSse = true) ∧ (d = .no ∨ d.isSse = true) := by
  revert h
  cases c <;> cases d <;> decide

theorem mergeClasses_eq_ssesf {c d : RegClass} (h : (mergeClasses c d).isSse = true) :
    mergeClasses c d = .ssesf ↔ (c = .no ∨ c = .ssesf) ∧ (d = .no ∨ d = .ssesf) := by
  revert h
  cases c <;> cases d <;> decide

/-- Two classes of which at most one is of the floating point stack, and then alone. -/
theorem mergeClasses_isPlain {c d : RegClass} (hc : c.isPlain = true) (hd : d.isPlain = true)
    (hcd : c.isX87 = true → d = .no) (hdc : d.isX87 = true → c = .no) :
    (mergeClasses c d).isPlain = true ∧
      (mergeClasses c d).isX87 = (c.isX87 || d.isX87) := by
  revert hc hd hcd hdc
  cases c <;> cases d <;> decide

/-- Each class from the position of an element on is merged with the element's class for that word,
and those before it stay. -/
theorem getElem?_mergeAt (pos : ℕ) (subclasses classes : List RegClass) (k : ℕ) :
    (mergeAt pos subclasses classes)[k]? =
      classes[k]?.map (mergeClasses
        (if pos ≤ k then (subclasses[k - pos]?).getD .no else .no)) := by
  rw [mergeAt, List.getElem?_mapIdx]
  refine congrArg (Option.map · _) (funext fun c => ?_)
  split
  · cases subclasses[k - pos]? with
    | none => exact (mergeClasses_no c).symm
    | some s => rfl
  · exact (mergeClasses_no c).symm

@[simp] theorem length_mergeAt (pos : ℕ) (subclasses classes : List RegClass) :
    (mergeAt pos subclasses classes).length = classes.length := by
  simp [mergeAt]

/-- The classes of at most two words are left as they are, unless one of them says that the struct
goes to memory. -/
theorem finishStruct_of_length_le {classes : List RegClass} (hlen : classes.length ≤ 2)
    (h : ∀ c ∈ classes, c ≠ .memory) : finishStruct classes = classes := by
  rw [finishStruct, if_neg (by omega)]
  rcases classes with _ | ⟨c, _ | ⟨d, _ | ⟨e, cs⟩⟩⟩
  · rfl
  · have hc : c ≠ .memory := h c (by simp)
    simp [mergerCleanup, hc]
  · have hc : c ≠ .memory := h c (by simp)
    have hd : d ≠ .memory := h d (by simp)
    simp [mergerCleanup, hc, hd]
  · simp only [List.length_cons] at hlen
    omega

/-- **More than two words are passed in memory**: no class is `SSEUP`. -/
theorem finishStruct_of_two_lt {classes : List RegClass} (hlen : 2 < classes.length)
    (h : ∀ c ∈ classes, c ≠ .sseup) : finishStruct classes = [] := by
  refine if_pos ⟨hlen, .inr ?_⟩
  obtain ⟨c, hc⟩ := List.exists_mem_of_length_pos (l := classes.tail) (by
    rw [List.length_tail]; omega)
  exact ⟨c, hc, h c (List.mem_of_mem_tail hc)⟩

end Jffi
