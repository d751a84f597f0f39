import Jffi.CallContext
import Mathlib.Order.CompletePartialOrder
import Mathlib.Order.Interval.Set.Disjoint

/-!
# Closure magazines

`newClosureMagazine` divides a page into closures and has libffi prepare each of them;
`closureMagazineGet` hands them out one after the other, and `freeClosureMagazine` frees them all.
Where pages cannot be made executable, libffi allocates the code of a single closure.

The answers of the libraries and of the JVM are parameters. A call that reads through a `NULL`
pointer has no result.

## Main definitions

* `Closure`, `Magazine` — the C structures
* `Foreign.newClosureMagazine`, `Foreign.closureMagazineGet`, `Foreign.freeClosureMagazine`
* `MagazineLibs.Prepares` — everything before the method is looked up succeeds

## Main results

* `fillMagazine_cases` — what a call comes to
* `ClosureBuild.trampolines_of_room` — the code of the closures is in the page, and nothing overlaps
-/

namespace Jffi

/-! ### The structures -/

/-- The C structure `Closure`. -/
structure Closure where
  /-- Where the structure is. -/
  address : ℕ
  code : ℕ
  /-- A global reference. -/
  javaObject : Option ℕ
  magazine : ℕ
  pcl : ℕ
  deriving DecidableEq, Repr

/-- The C structure `ClosureMagazine`. -/
structure Magazine where
  /-- Where the structure is. -/
  address : ℕ
  methodID : ℕ
  jvm : ℕ
  code : ℕ
  closures : List Closure
  nclosures : ℤ
  nextclosure : ℕ
  callWithPrimitiveParameters : Bool
  deriving DecidableEq, Repr

/-- How `ClosureMagazine.c` was compiled. -/
structure ClosureBuild (pf : Platform) where
  /-- `USE_FFI_ALLOC`. -/
  useFfiAlloc : Bool
  /-- `sizeof(ffi_closure)`. -/
  sizeofFfiClosure : ℕ
  /-- The last three members are pointers. -/
  sizeofFfiClosure_ge : 3 * pf.ptrSize ≤ sizeofFfiClosure

/-- The three allocations of `newClosureMagazine`. -/
inductive MagazinePart
  | magazine | closures | code
  deriving DecidableEq, Repr

/-- The exceptions of `newClosureMagazine`. -/
inductive MagazineExn
  /-- One that `FromReflectedMethod` has thrown itself. -/
  | lookup
  | noMethod
  /-- Thrown where `error` is, with `errmsg` as its format. Nothing may have been written there. -/
  | errmsg (text : Option String)
  deriving DecidableEq, Repr

/-- The class of what `newClosureMagazine` throws itself. -/
def MagazineExn.className : MagazineExn → Option String
  | .lookup => none
  | .noMethod => some "java/lang/IllegalArgumentException"
  | .errmsg _ => some "java/lang/RuntimeException"

def MagazineExn.message : MagazineExn → Option String
  | .lookup => none
  | .noMethod => some "could not obtain reference to closure method"
  | .errmsg text => text

/-- What the libraries and the JVM answer while a magazine is made. -/
structure MagazineLibs where
  /-- The answers of `calloc` for the magazine and for the list of closures. -/
  callocMagazine : Option ℕ
  callocClosures : Option ℕ
  /-- `jffi_getPageSize`. -/
  pageSize : BitVec 32
  /-- `jffi_allocatePages`. -/
  allocatePages : Option ℕ
  /-- `jffi_makePagesExecutable`. -/
  makePagesExecutable : Bool
  /-- `ffi_closure_alloc`: where to write the code, and where to execute it. -/
  ffiClosureAlloc : Option (ℕ × ℕ)
  /-- `ffi_prep_closure_loc`. -/
  ffiPrepClosureLoc : Cif → Closure → PrepStatus
  /-- `FromReflectedMethod`: the method ID, or whether there is an exception for its absence. -/
  fromReflectedMethod : ℕ → Except Bool ℕ
  getJavaVM : ℕ
  errno : ℤ
  strerror : ℤ → String

/-- A call of `newClosureMagazine`: what its result points to, what it throws, and its
allocations. -/
structure NewMagazine where
  handle : Option Magazine
  thrown : List MagazineExn
  allocated : List MagazinePart
  freed : List MagazinePart
  deriving DecidableEq, Repr

/-! ### `newClosureMagazine` -/

variable {pf : Platform}

def roundup (x y : ℕ) : ℕ := ((x + (y - 1)) / y) * y

namespace ClosureBuild

variable (b : ClosureBuild pf)

def trampolineSize : ℕ := roundup b.sizeofFfiClosure 8

/-- `sizeof(Closure)`. -/
def sizeofClosure (_ : ClosureBuild pf) : ℕ := 4 * pf.ptrSize

/-- The closure for a place of the list. -/
def closureAt (magazine list code i : ℕ) : Closure where
  address := list + i * b.sizeofClosure
  code := code + i * b.trampolineSize
  javaObject := none
  magazine := magazine
  pcl := code + i * b.trampolineSize

end ClosureBuild

/-- `snprintf` into `errmsg`. -/
def errmsgOf (text : String) : Option String := some (String.ofList (text.toList.take 255))

namespace MagazineLibs

variable (libs : MagazineLibs) (b : ClosureBuild pf)

def nclosures : ℤ := Int.tdiv libs.pageSize.toInt b.trampolineSize

/-- `calloc` for the list; nothing has room for a negative number of closures. -/
def callocList : Option ℕ := if libs.nclosures b < 0 then none else libs.callocClosures

/-- What goes through `error`, and has not been allocated in vain. -/
def cleanup (allocated : List MagazinePart) (thrown : List MagazineExn) : NewMagazine :=
  ⟨none, thrown, allocated, [.closures, .magazine, .code].filter (· ∈ allocated)⟩

/-- The parts that there was room for. -/
def partsOf (magazine closures code : Bool) : List MagazinePart :=
  (if magazine then [.magazine] else []) ++ (if closures then [.closures] else []) ++
    (if code then [.code] else [])

def allocationFailed (magazine closures code : Bool) : NewMagazine :=
  cleanup (partsOf magazine closures code)
    [.errmsg (errmsgOf ("failed to allocate a page. errno=" ++ toString libs.errno ++
      " (" ++ libs.strerror libs.errno ++ ")"))]

def closurePrep (cif : Cif) (closure : Closure) : Except String Unit :=
  match libs.ffiPrepClosureLoc cif closure with
  | .ok => .ok ()
  | .badAbi => .error "Invalid ABI specified"
  | .badTypedef => .error "Invalid argument type specified"
  | .badArgType | .other => .error "Unknown FFI error"

/-- The loop over the closures. -/
def prepClosures (ctx : Option NativeCallContext) (closures : List Closure) :
    Option (Except String Unit) :=
  match ctx with
  | some ctx => some (closures.forM (libs.closurePrep ctx.cif))
  | none => if closures = [] then some (.ok ()) else none

/-- `newClosureMagazine`, when everything has been allocated. -/
def fillMagazine (ctx : Option NativeCallContext) (closureMethod : Option ℕ)
    (callWithPrimitiveParameters : Bool) (magazine : ℕ) (closures : List Closure) (nclosures : ℤ)
    (code : ℕ) (executable : Bool) : Option NewMagazine :=
  let error := cleanup [.magazine, .closures, .code]
  match libs.prepClosures ctx closures with
  | none => none
  | some (.error text) => some (error [.errmsg (errmsgOf text)])
  | some (.ok ()) =>
    if !executable then
      some (error [.errmsg (errmsgOf ("failed to make page executable. errno=" ++
        toString libs.errno ++ " (" ++ libs.strerror libs.errno ++ ")"))])
    else
      closureMethod.map fun method =>
        match libs.fromReflectedMethod method with
        | .error threw =>
          -- nobody has written to `errmsg`
          error ((if threw then [.lookup] else []) ++ [.noMethod, .errmsg none])
        | .ok methodID =>
          ⟨some
            { address := magazine
              methodID := methodID
              jvm := libs.getJavaVM
              code := code
              closures := closures
              nclosures := nclosures
              nextclosure := 0
              callWithPrimitiveParameters := callWithPrimitiveParameters },
            [], [.magazine, .closures, .code], []⟩

end MagazineLibs

namespace Foreign

variable (b : ClosureBuild pf) (libs : MagazineLibs) (ctx : Option NativeCallContext)
  (closureMethod : Option ℕ) (callWithPrimitiveParameters : Bool)

/-- `newClosureMagazine` without `USE_FFI_ALLOC`. -/
def newClosureMagazinePage : Option NewMagazine :=
  match libs.callocMagazine, libs.callocList b, libs.allocatePages with
  | some magazine, some list, some code =>
    libs.fillMagazine ctx closureMethod callWithPrimitiveParameters magazine
      ((List.range (libs.nclosures b).toNat).map (b.closureAt magazine list code))
      (libs.nclosures b) code libs.makePagesExecutable
  | magazine, list, code =>
    some (libs.allocationFailed magazine.isSome list.isSome code.isSome)

/-- `newClosureMagazine` with `USE_FFI_ALLOC`. -/
def newClosureMagazineFfiAlloc : Option NewMagazine :=
  match libs.callocMagazine, libs.callocClosures, libs.ffiClosureAlloc with
  | some magazine, some closure, some (pcl, code) =>
    libs.fillMagazine ctx closureMethod callWithPrimitiveParameters magazine
      [⟨closure, code, none, magazine, pcl⟩] 1 pcl true
  | magazine, closure, pcl =>
    some (libs.allocationFailed magazine.isSome closure.isSome pcl.isSome)

def newClosureMagazine : Option NewMagazine :=
  if b.useFfiAlloc then
    newClosureMagazineFfiAlloc libs ctx closureMethod callWithPrimitiveParameters
  else newClosureMagazinePage b libs ctx closureMethod callWithPrimitiveParameters

end Foreign

/-! ### `closureMagazineGet` and `freeClosureMagazine` -/

/-- `closureMagazineGet` throws. -/
inductive ClosureExn
  | noReference
  deriving DecidableEq, Repr

def ClosureExn.className : ClosureExn → String
  | .noReference => "java/lang/IllegalArgumentException"

def ClosureExn.message : ClosureExn → String
  | .noReference => "could not obtain reference to java object"

/-- The magazine with a Java object for the next closure. -/
def Magazine.setJavaObject (m : Magazine) (ref : Option ℕ) : Magazine :=
  { m with closures := m.closures.modify m.nextclosure fun c => { c with javaObject := ref } }

/-- `closureMagazineGet`: the magazine afterwards, and the closure whose address is returned. The
answer of `NewGlobalRef` is a parameter. -/
def Foreign.closureMagazineGet (newGlobalRef : Option ℕ) (m : Magazine) :
    Magazine × Except ClosureExn (Option Closure) :=
  if m.nextclosure < m.nclosures then
    let m' := m.setJavaObject newGlobalRef
    match newGlobalRef with
    | none => (m', .error .noReference)
    | some _ => ({ m' with nextclosure := m.nextclosure + 1 }, .ok m'.closures[m.nextclosure]?)
  else (m, .ok none)

/-- The global references that `freeClosureMagazine` deletes, before it frees the three parts. -/
def Foreign.freeClosureMagazine (m : Magazine) : List (Option ℕ) × List MagazinePart :=
  ((m.closures.take m.nextclosure).map Closure.javaObject, [.closures, .code, .magazine])

/-! ### What a call comes to -/

/-- What `newClosureMagazine` has to work with, when there was room for everything. -/
structure MagazineRoom where
  magazine : ℕ
  closures : List Closure
  nclosures : ℤ
  code : ℕ
  /-- The code can be executed, or will be. -/
  executable : Bool

namespace MagazineLibs

variable (libs : MagazineLibs) (b : ClosureBuild pf)

def room : Option MagazineRoom :=
  if b.useFfiAlloc then
    libs.callocMagazine.bind fun magazine => libs.callocClosures.bind fun closure =>
      libs.ffiClosureAlloc.map fun (pcl, code) =>
        ⟨magazine, [⟨closure, code, none, magazine, pcl⟩], 1, pcl, true⟩
  else
    libs.callocMagazine.bind fun magazine => (libs.callocList b).bind fun list =>
      libs.allocatePages.map fun code =>
        ⟨magazine, (List.range (libs.nclosures b).toNat).map (b.closureAt magazine list code),
          libs.nclosures b, code, libs.makePagesExecutable⟩

/-- Everything before the method is looked up succeeds. -/
def Prepares (ctx : Option NativeCallContext) (r : MagazineRoom) : Prop :=
  (∀ ctx' ∈ ctx, ∀ c ∈ r.closures, libs.ffiPrepClosureLoc ctx'.cif c = .ok) ∧ r.executable = true

variable {libs b} {ctx : Option NativeCallContext}

theorem closurePrep_eq_ok {cif : Cif} {c : Closure} :
    libs.closurePrep cif c = .ok () ↔ libs.ffiPrepClosureLoc cif c = .ok := by
  rw [closurePrep]
  cases libs.ffiPrepClosureLoc cif c <;> simp

theorem prepClosures_eq_ok {closures : List Closure} :
    libs.prepClosures ctx closures = some (.ok ()) ↔
      (ctx = none → closures = []) ∧
        ∀ ctx' ∈ ctx, ∀ c ∈ closures, libs.ffiPrepClosureLoc ctx'.cif c = .ok := by
  cases ctx with
  | none => simp [prepClosures]
  | some ctx =>
    suffices h : closures.forM (libs.closurePrep ctx.cif) = .ok () ↔
        ∀ c ∈ closures, libs.ffiPrepClosureLoc ctx.cif c = .ok by
      simpa [prepClosures] using h
    induction closures with
    | nil => exact ⟨fun _ _ hc => absurd hc List.not_mem_nil, fun _ => rfl⟩
    | cons c cs ih =>
      change (libs.closurePrep ctx.cif c >>= fun _ => cs.forM (libs.closurePrep ctx.cif)) = _ ↔ _
      rw [List.forall_mem_cons, ← ih, ← closurePrep_eq_ok]
      cases libs.closurePrep ctx.cif c with
      | error text => exact ⟨fun h => (nomatch h), fun h => (nomatch h.1)⟩
      | ok => exact ⟨fun h => ⟨rfl, h⟩, fun h => h.2⟩

theorem prepClosures_eq_none {closures : List Closure} :
    libs.prepClosures ctx closures = none ↔ ctx = none ∧ closures ≠ [] := by
  cases ctx <;> simp [prepClosures]

theorem nodup_partsOf (magazine closures code : Bool) :
    (partsOf magazine closures code).Nodup := by
  cases magazine <;> cases closures <;> cases code <;> decide

end MagazineLibs

section Cases

variable {b : ClosureBuild pf} {libs : MagazineLibs} {r : MagazineRoom}
  (ctx : Option NativeCallContext) (closureMethod : Option ℕ) (prim : Bool)

/-- When something could not be allocated, `newClosureMagazine` frees what it has got and throws,
and returns no handle. -/
theorem newClosureMagazine_of_no_room (h : libs.room b = none) :
    ∃ magazine closures code,
      Foreign.newClosureMagazine b libs ctx closureMethod prim =
        some (libs.allocationFailed magazine closures code) := by
  unfold MagazineLibs.room at h
  rw [Foreign.newClosureMagazine]
  split at h
  case isTrue halloc =>
    rw [if_pos halloc, Foreign.newClosureMagazineFfiAlloc]
    split
    case h_1 hmagazine hclosure hcode =>
      rw [hmagazine, hclosure, hcode] at h
      cases h
    case h_2 => exact ⟨_, _, _, rfl⟩
  case isFalse hpage =>
    rw [if_neg hpage, Foreign.newClosureMagazinePage]
    split
    case h_1 hmagazine hlist hcode =>
      rw [hmagazine, hlist, hcode] at h
      cases h
    case h_2 => exact ⟨_, _, _, rfl⟩

/-- When everything was allocated, `newClosureMagazine` goes on to fill the magazine. -/
theorem newClosureMagazine_of_room (h : libs.room b = some r) :
    Foreign.newClosureMagazine b libs ctx closureMethod prim =
      libs.fillMagazine ctx closureMethod prim r.magazine r.closures
        r.nclosures r.code r.executable := by
  unfold MagazineLibs.room at h
  rw [Foreign.newClosureMagazine]
  split at h
  case isTrue halloc =>
    obtain ⟨magazine, hmagazine, h⟩ := Option.bind_eq_some_iff.mp h
    obtain ⟨closure, hclosure, h⟩ := Option.bind_eq_some_iff.mp h
    obtain ⟨⟨pcl, code⟩, hcode, rfl⟩ := Option.map_eq_some_iff.mp h
    rw [if_pos halloc, Foreign.newClosureMagazineFfiAlloc, hmagazine, hclosure, hcode]
  case isFalse hpage =>
    obtain ⟨magazine, hmagazine, h⟩ := Option.bind_eq_some_iff.mp h
    obtain ⟨list, hlist, h⟩ := Option.bind_eq_some_iff.mp h
    obtain ⟨code, hcode, rfl⟩ := Option.map_eq_some_iff.mp h
    rw [if_neg hpage, Foreign.newClosureMagazinePage, hmagazine, hlist, hcode]

/-- **What a call comes to**, when everything was allocated: either every closure was prepared and
the page could be made executable, or all is freed and the error is thrown. -/
theorem fillMagazine_cases (libs : MagazineLibs) (r : MagazineRoom) :
    let result := libs.fillMagazine ctx closureMethod prim r.magazine r.closures r.nclosures r.code
      r.executable
    (ctx = none ∧ r.closures ≠ [] ∧ result = none) ∨
    (ctx = none → r.closures = []) ∧
      (¬libs.Prepares ctx r ∧
          (∃ text, result = some
          (MagazineLibs.cleanup [.magazine, .closures, .code] [.errmsg text])) ∨
        libs.Prepares ctx r ∧
          (closureMethod = none ∧ result = none ∨
            ∃ method, closureMethod = some method ∧
              ((∃ threw, libs.fromReflectedMethod method = .error threw ∧
                  result = some (MagazineLibs.cleanup [.magazine, .closures, .code]
                    ((if threw then [.lookup] else []) ++ [.noMethod, .errmsg none]))) ∨
                ∃ methodID, libs.fromReflectedMethod method = .ok methodID ∧
                  result = some ⟨some ⟨r.magazine, methodID, libs.getJavaVM, r.code, r.closures,
                    r.nclosures, 0, prim⟩, [], [.magazine, .closures, .code], []⟩))) := by
  intro result
  have hresult : result = libs.fillMagazine ctx closureMethod prim r.magazine r.closures r.nclosures
    r.code r.executable := rfl
  unfold MagazineLibs.fillMagazine at hresult
  cases hprep : libs.prepClosures ctx r.closures with
  | none =>
    rw [hprep] at hresult
    obtain ⟨hctx, hclosures⟩ := MagazineLibs.prepClosures_eq_none.mp hprep
    exact .inl ⟨hctx, hclosures, hresult⟩
  | some prepared =>
    have hread : ctx = none → r.closures = [] := fun hctx => by
      by_contra hclosures
      rw [MagazineLibs.prepClosures_eq_none.mpr ⟨hctx, hclosures⟩] at hprep
      cases hprep
    refine .inr ⟨hread, ?_⟩
    rw [hprep] at hresult
    cases prepared with
    | error text =>
      refine .inl ⟨fun h => ?_, _, hresult⟩
      rw [MagazineLibs.prepClosures_eq_ok.mpr ⟨hread, h.1⟩] at hprep
      cases hprep
    | ok =>
      have hclosures := (MagazineLibs.prepClosures_eq_ok.mp hprep).2
      cases hexec : r.executable with
      | false =>
        rw [hexec] at hresult
        exact .inl ⟨fun h => Bool.false_ne_true (hexec.symm.trans h.2), _, hresult⟩
      | true =>
        rw [hexec] at hresult
        refine .inr ⟨⟨hclosures, hexec⟩, ?_⟩
        cases hmethod : closureMethod with
        | none =>
          rw [hmethod] at hresult
          exact .inl ⟨rfl, hresult⟩
        | some method =>
          rw [hmethod] at hresult
          refine .inr ⟨method, rfl, ?_⟩
          simp only [Bool.not_true, Bool.false_eq_true, if_false, Option.map_some] at hresult
          cases hlookup : libs.fromReflectedMethod method with
          | error threw =>
            rw [hlookup] at hresult
            exact .inl ⟨threw, rfl, hresult⟩
          | ok methodID =>
            rw [hlookup] at hresult
            exact .inr ⟨methodID, rfl, hresult⟩

/-- The list that was allocated has a closure for each that is counted. -/
theorem length_closures_of_room (h : libs.room b = some r) :
    (r.closures.length : ℤ) = r.nclosures := by
  unfold MagazineLibs.room at h
  split at h
  case isTrue =>
    obtain ⟨magazine, -, h⟩ := Option.bind_eq_some_iff.mp h
    obtain ⟨closure, -, h⟩ := Option.bind_eq_some_iff.mp h
    obtain ⟨code, -, rfl⟩ := Option.map_eq_some_iff.mp h
    rfl
  case isFalse =>
    obtain ⟨magazine, -, h⟩ := Option.bind_eq_some_iff.mp h
    obtain ⟨list, hlist, h⟩ := Option.bind_eq_some_iff.mp h
    obtain ⟨code, -, rfl⟩ := Option.map_eq_some_iff.mp h
    have hpos : 0 ≤ libs.nclosures b := by
      by_contra hneg
      rw [MagazineLibs.callocList, if_pos (Int.not_le.mp hneg)] at hlist
      cases hlist
    change (((List.range (libs.nclosures b).toNat).map _).length : ℤ) = libs.nclosures b
    rw [List.length_map, List.length_range, Int.toNat_of_nonneg hpos]

/-- A handle that `newClosureMagazine` returns points to a magazine with as many closures as it
counts, none of which has been taken. -/
theorem newClosureMagazine_handle {result : NewMagazine} {m : Magazine}
    (hcall : Foreign.newClosureMagazine b libs ctx closureMethod prim = some result)
    (h : result.handle = some m) :
    (m.closures.length : ℤ) = m.nclosures ∧ m.nextclosure = 0 := by
  cases hroom : libs.room b with
  | none =>
    obtain ⟨magazine, closures, code, hfailed⟩ :=
      newClosureMagazine_of_no_room ctx closureMethod prim hroom
    rw [hfailed] at hcall
    cases hcall
    cases h
  | some r =>
    rw [newClosureMagazine_of_room ctx closureMethod prim hroom] at hcall
    rcases fillMagazine_cases ctx closureMethod prim libs r with ⟨-, -, hnone⟩ |
      ⟨-, (⟨-, text, herror⟩ | ⟨-, (⟨-, hnone⟩ | ⟨method, -, hlookup⟩)⟩)⟩
    · rw [hnone] at hcall
      cases hcall
    · rw [herror] at hcall
      cases hcall
      cases h
    · rw [hnone] at hcall
      cases hcall
    · rcases hlookup with ⟨threw, -, herror⟩ | ⟨methodID, -, hdone⟩
      · rw [herror] at hcall
        cases hcall
        cases h
      · rw [hdone] at hcall
        cases hcall
        cases h
        exact ⟨length_closures_of_room hroom, rfl⟩

end Cases

/-! ### Where the code of the closures is -/

namespace ClosureBuild

variable (b : ClosureBuild pf)

/-- What libffi writes for a closure. -/
def trampoline (c : Closure) : Set ℕ := Set.Ico c.pcl (c.pcl + b.sizeofFfiClosure)

/-- The bytes allocated for the code of a magazine. -/
def codeSize (libs : MagazineLibs) : ℕ :=
  if b.useFfiAlloc then b.sizeofFfiClosure else libs.pageSize.toInt.toNat

theorem sizeofFfiClosure_le : b.sizeofFfiClosure ≤ b.trampolineSize := by
  rw [trampolineSize, roundup]
  omega

theorem trampolineSize_pos : 0 < b.trampolineSize := by
  have hsize := b.sizeofFfiClosure_ge
  have hptr := pf.ptrSize_pos
  have hle := b.sizeofFfiClosure_le
  omega

/-- The trampolines of two places of a page have no byte in common, as the places are at least the
size of a trampoline apart. -/
theorem disjoint_trampoline (magazine list code : ℕ) {i j : ℕ} (h : i < j) :
    Disjoint (b.trampoline (b.closureAt magazine list code i))
      (b.trampoline (b.closureAt magazine list code j)) := by
  have hsize := b.sizeofFfiClosure_le
  have hmul : (i + 1) * b.trampolineSize ≤ j * b.trampolineSize := Nat.mul_le_mul_right _ h
  rw [Nat.succ_mul] at hmul
  refine Set.Ico_disjoint_Ico.mpr (Nat.le_trans (Nat.min_le_left _ _)
    (Nat.le_trans ?_ (Nat.le_max_right _ _)))
  simp only [closureAt]
  omega

/-- The page has room for as many as it is divided into. -/
theorem trampoline_subset (libs : MagazineLibs) (magazine list code : ℕ) {i : ℕ}
    (h : i < (libs.nclosures b).toNat) :
    b.trampoline (b.closureAt magazine list code i) ⊆
      Set.Ico code (code + libs.pageSize.toInt.toNat) := by
  have hsize := b.sizeofFfiClosure_le
  have hroom : (i + 1) * b.trampolineSize ≤ libs.pageSize.toInt.toNat := by
    rw [MagazineLibs.nclosures] at h
    rcases lt_or_ge libs.pageSize.toInt 0 with hneg | hpos
    · have hle : Int.tdiv libs.pageSize.toInt b.trampolineSize ≤ 0 := by
        rw [← Int.neg_nonneg, ← Int.neg_tdiv]
        exact Int.tdiv_nonneg (by omega) (Int.natCast_nonneg _)
      omega
    · obtain ⟨n, hn⟩ := Int.eq_ofNat_of_zero_le hpos
      rw [hn] at h ⊢
      rw [← Int.ofNat_tdiv, Int.toNat_natCast] at h
      exact (Nat.le_div_iff_mul_le b.trampolineSize_pos).mp h
  rw [Nat.succ_mul] at hroom
  refine Set.Ico_subset_Ico ?_ ?_
  · simp only [closureAt]
    omega
  · simp only [closureAt]
    omega

/-- The code of the closures of a magazine is where it should be. -/
structure Trampolines (libs : MagazineLibs) (m : Magazine) : Prop where
  disjoint : m.closures.Pairwise fun c d => Disjoint (b.trampoline c) (b.trampoline d)
  inside : ∀ c ∈ m.closures, b.trampoline c ⊆ Set.Ico m.code (m.code + b.codeSize libs)
  /-- In a page, code is executed where it was written. -/
  executed : b.useFfiAlloc = false → ∀ c ∈ m.closures, c.code = c.pcl

variable {b} {libs : MagazineLibs} {r : MagazineRoom}

/-- When there is room for a magazine, the code of its closures lies in the page, and no two
closures overlap. -/
theorem trampolines_of_room (h : libs.room b = some r) (methodID jvm : ℕ) (prim : Bool) :
    b.Trampolines libs ⟨r.magazine, methodID, jvm, r.code, r.closures, r.nclosures, 0, prim⟩ := by
  unfold MagazineLibs.room at h
  split at h
  case isTrue halloc =>
    obtain ⟨magazine, -, h⟩ := Option.bind_eq_some_iff.mp h
    obtain ⟨closure, -, h⟩ := Option.bind_eq_some_iff.mp h
    obtain ⟨⟨pcl, code⟩, -, rfl⟩ := Option.map_eq_some_iff.mp h
    refine ⟨List.pairwise_singleton _ _, fun c hc => ?_, fun hpage => ?_⟩
    · obtain rfl := List.mem_singleton.mp hc
      rw [codeSize, if_pos halloc]
      exact Set.Subset.rfl
    · rw [hpage] at halloc
      cases halloc
  case isFalse hpage =>
    obtain ⟨magazine, -, h⟩ := Option.bind_eq_some_iff.mp h
    obtain ⟨list, -, h⟩ := Option.bind_eq_some_iff.mp h
    obtain ⟨code, -, rfl⟩ := Option.map_eq_some_iff.mp h
    refine ⟨?_, fun c hc => ?_, fun _ c hc => ?_⟩
    · exact List.pairwise_map.mpr (List.pairwise_lt_range.imp fun hlt =>
        b.disjoint_trampoline magazine list code hlt)
    · obtain ⟨i, hi, rfl⟩ := List.mem_map.mp hc
      rw [codeSize, if_neg hpage]
      exact b.trampoline_subset libs magazine list code (List.mem_range.mp hi)
    · obtain ⟨i, -, rfl⟩ := List.mem_map.mp hc
      rfl

end ClosureBuild

end Jffi
