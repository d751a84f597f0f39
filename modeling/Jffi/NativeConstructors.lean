import Jffi.Aggregate
import Jffi.ClosureMagazine
import Mathlib.Data.List.Nodup

/-!
# Native constructors

Four native functions allocate something in several steps, each of which may fail. A caller of one
of them sees a handle, or 0 and an exception; what had been allocated must not be lost in that case.

`newClosureMagazine` throws twice when it cannot look up its method, and `newCallContext` goes on
after it has thrown for an answer of libffi that it does not know.

## Main definitions

* `Constructed.Atomic` — a call does everything or nothing
* `Constructor` — a call of one of the four functions
* `Constructor.Answered` — the answers from outside are those the function counts on

## Main results

* `Constructor.atomic_iff` — a call does everything or nothing exactly when it is answered like that
-/

namespace Jffi

/-- What became of a call of a constructor. -/
structure Constructed (R E P : Type) where
  handle : Option R
  thrown : List E
  allocated : List P
  freed : List P

namespace Constructed

variable {R E P : Type}

/-- Either there is a handle, and nothing has been thrown; or one exception has been thrown, and
what was allocated has been freed once. -/
def Atomic (c : Constructed R E P) : Prop :=
  (c.handle.isSome = true ∧ c.thrown = [] ∧ c.freed = []) ∨
    (c.handle = none ∧ (∃ e, c.thrown = [e]) ∧ c.allocated.Nodup ∧ c.freed.Perm c.allocated)

theorem atomic_of_handle {r : R} {allocated : List P} :
    Atomic (⟨some r, [], allocated, []⟩ : Constructed R E P) :=
  .inl ⟨rfl, rfl, rfl⟩

theorem atomic_iff_of_handle {r : R} {thrown : List E} {allocated : List P} :
    Atomic (⟨some r, thrown, allocated, []⟩ : Constructed R E P) ↔ thrown = [] := by
  constructor
  · rintro (⟨-, h, -⟩ | ⟨h, -⟩)
    · exact h
    · cases h
  · rintro rfl
    exact atomic_of_handle

theorem atomic_of_thrown {e : E} {allocated freed : List P} (hnodup : allocated.Nodup)
    (h : freed.Perm allocated) : Atomic (⟨none, [e], allocated, freed⟩ : Constructed R E P) :=
  .inr ⟨rfl, ⟨e, rfl⟩, hnodup, h⟩

end Constructed

variable {pf : Platform}

def NewAggregate.constructed (a : NewAggregate pf) :
    Constructed (FfiType pf) AggregateExn AggregatePart :=
  ⟨a.handle, a.thrown.toList, a.allocated, a.freed⟩

def NewContext.constructed (c : NewContext) :
    Constructed NativeCallContext ContextExn ContextPart :=
  ⟨c.handle, c.thrown, c.allocated, c.freed⟩

def NewMagazine.constructed (m : NewMagazine) : Constructed Magazine MagazineExn MagazinePart :=
  ⟨m.handle, m.thrown, m.allocated, m.freed⟩

/-! ### `newStruct` and `newArray` -/

theorem NewAggregate.Settled.atomic {a : NewAggregate pf} (h : a.Settled)
    (hnodup : a.allocated.Nodup) : a.constructed.Atomic := by
  rcases h with ⟨hhandle, hthrown, hfreed⟩ | ⟨hhandle, hthrown, hfreed⟩
  · exact .inl ⟨hhandle, by rw [constructed, hthrown]; rfl, hfreed⟩
  · obtain ⟨e, he⟩ := Option.isSome_iff_exists.mp hthrown
    refine .inr ⟨hhandle, ⟨e, by rw [constructed, he]; rfl⟩, hnodup, ?_⟩
    rw [constructed, hfreed]
    exact List.reverse_perm _

theorem nodup_newStruct (callocFails : AggregatePart → Bool)
    (typeArray : Option (List (Option (FfiType pf)))) (isUnion : Bool) :
    (Foreign.newStruct callocFails typeArray isUnion).allocated.Nodup := by
  simp only [Foreign.newStruct]
  repeat' split
  all_goals simp

theorem nodup_newArray (callocFails : AggregatePart → Bool) (type : Option (FfiType pf))
    (length : BitVec 32) : (Foreign.newArray callocFails type length).allocated.Nodup := by
  simp only [Foreign.newArray]
  repeat' split
  all_goals simp

/-! ### `newCallContext` -/

/-- There is room for the structure and its two lists. -/
def ContextLibs.HasRoom (libs : ContextLibs) : Prop := ∀ part, libs.callocFails part = false

/-- The description that libffi is asked to prepare. -/
def describedCif (pf : Platform) (returnType : FFIType) (types : List FFIType)
    (flags : BitVec 32) : Cif :=
  let fixedParamCount := (flags.sshiftRight 16).toInt
  { abi := contextAbi pf flags
    nfixed := if fixedParamCount = types.length then none else some fixedParamCount
    argTypes := types
    rtype := returnType }

section Contexts

variable {libs : ContextLibs} {returnType : FFIType} {paramArray : List (Option FFIType)}
  {types : List FFIType} {flags : BitVec 32}

/-- When `cleanup` has everything there is to free, nothing is left of the call, and the exception
is pending. -/
theorem atomic_cleanup (e : ContextExn) :
    (⟨none, [e], [.context, .ffiParamTypes, .rawParamOffsets],
      [.rawParamOffsets, .ffiParamTypes, .context]⟩ : NewContext).constructed.Atomic := by
  have hnodup : [ContextPart.context, .ffiParamTypes, .rawParamOffsets].Nodup := by decide
  exact Constructed.atomic_of_thrown hnodup (List.reverse_perm [_, _, _])

/-- A call that does not get as far as libffi, for lack of memory or of a parameter type, leaves
nothing behind. -/
theorem atomic_newCallContext (h : ¬libs.HasRoom ∨ none ∈ paramArray) :
    (newCallContext pf libs returnType paramArray flags).constructed.Atomic := by
  rw [newCallContext]
  split
  · exact Constructed.atomic_of_thrown List.nodup_nil (.refl _)
  split
  · exact Constructed.atomic_of_thrown (by decide) (.refl _)
  split
  · exact Constructed.atomic_of_thrown (by decide) (List.Perm.swap _ _ _)
  case isFalse hcontext htypes hoffsets =>
    have hroom : libs.HasRoom := fun part => by
      cases part
      · exact Bool.eq_false_iff.mpr hcontext
      · exact Bool.eq_false_iff.mpr htypes
      · exact Bool.eq_false_iff.mpr hoffsets
    rcases h with hno | hnone
    · exact absurd hroom hno
    · simp only [foldlM_paramStep_none pf hnone]
      exact atomic_cleanup .invalidParameterType

/-- A call with memory and all its parameter types hands libffi the description of the function. -/
theorem newCallContext_eq (pf : Platform) (returnType : FFIType) (types : List FFIType)
    (flags : BitVec 32) (h : libs.HasRoom) :
    ∃ ctx : NativeCallContext, ctx.cif = describedCif pf returnType types flags ∧
      newCallContext pf libs returnType (types.map some) flags = prepContext libs ctx := by
  obtain ⟨l, hl, htypes, -⟩ := foldlM_paramStep pf types ⟨[], [], 0, fastReturn pf returnType⟩
  simp only [newCallContext, h _, hl, Bool.false_eq_true, if_false]
  refine ⟨_, ?_, rfl⟩
  rw [describedCif, List.length_map, htypes]
  rfl

/-- What is left is up to libffi: only a status for which the switch has no case leaves the context
allocated. -/
theorem atomic_prepContext_iff {ctx : NativeCallContext} :
    (prepContext libs ctx).constructed.Atomic ↔ libs.prep ctx.cif ≠ .other := by
  rw [prepContext]
  cases libs.prep ctx.cif with
  | ok => exact iff_of_true Constructed.atomic_of_handle (by decide)
  | badTypedef | badAbi | badArgType => exact iff_of_true (atomic_cleanup _) (by decide)
  | other =>
    refine iff_of_false (fun h => ?_) (by decide)
    exact List.cons_ne_nil _ _ (Constructed.atomic_iff_of_handle.mp h)

end Contexts

/-- `newCallContext`, as it is called. A `NULL` type is read as soon as there is room. -/
def Foreign.newCallContext (pf : Platform) (libs : ContextLibs) (returnType : Option FFIType)
    (paramArray : Option (List (Option FFIType))) (flags : BitVec 32) : Option NewContext :=
  match paramArray, returnType with
  | none, _ => none
  | some paramArray, some returnType =>
    some (Jffi.newCallContext pf libs returnType paramArray flags)
  | some paramArray, none =>
    if libs.callocFails .context || libs.callocFails .ffiParamTypes ||
        libs.callocFails .rawParamOffsets then
      some (Jffi.newCallContext pf libs .void paramArray flags)
    else none

/-! ### `newClosureMagazine` -/

section Magazines

variable {b : ClosureBuild pf} {libs : MagazineLibs} {ctx : Option NativeCallContext}
  {closureMethod : Option ℕ} {prim : Bool} {allocated : List MagazinePart}

/-- What goes through `error` has been thrown or freed, and nothing twice, unless something had been
thrown before. -/
theorem atomic_magazineCleanup {e : MagazineExn} (hnodup : allocated.Nodup) :
    (MagazineLibs.cleanup allocated [e]).constructed.Atomic := by
  refine Constructed.atomic_of_thrown hnodup ?_
  have hfreed : ([.closures, .magazine, .code].filter (· ∈ allocated)).Nodup :=
    List.Nodup.filter _ (by decide)
  refine (List.perm_ext_iff_of_nodup hfreed hnodup).mpr fun part => ?_
  rw [List.mem_filter, decide_eq_true_eq]
  cases part <;> simp

theorem not_atomic_magazineCleanup {e e' : MagazineExn} {thrown : List MagazineExn} :
    ¬(MagazineLibs.cleanup allocated (thrown ++ [e, e'])).constructed.Atomic := by
  rintro (⟨h, -⟩ | ⟨-, ⟨e'', h⟩, -⟩)
  · cases h
  · have hlength := congrArg List.length h
    simp [MagazineLibs.cleanup, NewMagazine.constructed] at hlength

end Magazines

/-! ### The four functions -/

/-- A call of a constructor, and what it is answered from outside. -/
inductive Constructor (b : ClosureBuild pf)
  | newCallContext (libs : ContextLibs) (returnType : Option FFIType)
      (paramArray : Option (List (Option FFIType))) (flags : BitVec 32)
  | newClosureMagazine (libs : MagazineLibs) (ctx : Option NativeCallContext)
      (closureMethod : Option ℕ) (callWithPrimitiveParameters : Bool)
  | newStruct (callocFails : AggregatePart → Bool) (typeArray : Option (List (Option (FfiType pf))))
      (isUnion : Bool)
  | newArray (callocFails : AggregatePart → Bool) (type : Option (FfiType pf)) (length : BitVec 32)

namespace Constructor

variable {b : ClosureBuild pf}

/-- A list without nulls is a list of types that are all there. -/
theorem exists_map_some {α : Type} {l : List (Option α)} (h : none ∉ l) :
    ∃ l' : List α, l = l'.map some := by
  induction l with
  | nil => exact ⟨[], rfl⟩
  | cons a l ih =>
    obtain ⟨l', rfl⟩ := ih fun hmem => h (List.mem_cons_of_mem a hmem)
    obtain ⟨a', rfl⟩ := Option.ne_none_iff_exists'.mp fun ha : a = none =>
      h (ha ▸ List.mem_cons_self)
    exact ⟨a' :: l', rfl⟩

/-- The call has a result, and does everything or nothing. The code of a magazine is in its page. -/
def Atomic : Constructor b → Prop
  | .newCallContext libs returnType paramArray flags =>
    ∃ result, Foreign.newCallContext pf libs returnType paramArray flags = some result ∧
      result.constructed.Atomic
  | .newClosureMagazine libs ctx closureMethod prim =>
    ∃ result, Foreign.newClosureMagazine b libs ctx closureMethod prim = some result ∧
      result.constructed.Atomic ∧ ∀ m ∈ result.handle, b.Trampolines libs m
  | .newStruct callocFails typeArray isUnion =>
    (Foreign.newStruct callocFails typeArray isUnion).constructed.Atomic
  | .newArray callocFails type length =>
    (Foreign.newArray callocFails type length).constructed.Atomic

/-- No `NULL` is read; libffi gives one of the answers `newCallContext` knows; and the method of a
magazine is found, when it is looked up. -/
def Answered : Constructor b → Prop
  | .newCallContext libs returnType paramArray flags =>
    ∃ params, paramArray = some params ∧
      (libs.HasRoom → ∃ type, returnType = some type ∧
        ∀ types, params = types.map some → libs.prep (describedCif pf type types flags) ≠ .other)
  | .newClosureMagazine libs ctx closureMethod _ =>
    ∀ r, libs.room b = some r →
      (ctx = none → r.closures = []) ∧
      (libs.Prepares ctx r → ∃ method methodID,
        closureMethod = some method ∧ libs.fromReflectedMethod method = .ok methodID)
  | .newStruct .. | .newArray .. => True

/-- Nothing but room saves a call for a `NULL` return type. -/
theorem atomic_nullReturnType_iff {libs : ContextLibs} {params : List (Option FFIType)}
    {flags : BitVec 32} :
    (newCallContext libs none (some params) flags : Constructor b).Atomic ↔ ¬libs.HasRoom := by
  have hroom : ¬libs.HasRoom ↔ (libs.callocFails .context || libs.callocFails .ffiParamTypes ||
      libs.callocFails .rawParamOffsets) = true := by
    rw [ContextLibs.HasRoom, Bool.or_eq_true, Bool.or_eq_true, not_forall]
    constructor
    · rintro ⟨part, h⟩
      cases part <;> simp_all
    · rintro ((h | h) | h)
      · exact ⟨.context, by simp [h]⟩
      · exact ⟨.ffiParamTypes, by simp [h]⟩
      · exact ⟨.rawParamOffsets, by simp [h]⟩
  constructor
  · rintro ⟨result, h, -⟩
    rw [Foreign.newCallContext] at h
    split at h
    case isTrue hfails => exact hroom.mpr hfails
    case isFalse => cases h
  · intro h
    exact ⟨_, if_pos (hroom.mp h), Jffi.atomic_newCallContext (.inl h)⟩

theorem atomic_newCallContext_iff {libs : ContextLibs} {returnType : Option FFIType}
    {paramArray : Option (List (Option FFIType))} {flags : BitVec 32} :
    (newCallContext libs returnType paramArray flags : Constructor b).Atomic ↔
      (newCallContext libs returnType paramArray flags : Constructor b).Answered := by
  cases paramArray with
  | none =>
    refine iff_of_false ?_ ?_
    · rintro ⟨result, h, -⟩
      cases h
    · rintro ⟨params, h, -⟩
      cases h
  | some params =>
    have hanswered : (newCallContext libs returnType (some params) flags : Constructor b).Answered ↔
        (libs.HasRoom → ∃ type, returnType = some type ∧
          ∀ types, params = types.map some →
          libs.prep (describedCif pf type types flags) ≠ .other) :=
      ⟨fun ⟨_, h, hrest⟩ => Option.some.inj h ▸ hrest, fun h => ⟨params, rfl, h⟩⟩
    rw [hanswered]
    cases returnType with
    | none => exact atomic_nullReturnType_iff.trans (by simp)
    | some type =>
      have hatomic : (newCallContext libs (some type) (some params) flags : Constructor b).Atomic ↔
          (Jffi.newCallContext pf libs type params flags).constructed.Atomic :=
        ⟨fun ⟨_, h, hrest⟩ => Option.some.inj h ▸ hrest, fun h => ⟨_, rfl, h⟩⟩
      rw [hatomic]
      by_cases hroom : libs.HasRoom
      · by_cases hnone : none ∈ params
        · refine iff_of_true (Jffi.atomic_newCallContext (.inr hnone)) fun _ => ⟨type, rfl, ?_⟩
          rintro types rfl
          simp at hnone
        · obtain ⟨types, rfl⟩ := exists_map_some hnone
          obtain ⟨ctx, hcif, hcall⟩ := newCallContext_eq pf type types flags hroom
          rw [hcall, atomic_prepContext_iff, hcif]
          constructor
          · intro h _
            refine ⟨type, rfl, fun types' htypes => ?_⟩
            rw [← (List.map_injective_iff.mpr (Option.some_injective _)) htypes]
            exact h
          · intro h
            obtain ⟨type', htype, hprep⟩ := h hroom
            cases htype
            exact hprep types rfl
      · exact iff_of_true (Jffi.atomic_newCallContext (.inl hroom)) fun h => absurd h hroom

theorem atomic_newClosureMagazine_iff {libs : MagazineLibs} {ctx : Option NativeCallContext}
    {closureMethod : Option ℕ} {prim : Bool} :
    (newClosureMagazine libs ctx closureMethod prim : Constructor b).Atomic ↔
      (newClosureMagazine libs ctx closureMethod prim : Constructor b).Answered := by
  cases hroom : libs.room b with
  | none =>
    obtain ⟨magazine, closures, code, hcall⟩ := newClosureMagazine_of_no_room ctx
      closureMethod prim hroom
    refine iff_of_true ⟨_, hcall, ?_, ?_⟩ fun r hr => ?_
    · exact atomic_magazineCleanup (MagazineLibs.nodup_partsOf magazine closures code)
    · exact fun m hm => nomatch hm
    · cases hroom.symm.trans hr
  | some r =>
    have hcall := newClosureMagazine_of_room ctx closureMethod prim hroom
    have hanswered : (newClosureMagazine libs ctx closureMethod prim : Constructor b).Answered ↔
        (ctx = none → r.closures = []) ∧ (libs.Prepares ctx r → ∃ method methodID,
          closureMethod = some method ∧ libs.fromReflectedMethod method = .ok methodID) := by
      refine ⟨fun h => h r hroom, fun h r' hr' => ?_⟩
      cases hroom.symm.trans hr'
      exact h
    have htrampolines := ClosureBuild.trampolines_of_room hroom
    rw [hanswered, Atomic, hcall]
    rcases fillMagazine_cases ctx closureMethod prim libs r with ⟨hctx, hclosures, hnone⟩ |
      ⟨hread, (⟨hprepares, text, herror⟩ | ⟨hprepares, hrest⟩)⟩
    · rw [hnone]
      refine iff_of_false ?_ fun h => hclosures (h.1 hctx)
      rintro ⟨result, h, -⟩
      cases h
    · rw [herror]
      refine iff_of_true ⟨_, rfl, atomic_magazineCleanup (by decide), fun m hm => nomatch hm⟩ ?_
      exact ⟨hread, fun h => absurd h hprepares⟩
    · rcases hrest with ⟨rfl, hnone⟩ |
        ⟨method, rfl, ⟨threw, hlookup, herror⟩ | ⟨methodID, hlookup, hdone⟩⟩
      · rw [hnone]
        refine iff_of_false ?_ fun h => ?_
        · rintro ⟨result, h, -⟩
          cases h
        · obtain ⟨method, methodID, h, -⟩ := h.2 hprepares
          cases h
      · rw [herror]
        refine iff_of_false ?_ fun h => ?_
        · rintro ⟨result, h, hatomic, -⟩
          cases h
          exact not_atomic_magazineCleanup hatomic
        · obtain ⟨method', methodID, h, hfound⟩ := h.2 hprepares
          cases h
          cases hlookup.symm.trans hfound
      · rw [hdone]
        refine iff_of_true ⟨_, rfl, Constructed.atomic_of_handle, fun m hm => ?_⟩ ?_
        · cases hm
          exact htrampolines methodID libs.getJavaVM prim
        · exact ⟨hread, fun _ => ⟨method, methodID, rfl, hlookup⟩⟩

/-- **A call does everything or nothing**, whatever it allocates, exactly when it is answered as it
should be. -/
theorem atomic_iff (c : Constructor b) : c.Atomic ↔ c.Answered := by
  cases c with
  | newCallContext libs returnType paramArray flags => exact atomic_newCallContext_iff
  | newClosureMagazine libs ctx closureMethod prim => exact atomic_newClosureMagazine_iff
  | newStruct callocFails typeArray isUnion =>
    exact iff_of_true ((newStruct_settled callocFails typeArray isUnion).atomic
      (nodup_newStruct callocFails typeArray isUnion)) trivial
  | newArray callocFails type length =>
    exact iff_of_true ((newArray_settled callocFails type length).atomic
      (nodup_newArray callocFails type length)) trivial

/-- Two closures in a page, for a method that is not found. -/
def unknownMethod : MagazineLibs where
  callocMagazine := some 0x1000
  callocClosures := some 0x2000
  pageSize := 64
  allocatePages := some 0x10000
  makePagesExecutable := true
  ffiClosureAlloc := none
  ffiPrepClosureLoc _ _ := .ok
  fromReflectedMethod _ := .error false
  getJavaVM := 0x3000
  errno := 0
  strerror _ := "Success"

/-- A magazine for a method that the JVM has no ID for. -/
theorem not_atomic_unknownMethod :
    ¬(newClosureMagazine unknownMethod
      (some ⟨⟨.defaultAbi, none, [], .void⟩, 0, [], 0, none⟩) (some 0) true :
        Constructor (⟨false, 32, by decide⟩ : ClosureBuild .linuxX64)).Atomic := by
  rintro ⟨result, hresult, hatomic, -⟩
  cases hresult
  exact not_atomic_magazineCleanup hatomic

end Constructor

end Jffi
