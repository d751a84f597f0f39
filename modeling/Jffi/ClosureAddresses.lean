import Jffi.Libffi.ClosureCode
import Jffi.SlotOwnership

/-!
# What runs at the address of a closure

A `ClosurePool` hands out addresses that native code may call at any time. This file puts the pool
of Java, the native magazines behind it and the trampolines in memory together, on x86-64: native
code jumps to an address, the trampoline jumps to libffi, libffi calls `closure_invoke` with a
`Closure`, and that one has the proxy of a slot, which has the closure.

The answers of the allocators are part of a run. They never answer with memory that is in use.

## Main definitions

* `PoolContext` — what the closures of a pool have in common
* `NativePool`, `PoolContext.step` — a pool with its native memory
* `PoolContext.call` — a call of a native address
* `PoolContext.Reached` — what native code may rely on

## Main results

* `PoolContext.Made.ready_addMagazine` — a new magazine
* `PoolContext.Inv.step` — what a step keeps
* `PoolContext.reached_of_runs` — the addresses lead to their closures after every run
-/

namespace Jffi

variable {C : Type}

/-- How the library is compiled for x86-64 Linux. -/
def unix64Build : ClosureBuild .linuxX64 := ⟨false, sizeofFfiClosure64, by decide⟩

/-- What the closures of a pool have in common. -/
structure PoolContext where
  sym : Symbols
  ctx : NativeCallContext
  /-- The address of its `ffi_cif`. -/
  cif : BitVec 64
  /-- The flags that libffi has computed for it. -/
  flags : BitVec 32
  /-- `Proxy.METHOD`. -/
  method : ℕ
  entry_ne : sym.ffiClosureUnix64 ≠ sym.ffiClosureUnix64Sse

/-- The members `handle` and `codeAddress` of a `Magazine.Slot`. -/
structure SlotAddresses where
  handle : ℕ
  codeAddress : ℕ
  deriving DecidableEq, Repr

/-- A closure pool, and the memory of its native magazines. -/
structure NativePool (C : Type) where
  pool : Pool C
  memory : ℕ → Byte
  /-- The C structure `Closure` at an address. Its global reference is the number of the slot that
  has the proxy. -/
  closureAt : ℕ → Option Closure
  slotAt : ℕ → SlotAddresses
  /-- The memory that has been allocated. -/
  allocated : List Stretch

namespace NativePool

def initial (memory : ℕ → Byte) : NativePool C := ⟨Pool.initial, memory, fun _ => none,
  fun _ => ⟨0, 0⟩, []⟩

variable (s : NativePool C)

/-- The member `codeAddress` of a handle's slot. -/
def codeAddress (h : ℕ) : ℕ := (s.slotAt (s.pool.handleAt h).slot).codeAddress

/-- `Handle.getAddress`, which throws for a handle that was disposed of. -/
def getAddress (h : ℕ) : Option ℕ :=
  if (s.pool.handleAt h).disposed then none else some (s.codeAddress h)

end NativePool

/-! ### A new magazine -/

/-- The loop of `new Magazine`, from the proxy `ref` on. -/
def takeClosures : ℕ → ℕ → Magazine → List Closure
  | 0, _, _ => []
  | rounds + 1, ref, m =>
    match Foreign.closureMagazineGet (some ref) m with
    | (m, .ok (some c)) => c :: takeClosures rounds (ref + 1) m
    | (_, .ok none) | (_, .error _) => []

/-- The new stretches are in memory, and nothing there was in use. -/
def Allocates (old new : List Stretch) : Prop :=
  new.Pairwise Stretch.Apart ∧
    ∀ x ∈ new, 0 < x.start ∧ x.start + x.size ≤ 2 ^ 64 ∧ ∀ y ∈ old, x.Apart y

instance (old new : List Stretch) : Decidable (Allocates old new) :=
  inferInstanceAs (Decidable (_ ∧ _))

/-- The memory that is allocated for the closures and for their code. -/
def MagazineLibs.regions (libs : MagazineLibs) : List Stretch :=
  libs.callocClosures.toList.map
      (⟨·, (libs.nclosures unix64Build).toNat * unix64Build.sizeofClosure⟩) ++
    libs.allocatePages.toList.map (⟨·, libs.pageSize.toInt.toNat⟩)

namespace PoolContext

variable (x : PoolContext)

/-- The library as libffi is on this platform: `ffi_prep_closure_loc` answers with the status of its
code. -/
def withLibffi (libs : MagazineLibs) : MagazineLibs :=
  { libs with ffiPrepClosureLoc := fun cif _ => if cif.abi = .defaultAbi then .ok else .badAbi }

/-- What is written for the closures of a magazine. -/
def prepare (closures : List Closure) (m : ℕ → Byte) : ℕ → Byte :=
  closures.foldl (fun m c => ffiPrepClosureLoc x.sym x.flags c.pcl x.cif x.sym.closureInvoke
    (BitVec.ofNat 64 c.address) m) m

/-- A native magazine has been made, and all of its closures have proxies. -/
def addMagazine (libs : MagazineLibs) (m : Magazine) (s : NativePool C) : NativePool C :=
  let closures := takeClosures (m.closures.length + 1) s.pool.slotCount m
  { pool := s.pool.newMagazine closures.length
    memory := x.prepare m.closures s.memory
    closureAt := fun a => (closures.find? fun c => c.address == a).or (s.closureAt a)
    slotAt := fun k =>
      if k < s.pool.slotCount then s.slotAt k
      else (closures[k - s.pool.slotCount]?).elim ⟨0, 0⟩ fun c => ⟨c.address, c.code⟩
    allocated := libs.regions ++ s.allocated }

/-- `new Magazine`, and no magazine when it throws. -/
def newMagazine (libs : MagazineLibs) (s : NativePool C) : Option (Option (NativePool C)) :=
  (Foreign.newClosureMagazine unix64Build (withLibffi libs) (some x.ctx) (some x.method)
      false).bind fun result =>
    match result.handle with
    | none => some none
    | some m =>
      if Allocates s.allocated libs.regions then some (some (x.addMagazine libs m s)) else none

/-- `useMagazine`, and `magazines.add`. -/
def useMagazine (m : ℕ) (s : NativePool C) : NativePool C :=
  let p := s.pool.useMagazine m
  { s with pool := { p with magazines := m :: p.magazines } }

/-- `allocateNewHandle`, with the answers for the magazines that it makes. There is no handle when
one of them cannot be made. -/
def allocateNewHandle : List MagazineLibs → NativePool C → Option (Option ℕ × NativePool C)
  | [], s => s.pool.poll.map fun (h, p) => (some h, { s with pool := p })
  | libs :: rest, s =>
    match s.pool.poll with
    | some (h, p) => some (some h, { s with pool := p })
    | none =>
      match x.newMagazine libs s with
      | none => none
      | some none => some (none, s)
      | some (some s') => allocateNewHandle rest (useMagazine s.pool.magazineCount s')

/-- `newClosureHandle`. -/
def newClosureHandle (closure : C) (libs : List MagazineLibs) (s : NativePool C) :
    Option (NativePool C) :=
  match s.pool.poll with
  | some (h, p) => some { s with pool := p.issue closure h }
  | none =>
    (x.allocateNewHandle libs s).map fun (h, s) =>
      match h with
      | some h => { s with pool := s.pool.issue closure h }
      | none => s

/-- What the program and the collector may do. -/
inductive Act (C : Type)
  | newClosureHandle (closure : C) (libs : List MagazineLibs)
  | dispose (h : ℕ)
  | setAutoRelease (h : ℕ) (autorelease : Bool)
  | drop (h : ℕ)
  | collect (holder : ℕ)

/-- The steps of the pool for which no native memory is allocated. -/
def poolStep (a : Pool.Act C) (s : NativePool C) : Option (NativePool C) :=
  (Pool.step a s.pool).map fun p => { s with pool := p }

def step (a : Act C) (s : NativePool C) : Option (NativePool C) :=
  match a with
  | .newClosureHandle closure libs => x.newClosureHandle closure libs s
  | .dispose h => poolStep (.dispose h) s
  | .setAutoRelease h autorelease => poolStep (.setAutoRelease h autorelease) s
  | .drop h => poolStep (.drop h) s
  | .collect holder => poolStep (.collect holder) s

/-- A call of the native address `a`: the closure that runs, where `none` is `NULL_CLOSURE`. -/
def call (s : NativePool C) (a r10 : ℕ) : Option (Option C) := do
  let entered ← enterClosure x.sym s.memory a r10
  if entered.fn = x.sym.closureInvoke.toNat then
    let closure ← s.closureAt entered.userData
    let ref ← closure.javaObject
    some (s.pool.slots ref).closure
  else none

/-- What native code may rely on. -/
structure Reached (s : NativePool C) : Prop where
  /-- The address of a live handle runs its closure. -/
  live : ∀ h ∈ s.pool.held, (s.pool.handleAt h).disposed = false →
    ∃ a c, s.getAddress h = some a ∧ (s.pool.handleAt h).closure = some c ∧
      ∀ r10, x.call s a r10 = some (some c)
  /-- So does that of a handle that was dropped, with `autorelease` switched off. -/
  permanent : ∀ h ∈ s.pool.issued, (s.pool.handleAt h).disposed = false →
    (s.pool.handleAt h).autorelease = some false →
    ∃ c, (s.pool.handleAt h).closure = some c ∧
      ∀ r10, x.call s (s.codeAddress h) r10 = some (some c)
  /-- The address of a handle that was disposed of does nothing, until its slot is issued again. -/
  disposed : ∀ h, s.pool.lastIssued (s.pool.handleAt h).slot = some h →
    (s.pool.handleAt h).disposed = true → ∀ r10, x.call s (s.codeAddress h) r10 = some none
  /-- Live handles have addresses of their own. -/
  distinct : ∀ h ∈ s.pool.held, ∀ h' ∈ s.pool.held, (s.pool.handleAt h).disposed = false →
    (s.pool.handleAt h').disposed = false → s.getAddress h = s.getAddress h' → h = h'

/-! ### The slots of a pool -/

/-- The slots are the same, and the old handles are still those of their slots. -/
structure SameSlots (p p' : Pool C) : Prop where
  slotCount : p'.slotCount = p.slotCount
  handleCount : p.handleCount ≤ p'.handleCount
  slot : ∀ h < p.handleCount, (p'.handleAt h).slot = (p.handleAt h).slot

section SameSlots

variable {p p' p'' : Pool C}

theorem SameSlots.trans (h : SameSlots p p') (h' : SameSlots p' p'') : SameSlots p p'' :=
  ⟨h'.slotCount.trans h.slotCount, h.handleCount.trans h'.handleCount, fun k hk =>
    (h'.slot k (Nat.lt_of_lt_of_le hk h.handleCount)).trans (h.slot k hk)⟩

/-- A step of the pool that makes no slot and no handle, and lets the handles keep their slots,
keeps the slots. -/
theorem SameSlots.of_handles (hslots : p'.slotCount = p.slotCount)
    (hhandles : p'.handleCount = p.handleCount)
    (hslot : ∀ h, (p'.handleAt h).slot = (p.handleAt h).slot) : SameSlots p p' :=
  ⟨hslots, hhandles.symm.le, fun h _ => hslot h⟩

theorem slot_update {handleAt : ℕ → PoolHandle C} {handle : PoolHandle C} {h : ℕ}
    (hslot : handle.slot = (handleAt h).slot) (h' : ℕ) :
    (Function.update handleAt h handle h').slot = (handleAt h').slot := by
  by_cases heq : h' = h
  · subst heq
    rw [Function.update_self, hslot]
  · rw [Function.update_of_ne heq]

theorem sameSlots_addHandle (full : Bool) (holder slot : ℕ) (p : Pool C) :
    SameSlots p (p.addHandle full holder slot) :=
  ⟨rfl, Nat.le_succ _, fun _ hlt => congrArg PoolHandle.slot (Pool.handleAt_addHandle_of_lt hlt)⟩

theorem sameSlots_useMagazine (m : ℕ) (p : Pool C) : SameSlots p (p.useMagazine m) := by
  have hfold : ∀ (full : Bool) (holder : ℕ) (l : List ℕ) (p : Pool C),
      SameSlots p (l.foldl (Pool.addHandle full holder) p) := by
    intro full holder l
    induction l with
    | nil => exact fun p => .of_handles rfl rfl fun _ => rfl
    | cons slot l ih => exact fun p => (sameSlots_addHandle full holder slot p).trans (ih _)
  refine SameSlots.trans ?_ (hfold _ _ _ _)
  exact .of_handles rfl rfl fun _ => rfl

theorem sameSlots_recycleMagazine (m : ℕ) (p : Pool C) : SameSlots p (p.recycleMagazine m) := by
  rw [Pool.recycleMagazine]
  dsimp only
  split
  · refine SameSlots.trans ?_ (sameSlots_useMagazine _ _)
    exact .of_handles rfl rfl fun _ => rfl
  · exact .of_handles rfl rfl fun _ => rfl

theorem sameSlots_poll {h : ℕ} (hpoll : p.poll = some (h, p')) : SameSlots p p' := by
  rw [(Pool.polled_of_poll hpoll).eq]
  exact .of_handles rfl rfl fun _ => rfl

theorem sameSlots_issue (closure : C) (h : ℕ) (p : Pool C) : SameSlots p (p.issue closure h) :=
  .of_handles rfl rfl fun h' => (Pool.handleAt_issue closure h h').1

theorem sameSlots_dispose (h : ℕ) (p : Pool C) : SameSlots p (p.dispose h) := by
  rw [Pool.dispose]
  split
  · exact .of_handles rfl rfl fun _ => rfl
  · rw [Pool.recycleSlot]
    refine SameSlots.trans ?_ (sameSlots_addHandle _ _ _ _)
    exact .of_handles rfl rfl (slot_update rfl)

theorem sameSlots_setAutoRelease (h : ℕ) (autorelease : Bool) (p : Pool C) :
    SameSlots p (p.setAutoRelease h autorelease) := by
  rw [Pool.setAutoRelease]
  split
  · exact .of_handles rfl rfl fun _ => rfl
  · exact .of_handles rfl rfl (slot_update rfl)

end SameSlots

/-! ### The native closures of the slots -/

section Ready

variable (x : PoolContext) (s : NativePool C)

/-- The native closure of the slot `k`: a `Closure` with the proxy of the slot, and code that leads
to it. -/
structure SlotReady (k : ℕ) : Prop where
  closure : ∃ c, s.closureAt (s.slotAt k).handle = some c ∧ c.javaObject = some k
  code : readAt s.memory (s.slotAt k).codeAddress sizeofFfiClosure64 =
    closureImage x.sym x.flags x.cif x.sym.closureInvoke (BitVec.ofNat 64 (s.slotAt k).handle)
  codeAllocated : ∃ y ∈ s.allocated,
    (⟨(s.slotAt k).codeAddress, sizeofFfiClosure64⟩ : Stretch).Within y
  handleAllocated : ∃ y ∈ s.allocated,
    (⟨(s.slotAt k).handle, unix64Build.sizeofClosure⟩ : Stretch).Within y

/-- Each slot has a native closure of its own. -/
structure Ready : Prop where
  slot : ∀ k < s.pool.slotCount, x.SlotReady s k
  apart : ∀ k < s.pool.slotCount, ∀ k' < s.pool.slotCount, k ≠ k' →
    (⟨(s.slotAt k).codeAddress, sizeofFfiClosure64⟩ : Stretch).Apart
      ⟨(s.slotAt k').codeAddress, sizeofFfiClosure64⟩
  bounded : ∀ y ∈ s.allocated, y.start + y.size ≤ 2 ^ 64

/-- What holds in every reachable state: the slots of all magazines are ready, and the pool keeps
its own invariants. -/
structure Inv : Prop where
  layout : Pool.Layout s.pool
  ownership : Pool.Ownership s.pool
  ready : x.Ready s

variable {x s}

/-- The native closures stay ready, whatever becomes of the pool, as long as it has the same number
of slots. -/
theorem Ready.withPool (h : x.Ready s) {p : Pool C} (hcount : p.slotCount = s.pool.slotCount) :
    x.Ready { s with pool := p } := by
  refine ⟨fun k hk => ?_, fun k hk k' hk' => ?_, h.bounded⟩
  · obtain ⟨hclosure, hcode, hallocated, hhandle⟩ := h.slot k (hcount ▸ hk)
    exact ⟨hclosure, hcode, hallocated, hhandle⟩
  · exact h.apart k (hcount ▸ hk) k' (hcount ▸ hk')

/-- **A call** of the address of a slot runs the closure of its proxy. -/
theorem Ready.call_eq (h : x.Ready s) {k : ℕ} (hk : k < s.pool.slotCount) (r10 : ℕ) :
    x.call s (s.slotAt k).codeAddress r10 = some (s.pool.slots k).closure := by
  obtain ⟨⟨c, hc, hobject⟩, hcode, ⟨y, hy, hwithin⟩, ⟨z, hz, hwithin'⟩⟩ := h.slot k hk
  have hend : (s.slotAt k).codeAddress + sizeofFfiClosure64 ≤ 2 ^ 64 :=
    hwithin.2.trans (h.bounded y hy)
  have hhandle : (s.slotAt k).handle < 2 ^ 64 := by
    have hlt : (s.slotAt k).handle + 32 ≤ 2 ^ 64 := hwithin'.2.trans (h.bounded z hz)
    omega
  rw [call, enterClosure_of_installed x.entry_ne hcode hend]
  simp only [Option.bind_eq_bind, Option.bind_some, if_pos, BitVec.toNat_ofNat,
    Nat.mod_eq_of_lt hhandle, hc, hobject]

end Ready

/-! ### A magazine is added -/

/-- **The closures that `new Magazine` takes**, each with the reference of its proxy. -/
theorem takeClosures_eq {rounds ref : ℕ} {m : Magazine}
    (hcount : (m.closures.length : ℤ) = m.nclosures)
    (hrounds : m.closures.length - m.nextclosure < rounds) :
    takeClosures rounds ref m =
      ((m.closures.drop m.nextclosure).zipIdx ref).map fun p =>
        { p.1 with javaObject := some p.2 } := by
  induction rounds generalizing ref m with
  | zero => omega
  | succ rounds ih =>
    rw [takeClosures, Foreign.closureMagazineGet]
    by_cases hlt : m.nextclosure < m.closures.length
    · have hnext : (m.nextclosure : ℤ) < m.nclosures := by omega
      have hget : (m.setJavaObject (some ref)).closures[m.nextclosure]? =
          some { m.closures[m.nextclosure] with javaObject := some ref } := by
        rw [Magazine.setJavaObject, List.getElem?_modify, List.getElem?_eq_getElem hlt]
        simp
      have hdrop : (m.setJavaObject (some ref)).closures.drop (m.nextclosure + 1) =
          m.closures.drop (m.nextclosure + 1) := List.drop_modify_of_lt _ _ _ _ (Nat.lt_succ_self _)
      have hlength : (m.setJavaObject (some ref)).closures.length = m.closures.length :=
        List.length_modify _ _ _
      rw [if_pos hnext]
      simp only [hget]
      rw [List.drop_eq_getElem_cons hlt, List.zipIdx_cons, List.map_cons]
      refine congrArg (List.cons _) ?_
      rw [ih (hlength ▸ hcount) (by simp only [hlength]; omega)]
      simp only [hdrop]
    · rw [if_neg (by omega), List.drop_eq_nil_of_le (by omega)]
      rfl

/-- A magazine that was made, with its closures and their code at `list` and `code`. -/
structure Made (libs : MagazineLibs) (m : Magazine) (list code : ℕ) : Prop where
  regions_eq : libs.regions =
    [⟨list, (libs.nclosures unix64Build).toNat * unix64Build.sizeofClosure⟩,
      ⟨code, libs.pageSize.toInt.toNat⟩]
  nextclosure_eq : m.nextclosure = 0
  length_eq : (m.closures.length : ℤ) = m.nclosures
  closures_eq : m.closures = (List.range (libs.nclosures unix64Build).toNat).map
    (unix64Build.closureAt m.address list code)

theorem made_of_newClosureMagazine {libs : MagazineLibs} {ctx : Option NativeCallContext}
    {method : Option ℕ} {prim : Bool} {result : NewMagazine} {m : Magazine}
    (hcall : Foreign.newClosureMagazine unix64Build libs ctx method prim = some result)
    (h : result.handle = some m) : ∃ list code, Made libs m list code := by
  obtain ⟨hlength, hnext⟩ := newClosureMagazine_handle ctx method prim hcall h
  cases hroom : libs.room unix64Build with
  | none =>
    obtain ⟨magazine, closures, code, hfailed⟩ :=
      newClosureMagazine_of_no_room ctx method prim hroom
    rw [hfailed] at hcall
    cases hcall
    cases h
  | some r =>
    have hr : m.closures = r.closures ∧ m.address = r.magazine := by
      rw [newClosureMagazine_of_room ctx method prim hroom] at hcall
      rcases fillMagazine_cases ctx method prim libs r with ⟨-, -, hnone⟩ |
        ⟨-, (⟨-, text, herror⟩ | ⟨-, (⟨-, hnone⟩ | ⟨method', -, hlookup⟩)⟩)⟩
      · rw [hnone] at hcall
        cases hcall
      · rw [herror] at hcall
        cases hcall
        cases h
      · rw [hnone] at hcall
        cases hcall
      · rcases hlookup with ⟨threw, -, herror⟩ | ⟨methodID, -, hdone⟩
        · rw [herror] at hcall
          cases hcall
          cases h
        · rw [hdone] at hcall
          cases hcall
          cases h
          exact ⟨rfl, rfl⟩
    rw [MagazineLibs.room, if_neg (by decide)] at hroom
    obtain ⟨magazine, -, hroom⟩ := Option.bind_eq_some_iff.mp hroom
    obtain ⟨list, hlist, hroom⟩ := Option.bind_eq_some_iff.mp hroom
    obtain ⟨code, hcode, rfl⟩ := Option.map_eq_some_iff.mp hroom
    rw [MagazineLibs.callocList] at hlist
    split at hlist
    case isTrue => cases hlist
    case isFalse =>
      refine ⟨list, code, ?_, hnext, hlength, by rw [hr.1, hr.2]⟩
      rw [MagazineLibs.regions, hlist, hcode]
      rfl

section Add

variable {x : PoolContext} {s : NativePool C} {libs : MagazineLibs} {m : Magazine} {list code : ℕ}

/-- What is written for a closure. -/
def closurePiece (x : PoolContext) (c : Closure) : ℕ × List Byte :=
  (c.pcl, closureImage x.sym x.flags x.cif x.sym.closureInvoke (BitVec.ofNat 64 c.address))

theorem prepare_eq (x : PoolContext) (closures : List Closure) (memory : ℕ → Byte) :
    x.prepare closures memory = overlays memory (closures.map x.closurePiece) := by
  induction closures generalizing memory with
  | nil => rfl
  | cons c closures ih =>
    rw [List.map_cons, overlays_cons, ← ih]
    refine congrArg (x.prepare closures) ?_
    exact ffiPrepClosureLoc_eq ..

/-- The native part of the closure at place `i` of a page occupies the bytes of one `ffi_closure`,
at `i` times the distance of two. -/
theorem stretch_closurePiece (x : PoolContext) (magazine list code i : ℕ) :
    stretch (x.closurePiece (unix64Build.closureAt magazine list code i)) =
      ⟨code + i * 56, sizeofFfiClosure64⟩ := by
  rw [stretch, closurePiece, length_closureImage]
  rfl

theorem pairwise_closurePieces (x : PoolContext) (magazine list code n : ℕ) :
    (((List.range n).map (unix64Build.closureAt magazine list code)).map
      x.closurePiece).Pairwise fun p q => (stretch p).Apart (stretch q) := by
  rw [List.map_map]
  refine List.pairwise_map.mpr (List.pairwise_lt_range.imp fun {i j} hlt => ?_)
  simp only [Function.comp_apply, stretch_closurePiece]
  refine .inl ?_
  have hmul : (i + 1) * 56 ≤ j * 56 := Nat.mul_le_mul_right _ hlt
  rw [Nat.succ_mul] at hmul
  change code + i * 56 + 56 ≤ code + j * 56
  omega

/-- Each `ffi_closure` that a magazine has lies inside of its code page. -/
theorem within_page {i : ℕ} (hi : i < (libs.nclosures unix64Build).toNat) (code : ℕ) :
    (⟨code + i * 56, sizeofFfiClosure64⟩ : Stretch).Within ⟨code, libs.pageSize.toInt.toNat⟩ := by
  have hsubset := unix64Build.trampoline_subset libs 0 0 code hi
  have hmem : code + i * 56 + 55 ∈ Set.Ico code (code + libs.pageSize.toInt.toNat) :=
    hsubset ⟨by change code + i * 56 ≤ _; omega, by change _ < code + i * 56 + 56; omega⟩
  refine ⟨by change code ≤ code + i * 56; omega, ?_⟩
  have hlt := hmem.2
  change code + i * 56 + 56 ≤ code + libs.pageSize.toInt.toNat
  omega

theorem within_list {n i : ℕ} (hi : i < n) (list : ℕ) :
    (⟨list + i * 32, unix64Build.sizeofClosure⟩ : Stretch).Within
      ⟨list, n * unix64Build.sizeofClosure⟩ := by
  have hmul : (i + 1) * 32 ≤ n * 32 := Nat.mul_le_mul_right _ hi
  refine ⟨by change list ≤ list + i * 32; omega, ?_⟩
  change list + i * 32 + 32 ≤ list + n * 32
  omega

/-- Taking closures one by one gives the `i`-th proxy the closure that was laid out for place `i`,
with a reference to that proxy. -/
theorem Made.getElem?_takeClosures (hm : Made libs m list code) {i : ℕ}
    (hi : i < (libs.nclosures unix64Build).toNat) (ref : ℕ) :
    (takeClosures (m.closures.length + 1) ref m)[i]? =
      some { unix64Build.closureAt m.address list code i with javaObject := some (ref + i) } := by
  rw [takeClosures_eq hm.length_eq (by omega), hm.nextclosure_eq, List.drop_zero,
    List.getElem?_map, List.getElem?_zipIdx, hm.closures_eq, List.getElem?_map,
    List.getElem?_range hi]
  rfl

theorem Made.length_takeClosures (hm : Made libs m list code) (ref : ℕ) :
    (takeClosures (m.closures.length + 1) ref m).length = (libs.nclosures unix64Build).toNat := by
  rw [takeClosures_eq hm.length_eq (by omega), hm.nextclosure_eq, List.drop_zero, List.length_map,
    List.length_zipIdx, hm.closures_eq, List.length_map, List.length_range]

theorem Made.mem_takeClosures (hm : Made libs m list code) {ref : ℕ} {c : Closure}
    (hc : c ∈ takeClosures (m.closures.length + 1) ref m) :
    ∃ i < (libs.nclosures unix64Build).toNat,
      c = { unix64Build.closureAt m.address list code i with javaObject := some (ref + i) } := by
  obtain ⟨i, hi, hget⟩ := List.getElem_of_mem hc
  rw [hm.length_takeClosures] at hi
  have hsome := hm.getElem?_takeClosures hi ref
  rw [← hget]
  exact ⟨i, hi, (List.getElem?_eq_some_iff.mp hsome).2⟩

/-- A new magazine changes nothing about the slots that there were before. -/
theorem slotAt_addMagazine_of_lt {k : ℕ} (hk : k < s.pool.slotCount) :
    (x.addMagazine libs m s).slotAt k = s.slotAt k := if_pos hk

theorem Made.slotAt_addMagazine (hm : Made libs m list code) {i : ℕ}
    (hi : i < (libs.nclosures unix64Build).toNat) :
    (x.addMagazine libs m s).slotAt (s.pool.slotCount + i) = ⟨list + i * 32, code + i * 56⟩ := by
  change (if _ < _ then _ else _) = _
  rw [if_neg (by omega), Nat.add_sub_cancel_left, hm.getElem?_takeClosures hi]
  rfl

theorem Made.slotCount_addMagazine (hm : Made libs m list code) :
    (x.addMagazine libs m s).pool.slotCount =
      s.pool.slotCount + (libs.nclosures unix64Build).toNat :=
  congrArg (s.pool.slotCount + ·) (hm.length_takeClosures _)

/-- Memory that is apart from the closures of a new page has the contents it had before the magazine
was made. -/
theorem Made.readAt_addMagazine (hm : Made libs m list code) {y : Stretch}
    (hapart : ∀ i < (libs.nclosures unix64Build).toNat,
      (⟨code + i * 56, sizeofFfiClosure64⟩ : Stretch).Apart y) :
    readAt (x.addMagazine libs m s).memory y.start y.size = readAt s.memory y.start y.size := by
  change readAt (x.prepare m.closures s.memory) _ _ = _
  rw [prepare_eq]
  refine readAt_overlays_of_apart fun piece hpiece => ?_
  obtain ⟨c, hc, rfl⟩ := List.mem_map.mp hpiece
  rw [hm.closures_eq] at hc
  obtain ⟨i, hi, rfl⟩ := List.mem_map.mp hc
  rw [stretch_closurePiece]
  exact hapart i (List.mem_range.mp hi)

/-- Each slot of a new magazine is ready: its trampoline leads to its own closure, which has the
types, the method and the object it is to be called with. -/
theorem Made.slotReady_new (hm : Made libs m list code) {i : ℕ}
    (hi : i < (libs.nclosures unix64Build).toNat) :
    x.SlotReady (x.addMagazine libs m s) (s.pool.slotCount + i) := by
  have hregions : (x.addMagazine libs m s).allocated = libs.regions ++ s.allocated := rfl
  refine ⟨?_, ?_, ?_, ?_⟩
  · rw [hm.slotAt_addMagazine hi]
    refine ⟨{ unix64Build.closureAt m.address list code i with
      javaObject := some (s.pool.slotCount + i) }, ?_, rfl⟩
    change Option.or (List.find? _ _) _ = _
    have hmem := List.mem_of_getElem? (hm.getElem?_takeClosures hi s.pool.slotCount)
    obtain ⟨c, hc⟩ : ∃ c, (takeClosures (m.closures.length + 1) s.pool.slotCount m).find?
        (fun c => c.address == list + i * 32) = some c :=
      Option.isSome_iff_exists.mp
        (List.find?_isSome.mpr ⟨_, hmem, beq_iff_eq.mpr (show list + i * 32 = _ from rfl)⟩)
    have haddress : c.address = list + i * 32 := by simpa using List.find?_some hc
    obtain ⟨j, -, rfl⟩ := hm.mem_takeClosures (List.mem_of_find?_eq_some hc)
    have hij : j = i := by
      change list + j * 32 = list + i * 32 at haddress
      omega
    rw [hc, hij]
    rfl
  · rw [hm.slotAt_addMagazine hi]
    change readAt (x.prepare m.closures s.memory) _ _ = _
    have hpiece : x.closurePiece (unix64Build.closureAt m.address list code i) ∈
        m.closures.map x.closurePiece := by
      rw [hm.closures_eq]
      exact List.mem_map_of_mem (List.mem_map_of_mem (List.mem_range.mpr hi))
    have hread := readAt_overlays_of_mem (m := s.memory)
      (hm.closures_eq ▸ pairwise_closurePieces x m.address list code _) hpiece
    rw [prepare_eq]
    rw [closurePiece, length_closureImage] at hread
    exact hread
  · rw [hm.slotAt_addMagazine hi, hregions, hm.regions_eq]
    exact ⟨_, List.mem_cons_of_mem _ List.mem_cons_self, within_page hi code⟩
  · rw [hm.slotAt_addMagazine hi, hregions, hm.regions_eq]
    exact ⟨_, List.mem_cons_self, within_list hi list⟩

/-- A slot that was ready stays so when another magazine is made, since the regions of the two do
not overlap. -/
theorem Made.slotReady_old (hm : Made libs m list code)
    (halloc : Allocates s.allocated libs.regions) {k : ℕ} (hk : k < s.pool.slotCount)
    (h : x.SlotReady s k) : x.SlotReady (x.addMagazine libs m s) k := by
  obtain ⟨⟨c, hc, hobject⟩, hcode, ⟨y, hy, hwithin⟩, ⟨z, hz, hwithin'⟩⟩ := h
  rw [hm.regions_eq] at halloc
  obtain ⟨-, hlist, hpage⟩ := halloc.imp_right fun h =>
    And.intro (h _ List.mem_cons_self) (h _ (List.mem_cons_of_mem _ List.mem_cons_self))
  have hslot : (x.addMagazine libs m s).slotAt k = s.slotAt k := slotAt_addMagazine_of_lt hk
  refine ⟨⟨c, ?_, hobject⟩, ?_, ?_, ?_⟩
  · rw [hslot]
    change Option.or (List.find? _ _) _ = _
    rw [List.find?_eq_none.mpr, hc]
    · rfl
    · intro c' hc' haddress
      obtain ⟨i, hi, rfl⟩ := hm.mem_takeClosures hc'
      -- the closures are in other memory
      have hsize : 0 < unix64Build.sizeofClosure := by decide
      exact ((hlist.2.2 z hz).within (within_list hi list) hwithin').start_ne hsize hsize
        (beq_iff_eq.mp haddress)
  · rw [hslot, ← hcode]
    exact hm.readAt_addMagazine (y := ⟨_, _⟩) fun i hi =>
      (hpage.2.2 y hy).within (within_page hi code) hwithin
  · rw [hslot]
    exact ⟨y, List.mem_append_right _ hy, hwithin⟩
  · rw [hslot]
    exact ⟨z, List.mem_append_right _ hz, hwithin'⟩

/-- The page of a new magazine does not overlap the trampoline of any slot there was before. -/
theorem Made.page_apart (hm : Made libs m list code) (halloc : Allocates s.allocated libs.regions)
    {i k : ℕ} (hi : i < (libs.nclosures unix64Build).toNat) (h : x.SlotReady s k) :
    (⟨code + i * 56, sizeofFfiClosure64⟩ : Stretch).Apart
      ⟨(s.slotAt k).codeAddress, sizeofFfiClosure64⟩ := by
  obtain ⟨y, hy, hwithin⟩ := h.codeAllocated
  rw [hm.regions_eq] at halloc
  have hpage := halloc.2 _ (List.mem_cons_of_mem _ List.mem_cons_self)
  exact (hpage.2.2 y hy).within (within_page hi code) hwithin

/-- **A new magazine** has native closures for its slots, and does not touch the others. -/
theorem Made.ready_addMagazine (hm : Made libs m list code)
    (halloc : Allocates s.allocated libs.regions) (h : x.Ready s) :
    x.Ready (x.addMagazine libs m s) := by
  have hcases : ∀ k < (x.addMagazine libs m s).pool.slotCount, k < s.pool.slotCount ∨
      ∃ i < (libs.nclosures unix64Build).toNat, k = s.pool.slotCount + i := by
    intro k hk
    rw [hm.slotCount_addMagazine] at hk
    rcases Nat.lt_or_ge k s.pool.slotCount with hlt | hge
    · exact .inl hlt
    · exact .inr ⟨k - s.pool.slotCount, by omega, by omega⟩
  refine ⟨fun k hk => ?_, fun k hk k' hk' hne => ?_, fun y hy => ?_⟩
  · rcases hcases k hk with hold | ⟨i, hi, rfl⟩
    · exact hm.slotReady_old halloc hold (h.slot k hold)
    · exact hm.slotReady_new hi
  · rcases hcases k hk with hold | ⟨i, hi, rfl⟩ <;> rcases hcases k' hk' with hold' | ⟨j, hj, rfl⟩
    · rw [slotAt_addMagazine_of_lt hold, slotAt_addMagazine_of_lt hold']
      exact h.apart k hold k' hold' hne
    · rw [slotAt_addMagazine_of_lt hold, hm.slotAt_addMagazine hj]
      exact (hm.page_apart halloc hj (h.slot k hold)).symm
    · rw [slotAt_addMagazine_of_lt hold', hm.slotAt_addMagazine hi]
      exact hm.page_apart halloc hi (h.slot k' hold')
    · rw [hm.slotAt_addMagazine hi, hm.slotAt_addMagazine hj]
      have hij : i ≠ j := fun heq => hne (congrArg _ heq)
      rcases Nat.lt_or_gt_of_ne hij with hlt | hlt
      · exact .inl (by change code + i * 56 + 56 ≤ code + j * 56; omega)
      · exact .inr (by change code + j * 56 + 56 ≤ code + i * 56; omega)
  · rcases List.mem_append.mp hy with hnew | hold
    · exact (halloc.2 y hnew).2.1
    · exact h.bounded y hold

end Add

/-! ### Steps -/

section Step

variable {x : PoolContext} {s s' : NativePool C}

/-- The addresses of the handles there are do not change. -/
structure Keeps (s s' : NativePool C) : Prop where
  count : s.pool.handleCount ≤ s'.pool.handleCount
  codeAddress : ∀ h < s.pool.handleCount, s'.codeAddress h = s.codeAddress h

theorem Keeps.refl (s : NativePool C) : Keeps s s := ⟨Nat.le_refl _, fun _ _ => rfl⟩

theorem Keeps.trans {s'' : NativePool C} (h : Keeps s s') (h' : Keeps s' s'') : Keeps s s'' :=
  ⟨h.count.trans h'.count, fun k hk =>
    (h'.codeAddress k (Nat.lt_of_lt_of_le hk h.count)).trans (h.codeAddress k hk)⟩

theorem keeps_withPool {p : Pool C} (h : SameSlots s.pool p) : Keeps s { s with pool := p } :=
  ⟨h.handleCount, fun k hk => by
    change (s.slotAt (p.handleAt k).slot).codeAddress = _
    rw [h.slot k hk]
    rfl⟩

/-- The slot of a handle that exists is one of those the pool has. -/
theorem slot_lt {p : Pool C} (hL : Pool.Layout p) {h : ℕ} (hh : h < p.handleCount) :
    (p.handleAt h).slot < p.slotCount := by
  obtain ⟨hholder, hslot⟩ := hL.handle h hh
  exact hL.slot_lt _ (hL.holder_lt _ hholder) _ hslot

theorem Inv.withPool (hI : x.Inv s) {p : Pool C} (hL : Pool.Layout p) (hO : Pool.Ownership p)
    (h : SameSlots s.pool p) : x.Inv { s with pool := p } :=
  ⟨hL, hO, hI.ready.withPool h.slotCount⟩

/-- Making a magazine and putting its slots into the pool keeps the invariant, and every slot that
was ready keeps its address. -/
theorem inv_addMagazine (hI : x.Inv s) {libs : MagazineLibs}
    (hnew : x.newMagazine libs s = some (some s')) :
    x.Inv (useMagazine s.pool.magazineCount s') ∧
      Keeps s (useMagazine s.pool.magazineCount s') := by
  obtain ⟨result, hcall, hresult⟩ := Option.bind_eq_some_iff.mp hnew
  cases hhandle : result.handle with
  | none =>
    rw [hhandle] at hresult
    cases hresult
  | some m =>
    rw [hhandle] at hresult
    obtain ⟨halloc, heq⟩ := Option.ite_none_right_eq_some.mp hresult
    cases heq
    obtain ⟨list, code, hm⟩ := made_of_newClosureMagazine hcall hhandle
    have hm : Made libs m list code := ⟨hm.regions_eq, hm.nextclosure_eq, hm.length_eq,
      hm.closures_eq⟩
    set size := (takeClosures (m.closures.length + 1) s.pool.slotCount m).length with hsize
    have hsame := sameSlots_useMagazine s.pool.magazineCount (s.pool.newMagazine size)
    constructor
    · obtain ⟨hL, hO⟩ := hI.ownership.useNewMagazine hI.layout size
      refine ⟨?_, hO.withMagazines _ _ _ _ _ _, ?_⟩
      · exact hL.congr rfl (fun _ _ => ⟨rfl, rfl⟩) rfl rfl rfl (fun _ => rfl) rfl rfl
      · exact (hm.ready_addMagazine halloc hI.ready).withPool hsame.slotCount
    · refine ⟨hsame.handleCount, fun h hh => ?_⟩
      change ((x.addMagazine libs m s).slotAt _).codeAddress = (s.slotAt _).codeAddress
      have hslot := hsame.slot h hh
      change ((useMagazine s.pool.magazineCount (x.addMagazine libs m s)).pool.handleAt h).slot =
        (s.pool.handleAt h).slot at hslot
      rw [hslot, slotAt_addMagazine_of_lt (slot_lt hI.layout hh)]

/-- Taking a handle from the pool and issuing it keeps the invariant. -/
theorem inv_issue (hI : x.Inv s) {h : ℕ} {p : Pool C} (hpoll : s.pool.poll = some (h, p))
    (closure : C) : x.Inv { s with pool := p.issue closure h } ∧
      Keeps s { s with pool := p.issue closure h } := by
  have hsame := (sameSlots_poll hpoll).trans (sameSlots_issue closure h p)
  have hL := (Pool.layout_of_poll hI.layout hpoll).issue closure h
  exact ⟨hI.withPool hL (hI.ownership.issue hpoll closure) hsame, keeps_withPool hsame⟩

/-- The magazines that `allocateNewHandle` makes, until there is a handle or it throws. -/
theorem inv_allocateNewHandle {libs : List MagazineLibs} (hI : x.Inv s) {h : Option ℕ}
    (hnew : x.allocateNewHandle libs s = some (h, s')) :
    ∃ s₁, x.Inv s₁ ∧ Keeps s s₁ ∧
      ((h = none ∧ s' = s₁) ∨
        ∃ k p, h = some k ∧ s₁.pool.poll = some (k, p) ∧ s' = { s₁ with pool := p }) := by
  induction libs generalizing s with
  | nil =>
    obtain ⟨r, hpoll, heq⟩ := Option.map_eq_some_iff.mp hnew
    cases heq
    exact ⟨s, hI, .refl s, .inr ⟨r.1, r.2, rfl, hpoll, rfl⟩⟩
  | cons l libs ih =>
    rw [allocateNewHandle] at hnew
    cases hpoll : s.pool.poll with
    | some r =>
      rw [hpoll] at hnew
      cases hnew
      exact ⟨s, hI, .refl s, .inr ⟨r.1, r.2, rfl, hpoll, rfl⟩⟩
    | none =>
      rw [hpoll] at hnew
      cases hmagazine : x.newMagazine l s with
      | none =>
        rw [hmagazine] at hnew
        cases hnew
      | some made =>
        rw [hmagazine] at hnew
        cases made with
        | none =>
          -- it throws
          cases hnew
          exact ⟨_, hI, .refl _, .inl ⟨rfl, rfl⟩⟩
        | some s₂ =>
          obtain ⟨hI₂, hkeeps⟩ := inv_addMagazine hI hmagazine
          obtain ⟨s₁, hI₁, hkeeps', hend⟩ := ih hI₂ hnew
          exact ⟨s₁, hI₁, hkeeps.trans hkeeps', hend⟩

/-- `newClosureHandle` keeps the invariant, whether it takes a handle, recycles magazines or makes
new ones. -/
theorem inv_newClosureHandle (hI : x.Inv s) {closure : C} {libs : List MagazineLibs}
    (hnew : x.newClosureHandle closure libs s = some s') : x.Inv s' ∧ Keeps s s' := by
  rw [newClosureHandle] at hnew
  cases hpoll : s.pool.poll with
  | some r =>
    rw [hpoll] at hnew
    cases hnew
    exact inv_issue hI hpoll closure
  | none =>
    rw [hpoll] at hnew
    obtain ⟨⟨h, s₂⟩, halloc, rfl⟩ := Option.map_eq_some_iff.mp hnew
    obtain ⟨s₁, hI₁, hkeeps, ⟨rfl, rfl⟩ | ⟨k, p, rfl, hpoll', rfl⟩⟩ :=
      inv_allocateNewHandle hI halloc
    · exact ⟨hI₁, hkeeps⟩
    · obtain ⟨hI', hkeeps'⟩ := inv_issue hI₁ hpoll' closure
      exact ⟨hI', hkeeps.trans hkeeps'⟩

/-- A step of the pool that keeps the slots needs no native memory, and keeps the invariant. -/
theorem inv_poolStep (hI : x.Inv s) {a : Pool.Act C} (hstep : poolStep a s = some s')
    (hsame : ∀ p, Pool.step a s.pool = some p → SameSlots s.pool p) : x.Inv s' ∧ Keeps s s' := by
  obtain ⟨p, hp, rfl⟩ := Option.map_eq_some_iff.mp hstep
  obtain ⟨hL, hO⟩ := Pool.Ownership.step ⟨hI.layout, hI.ownership⟩ hp
  exact ⟨hI.withPool hL hO (hsame p hp), keeps_withPool (hsame p hp)⟩

/-- **Every step** keeps the invariant, and the addresses and closures of the slots there are. -/
theorem Inv.step (hI : x.Inv s) {a : Act C} (hstep : x.step a s = some s') :
    x.Inv s' ∧ Keeps s s' := by
  cases a with
  | newClosureHandle closure libs => exact inv_newClosureHandle hI hstep
  | dispose h =>
    refine inv_poolStep hI hstep fun p hp => ?_
    obtain ⟨-, heq⟩ := Option.ite_none_right_eq_some.mp hp
    cases heq
    exact sameSlots_dispose h _
  | setAutoRelease h autorelease =>
    refine inv_poolStep hI hstep fun p hp => ?_
    obtain ⟨-, heq⟩ := Option.ite_none_right_eq_some.mp hp
    cases heq
    exact sameSlots_setAutoRelease h autorelease _
  | drop h =>
    refine inv_poolStep hI hstep fun p hp => ?_
    cases hp
    exact .of_handles rfl rfl fun _ => rfl
  | collect holder =>
    refine inv_poolStep hI hstep fun p hp => ?_
    obtain ⟨-, heq⟩ := Option.ite_none_right_eq_some.mp hp
    cases heq
    refine SameSlots.trans ?_ (sameSlots_recycleMagazine _ _)
    exact .of_handles rfl rfl fun _ => rfl

end Step

/-! ### Runs -/

section Runs

variable {x : PoolContext} {s s' : NativePool C} {acts acts' : List (Act C)}

theorem inv_initial (x : PoolContext) (memory : ℕ → Byte) :
    x.Inv (NativePool.initial memory : NativePool C) := by
  obtain ⟨hL, hO⟩ := Pool.ownership_initial (C := C)
  exact ⟨hL, hO, by rintro k ⟨⟩, by rintro k ⟨⟩, by rintro y ⟨⟩⟩

theorem keeps_of_runs (hI : x.Inv s) (hruns : runs x.step acts s = some s') :
    x.Inv s' ∧ Keeps s s' :=
  runs_invariant (I := fun s' => x.Inv s' ∧ Keeps s s')
    (fun _ _ _ h hstep => (h.1.step hstep).imp_right h.2.trans) ⟨hI, .refl s⟩ hruns

/-- What native code may rely on, that a live closure's address leads to the closure that was issued
for it, follows from the invariant. -/
theorem Inv.reached (hI : x.Inv s) : x.Reached s := by
  obtain ⟨hL, hO, hready⟩ := hI
  have hcall {h : ℕ} (hh : h < s.pool.handleCount) (r10 : ℕ) :
      x.call s (s.codeAddress h) r10 = some (s.pool.slots (s.pool.handleAt h).slot).closure :=
    hready.call_eq (slot_lt hL hh) r10
  have hheld {h : ℕ} (hh : h ∈ s.pool.held) : h < s.pool.handleCount :=
    hO.handle_lt h (.inl (Pool.reachable_of_held hh))
  have hlive {h : ℕ} (hdisposed : (s.pool.handleAt h).disposed = false) :
      s.getAddress h = some (s.codeAddress h) := by
    rw [NativePool.getAddress, hdisposed]
    rfl
  refine ⟨fun h hh hdisposed => ?_, fun h hi hdisposed hoff => ?_, fun h hlast hdisposed r10 => ?_,
    fun h hh h' hh' hdisposed hdisposed' haddress => ?_⟩
  · obtain ⟨-, c, hclosure, hslot⟩ := hO.live h hh hdisposed
    refine ⟨_, c, hlive hdisposed, hclosure, fun r10 => ?_⟩
    rw [hcall (hheld hh), hslot]
  · obtain ⟨-, ⟨c, hclosure, hslot⟩, -⟩ := hO.permanent h hi hdisposed hoff
    refine ⟨c, hclosure, fun r10 => ?_⟩
    rw [hcall (hO.handle_lt h (.inr hi)), hslot]
  · rw [hcall (hO.handle_lt h (.inr (Pool.lastIssued_eq_some hlast).1)),
      hO.disposed h hlast hdisposed]
  · rw [hlive hdisposed, hlive hdisposed', Option.some.injEq] at haddress
    by_contra hne
    have hslot : (s.pool.handleAt h).slot ≠ (s.pool.handleAt h').slot := fun heq =>
      hne (hO.unique h h' ⟨Pool.reachable_of_held hh, hdisposed⟩
        ⟨Pool.reachable_of_held hh', hdisposed'⟩ heq)
    have hsize : 0 < sizeofFfiClosure64 := by decide
    exact (hready.apart _ (slot_lt hL (hheld hh)) _ (slot_lt hL (hheld hh')) hslot).start_ne hsize
      hsize haddress

/-- **The addresses lead to their closures**, after every run; and the address of a handle stays
what it is. -/
theorem reached_of_runs {memory : ℕ → Byte}
    (h : runs x.step acts (NativePool.initial memory) = some s)
    (h' : runs x.step acts' s = some s') :
    x.Reached s' ∧ ∀ k ∈ s.pool.issued, s'.codeAddress k = s.codeAddress k := by
  obtain ⟨hI, -⟩ := keeps_of_runs (inv_initial x memory) h
  obtain ⟨hI', hkeeps⟩ := keeps_of_runs hI h'
  exact ⟨hI'.reached, fun k hk => hkeeps.codeAddress k (hI.ownership.handle_lt k (.inr hk))⟩

end Runs

/-- A pool of functions with a `double`. -/
def doublePool : PoolContext where
  sym := ⟨0x7000, 0x7100, 0x7200⟩
  ctx := ⟨⟨.defaultAbi, none, [.double], .void⟩, 8, [0], 0, none⟩
  cif := 0x6000
  flags := UNIX64_RET_VOID ||| UNIX64_FLAG_XMM_ARGS
  method := 7
  entry_ne := by decide

/-- Room for a magazine of two closures, from `address` on. -/
def twoClosures (address : ℕ) : MagazineLibs where
  callocMagazine := some address
  callocClosures := some (address + 0x100)
  pageSize := 128
  allocatePages := some (address + 0x1000)
  makePagesExecutable := true
  ffiClosureAlloc := none
  ffiPrepClosureLoc _ _ := .other
  fromReflectedMethod method := .ok method
  getJavaVM := 0
  errno := 0
  strerror _ := "Success"

/-- Three closures, in two magazines. -/
def threeClosures : List (Act ℕ) :=
  [.newClosureHandle 7 [twoClosures 0x10000], .newClosureHandle 8 [],
    .newClosureHandle 9 [twoClosures 0x20000]]

/-- A closure is disposed of, and its slot used again. -/
def reusedClosure : List (Act ℕ) := [.dispose 1, .newClosureHandle 10 []]

theorem reached_reusedClosure :
    ∃ s s' : NativePool ℕ, runs doublePool.step threeClosures (NativePool.initial fun _ => 0) =
        some s ∧ runs doublePool.step reusedClosure s = some s' ∧ s.pool.issued = [2, 1, 0] ∧
      doublePool.Reached s' ∧ ∀ k ∈ s.pool.issued, s'.codeAddress k = s.codeAddress k := by
  have hissued : (runs doublePool.step threeClosures (NativePool.initial fun _ => 0)).map
      (fun s => (s.pool.issued, (runs doublePool.step reusedClosure s).isSome)) =
        some ([2, 1, 0], true) := by decide
  obtain ⟨s, hs, hpair⟩ := Option.map_eq_some_iff.mp hissued
  obtain ⟨hlist, hsome⟩ := Prod.mk.injEq .. ▸ hpair
  obtain ⟨s', hs'⟩ := Option.isSome_iff_exists.mp hsome
  exact ⟨s, s', hs, hs', hlist, reached_of_runs hs hs'⟩

/-- The slot that was used again runs its new closure. -/
example : ((runs doublePool.step (threeClosures ++ reusedClosure)
    (NativePool.initial fun _ => 0)).bind fun s => doublePool.call s 0x11038 0) =
      some (some 10) := by
  decide +kernel

end PoolContext

end Jffi
