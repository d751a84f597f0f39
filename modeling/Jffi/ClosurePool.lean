import Jffi.Lib.Runs
import Mathlib.Data.List.Nodup
import Mathlib.Logic.Function.Basic

/-!
# The closure pool

A `ClosurePool` allocates native closures a magazine at a time. The handles of a magazine wait in
one of two queues; a handle that is disposed of is put back, as a new one, and the handles that were
dropped come back together, when the holder they share has been collected. A slot with `autorelease`
switched off does not come back that way.

Slots, magazines, holders and handles are numbered in the order they were made. Which handles the
program holds, and when a holder is collected, is part of a run.

## Main definitions

* `PoolSlot`, `PoolMagazine`, `PoolHandle` — `Magazine.Slot`, `Magazine` and `Handle`
* `PoolMagazine.get`, `PoolMagazine.takeAll`, `PoolMagazine.recycle`
* `Pool` — the pool, with everything it refers to
* `Pool.newClosureHandle`, `Pool.dispose`, `Pool.setAutoRelease`, `Pool.recycleMagazine`
* `Pool.Act`, `Pool.step` — what the program and the collector do

## Main results

* `PoolMagazine.takeAll_eq` — the slots that are taken from a magazine
* `PoolMagazine.recycle_eq` — what becomes of the slots and of the counter
-/

namespace Jffi

variable {C : Type}

/-- The class `Magazine.Slot`, with the closure of its proxy; `none` is `NULL_CLOSURE`. -/
structure PoolSlot (C : Type) where
  autorelease : Bool
  closure : Option C

/-- The class `ClosurePool.Magazine`. -/
structure PoolMagazine where
  slots : List ℕ
  next : ℕ
  freeCount : ℕ
  deriving DecidableEq, Repr

/-- The class `ClosurePool.Handle`, and what happened to it. -/
structure PoolHandle (C : Type) where
  slot : ℕ
  holder : ℕ
  disposed : Bool
  /-- The closure that `newClosureHandle` returned it for. -/
  closure : Option C
  /-- What `setAutoRelease` was last called with. -/
  autorelease : Option Bool

/-! ### Magazines -/

namespace PoolMagazine

/-- The loop of `get`, for as many rounds as there are slots left. -/
def getLoop (slots : ℕ → PoolSlot C) : ℕ → PoolMagazine → Option ℕ × PoolMagazine
  | 0, m => (none, m)
  | rounds + 1, m =>
    if 0 < m.freeCount then
      match m.slots[m.next]? with
      | some s =>
        let m := { m with next := m.next + 1 }
        if (slots s).autorelease then (some s, { m with freeCount := m.freeCount - 1 })
        else getLoop slots rounds m
      | none => (none, m)
    else (none, m)

def get (slots : ℕ → PoolSlot C) (m : PoolMagazine) : Option ℕ × PoolMagazine :=
  getLoop slots (m.slots.length - m.next) m

def isFull (m : PoolMagazine) : Bool := m.slots.length == m.freeCount

def isEmpty (m : PoolMagazine) : Bool := m.freeCount < 1

/-- The loop of `useMagazine`, which calls `get` until there is nothing left. -/
def takeLoop (slots : ℕ → PoolSlot C) : ℕ → PoolMagazine → List ℕ × PoolMagazine
  | 0, m => ([], m)
  | rounds + 1, m =>
    match m.get slots with
    | (none, m) => ([], m)
    | (some s, m) => ((s :: (takeLoop slots rounds m).1), (takeLoop slots rounds m).2)

def takeAll (slots : ℕ → PoolSlot C) (m : PoolMagazine) : List ℕ × PoolMagazine :=
  takeLoop slots (m.slots.length - m.next + 1) m

/-- One round of the loop of `recycle`. -/
def recycleSlot (r : (ℕ → PoolSlot C) × ℕ) (s : ℕ) : (ℕ → PoolSlot C) × ℕ :=
  if (r.1 s).autorelease then
    (Function.update r.1 s { r.1 s with closure := none }, r.2 + 1)
  else r

def recycle (slots : ℕ → PoolSlot C) (m : PoolMagazine) : (ℕ → PoolSlot C) × PoolMagazine :=
  let (slots, freeCount) := m.slots.foldl recycleSlot (slots, m.freeCount)
  (slots, { m with freeCount := freeCount, next := 0 })

end PoolMagazine

/-! ### The pool -/

/-- A `ClosurePool`, with the objects that belong to it. -/
structure Pool (C : Type) where
  slots : ℕ → PoolSlot C
  slotCount : ℕ
  magazineAt : ℕ → PoolMagazine
  magazineCount : ℕ
  /-- The field `magazines`. -/
  magazines : List ℕ
  /-- The magazine of a `MagazineHolder`. -/
  holderAt : ℕ → ℕ
  holderCount : ℕ
  /-- The holders that have been collected. -/
  collected : List ℕ
  handleAt : ℕ → PoolHandle C
  handleCount : ℕ
  freeQueue : List ℕ
  partialQueue : List ℕ
  /-- The handles that the program holds. -/
  held : List ℕ
  /-- The handles that `newClosureHandle` has returned, the last one first. -/
  issued : List ℕ

namespace Pool

def initial : Pool C where
  slots _ := ⟨true, none⟩
  slotCount := 0
  magazineAt _ := ⟨[], 0, 0⟩
  magazineCount := 0
  magazines := []
  holderAt _ := 0
  holderCount := 0
  collected := []
  handleAt _ := ⟨0, 0, false, none, none⟩
  handleCount := 0
  freeQueue := []
  partialQueue := []
  held := []
  issued := []

/-- A new handle, at the end of a queue. -/
def addHandle (full : Bool) (holder : ℕ) (p : Pool C) (slot : ℕ) : Pool C :=
  { p with
    handleAt := Function.update p.handleAt p.handleCount ⟨slot, holder, false, none, none⟩
    handleCount := p.handleCount + 1
    freeQueue := if full then p.freeQueue ++ [p.handleCount] else p.freeQueue
    partialQueue := if full then p.partialQueue else p.partialQueue ++ [p.handleCount] }

/-- `recycle` for a slot. -/
def recycleSlot (slot holder : ℕ) (p : Pool C) : Pool C := p.addHandle false holder slot

/-- `useMagazine`. -/
def useMagazine (m : ℕ) (p : Pool C) : Pool C :=
  let magazine := p.magazineAt m
  let (taken, magazine') := magazine.takeAll p.slots
  taken.foldl (addHandle magazine.isFull p.holderCount)
    { p with
      magazineAt := Function.update p.magazineAt m magazine'
      holderAt := Function.update p.holderAt p.holderCount m
      holderCount := p.holderCount + 1 }

/-- `recycle` for a magazine. -/
def recycleMagazine (m : ℕ) (p : Pool C) : Pool C :=
  let (slots, magazine) := (p.magazineAt m).recycle p.slots
  let p := { p with
    slots := slots
    magazineAt := Function.update p.magazineAt m magazine }
  if !magazine.isEmpty then p.useMagazine m
  else { p with magazines := p.magazines.erase m }

/-- `new Magazine`, when native code has as many closures. -/
def newMagazine (size : ℕ) (p : Pool C) : Pool C :=
  { p with
    slots := fun s => if p.slotCount ≤ s ∧ s < p.slotCount + size then ⟨true, none⟩ else p.slots s
    slotCount := p.slotCount + size
    magazineAt := Function.update p.magazineAt p.magazineCount
      ⟨List.range' p.slotCount size, 0, size⟩
    magazineCount := p.magazineCount + 1 }

/-- The next handle of `partialQueue`, or else of `freeQueue`. -/
def poll (p : Pool C) : Option (ℕ × Pool C) :=
  match p.partialQueue with
  | h :: queue => some (h, { p with partialQueue := queue })
  | [] =>
    match p.freeQueue with
    | h :: queue => some (h, { p with freeQueue := queue })
    | [] => none

/-- `allocateNewHandle`, with the sizes of the magazines that it makes; it goes on when there are
not enough of them. -/
def allocateNewHandle : List ℕ → Pool C → Option (ℕ × Pool C)
  | [], p => p.poll
  | size :: sizes, p =>
    match p.poll with
    | some r => some r
    | none =>
      let m := p.magazineCount
      let p := (p.newMagazine size).useMagazine m
      allocateNewHandle sizes { p with magazines := m :: p.magazines }

/-- The handle is returned to the program. -/
def issue (closure : C) (h : ℕ) (p : Pool C) : Pool C :=
  let handle := p.handleAt h
  { p with
    slots := Function.update p.slots handle.slot
      { p.slots handle.slot with closure := some closure }
    handleAt := Function.update p.handleAt h { handle with closure := some closure }
    held := h :: p.held
    issued := h :: p.issued }

/-- `newClosureHandle`. -/
def newClosureHandle (closure : C) (sizes : List ℕ) (p : Pool C) : Option (Pool C) :=
  match p.poll with
  | some (h, p) => some (p.issue closure h)
  | none => (p.allocateNewHandle sizes).map fun (h, p) => p.issue closure h

/-- `Handle.dispose`. -/
def dispose (h : ℕ) (p : Pool C) : Pool C :=
  let handle := p.handleAt h
  if handle.disposed then p
  else
    recycleSlot handle.slot handle.holder { p with
      handleAt := Function.update p.handleAt h { handle with disposed := true }
      slots := Function.update p.slots handle.slot ⟨true, none⟩ }

/-- `Handle.setAutoRelease`. -/
def setAutoRelease (h : ℕ) (autorelease : Bool) (p : Pool C) : Pool C :=
  let handle := p.handleAt h
  if handle.disposed then p
  else { p with
    handleAt := Function.update p.handleAt h { handle with autorelease := some autorelease }
    slots := Function.update p.slots handle.slot
      { p.slots handle.slot with autorelease := autorelease } }

/-- What the program and the collector may do. -/
inductive Act (C : Type)
  | newClosureHandle (closure : C) (sizes : List ℕ)
  | dispose (h : ℕ)
  | setAutoRelease (h : ℕ) (autorelease : Bool)
  | drop (h : ℕ)
  /-- The holder has been collected, and its cleanup action runs. -/
  | collect (holder : ℕ)

/-- A handle that is in a queue, or that the program holds. -/
def Reachable (p : Pool C) (h : ℕ) : Prop := h ∈ p.freeQueue ∨ h ∈ p.partialQueue ∨ h ∈ p.held

instance (p : Pool C) (h : ℕ) : Decidable (p.Reachable h) := by
  unfold Reachable; infer_instance

/-- No handle that anyone can get at refers to the holder. -/
def Unreferenced (p : Pool C) (holder : ℕ) : Prop :=
  ∀ h ∈ p.freeQueue ++ p.partialQueue ++ p.held, (p.handleAt h).holder ≠ holder

instance (p : Pool C) (holder : ℕ) : Decidable (p.Unreferenced holder) := by
  unfold Unreferenced; infer_instance

def step (a : Act C) (p : Pool C) : Option (Pool C) :=
  match a with
  | .newClosureHandle closure sizes => p.newClosureHandle closure sizes
  | .dispose h => if h ∈ p.held then some (p.dispose h) else none
  | .setAutoRelease h autorelease =>
    if h ∈ p.held then some (p.setAutoRelease h autorelease) else none
  | .drop h => some { p with held := p.held.erase h }
  | .collect holder =>
    if holder < p.holderCount ∧ holder ∉ p.collected ∧ p.Unreferenced holder then
      some ({ p with collected := holder :: p.collected }.recycleMagazine (p.holderAt holder))
    else none

end Pool

/-! ### What is taken from a magazine -/

namespace PoolMagazine

variable (slots : ℕ → PoolSlot C) (m : PoolMagazine)

/-- The slots that `get` has not come to yet, and does not pass over. -/
def free : List ℕ := (m.slots.drop m.next).filter fun s => (slots s).autorelease

variable {slots m}

theorem free_of_autorelease {s : ℕ} (hs : m.slots[m.next]? = some s)
    (hauto : (slots s).autorelease = true) (freeCount : ℕ) :
    m.free slots = s :: ({ m with next := m.next + 1, freeCount := freeCount }).free slots := by
  obtain ⟨hlt, rfl⟩ := List.getElem?_eq_some_iff.mp hs
  rw [free, List.drop_eq_getElem_cons hlt, List.filter_cons, if_pos hauto]
  rfl

theorem free_of_not_autorelease {s : ℕ} (hs : m.slots[m.next]? = some s)
    (hauto : ¬(slots s).autorelease = true) :
    m.free slots = ({ m with next := m.next + 1 }).free slots := by
  obtain ⟨hlt, rfl⟩ := List.getElem?_eq_some_iff.mp hs
  rw [free, List.drop_eq_getElem_cons hlt, List.filter_cons, if_neg hauto]
  rfl

theorem free_of_none (hs : m.slots[m.next]? = none) : m.free slots = [] := by
  rw [free, List.drop_eq_nil_of_le (List.getElem?_eq_none_iff.mp hs)]
  rfl

/-- **`get`** returns the next slot, unless it has counted them all or come to the end. -/
theorem getLoop_spec {rounds : ℕ} (hrounds : m.slots.length - m.next ≤ rounds) :
    (∃ s, ∃ m' : PoolMagazine, getLoop slots rounds m = (some s, m') ∧ m'.slots = m.slots ∧
      m.next < m'.next ∧ m.freeCount = m'.freeCount + 1 ∧ m.free slots = s :: m'.free slots) ∨
    ∃ m' : PoolMagazine, getLoop slots rounds m = (none, m') ∧ m'.slots = m.slots ∧
      m'.freeCount = m.freeCount ∧ (m.freeCount = 0 ∨ m.free slots = []) := by
  induction rounds generalizing m with
  | zero =>
    exact .inr ⟨m, rfl, rfl, rfl, .inr (free_of_none (List.getElem?_eq_none_iff.mpr (by omega)))⟩
  | succ rounds ih =>
    rw [getLoop]
    split
    case isFalse hcount => exact .inr ⟨m, rfl, rfl, rfl, .inl (by omega)⟩
    case isTrue hcount =>
      cases hs : m.slots[m.next]? with
      | none => exact .inr ⟨m, rfl, rfl, rfl, .inr (free_of_none hs)⟩
      | some s =>
        have hlt : m.next < m.slots.length := (List.getElem?_eq_some_iff.mp hs).1
        dsimp only
        by_cases hauto : (slots s).autorelease = true
        · rw [if_pos hauto]
          exact .inl ⟨s, _, rfl, rfl, Nat.lt_succ_self _, by dsimp only; omega,
            free_of_autorelease hs hauto _⟩
        · rw [if_neg hauto, free_of_not_autorelease hs hauto]
          have hrest := @ih { m with next := m.next + 1 } (by dsimp only; omega)
          rcases hrest with ⟨s', m', hget, hslots, hnext, hrest⟩ | hnone
          · exact .inl ⟨s', m', hget, hslots, Nat.lt_trans (Nat.lt_succ_self _) hnext, hrest⟩
          · exact .inr hnone

/-- The slots that are taken, and what is left to count. -/
theorem takeLoop_spec {rounds : ℕ} (hrounds : m.slots.length - m.next < rounds) :
    (takeLoop slots rounds m).1 = (m.free slots).take m.freeCount ∧
      (takeLoop slots rounds m).2.slots = m.slots ∧
      (takeLoop slots rounds m).2.freeCount = m.freeCount - (m.free slots).length := by
  induction rounds generalizing m with
  | zero => omega
  | succ rounds ih =>
    rw [takeLoop, get]
    rcases @getLoop_spec _ slots m _ (Nat.le_refl (m.slots.length - m.next)) with
      ⟨s, m', hget, hslots, hnext, hcount, hfree⟩ | ⟨m', hget, hslots, hcount, hend⟩
    · have hlt : m.next < m.slots.length := by
        by_contra hge
        rw [free_of_none (List.getElem?_eq_none_iff.mpr (by omega))] at hfree
        cases hfree
      obtain ⟨htaken, hslots', hcount'⟩ := @ih m' (by rw [hslots]; omega)
      rw [hget]
      dsimp only
      refine ⟨?_, hslots'.trans hslots, ?_⟩
      · rw [htaken, hfree, hcount, List.take_succ_cons]
      · rw [hcount', hfree, hcount, List.length_cons]
        omega
    · rw [hget]
      dsimp only
      refine ⟨?_, hslots, ?_⟩
      · rcases hend with hzero | hnil
        · rw [hzero, List.take_zero]
        · rw [hnil, List.take_nil]
      · rw [hcount]
        rcases hend with hzero | hnil
        · omega
        · rw [hnil]
          rfl

/-- Taking all slots of a magazine takes those that are free, in order and at most as many as the
counter says, and lowers the counter by the number of the free ones. -/
theorem takeAll_eq (slots : ℕ → PoolSlot C) (m : PoolMagazine) :
    (m.takeAll slots).1 = (m.free slots).take m.freeCount ∧ (m.takeAll slots).2.slots = m.slots ∧
      (m.takeAll slots).2.freeCount = m.freeCount - (m.free slots).length :=
  takeLoop_spec (Nat.lt_succ_self _)

theorem mem_takeAll {s : ℕ} (hs : s ∈ (m.takeAll slots).1) :
    s ∈ m.slots ∧ (slots s).autorelease = true := by
  rw [(takeAll_eq slots m).1] at hs
  obtain ⟨hmem, hauto⟩ := List.mem_filter.mp (List.mem_of_mem_take hs)
  exact ⟨List.mem_of_mem_drop hmem, hauto⟩

theorem nodup_takeAll (slots : ℕ → PoolSlot C) (h : m.slots.Nodup) : (m.takeAll slots).1.Nodup := by
  rw [(takeAll_eq slots m).1]
  exact ((h.sublist (List.drop_sublist _ _)).filter _).sublist (List.take_sublist _ _)

/-- The loop of `recycle` clears the slots that may be released, each once, and counts them. -/
theorem foldl_recycleSlot (l : List ℕ) (slots : ℕ → PoolSlot C) (count : ℕ) :
    (∀ s, (l.foldl recycleSlot (slots, count)).1 s =
      if s ∈ l ∧ (slots s).autorelease = true then { slots s with closure := none }
      else slots s) ∧
    (l.foldl recycleSlot (slots, count)).2 =
      count + l.countP fun s => (slots s).autorelease := by
  induction l generalizing slots count with
  | nil => simp
  | cons s l ih =>
    rw [List.foldl_cons, recycleSlot, List.countP_cons]
    by_cases hauto : (slots s).autorelease = true
    · rw [if_pos hauto, if_pos hauto]
      obtain ⟨hslots, hcount⟩ := ih (Function.update slots s { slots s with closure := none })
        (count + 1)
      have hsame : ∀ s', (Function.update slots s { slots s with closure := none } s').autorelease =
          (slots s').autorelease := by
        intro s'
        by_cases hs : s' = s
        · subst hs
          rw [Function.update_self]
        · rw [Function.update_of_ne hs]
      constructor
      · intro s'
        rw [hslots s', hsame]
        by_cases hs : s' = s
        · subst hs
          rw [Function.update_self]
          simp [hauto]
        · rw [Function.update_of_ne hs]
          simp [hs]
      · simp only [hcount, hsame]
        omega
    · rw [if_neg hauto, if_neg hauto]
      obtain ⟨hslots, hcount⟩ := ih slots count
      refine ⟨fun s' => ?_, hcount⟩
      rw [hslots s']
      by_cases hs : s' = s
      · subst hs
        simp [hauto]
      · simp [hs]

/-- `recycle` clears the slots of the magazine that may be released, leaves all others alone, and
sets the counter to their number. -/
theorem recycle_eq (slots : ℕ → PoolSlot C) (m : PoolMagazine) :
    (∀ s, (m.recycle slots).1 s =
      if s ∈ m.slots ∧ (slots s).autorelease = true then { slots s with closure := none }
      else slots s) ∧
    (m.recycle slots).2 = { m with
      next := 0
      freeCount := m.freeCount + m.slots.countP fun s => (slots s).autorelease } := by
  obtain ⟨hslots, hcount⟩ := foldl_recycleSlot m.slots slots m.freeCount
  refine ⟨hslots, ?_⟩
  rw [recycle]
  simp only [hcount]

end PoolMagazine

end Jffi
