import Jffi.SlotOwnership

/-!
# The counters of a magazine

A magazine of the closure pool counts the slots that `get` may still return. `recycle` adds to the
count instead of setting it, so that it has to be zero by then.

A loop that is cut off after some rounds shows the counter at that time.

## Main definitions

* `PoolMagazine.Exact` — the count is the number of slots that are left
* `Pool.Counters` — what recycling a magazine does

## Main results

* `PoolMagazine.Exact.takeLoop` — the count is right at any time while slots are taken
* `Pool.counters_of_runs` — a magazine can be recycled after every run, and `allocateNewHandle` ends
-/

namespace Jffi

variable {C : Type}

namespace PoolMagazine

variable {slots : ℕ → PoolSlot C} {m : PoolMagazine}

/-- The count is the number of slots that are left. -/
def Exact (slots : ℕ → PoolSlot C) (m : PoolMagazine) : Prop :=
  m.freeCount = (m.free slots).length

theorem Exact.freeCount_le (h : m.Exact slots) : m.freeCount ≤ m.slots.length := by
  rw [h]
  exact ((List.filter_sublist).trans (List.drop_sublist _ _)).length_le

/-- While `get` looks for a slot, the counter of free slots stays right and the slots stay the same.
-/
theorem Exact.getLoop (h : m.Exact slots) (rounds : ℕ) :
    (PoolMagazine.getLoop slots rounds m).2.Exact slots ∧
      (PoolMagazine.getLoop slots rounds m).2.slots = m.slots := by
  induction rounds generalizing m with
  | zero => exact ⟨h, rfl⟩
  | succ rounds ih =>
    rw [PoolMagazine.getLoop]
    split
    case isFalse => exact ⟨h, rfl⟩
    case isTrue hcount =>
      cases hs : m.slots[m.next]? with
      | none => exact ⟨h, rfl⟩
      | some s =>
        dsimp only
        by_cases hauto : (slots s).autorelease = true
        · rw [if_pos hauto]
          refine ⟨?_, rfl⟩
          rw [Exact, free_of_autorelease hs hauto (m.freeCount - 1), List.length_cons] at h
          exact Nat.sub_eq_of_eq_add h
        · rw [if_neg hauto]
          rw [Exact, free_of_not_autorelease hs hauto] at h
          exact ih h

/-- **The count is right** at any time while slots are taken. -/
theorem Exact.takeLoop (h : m.Exact slots) (rounds : ℕ) :
    (PoolMagazine.takeLoop slots rounds m).2.Exact slots ∧
      (PoolMagazine.takeLoop slots rounds m).2.slots = m.slots := by
  induction rounds generalizing m with
  | zero => exact ⟨h, rfl⟩
  | succ rounds ih =>
    obtain ⟨hexact, hslots⟩ := h.getLoop (m.slots.length - m.next)
    rw [PoolMagazine.takeLoop, get]
    split
    case h_1 m' hget =>
      rw [hget] at hexact hslots
      exact ⟨hexact, hslots⟩
    case h_2 s m' hget =>
      rw [hget] at hexact hslots
      obtain ⟨hexact', hslots'⟩ := ih hexact
      exact ⟨hexact', hslots'.trans hslots⟩

/-- When all the slots that are left are taken, they are those that were free, and the counter is at
zero. -/
theorem Exact.takeAll (h : m.Exact slots) :
    (m.takeAll slots).1 = m.free slots ∧ (m.takeAll slots).2.freeCount = 0 := by
  obtain ⟨htaken, -, hcount⟩ := takeAll_eq slots m
  rw [h, List.take_length] at htaken
  rw [h, Nat.sub_self] at hcount
  exact ⟨htaken, hcount⟩

/-- A magazine whose slots are all taken has the right count after it is recycled. -/
theorem exact_recycle (hcount : m.freeCount = 0) :
    (m.recycle slots).2.Exact (m.recycle slots).1 ∧
      (m.recycle slots).2.free (m.recycle slots).1 =
        m.slots.filter fun s => (slots s).autorelease := by
  obtain ⟨hslots, hmagazine⟩ := recycle_eq slots m
  have hauto : ∀ s, ((m.recycle slots).1 s).autorelease = (slots s).autorelease := by
    intro s
    rw [hslots s]
    split <;> rfl
  have hfree : (m.recycle slots).2.free (m.recycle slots).1 =
      m.slots.filter fun s => (slots s).autorelease := by
    rw [free, hmagazine]
    simp only [hauto, List.drop_zero]
  refine ⟨?_, hfree⟩
  rw [Exact, hfree, hmagazine, hcount, Nat.zero_add]
  exact List.countP_eq_length_filter

/-- While `recycle` runs, the counter never gets past the number of slots. -/
theorem foldl_recycleSlot_le (hcount : m.freeCount = 0) {l : List ℕ} (hl : l <+: m.slots) :
    (l.foldl recycleSlot (slots, m.freeCount)).2 ≤ m.slots.length := by
  rw [(foldl_recycleSlot l slots m.freeCount).2, hcount, Nat.zero_add]
  exact List.countP_le_length.trans hl.length_le

end PoolMagazine

namespace Pool

/-- What recycling a magazine does, when every slot has been taken from it. -/
structure Counters (p : Pool C) (m : ℕ) : Prop where
  freeCount : (p.magazineAt m).freeCount = 0
  /-- Each slot that is still released automatically is taken once, and no other. -/
  taken : ∀ slots magazine, (p.magazineAt m).recycle p.slots = (slots, magazine) →
    (magazine.takeAll slots).1 =
      (p.magazineAt m).slots.filter fun s => (p.slots s).autorelease
  nodup : (p.magazineAt m).slots.Nodup
  freeCount_taken : ∀ slots magazine, (p.magazineAt m).recycle p.slots = (slots, magazine) →
    (magazine.takeAll slots).2.freeCount = 0
  /-- After any number of rounds of `recycle`. -/
  recycling : ∀ l, l <+: (p.magazineAt m).slots →
    (l.foldl PoolMagazine.recycleSlot (p.slots, (p.magazineAt m).freeCount)).2 ≤
      (p.magazineAt m).slots.length
  /-- After any number of calls of `get`, and any number of rounds of the next one. -/
  taking : ∀ slots magazine, (p.magazineAt m).recycle p.slots = (slots, magazine) →
    ∀ calls rounds, ∀ magazine' : PoolMagazine,
      (PoolMagazine.getLoop slots rounds (PoolMagazine.takeLoop slots calls magazine).2).2 =
        magazine' →
      magazine'.freeCount = (magazine'.free slots).length ∧
        magazine'.freeCount ≤ (p.magazineAt m).slots.length
  isFull : ((p.magazineAt m).recycle p.slots).2.isFull = true ↔
    ∀ s ∈ (p.magazineAt m).slots, (p.slots s).autorelease = true
  isEmpty : ((p.magazineAt m).recycle p.slots).2.isEmpty = true ↔
    ∀ s ∈ (p.magazineAt m).slots, (p.slots s).autorelease = false

variable {p p' : Pool C}

/-- **What recycling does**, to a magazine whose slots are all taken. -/
theorem counters_of_freeCount {m : ℕ} (hcount : (p.magazineAt m).freeCount = 0)
    (hnodup : (p.magazineAt m).slots.Nodup) : Counters p m := by
  obtain ⟨hexact, hfree⟩ := @PoolMagazine.exact_recycle C p.slots _ hcount
  have hslots : ((p.magazineAt m).recycle p.slots).2.slots = (p.magazineAt m).slots := by
    rw [(PoolMagazine.recycle_eq p.slots (p.magazineAt m)).2]
  have hlength := hexact
  rw [PoolMagazine.Exact, hfree] at hlength
  refine ⟨hcount, fun slots magazine h => ?_, hnodup, fun slots magazine h => ?_,
    fun l hl => PoolMagazine.foldl_recycleSlot_le hcount hl,
    fun slots magazine h calls rounds magazine' h' => ?_, ?_, ?_⟩
  · rw [h] at hexact hfree
    exact hexact.takeAll.1.trans hfree
  · rw [h] at hexact
    exact hexact.takeAll.2
  · rw [h] at hexact hslots
    obtain ⟨hcalls, hslots₁⟩ := hexact.takeLoop calls
    obtain ⟨hrounds, hslots₂⟩ := hcalls.getLoop rounds
    rw [h'] at hrounds hslots₂
    refine ⟨hrounds, ?_⟩
    rw [← hslots, ← hslots₁, ← hslots₂]
    exact hrounds.freeCount_le
  · rw [PoolMagazine.isFull, beq_iff_eq, hslots, hlength, eq_comm, List.length_filter_eq_length_iff]
  · rw [PoolMagazine.isEmpty, decide_eq_true_iff, Nat.lt_one_iff, hlength, List.length_eq_zero_iff,
      List.filter_eq_nil_iff]
    simp only [Bool.not_eq_true]

/-! ### Runs -/

/-- Every slot has been taken from every magazine. -/
def AllTaken (p : Pool C) : Prop := ∀ m, (p.magazineAt m).freeCount = 0

theorem magazineAt_foldl_addHandle (full : Bool) (holder : ℕ) (l : List ℕ) (p : Pool C) :
    (l.foldl (addHandle full holder) p).magazineAt = p.magazineAt := by
  induction l generalizing p with
  | nil => rfl
  | cons s l ih => exact ih (p.addHandle full holder s)

theorem magazineAt_useMagazine (m : ℕ) (p : Pool C) :
    (p.useMagazine m).magazineAt =
      Function.update p.magazineAt m ((p.magazineAt m).takeAll p.slots).2 :=
  magazineAt_foldl_addHandle _ _ _ _

/-- When a magazine with the right counter is used and the others are all taken, all are taken again
afterwards. -/
theorem allTaken_useMagazine {m : ℕ} (hother : ∀ m' ≠ m, (p.magazineAt m').freeCount = 0)
    (hexact : (p.magazineAt m).Exact p.slots) : AllTaken (p.useMagazine m) := by
  intro m'
  rw [magazineAt_useMagazine]
  by_cases hm : m' = m
  · rw [hm, Function.update_self]
    exact hexact.takeAll.2
  · rw [Function.update_of_ne hm]
    exact hother m' hm

theorem allTaken_recycleMagazine (h : AllTaken p) (m : ℕ) : AllTaken (p.recycleMagazine m) := by
  obtain ⟨hexact, -⟩ := @PoolMagazine.exact_recycle C p.slots _ (h m)
  rw [recycleMagazine]
  dsimp only
  split
  · refine allTaken_useMagazine (fun m' hm => ?_) ?_
    · dsimp only
      rw [Function.update_of_ne hm]
      exact h m'
    · dsimp only
      rw [Function.update_self]
      exact hexact
  case isFalse hempty =>
    intro m'
    dsimp only
    by_cases hm : m' = m
    · rw [hm, Function.update_self]
      rw [Bool.not_eq_true', Bool.not_eq_false, PoolMagazine.isEmpty, decide_eq_true_iff] at hempty
      exact Nat.lt_one_iff.mp hempty
    · rw [Function.update_of_ne hm]
      exact h m'

/-- The counter of a new magazine is right: all its slots are free, and they are new ones. -/
theorem exact_newMagazine (size : ℕ) (p : Pool C) :
    ((p.newMagazine size).magazineAt p.magazineCount).Exact (p.newMagazine size).slots ∧
      ((p.newMagazine size).magazineAt p.magazineCount).free (p.newMagazine size).slots =
        List.range' p.slotCount size := by
  have hmagazine : (p.newMagazine size).magazineAt p.magazineCount =
      ⟨List.range' p.slotCount size, 0, size⟩ := Function.update_self ..
  have hfree : PoolMagazine.free (p.newMagazine size).slots
      ⟨List.range' p.slotCount size, 0, size⟩ = List.range' p.slotCount size := by
    rw [PoolMagazine.free, List.drop_zero, List.filter_eq_self]
    intro s hs
    exact congrArg PoolSlot.autorelease (if_pos (List.mem_range'_1.mp hs))
  rw [hmagazine, PoolMagazine.Exact, hfree, List.length_range']
  exact ⟨rfl, rfl⟩

theorem allTaken_useNewMagazine (h : AllTaken p) (size : ℕ) :
    AllTaken ((p.newMagazine size).useMagazine p.magazineCount) := by
  refine allTaken_useMagazine (fun m' hm => ?_) (exact_newMagazine size p).1
  exact (congrArg PoolMagazine.freeCount (Function.update_of_ne hm _ _)).trans (h m')

theorem magazineAt_of_poll {h : ℕ} (hpoll : p.poll = some (h, p')) :
    p'.magazineAt = p.magazineAt := by
  rw [(polled_of_poll hpoll).eq]

theorem allTaken_allocateNewHandle {sizes : List ℕ} {h : ℕ} (hp : AllTaken p)
    (hnew : p.allocateNewHandle sizes = some (h, p')) : AllTaken p' := by
  induction sizes generalizing p with
  | nil =>
    rw [AllTaken, magazineAt_of_poll hnew]
    exact hp
  | cons size sizes ih =>
    rw [allocateNewHandle] at hnew
    split at hnew
    case h_1 r hpoll =>
      cases hnew
      rw [AllTaken, magazineAt_of_poll hpoll]
      exact hp
    case h_2 =>
      refine ih ?_ hnew
      exact allTaken_useNewMagazine hp size

/-- Each step leaves all the slots of all the magazines taken, since a magazine that a step makes or
recycles is used in it. -/
theorem allTaken_of_step {a : Act C} (hp : AllTaken p) (ha : step a p = some p') : AllTaken p' := by
  cases a with
  | newClosureHandle closure sizes =>
    change Pool.newClosureHandle closure sizes p = some p' at ha
    rw [newClosureHandle] at ha
    split at ha
    case h_1 h q hpoll =>
      cases ha
      exact fun m => (congrArg PoolMagazine.freeCount (congrFun (magazineAt_of_poll hpoll) m)).trans
        (hp m)
    case h_2 =>
      obtain ⟨⟨h, q⟩, halloc, rfl⟩ := Option.map_eq_some_iff.mp ha
      have hq : AllTaken q := allTaken_allocateNewHandle hp halloc
      exact hq
  | dispose h =>
    obtain ⟨-, heq⟩ := Option.ite_none_right_eq_some.mp ha
    cases heq
    rw [dispose]
    split <;> exact hp
  | setAutoRelease h autorelease =>
    obtain ⟨-, heq⟩ := Option.ite_none_right_eq_some.mp ha
    cases heq
    rw [setAutoRelease]
    split <;> exact hp
  | drop h =>
    cases ha
    exact hp
  | collect holder =>
    obtain ⟨-, heq⟩ := Option.ite_none_right_eq_some.mp ha
    cases heq
    have hcollected : AllTaken { p with collected := holder :: p.collected } := hp
    exact allTaken_recycleMagazine hcollected _

/-! ### `allocateNewHandle` ends -/

theorem length_foldl_addHandle (full : Bool) (holder : ℕ) (l : List ℕ) (p : Pool C) :
    (l.foldl (addHandle full holder) p).freeQueue.length +
        (l.foldl (addHandle full holder) p).partialQueue.length =
      p.freeQueue.length + p.partialQueue.length + l.length := by
  induction l generalizing p with
  | nil => rfl
  | cons s l ih =>
    rw [List.foldl_cons, ih, List.length_cons]
    cases full with
    | true =>
      change (p.freeQueue ++ [p.handleCount]).length + p.partialQueue.length + _ = _
      rw [List.length_append, List.length_singleton]
      omega
    | false =>
      change p.freeQueue.length + (p.partialQueue ++ [p.handleCount]).length + _ = _
      rw [List.length_append, List.length_singleton]
      omega

theorem isSome_poll (h : 0 < p.freeQueue.length + p.partialQueue.length) : p.poll.isSome := by
  rw [poll]
  cases hqueue : p.partialQueue with
  | cons h queue => rfl
  | nil =>
    cases hfree : p.freeQueue with
    | cons h queue => rfl
    | nil =>
      rw [hqueue, hfree] at h
      exact absurd h (Nat.lt_irrefl 0)

/-- With a handle in a queue, no magazine is made, and `allocateNewHandle` ends at once. -/
theorem isSome_allocateNewHandle_of_poll (h : p.poll.isSome) (sizes : List ℕ) :
    (p.allocateNewHandle sizes).isSome := by
  cases sizes with
  | nil => exact h
  | cons size sizes =>
    obtain ⟨r, hr⟩ := Option.isSome_iff_exists.mp h
    rw [allocateNewHandle, hr]
    rfl

/-- `allocateNewHandle` ends with the first magazine that has a slot, since the loop finds a handle
then. -/
theorem isSome_allocateNewHandle {size : ℕ} (hsize : 0 < size) (sizes : List ℕ) (p : Pool C) :
    (p.allocateNewHandle (size :: sizes)).isSome := by
  obtain ⟨hexact, hfree⟩ := exact_newMagazine size p
  have htaken := hexact.takeAll.1
  rw [allocateNewHandle]
  split
  · rfl
  · refine isSome_allocateNewHandle_of_poll (isSome_poll ?_) sizes
    change 0 < (useMagazine p.magazineCount _).freeQueue.length +
      (useMagazine p.magazineCount _).partialQueue.length
    rw [useMagazine]
    dsimp only
    rw [length_foldl_addHandle, htaken, hfree, List.length_range']
    omega

/-- **A magazine can be recycled after every run**, with counters that are right all the time, and
`allocateNewHandle` ends if the magazine that it makes has a slot. -/
theorem counters_of_runs {acts : List (Act C)} (hruns : runs step acts initial = some p) :
    (∀ m < p.magazineCount, Counters p m) ∧
      ∀ size, 0 < size → ∀ sizes, (p.allocateNewHandle (size :: sizes)).isSome := by
  have hlayout : Layout p ∧ Ownership p :=
    runs_invariant (I := fun p => Layout p ∧ Ownership p)
      (fun _ _ _ hI ha => Ownership.step hI ha) ownership_initial hruns
  have htaken : AllTaken p :=
    runs_invariant (fun _ _ _ hI ha => allTaken_of_step hI ha) (fun _ => rfl) hruns
  refine ⟨fun m hm => ?_, fun size hsize sizes => isSome_allocateNewHandle hsize sizes p⟩
  exact counters_of_freeCount (htaken m) (hlayout.1.slots_nodup m hm)

theorem counters_recycled :
    ∃ p : Pool ℕ, runs step recycled initial = some p ∧ p.magazineCount = 1 ∧
      (∀ m < p.magazineCount, Counters p m) ∧
      ∀ size, 0 < size → ∀ sizes, (p.allocateNewHandle (size :: sizes)).isSome := by
  have hcount : (runs step recycled initial).map magazineCount = some 1 := by decide
  obtain ⟨p, hp, h⟩ := Option.map_eq_some_iff.mp hcount
  exact ⟨p, hp, h, counters_of_runs hp⟩

end Pool

end Jffi
