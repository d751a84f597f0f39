import Jffi.ClosurePool

/-!
# Who owns a slot

At any moment a slot of a closure pool has at most one handle that has not been disposed of, be it
in a queue or with the program.

## Main definitions

* `Pool.Kept` — what a program may rely on
* `Pool.Layout`, `Pool.Ownership` — the invariant: which objects belong together, and who owns a
  slot

## Main results

* `Pool.kept_of_runs` — it holds after every run
-/

namespace Jffi

variable {C : Type}

namespace Pool

/-- The handle is in one of the two queues of the pool. -/
def Queued (p : Pool C) (h : ℕ) : Prop := h ∈ p.freeQueue ∨ h ∈ p.partialQueue

/-- The handle has not been disposed of, and somebody can get at it. -/
def Owns (p : Pool C) (h : ℕ) : Prop := p.Reachable h ∧ (p.handleAt h).disposed = false

/-- The handle that a slot was last issued with. -/
def lastIssued (p : Pool C) (s : ℕ) : Option ℕ :=
  p.issued.find? fun h => (p.handleAt h).slot == s

/-- What native code calls is the closure that the handle was made for. -/
def Dispatches (p : Pool C) (h : ℕ) : Prop :=
  ∃ c, (p.handleAt h).closure = some c ∧ (p.slots (p.handleAt h).slot).closure = some c

/-- What a program may rely on. -/
structure Kept (p : Pool C) : Prop where
  /-- A slot has one owner. -/
  unique : ∀ h h', p.Owns h → p.Owns h' → (p.handleAt h).slot = (p.handleAt h').slot → h = h'
  /-- A handle is in one queue once, or with the program. -/
  nodup : (p.freeQueue ++ p.partialQueue ++ p.held).Nodup
  /-- A live handle dispatches to its closure. -/
  live : ∀ h ∈ p.held, (p.handleAt h).disposed = false → p.Dispatches h
  /-- A slot whose handle was disposed of dispatches to the null closure until it is issued
  again. -/
  disposed : ∀ h, p.lastIssued (p.handleAt h).slot = some h → (p.handleAt h).disposed = true →
    (p.slots (p.handleAt h).slot).closure = none
  /-- A slot with `autorelease` switched off is not issued again, unless it is disposed of. -/
  permanent : ∀ h ∈ p.issued, (p.handleAt h).disposed = false →
    (p.handleAt h).autorelease = some false →
    p.lastIssued (p.handleAt h).slot = some h ∧ p.Dispatches h
  /-- To dispose of a handle again changes nothing, then or later. -/
  dispose_dispose : ∀ h ∈ p.held, ∀ acts p', runs step acts (p.dispose h) = some p' →
    p'.dispose h = p'

/-- Which handles, holders, magazines and slots belong together. -/
structure Layout (p : Pool C) : Prop where
  handle : ∀ h < p.handleCount, (p.handleAt h).holder < p.holderCount ∧
    (p.handleAt h).slot ∈ (p.magazineAt (p.holderAt (p.handleAt h).holder)).slots
  holder_lt : ∀ holder < p.holderCount, p.holderAt holder < p.magazineCount
  slot_lt : ∀ m < p.magazineCount, ∀ s ∈ (p.magazineAt m).slots, s < p.slotCount
  slot_magazine : ∀ m < p.magazineCount, ∀ m' < p.magazineCount, ∀ s,
    s ∈ (p.magazineAt m).slots → s ∈ (p.magazineAt m').slots → m = m'
  slots_nodup : ∀ m < p.magazineCount, (p.magazineAt m).slots.Nodup
  /-- A magazine has one holder at a time. -/
  active : ∀ holder < p.holderCount, ∀ holder' < p.holderCount, holder ∉ p.collected →
    holder' ∉ p.collected → p.holderAt holder = p.holderAt holder' → holder = holder'
  collected_lt : ∀ holder ∈ p.collected, holder < p.holderCount

/-- Who owns a slot: the handles that are queued, or held and not disposed of, have different ones.
-/
structure Ownership (p : Pool C) : Prop where
  handle_lt : ∀ h, p.Reachable h ∨ h ∈ p.issued → h < p.handleCount
  alive : ∀ h, p.Reachable h → (p.handleAt h).holder ∉ p.collected
  nodup : (p.freeQueue ++ p.partialQueue ++ p.held).Nodup
  unique : ∀ h h', p.Owns h → p.Owns h' → (p.handleAt h).slot = (p.handleAt h').slot → h = h'
  queued : ∀ h, p.Queued h → (p.handleAt h).disposed = false ∧ h ∉ p.issued ∧
    (p.handleAt h).autorelease = none ∧ (p.slots (p.handleAt h).slot).closure = none
  issued : ∀ h ∈ p.held, h ∈ p.issued
  live : ∀ h ∈ p.held, (p.handleAt h).disposed = false →
    p.lastIssued (p.handleAt h).slot = some h ∧ p.Dispatches h
  disposed : ∀ h, p.lastIssued (p.handleAt h).slot = some h → (p.handleAt h).disposed = true →
    (p.slots (p.handleAt h).slot).closure = none
  permanent : ∀ h ∈ p.issued, (p.handleAt h).disposed = false →
    (p.handleAt h).autorelease = some false →
    p.lastIssued (p.handleAt h).slot = some h ∧ p.Dispatches h ∧
      (p.slots (p.handleAt h).slot).autorelease = false ∧
      ∀ h', p.Queued h' → (p.handleAt h').slot ≠ (p.handleAt h).slot

variable {p p' : Pool C}

theorem reachable_of_queued {h : ℕ} (hq : p.Queued h) : p.Reachable h := hq.imp_right .inl

theorem reachable_of_held {h : ℕ} (hh : h ∈ p.held) : p.Reachable h := .inr (.inr hh)

theorem reachable_iff {h : ℕ} : p.Reachable h ↔ p.Queued h ∨ h ∈ p.held := or_assoc.symm

/-- The last issue is that of a handle that was issued, for the slot. -/
theorem lastIssued_eq_some {s h : ℕ} (hlast : p.lastIssued s = some h) :
    h ∈ p.issued ∧ (p.handleAt h).slot = s :=
  ⟨List.mem_of_find?_eq_some hlast, by simpa using List.find?_some hlast⟩

/-- The handle that a slot was issued for last is decided by the slots of the handles that were
issued. -/
theorem lastIssued_congr (hissued : p'.issued = p.issued)
    (hslot : ∀ h ∈ p.issued, (p'.handleAt h).slot = (p.handleAt h).slot) (s : ℕ) :
    p'.lastIssued s = p.lastIssued s := by
  rw [lastIssued, lastIssued, hissued]
  generalize p.issued = l at hslot
  induction l with
  | nil => rfl
  | cons h l ih =>
    rw [List.find?_cons, List.find?_cons, hslot h List.mem_cons_self,
      ih fun h' hh' => hslot h' (List.mem_cons_of_mem h hh')]

/-- Whether a handle dispatches is decided by its closure and that of its slot. -/
theorem Dispatches.congr {h : ℕ} (hd : p.Dispatches h)
    (hslot : (p'.handleAt h).slot = (p.handleAt h).slot)
    (hclosure : (p'.handleAt h).closure = (p.handleAt h).closure)
    (hslots : (p'.slots (p.handleAt h).slot).closure = (p.slots (p.handleAt h).slot).closure) :
    p'.Dispatches h := by
  rw [Dispatches, hslot, hclosure, hslots]
  exact hd

/-- The layout is decided by the holders, the magazines, and the holder and slot of each handle; the
queues and the contents of the slots do not matter. -/
theorem Layout.congr (hL : Layout p)
    (hhandles : p'.handleCount = p.handleCount)
    (hhandle : ∀ h < p.handleCount, (p'.handleAt h).holder = (p.handleAt h).holder ∧
      (p'.handleAt h).slot = (p.handleAt h).slot)
    (hholders : p'.holderCount = p.holderCount) (hholder : p'.holderAt = p.holderAt)
    (hmagazines : p'.magazineCount = p.magazineCount)
    (hmagazine : ∀ m, (p'.magazineAt m).slots = (p.magazineAt m).slots)
    (hslots : p'.slotCount = p.slotCount) (hcollected : p'.collected = p.collected) :
    Layout p' := by
  refine ⟨fun h hh => ?_, ?_, ?_, ?_, ?_, ?_, ?_⟩
  · rw [hhandles] at hh
    obtain ⟨hholder', hslot⟩ := hhandle h hh
    rw [hholder', hslot, hholders, hholder, hmagazine]
    exact hL.handle h hh
  · rw [hholders, hholder, hmagazines]
    exact hL.holder_lt
  · simp only [hmagazines, hmagazine, hslots]
    exact hL.slot_lt
  · simp only [hmagazines, hmagazine]
    exact hL.slot_magazine
  · simp only [hmagazines, hmagazine]
    exact hL.slots_nodup
  · rw [hholders, hholder, hcollected]
    exact hL.active
  · rw [hholders, hcollected]
    exact hL.collected_lt

/-! ### A new handle -/

/-- The slot can have another handle. -/
structure Vacant (p : Pool C) (s : ℕ) : Prop where
  owner : ∀ h, p.Owns h → (p.handleAt h).slot ≠ s
  closure : (p.slots s).closure = none
  autorelease : (p.slots s).autorelease = true

section AddHandle

variable {full : Bool} {holder s : ℕ}

theorem handleAt_addHandle_of_lt {h : ℕ} (hh : h < p.handleCount) :
    (p.addHandle full holder s).handleAt h = p.handleAt h :=
  Function.update_of_ne (Nat.ne_of_lt hh) _ _

theorem handleAt_addHandle_self :
    (p.addHandle full holder s).handleAt p.handleCount = ⟨s, holder, false, none, none⟩ :=
  Function.update_self ..

theorem queued_addHandle_iff {h : ℕ} :
    (p.addHandle full holder s).Queued h ↔ p.Queued h ∨ h = p.handleCount := by
  cases full with
  | true =>
    change h ∈ p.freeQueue ++ [p.handleCount] ∨ h ∈ p.partialQueue ↔ _
    rw [List.mem_append, List.mem_singleton, Queued, or_right_comm]
  | false =>
    change h ∈ p.freeQueue ∨ h ∈ p.partialQueue ++ [p.handleCount] ↔ _
    rw [List.mem_append, List.mem_singleton, Queued, or_assoc]

theorem Layout.addHandle (hL : Layout p) (hholder : holder < p.holderCount)
    (hs : s ∈ (p.magazineAt (p.holderAt holder)).slots) : Layout (p.addHandle full holder s) := by
  refine ⟨fun h hh => ?_, hL.holder_lt, hL.slot_lt, hL.slot_magazine, hL.slots_nodup, hL.active,
    hL.collected_lt⟩
  rcases Nat.lt_succ_iff_lt_or_eq.mp hh with hlt | rfl
  · rw [handleAt_addHandle_of_lt hlt]
    exact hL.handle h hlt
  · rw [handleAt_addHandle_self]
    exact ⟨hholder, hs⟩

/-- A new handle may be made for a slot that is vacant: the slot has one owner then, this handle. -/
theorem Ownership.addHandle (hO : Ownership p) (hcollected : holder ∉ p.collected)
    (hs : p.Vacant s) : Ownership (p.addHandle full holder s) := by
  have hreach : ∀ {h}, (p.addHandle full holder s).Reachable h →
      p.Reachable h ∧ h < p.handleCount ∨ h = p.handleCount := by
    intro h hr
    rw [reachable_iff, queued_addHandle_iff] at hr
    rcases hr with (hq | hnew) | hheld
    · exact .inl ⟨reachable_of_queued hq, hO.handle_lt h (.inl (reachable_of_queued hq))⟩
    · exact .inr hnew
    · exact .inl ⟨reachable_of_held hheld, hO.handle_lt h (.inl (reachable_of_held hheld))⟩
  have hheld : ∀ {h}, h ∈ p.held → h < p.handleCount := fun hh =>
    hO.handle_lt _ (.inl (reachable_of_held hh))
  have hissued : ∀ {h}, h ∈ p.issued → h < p.handleCount := fun hh => hO.handle_lt _ (.inr hh)
  have hlast : ∀ s', (p.addHandle full holder s).lastIssued s' = p.lastIssued s' :=
    lastIssued_congr rfl fun h hh => by rw [handleAt_addHandle_of_lt (hissued hh)]
  have howns : ∀ {h}, (p.addHandle full holder s).Owns h → h < p.handleCount → p.Owns h := by
    rintro h ⟨hr, hdisposed⟩ hlt
    rw [handleAt_addHandle_of_lt hlt] at hdisposed
    rcases hreach hr with ⟨hr, -⟩ | rfl
    · exact ⟨hr, hdisposed⟩
    · exact absurd hlt (Nat.lt_irrefl _)
  refine ⟨?_, ?_, ?_, ?_, ?_, hO.issued, ?_, ?_, ?_⟩
  · rintro h (hr | hi)
    · rcases hreach hr with ⟨-, hlt⟩ | rfl
      · exact Nat.lt_succ_of_lt hlt
      · exact Nat.lt_succ_self _
    · exact Nat.lt_succ_of_lt (hissued hi)
  · intro h hr
    rcases hreach hr with ⟨hr, hlt⟩ | rfl
    · rw [handleAt_addHandle_of_lt hlt]
      exact hO.alive h hr
    · rw [handleAt_addHandle_self]
      exact hcollected
  · have hnew : p.handleCount ∉ p.freeQueue ++ p.partialQueue ++ p.held := fun hmem => by
      rw [List.mem_append, List.mem_append, or_assoc] at hmem
      exact absurd (hO.handle_lt _ (.inl hmem)) (Nat.lt_irrefl _)
    have hcons : (p.handleCount :: (p.freeQueue ++ p.partialQueue ++ p.held)).Nodup :=
      List.nodup_cons.mpr ⟨hnew, hO.nodup⟩
    refine (List.Perm.nodup_iff ?_).mp hcons
    cases full with
    | true =>
      change (_ :: (p.freeQueue ++ p.partialQueue ++ p.held)).Perm
        (p.freeQueue ++ [p.handleCount] ++ p.partialQueue ++ p.held)
      simp only [List.append_assoc]
      exact List.perm_middle.symm
    | false =>
      change (_ :: (p.freeQueue ++ p.partialQueue ++ p.held)).Perm
        (p.freeQueue ++ (p.partialQueue ++ [p.handleCount]) ++ p.held)
      simp only [← List.append_assoc]
      rw [List.append_assoc _ [p.handleCount]]
      exact List.perm_middle.symm
  · intro h h' hh hh' hslot
    rcases hreach hh.1 with ⟨-, hlt⟩ | hnew
    · rcases hreach hh'.1 with ⟨-, hlt'⟩ | hnew'
      · rw [handleAt_addHandle_of_lt hlt, handleAt_addHandle_of_lt hlt'] at hslot
        exact hO.unique h h' (howns hh hlt) (howns hh' hlt') hslot
      · subst hnew'
        rw [handleAt_addHandle_of_lt hlt, handleAt_addHandle_self] at hslot
        exact absurd hslot (hs.owner h (howns hh hlt))
    · rcases hreach hh'.1 with ⟨-, hlt'⟩ | hnew'
      · subst hnew
        rw [handleAt_addHandle_of_lt hlt', handleAt_addHandle_self] at hslot
        exact absurd hslot.symm (hs.owner h' (howns hh' hlt'))
      · exact hnew.trans hnew'.symm
  · intro h hq
    rcases queued_addHandle_iff.mp hq with hq | rfl
    · rw [handleAt_addHandle_of_lt (hO.handle_lt h (.inl (reachable_of_queued hq)))]
      exact hO.queued h hq
    · rw [handleAt_addHandle_self]
      exact ⟨rfl, fun hi => absurd (hissued hi) (Nat.lt_irrefl _), rfl, hs.closure⟩
  · intro h hh hlive
    have hsame := @handleAt_addHandle_of_lt _ p full holder s _ (hheld hh)
    rw [hsame] at hlive ⊢
    obtain ⟨hlast', hdispatches⟩ := hO.live h hh hlive
    exact ⟨(hlast _).trans hlast', hdispatches.congr (by rw [hsame]) (by rw [hsame]) rfl⟩
  · intro h hh hdisposed
    rw [hlast] at hh
    have hlt := hissued (lastIssued_eq_some hh).1
    rw [handleAt_addHandle_of_lt hlt] at hh hdisposed ⊢
    exact hO.disposed h hh hdisposed
  · intro h hi hdisposed hauto
    have hsame := @handleAt_addHandle_of_lt _ p full holder s _ (hissued hi)
    rw [hsame] at hdisposed hauto ⊢
    obtain ⟨hlast', hdispatches, hoff, hqueued⟩ := hO.permanent h hi hdisposed hauto
    refine ⟨(hlast _).trans hlast', hdispatches.congr (by rw [hsame]) (by rw [hsame]) rfl, hoff,
      fun h' hq => ?_⟩
    rcases queued_addHandle_iff.mp hq with hq | rfl
    · rw [handleAt_addHandle_of_lt (hO.handle_lt h' (.inl (reachable_of_queued hq)))]
      exact hqueued h' hq
    · rw [handleAt_addHandle_self]
      rintro rfl
      exact Bool.false_ne_true (hoff.symm.trans hs.autorelease)

end AddHandle

/-! ### Magazines -/

/-- A vacant slot stays vacant when another slot gets a handle. -/
theorem Vacant.addHandle {full : Bool} {holder s s' : ℕ} (hO : Ownership p) (hs : p.Vacant s)
    (hne : s ≠ s') : (p.addHandle full holder s').Vacant s := by
  refine ⟨fun h hh => ?_, hs.closure, hs.autorelease⟩
  obtain ⟨hr, hdisposed⟩ := hh
  have hr : p.Reachable h ∨ h = p.handleCount := by
    rw [reachable_iff, queued_addHandle_iff] at hr
    rcases hr with (hq | hnew) | hheld
    · exact .inl (reachable_of_queued hq)
    · exact .inr hnew
    · exact .inl (reachable_of_held hheld)
  rcases hr with hr | rfl
  · have hlt := hO.handle_lt h (.inl hr)
    rw [handleAt_addHandle_of_lt hlt] at hdisposed ⊢
    exact hs.owner h ⟨hr, hdisposed⟩
  · rw [handleAt_addHandle_self]
    exact hne.symm

/-- New handles for different vacant slots of a magazine keep the layout, and each slot has one
owner. -/
theorem Ownership.foldl_addHandle {holder : ℕ} {l : List ℕ} (full : Bool) (hO : Ownership p)
    (hL : Layout p) (hholder : holder < p.holderCount) (hcollected : holder ∉ p.collected)
    (hl : l.Nodup)
    (hs : ∀ s ∈ l, p.Vacant s ∧ s ∈ (p.magazineAt (p.holderAt holder)).slots) :
    Layout (l.foldl (Pool.addHandle full holder) p) ∧
      Ownership (l.foldl (Pool.addHandle full holder) p) := by
  induction l generalizing p with
  | nil => exact ⟨hL, hO⟩
  | cons s l ih =>
    obtain ⟨hnot, hl⟩ := List.nodup_cons.mp hl
    obtain ⟨hvacant, hmem⟩ := hs s List.mem_cons_self
    refine @ih (p.addHandle full holder s) (hO.addHandle hcollected hvacant)
      (hL.addHandle hholder hmem) hholder hcollected hl fun s' hs' => ?_
    obtain ⟨hvacant', hmem'⟩ := hs s' (List.mem_cons_of_mem s hs')
    exact ⟨hvacant'.addHandle hO fun heq => hnot (heq ▸ hs'), hmem'⟩

/-- Who owns a slot does not depend on the magazines, nor on what holds them. -/
theorem Ownership.withMagazines (hO : Ownership p) (slotCount : ℕ) (magazineAt : ℕ → PoolMagazine)
    (magazineCount : ℕ) (magazines : List ℕ) (holderAt : ℕ → ℕ) (holderCount : ℕ) :
    Ownership { p with
      slotCount := slotCount
      magazineAt := magazineAt
      magazineCount := magazineCount
      magazines := magazines
      holderAt := holderAt
      holderCount := holderCount } :=
  ⟨hO.handle_lt, hO.alive, hO.nodup, hO.unique, hO.queued, hO.issued, hO.live, hO.disposed,
    hO.permanent⟩

/-- Nobody uses the magazine: it has no holder that has not been collected. -/
def Idle (p : Pool C) (m : ℕ) : Prop :=
  ∀ holder < p.holderCount, holder ∉ p.collected → p.holderAt holder ≠ m

/-- Nobody owns a slot of an idle magazine, since no handle of its holders can be reached. -/
theorem Idle.not_owned {m s h : ℕ} (hidle : p.Idle m) (hL : Layout p) (hO : Ownership p)
    (hm : m < p.magazineCount) (hs : s ∈ (p.magazineAt m).slots) (hh : p.Reachable h) :
    (p.handleAt h).slot ≠ s := by
  rintro rfl
  obtain ⟨hholder, hslot⟩ := hL.handle h (hO.handle_lt h (.inl hh))
  refine hidle _ hholder (hO.alive h hh) ?_
  exact hL.slot_magazine _ (hL.holder_lt _ hholder) m hm _ hslot hs

/-- The free slots of an idle magazine get new handles, which own them. -/
theorem Ownership.useMagazine {m : ℕ} (hO : Ownership p) (hL : Layout p)
    (hm : m < p.magazineCount) (hidle : p.Idle m)
    (hclosure : ∀ s ∈ (p.magazineAt m).slots, (p.slots s).autorelease = true →
      (p.slots s).closure = none) :
    Layout (p.useMagazine m) ∧ Ownership (p.useMagazine m) := by
  let p₀ : Pool C := { p with
    magazineAt := Function.update p.magazineAt m ((p.magazineAt m).takeAll p.slots).2
    holderAt := Function.update p.holderAt p.holderCount m
    holderCount := p.holderCount + 1 }
  have hslots : ∀ m', (p₀.magazineAt m').slots = (p.magazineAt m').slots := by
    intro m'
    by_cases hm' : m' = m
    · subst hm'
      change (Function.update p.magazineAt m' _ m').slots = _
      rw [Function.update_self]
      exact (PoolMagazine.takeAll_eq _ _).2.1
    · change (Function.update p.magazineAt m _ m').slots = _
      rw [Function.update_of_ne hm']
  have hold : ∀ {holder}, holder < p.holderCount → p₀.holderAt holder = p.holderAt holder :=
    fun hlt => Function.update_of_ne (Nat.ne_of_lt hlt) _ _
  have hnew : p₀.holderAt p.holderCount = m := Function.update_self ..
  have hfresh : p.holderCount ∉ p.collected := fun hmem =>
    absurd (hL.collected_lt _ hmem) (Nat.lt_irrefl _)
  have hL₀ : Layout p₀ := by
    refine ⟨fun h hh => ?_, fun holder hholder => ?_, ?_, ?_, ?_, ?_, fun holder hholder => ?_⟩
    · obtain ⟨hholder, hslot⟩ := hL.handle h hh
      refine ⟨Nat.lt_succ_of_lt hholder, ?_⟩
      rw [hold hholder, hslots]
      exact hslot
    · rcases Nat.lt_succ_iff_lt_or_eq.mp hholder with hlt | rfl
      · rw [hold hlt]
        exact hL.holder_lt holder hlt
      · rw [hnew]
        exact hm
    · simp only [hslots]
      exact hL.slot_lt
    · simp only [hslots]
      exact hL.slot_magazine
    · simp only [hslots]
      exact hL.slots_nodup
    · intro holder hholder holder' hholder' hnot hnot' heq
      rcases Nat.lt_succ_iff_lt_or_eq.mp hholder with hlt | rfl
      · rcases Nat.lt_succ_iff_lt_or_eq.mp hholder' with hlt' | rfl
        · rw [hold hlt, hold hlt'] at heq
          exact hL.active holder hlt holder' hlt' hnot hnot' heq
        · rw [hold hlt, hnew] at heq
          exact absurd heq (hidle holder hlt hnot)
      · rcases Nat.lt_succ_iff_lt_or_eq.mp hholder' with hlt' | rfl
        · rw [hold hlt', hnew] at heq
          exact absurd heq.symm (hidle holder' hlt' hnot')
        · rfl
    · exact Nat.lt_succ_of_lt (hL.collected_lt holder hholder)
  have hO₀ : Ownership p₀ := hO.withMagazines _ _ _ _ _ _
  have hresult := hO₀.foldl_addHandle (p.magazineAt m).isFull hL₀
    (Nat.lt_succ_self p.holderCount) hfresh
    (PoolMagazine.nodup_takeAll p.slots (hL.slots_nodup m hm)) fun s hs => ?_
  · exact hresult
  · obtain ⟨hmem, hauto⟩ := PoolMagazine.mem_takeAll hs
    refine ⟨⟨fun h hh => ?_, hclosure s hmem hauto, hauto⟩, ?_⟩
    · exact hidle.not_owned hL hO hm hmem hh.1
    · rw [hnew, hslots]
      exact hmem

/-- A magazine that nobody uses can be recycled without taking a slot from anybody. -/
theorem Ownership.recycleMagazine {m : ℕ} (hO : Ownership p) (hL : Layout p)
    (hm : m < p.magazineCount) (hidle : p.Idle m) :
    Layout (p.recycleMagazine m) ∧ Ownership (p.recycleMagazine m) := by
  obtain ⟨hslots, hmagazine⟩ := PoolMagazine.recycle_eq p.slots (p.magazineAt m)
  let p₀ : Pool C := { p with
    slots := ((p.magazineAt m).recycle p.slots).1
    magazineAt := Function.update p.magazineAt m ((p.magazineAt m).recycle p.slots).2 }
  have hsame : ∀ m', (p₀.magazineAt m').slots = (p.magazineAt m').slots := by
    intro m'
    by_cases hm' : m' = m
    · subst hm'
      change (Function.update p.magazineAt m' _ m').slots = _
      rw [Function.update_self, hmagazine]
    · change (Function.update p.magazineAt m _ m').slots = _
      rw [Function.update_of_ne hm']
  have hauto : ∀ s, (p₀.slots s).autorelease = (p.slots s).autorelease := by
    intro s
    change (((p.magazineAt m).recycle p.slots).1 s).autorelease = _
    rw [hslots s]
    split <;> rfl
  have hnull : ∀ s, (p.slots s).closure = none → (p₀.slots s).closure = none := by
    intro s hs
    change (((p.magazineAt m).recycle p.slots).1 s).closure = none
    rw [hslots s]
    split
    · rfl
    · exact hs
  have hL₀ : Layout p₀ := hL.congr rfl (fun _ _ => ⟨rfl, rfl⟩) rfl rfl rfl hsame rfl rfl
  have hO₀ : Ownership p₀ := by
    refine ⟨hO.handle_lt, hO.alive, hO.nodup, hO.unique, fun h hq => ?_, hO.issued,
      fun h hh hlive => ?_, fun h hlast hdisposed => ?_, fun h hi hlive hoff => ?_⟩
    · obtain ⟨hdisposed, hissued, hauto', hclosure⟩ := hO.queued h hq
      exact ⟨hdisposed, hissued, hauto', hnull _ hclosure⟩
    · obtain ⟨hlast, hdispatches⟩ := hO.live h hh hlive
      refine ⟨hlast, hdispatches.congr rfl rfl ?_⟩
      change (((p.magazineAt m).recycle p.slots).1 (p.handleAt h).slot).closure = _
      rw [hslots, if_neg fun hboth => ?_]
      exact hidle.not_owned hL hO hm hboth.1 (reachable_of_held hh) rfl
    · exact hnull _ (hO.disposed h hlast hdisposed)
    · obtain ⟨hlast, hdispatches, hslot, hqueued⟩ := hO.permanent h hi hlive hoff
      refine ⟨hlast, hdispatches.congr rfl rfl ?_, (hauto _).trans hslot, hqueued⟩
      change (((p.magazineAt m).recycle p.slots).1 (p.handleAt h).slot).closure = _
      rw [hslots, if_neg fun hboth => Bool.false_ne_true (hslot.symm.trans hboth.2)]
  change Layout (if (!((p.magazineAt m).recycle p.slots).2.isEmpty) = true then p₀.useMagazine m
    else { p₀ with magazines := p₀.magazines.erase m }) ∧ Ownership (if
    (!((p.magazineAt m).recycle p.slots).2.isEmpty) = true then p₀.useMagazine m
    else { p₀ with magazines := p₀.magazines.erase m })
  split
  · refine hO₀.useMagazine hL₀ hm hidle fun s hs hs' => ?_
    rw [hsame] at hs
    rw [hauto] at hs'
    change (((p.magazineAt m).recycle p.slots).1 s).closure = none
    rw [hslots s, if_pos ⟨hs, hs'⟩]
  · exact ⟨hL₀.congr rfl (fun _ _ => ⟨rfl, rfl⟩) rfl rfl rfl (fun _ => rfl) rfl rfl,
      hO₀.withMagazines _ _ _ _ _ _⟩

/-- A new magazine, which nobody uses, changes nothing about the slots that there are. -/
theorem Ownership.newMagazine (hO : Ownership p) (hL : Layout p) (size : ℕ) :
    Layout (p.newMagazine size) ∧ Ownership (p.newMagazine size) := by
  have hold : ∀ {m}, m < p.magazineCount → (p.newMagazine size).magazineAt m = p.magazineAt m :=
    fun hlt => Function.update_of_ne (Nat.ne_of_lt hlt) _ _
  have hnew : ∀ {s}, s ∈ ((p.newMagazine size).magazineAt p.magazineCount).slots ↔
      p.slotCount ≤ s ∧ s < p.slotCount + size := by
    intro s
    change s ∈ (Function.update p.magazineAt p.magazineCount _ p.magazineCount).slots ↔ _
    rw [Function.update_self]
    exact List.mem_range'_1
  have hslot : ∀ {h}, h < p.handleCount →
      (p.newMagazine size).slots (p.handleAt h).slot = p.slots (p.handleAt h).slot := by
    intro h hh
    obtain ⟨hholder, hmem⟩ := hL.handle h hh
    have hlt := hL.slot_lt _ (hL.holder_lt _ hholder) _ hmem
    exact if_neg fun hge => absurd hlt (Nat.not_lt_of_le hge.1)
  constructor
  · refine ⟨fun h hh => ?_, fun holder hholder => ?_, fun m hm s hs => ?_,
      fun m hm m' hm' s hs hs' => ?_, fun m hm => ?_, hL.active, hL.collected_lt⟩
    · obtain ⟨hholder, hmem⟩ := hL.handle h hh
      refine ⟨hholder, ?_⟩
      change (p.handleAt h).slot ∈
        ((p.newMagazine size).magazineAt (p.holderAt (p.handleAt h).holder)).slots
      rw [hold (hL.holder_lt _ hholder)]
      exact hmem
    · exact Nat.lt_succ_of_lt (hL.holder_lt holder hholder)
    · rcases Nat.lt_succ_iff_lt_or_eq.mp hm with hlt | rfl
      · rw [hold hlt] at hs
        exact Nat.lt_of_lt_of_le (hL.slot_lt m hlt s hs) (Nat.le_add_right _ _)
      · exact (hnew.mp hs).2
    · rcases Nat.lt_succ_iff_lt_or_eq.mp hm with hlt | rfl
      · rw [hold hlt] at hs
        rcases Nat.lt_succ_iff_lt_or_eq.mp hm' with hlt' | rfl
        · rw [hold hlt'] at hs'
          exact hL.slot_magazine m hlt m' hlt' s hs hs'
        · exact absurd (hL.slot_lt m hlt s hs) (Nat.not_lt_of_le (hnew.mp hs').1)
      · rcases Nat.lt_succ_iff_lt_or_eq.mp hm' with hlt' | rfl
        · rw [hold hlt'] at hs'
          exact absurd (hL.slot_lt m' hlt' s hs') (Nat.not_lt_of_le (hnew.mp hs).1)
        · rfl
    · rcases Nat.lt_succ_iff_lt_or_eq.mp hm with hlt | rfl
      · rw [hold hlt]
        exact hL.slots_nodup m hlt
      · change (Function.update p.magazineAt p.magazineCount _ p.magazineCount).slots.Nodup
        rw [Function.update_self]
        exact List.nodup_range'
  · have hreach : ∀ {h}, p.Reachable h → h < p.handleCount := fun hr => hO.handle_lt _ (.inl hr)
    have hissued : ∀ {h}, h ∈ p.issued → h < p.handleCount := fun hi => hO.handle_lt _ (.inr hi)
    refine ⟨hO.handle_lt, hO.alive, hO.nodup, hO.unique, fun h hq => ?_, hO.issued,
      fun h hh hlive => ?_, fun h hlast hdisposed => ?_, fun h hi hlive hoff => ?_⟩
    · obtain ⟨hdisposed, hnot, hauto, hclosure⟩ := hO.queued h hq
      refine ⟨hdisposed, hnot, hauto, ?_⟩
      exact (congrArg PoolSlot.closure (hslot (hreach (reachable_of_queued hq)))).trans hclosure
    · obtain ⟨hlast, hdispatches⟩ := hO.live h hh hlive
      refine ⟨hlast, hdispatches.congr rfl rfl ?_⟩
      exact congrArg PoolSlot.closure (hslot (hreach (reachable_of_held hh)))
    · refine (congrArg PoolSlot.closure (hslot ?_)).trans (hO.disposed h hlast hdisposed)
      exact hissued (lastIssued_eq_some hlast).1
    · obtain ⟨hlast, hdispatches, hauto, hqueued⟩ := hO.permanent h hi hlive hoff
      refine ⟨hlast, hdispatches.congr rfl rfl ?_, ?_, hqueued⟩
      · exact congrArg PoolSlot.closure (hslot (hissued hi))
      · exact (congrArg PoolSlot.autorelease (hslot (hissued hi))).trans hauto

/-- One round of the loop of `allocateNewHandle`, in which a magazine is made and used, keeps layout
and ownership. -/
theorem Ownership.useNewMagazine (hO : Ownership p) (hL : Layout p) (size : ℕ) :
    Layout ((p.newMagazine size).useMagazine p.magazineCount) ∧
      Ownership ((p.newMagazine size).useMagazine p.magazineCount) := by
  obtain ⟨hL₁, hO₁⟩ := hO.newMagazine hL size
  refine hO₁.useMagazine hL₁ (Nat.lt_succ_self _) (fun holder hholder _ => ?_) fun s hs _ => ?_
  · exact Nat.ne_of_lt (hL.holder_lt holder hholder)
  · change s ∈ (Function.update p.magazineAt p.magazineCount _ p.magazineCount).slots at hs
    rw [Function.update_self] at hs
    exact congrArg PoolSlot.closure (if_pos (List.mem_range'_1.mp hs))

/-! ### A handle is issued -/

/-- A handle was taken out of its queue. -/
structure Polled (p : Pool C) (h : ℕ) (q : Pool C) : Prop where
  eq : q = { p with freeQueue := q.freeQueue, partialQueue := q.partialQueue }
  queued : p.Queued h
  of_queued : ∀ {h'}, q.Queued h' → p.Queued h'
  perm : (h :: (q.freeQueue ++ q.partialQueue ++ q.held)).Perm
    (p.freeQueue ++ p.partialQueue ++ p.held)

variable {q : Pool C} {h : ℕ}

theorem polled_of_poll (hpoll : p.poll = some (h, q)) : Polled p h q := by
  rw [poll] at hpoll
  split at hpoll
  case h_1 h' queue heq =>
    cases hpoll
    refine ⟨rfl, .inr ?_, fun hq => hq.imp_right fun hq => ?_, ?_⟩
    · rw [heq]
      exact List.mem_cons_self
    · rw [heq]
      exact List.mem_cons_of_mem h hq
    · change (h :: (p.freeQueue ++ queue ++ p.held)).Perm _
      rw [heq, List.append_assoc, List.append_assoc]
      exact List.perm_middle.symm
  case h_2 hnil =>
    split at hpoll
    case h_1 h' queue heq =>
      cases hpoll
      refine ⟨rfl, .inl ?_, fun hq => hq.imp_left fun hq => ?_, ?_⟩
      · rw [heq]
        exact List.mem_cons_self
      · rw [heq]
        exact List.mem_cons_of_mem h hq
      · change (h :: (queue ++ p.partialQueue ++ p.held)).Perm _
        rw [heq]
        exact List.Perm.refl _
    case h_2 => cases hpoll

/-- The handle that was polled is in no queue any more, since it was in one of them once. -/
theorem Polled.not_queued (hq : Polled p h q) (hO : Ownership p) : ¬q.Queued h := by
  intro hqueued
  have hnodup := hq.perm.nodup_iff.mpr hO.nodup
  exact (List.nodup_cons.mp hnodup).1 (List.mem_append_left _ (List.mem_append.mpr hqueued))

/-- The handle is still that of its slot, and nothing but its closure has changed. -/
theorem handleAt_issue (closure : C) (h h' : ℕ) :
    ((p.issue closure h).handleAt h').slot = (p.handleAt h').slot ∧
      ((p.issue closure h).handleAt h').holder = (p.handleAt h').holder ∧
      ((p.issue closure h).handleAt h').disposed = (p.handleAt h').disposed ∧
      ((p.issue closure h).handleAt h').autorelease = (p.handleAt h').autorelease := by
  by_cases heq : h' = h
  · subst heq
    rw [issue]
    simp only [Function.update_self, and_self]
  · rw [issue]
    simp only [Function.update_of_ne heq, and_self]

/-- The slot of the handle is the one that was issued last. -/
theorem lastIssued_issue (closure : C) (h s : ℕ) :
    (p.issue closure h).lastIssued s =
      if (p.handleAt h).slot = s then some h else p.lastIssued s := by
  rw [lastIssued]
  change List.find? _ (h :: p.issued) = _
  rw [List.find?_cons]
  simp only [(handleAt_issue closure h _).1]
  by_cases heq : (p.handleAt h).slot = s
  · rw [if_pos heq, beq_iff_eq.mpr heq]
  · rw [if_neg heq, beq_eq_false_iff_ne.mpr heq]
    rfl

theorem Layout.issue (hL : Layout p) (closure : C) (h : ℕ) : Layout (p.issue closure h) :=
  hL.congr rfl (fun h' _ => ⟨(handleAt_issue closure h h').2.1, (handleAt_issue closure h h').1⟩)
    rfl rfl rfl (fun _ => rfl) rfl rfl

namespace Polled

/-- The handle that is issued gets the closure that it is issued for. -/
theorem closure_issue_self (closure : C) :
    ((q.issue closure h).handleAt h).closure = some closure := by
  rw [issue]
  simp only [Function.update_self]

variable (hq : Polled p h q) (closure : C)

include hq

theorem handleAt_eq : q.handleAt = p.handleAt := by rw [hq.eq]

theorem slots_eq : q.slots = p.slots := by rw [hq.eq]

theorem held_eq : q.held = p.held := by rw [hq.eq]

theorem issued_eq : q.issued = p.issued := by rw [hq.eq]

/-- A handle of the pool keeps its slot, its magazine and its flags when the polled one is
issued. -/
theorem handleAt_issue (h' : ℕ) :
    ((q.issue closure h).handleAt h').slot = (p.handleAt h').slot ∧
      ((q.issue closure h).handleAt h').holder = (p.handleAt h').holder ∧
      ((q.issue closure h).handleAt h').disposed = (p.handleAt h').disposed ∧
      ((q.issue closure h).handleAt h').autorelease = (p.handleAt h').autorelease := by
  have hsame := Pool.handleAt_issue (p := q) closure h h'
  rwa [hq.handleAt_eq] at hsame

/-- Every handle but the one that is issued keeps its closure. -/
theorem closure_issue_of_ne {h' : ℕ} (hne : h' ≠ h) :
    ((q.issue closure h).handleAt h').closure = (p.handleAt h').closure := by
  rw [issue, hq.handleAt_eq]
  simp only [Function.update_of_ne hne]

/-- The slot of the handle that is issued gets the closure. -/
theorem slots_issue_self :
    (q.issue closure h).slots (p.handleAt h).slot =
      { p.slots (p.handleAt h).slot with closure := some closure } := by
  rw [issue, hq.handleAt_eq, hq.slots_eq]
  exact Function.update_self ..

/-- Every slot but that of the handle that is issued is as it was. -/
theorem slots_issue_of_ne {s : ℕ} (hne : s ≠ (p.handleAt h).slot) :
    (q.issue closure h).slots s = p.slots s := by
  rw [issue, hq.handleAt_eq, hq.slots_eq]
  exact Function.update_of_ne hne ..

/-- The last issue of its slot is that of the handle, and that of every other slot is as it was. -/
theorem lastIssued_issue (s : ℕ) :
    (q.issue closure h).lastIssued s =
      if (p.handleAt h).slot = s then some h else p.lastIssued s := by
  rw [Pool.lastIssued_issue, hq.handleAt_eq,
    lastIssued_congr hq.issued_eq fun h' _ => by rw [hq.handleAt_eq]]

/-- Another handle that dispatches still does so, if it has another slot. -/
theorem dispatches_issue {h' : ℕ} (hne : h' ≠ h)
    (hslot : (p.handleAt h').slot ≠ (p.handleAt h).slot) (hd : p.Dispatches h') :
    (q.issue closure h).Dispatches h' :=
  hd.congr (hq.handleAt_issue closure h').1 (hq.closure_issue_of_ne closure hne)
    (congrArg PoolSlot.closure (hq.slots_issue_of_ne closure hslot))

theorem held_issue : (q.issue closure h).held = h :: p.held :=
  congrArg (List.cons h) hq.held_eq

theorem issued_issue : (q.issue closure h).issued = h :: p.issued :=
  congrArg (List.cons h) hq.issued_eq

/-- No handle becomes reachable by the issue of one, which was in a queue before. -/
theorem reachable_of_issue {h' : ℕ} (hr : (q.issue closure h).Reachable h') : p.Reachable h' := by
  rcases reachable_iff.mp hr with hqueued | hheld
  · exact reachable_of_queued (hq.of_queued hqueued)
  · rw [hq.held_issue] at hheld
    rcases List.mem_cons.mp hheld with rfl | hheld
    · exact reachable_of_queued hq.queued
    · exact reachable_of_held hheld

theorem owns_of_issue {h' : ℕ} (ho : (q.issue closure h).Owns h') : p.Owns h' :=
  ⟨hq.reachable_of_issue closure ho.1, (hq.handleAt_issue closure h').2.2.1.symm.trans ho.2⟩

variable (hO : Ownership p)

include hO

/-- The polled handle owns its slot, since a handle in a queue does. -/
theorem owns : p.Owns h := ⟨reachable_of_queued hq.queued, (hO.queued h hq.queued).1⟩

/-- Another handle that owns a slot owns another one than the polled handle. -/
theorem slot_ne {h' : ℕ} (ho : p.Owns h') (hne : h' ≠ h) :
    (p.handleAt h').slot ≠ (p.handleAt h).slot :=
  fun heq => hne (hO.unique _ _ ho (hq.owns hO) heq)

/-- The handles that stay in their queues are new ones still, and their slots are empty. -/
theorem queued_issue {h' : ℕ} (hqueued : (q.issue closure h).Queued h') :
    ((q.issue closure h).handleAt h').disposed = false ∧ h' ∉ (q.issue closure h).issued ∧
      ((q.issue closure h).handleAt h').autorelease = none ∧
      ((q.issue closure h).slots ((q.issue closure h).handleAt h').slot).closure = none := by
  have hne : h' ≠ h := by
    rintro rfl
    exact hq.not_queued hO hqueued
  have hqueued' : p.Queued h' := hq.of_queued hqueued
  obtain ⟨hlive, hfresh, hauto, hclosure⟩ := hO.queued h' hqueued'
  have hslot := hq.slot_ne hO ⟨reachable_of_queued hqueued', hlive⟩ hne
  obtain ⟨hsameSlot, -, hdisposed, hautorelease⟩ := hq.handleAt_issue closure h'
  rw [hsameSlot, hdisposed, hautorelease, hq.issued_issue, hq.slots_issue_of_ne closure hslot]
  exact ⟨hlive, fun hi => (List.mem_cons.mp hi).elim hne hfresh, hauto, hclosure⟩

/-- A live handle that Java code holds dispatches from its slot, the one that is issued too. -/
theorem live_issue {h' : ℕ} (hheld : h' ∈ (q.issue closure h).held)
    (hlive : ((q.issue closure h).handleAt h').disposed = false) :
    (q.issue closure h).lastIssued ((q.issue closure h).handleAt h').slot = some h' ∧
      (q.issue closure h).Dispatches h' := by
  obtain ⟨hsameSlot, -, hdisposed, -⟩ := hq.handleAt_issue closure h'
  rw [hsameSlot, hq.lastIssued_issue]
  by_cases hne : h' = h
  · subst hne
    refine ⟨if_pos rfl, ?_⟩
    rw [Dispatches, hsameSlot, closure_issue_self, hq.slots_issue_self]
    exact ⟨closure, rfl, rfl⟩
  · rw [hdisposed] at hlive
    rw [hq.held_issue] at hheld
    have hheld := (List.mem_cons.mp hheld).resolve_left hne
    obtain ⟨hlast, hdispatches⟩ := hO.live h' hheld hlive
    have hslot := hq.slot_ne hO ⟨reachable_of_held hheld, hlive⟩ hne
    rw [if_neg hslot.symm]
    exact ⟨hlast, hq.dispatches_issue closure hne hslot hdispatches⟩

/-- The slot that was last issued for a disposed handle stays empty. -/
theorem disposed_issue {h' : ℕ}
    (hlast : (q.issue closure h).lastIssued ((q.issue closure h).handleAt h').slot = some h')
    (hdisposed : ((q.issue closure h).handleAt h').disposed = true) :
    ((q.issue closure h).slots ((q.issue closure h).handleAt h').slot).closure = none := by
  obtain ⟨hsameSlot, -, hsameDisposed, -⟩ := hq.handleAt_issue closure h'
  rw [hsameSlot, hq.lastIssued_issue] at hlast
  rw [hsameDisposed] at hdisposed
  have hne : h ≠ h' := by
    rintro rfl
    exact Bool.false_ne_true ((hq.owns hO).2.symm.trans hdisposed)
  by_cases hslot : (p.handleAt h).slot = (p.handleAt h').slot
  · rw [if_pos hslot] at hlast
    exact absurd (Option.some.inj hlast) hne
  · rw [if_neg hslot] at hlast
    rw [hsameSlot, hq.slots_issue_of_ne closure (Ne.symm hslot)]
    exact hO.disposed h' hlast hdisposed

/-- A handle whose slot is not released keeps it to itself. -/
theorem permanent_issue {h' : ℕ} (hissued : h' ∈ (q.issue closure h).issued)
    (hlive : ((q.issue closure h).handleAt h').disposed = false)
    (hoff : ((q.issue closure h).handleAt h').autorelease = some false) :
    (q.issue closure h).lastIssued ((q.issue closure h).handleAt h').slot = some h' ∧
      (q.issue closure h).Dispatches h' ∧
      ((q.issue closure h).slots ((q.issue closure h).handleAt h').slot).autorelease = false ∧
      ∀ h₂, (q.issue closure h).Queued h₂ →
        ((q.issue closure h).handleAt h₂).slot ≠ ((q.issue closure h).handleAt h').slot := by
  obtain ⟨hsameSlot, -, hdisposed, hautorelease⟩ := hq.handleAt_issue closure h'
  rw [hdisposed] at hlive
  rw [hautorelease] at hoff
  have hne : h' ≠ h := by
    rintro rfl
    cases (hO.queued _ hq.queued).2.2.1.symm.trans hoff
  rw [hq.issued_issue] at hissued
  obtain ⟨hlast, hdispatches, hauto, hqueued⟩ :=
    hO.permanent h' ((List.mem_cons.mp hissued).resolve_left hne) hlive hoff
  have hslot := hqueued h hq.queued
  rw [hsameSlot, hq.lastIssued_issue, if_neg hslot, hq.slots_issue_of_ne closure hslot.symm]
  refine ⟨hlast, hq.dispatches_issue closure hne hslot.symm hdispatches, hauto, fun h₂ hq₂ => ?_⟩
  rw [(hq.handleAt_issue closure h₂).1]
  exact hqueued h₂ (hq.of_queued hq₂)

end Polled

/-- The slots have their owners still when a handle that was queued is issued. -/
theorem Ownership.issue (hO : Ownership p) (hpoll : p.poll = some (h, q)) (closure : C) :
    Ownership (q.issue closure h) := by
  have hq := polled_of_poll hpoll
  have hcount : (q.issue closure h).handleCount = p.handleCount := by
    rw [hq.eq]
    rfl
  have hcollected : (q.issue closure h).collected = p.collected := by
    rw [hq.eq]
    rfl
  exact {
    handle_lt h' hh' := by
      rw [hcount]
      rw [hq.issued_issue, List.mem_cons] at hh'
      rcases hh' with hr | rfl | hi
      · exact hO.handle_lt h' (.inl (hq.reachable_of_issue closure hr))
      · exact hO.handle_lt _ (.inl (hq.owns hO).1)
      · exact hO.handle_lt h' (.inr hi)
    alive h' hr := by
      rw [(hq.handleAt_issue closure h').2.1, hcollected]
      exact hO.alive h' (hq.reachable_of_issue closure hr)
    nodup := List.perm_middle.nodup_iff.mpr (hq.perm.nodup_iff.mpr hO.nodup)
    unique h₁ h₂ h₁o h₂o heq := by
      rw [(hq.handleAt_issue closure h₁).1, (hq.handleAt_issue closure h₂).1] at heq
      exact hO.unique h₁ h₂ (hq.owns_of_issue closure h₁o) (hq.owns_of_issue closure h₂o) heq
    queued _ := hq.queued_issue closure hO
    issued h' hh' := by
      rw [hq.held_issue] at hh'
      rw [hq.issued_issue]
      rcases List.mem_cons.mp hh' with rfl | hh'
      · exact List.mem_cons_self
      · exact List.mem_cons_of_mem h (hO.issued h' hh')
    live _ := hq.live_issue closure hO
    disposed _ := hq.disposed_issue closure hO
    permanent _ := hq.permanent_issue closure hO }

/-- `allocateNewHandle` polls its handle from a pool that satisfies the invariant, after the
magazines that it has made. -/
theorem exists_poll_of_allocateNewHandle {sizes : List ℕ} (hO : Ownership p) (hL : Layout p)
    (hnew : p.allocateNewHandle sizes = some (h, q)) :
    ∃ p', Layout p' ∧ Ownership p' ∧ p'.poll = some (h, q) := by
  induction sizes generalizing p with
  | nil => exact ⟨p, hL, hO, hnew⟩
  | cons size sizes ih =>
    rw [allocateNewHandle] at hnew
    split at hnew
    case h_1 r hpoll =>
      cases hnew
      exact ⟨p, hL, hO, hpoll⟩
    case h_2 hpoll =>
      obtain ⟨hL₁, hO₁⟩ := hO.useNewMagazine hL size
      refine ih (hO₁.withMagazines _ _ _ _ _ _) ?_ hnew
      exact hL₁.congr rfl (fun _ _ => ⟨rfl, rfl⟩) rfl rfl rfl (fun _ => rfl) rfl rfl

theorem layout_of_poll (hL : Layout p) (hpoll : p.poll = some (h, q)) : Layout q := by
  rw [(polled_of_poll hpoll).eq]
  exact hL.congr rfl (fun _ _ => ⟨rfl, rfl⟩) rfl rfl rfl (fun _ => rfl) rfl rfl

/-- `newClosureHandle` keeps layout and ownership: the handle that is issued is the only owner of
its slot. -/
theorem Ownership.newClosureHandle {closure : C} {sizes : List ℕ} (hO : Ownership p)
    (hL : Layout p) (hnew : p.newClosureHandle closure sizes = some p') :
    Layout p' ∧ Ownership p' := by
  rw [Pool.newClosureHandle] at hnew
  cases hpoll : p.poll with
  | some r =>
    rw [hpoll] at hnew
    cases hnew
    exact ⟨(layout_of_poll hL hpoll).issue closure r.1, hO.issue hpoll closure⟩
  | none =>
    rw [hpoll] at hnew
    obtain ⟨r, halloc, rfl⟩ := Option.map_eq_some_iff.mp hnew
    obtain ⟨p₁, hL₁, hO₁, hpoll₁⟩ := exists_poll_of_allocateNewHandle hO hL halloc
    exact ⟨(layout_of_poll hL₁ hpoll₁).issue closure r.1, hO₁.issue hpoll₁ closure⟩

/-! ### A handle that the program holds -/

/-- The slot of a handle that is held and has not been disposed of is not that of another handle
that owns it or was issued for it last. -/
theorem Ownership.slot_ne (hO : Ownership p) (hh : h ∈ p.held)
    (hlive : (p.handleAt h).disposed = false) {h' : ℕ}
    (h'owns : p.Owns h' ∨ p.lastIssued (p.handleAt h').slot = some h') (hne : h' ≠ h) :
    (p.handleAt h').slot ≠ (p.handleAt h).slot := by
  intro heq
  rcases h'owns with ho | hlast
  · exact hne (hO.unique h' h ho ⟨reachable_of_held hh, hlive⟩ heq)
  · rw [heq, (hO.live h hh hlive).1] at hlast
    exact hne (Option.some.inj hlast).symm

/-- The first `dispose` of a handle keeps layout and ownership, since it hands the slot to the queue
only with the handle. -/
theorem Ownership.dispose_of_live (hO : Ownership p) (hL : Layout p) (hh : h ∈ p.held)
    (hlive : (p.handleAt h).disposed = false) : Layout (p.dispose h) ∧ Ownership (p.dispose h) := by
  have hr := reachable_of_held hh
  have hlt := hO.handle_lt h (.inl hr)
  obtain ⟨hholder, hmem⟩ := hL.handle h hlt
  rw [dispose, if_neg (Bool.not_eq_true _ ▸ hlive), Pool.recycleSlot]
  set p₀ : Pool C := { p with
    handleAt := Function.update p.handleAt h { p.handleAt h with disposed := true }
    slots := Function.update p.slots (p.handleAt h).slot ⟨true, none⟩ } with hp₀
  have hself : p₀.handleAt h = { p.handleAt h with disposed := true } := Function.update_self ..
  have hother : ∀ {h'}, h' ≠ h → p₀.handleAt h' = p.handleAt h' :=
    fun hne => Function.update_of_ne hne _ _
  have hsame : ∀ h', (p₀.handleAt h').slot = (p.handleAt h').slot ∧
      (p₀.handleAt h').holder = (p.handleAt h').holder := by
    intro h'
    by_cases heq : h' = h
    · subst heq
      rw [hself]
      exact ⟨rfl, rfl⟩
    · rw [hother heq]
      exact ⟨rfl, rfl⟩
  have hnot : ∀ {h'}, (p₀.handleAt h').disposed = false →
      h' ≠ h ∧ (p.handleAt h').disposed = false := by
    intro h' hlive'
    have hne : h' ≠ h := by
      rintro rfl
      rw [hself] at hlive'
      cases hlive'
    rw [hother hne] at hlive'
    exact ⟨hne, hlive'⟩
  have hslot : p₀.slots (p.handleAt h).slot = ⟨true, none⟩ := Function.update_self ..
  have hslots : ∀ {s}, s ≠ (p.handleAt h).slot → p₀.slots s = p.slots s :=
    fun hne => Function.update_of_ne hne _ _
  have hlast : ∀ s, p₀.lastIssued s = p.lastIssued s :=
    lastIssued_congr rfl fun h' _ => (hsame h').1
  have hL₀ : Layout p₀ := hL.congr rfl (fun h' _ => ⟨(hsame h').2, (hsame h').1⟩) rfl rfl rfl
    (fun _ => rfl) rfl rfl
  have hO₀ : Ownership p₀ := by
    refine ⟨hO.handle_lt, fun h' hr' => ?_, hO.nodup, fun h₁ h₂ ho₁ ho₂ heq => ?_, fun h' hq => ?_,
      hO.issued, fun h' hh' hlive' => ?_, fun h' hlast' hdisposed => ?_,
      fun h' hi hlive' hoff => ?_⟩
    · rw [(hsame h').2]
      exact hO.alive h' hr'
    · rw [(hsame h₁).1, (hsame h₂).1] at heq
      exact hO.unique h₁ h₂ ⟨ho₁.1, (hnot ho₁.2).2⟩ ⟨ho₂.1, (hnot ho₂.2).2⟩ heq
    · obtain ⟨hlive', hfresh, hauto, hclosure⟩ := hO.queued h' hq
      have hne : h' ≠ h := by
        rintro rfl
        exact hfresh (hO.issued h' hh)
      rw [hother hne]
      refine ⟨hlive', hfresh, hauto, ?_⟩
      rw [hslots (hO.slot_ne hh hlive (.inl ⟨reachable_of_queued hq, hlive'⟩) hne)]
      exact hclosure
    · obtain ⟨hne, hlive'⟩ := hnot hlive'
      obtain ⟨hlast', hdispatches⟩ := hO.live h' hh' hlive'
      have hslot' := hO.slot_ne hh hlive (.inr hlast') hne
      have hdispatches' : p₀.Dispatches h' := hdispatches.congr (hsame h').1
        (congrArg PoolHandle.closure (hother hne)) (congrArg PoolSlot.closure (hslots hslot'))
      rw [hother hne, hlast]
      exact ⟨hlast', hdispatches'⟩
    · rw [hlast, (hsame h').1] at hlast'
      rw [(hsame h').1]
      by_cases hne : h' = h
      · rw [hne, hslot]
      · rw [hother hne] at hdisposed
        rw [hslots (hO.slot_ne hh hlive (.inr hlast') hne)]
        exact hO.disposed h' hlast' hdisposed
    · obtain ⟨hne, hlive'⟩ := hnot hlive'
      rw [hother hne] at hoff
      obtain ⟨hlast', hdispatches, hauto, hqueued⟩ := hO.permanent h' hi hlive' hoff
      have hslot' := hO.slot_ne hh hlive (.inr hlast') hne
      have hdispatches' : p₀.Dispatches h' := hdispatches.congr (hsame h').1
        (congrArg PoolHandle.closure (hother hne)) (congrArg PoolSlot.closure (hslots hslot'))
      rw [hother hne]
      refine ⟨(hlast _).trans hlast', hdispatches', ?_, fun h₂ hq₂ => ?_⟩
      · rw [hslots hslot']
        exact hauto
      · rw [(hsame h₂).1]
        exact hqueued h₂ hq₂
  have hvacant : p₀.Vacant (p.handleAt h).slot := by
    refine ⟨fun h' ho heq => ?_, congrArg PoolSlot.closure hslot,
      congrArg PoolSlot.autorelease hslot⟩
    obtain ⟨hne, hlive'⟩ := hnot ho.2
    rw [hother hne] at heq
    exact hO.slot_ne hh hlive (.inl ⟨ho.1, hlive'⟩) hne heq
  exact ⟨hL₀.addHandle hholder hmem, hO₀.addHandle (hO.alive h hr) hvacant⟩

/-- `dispose` keeps layout and ownership, as often as it is called on a handle. -/
theorem Ownership.dispose (hO : Ownership p) (hL : Layout p) (hh : h ∈ p.held) :
    Layout (p.dispose h) ∧ Ownership (p.dispose h) := by
  cases hlive : (p.handleAt h).disposed with
  | false => exact hO.dispose_of_live hL hh hlive
  | true =>
    rw [Pool.dispose, if_pos hlive]
    exact ⟨hL, hO⟩

/-- `setAutoRelease` keeps layout and ownership, on a handle that has not been disposed of. -/
theorem Ownership.setAutoRelease_of_live (hO : Ownership p) (hL : Layout p) (hh : h ∈ p.held)
    (hlive : (p.handleAt h).disposed = false) (autorelease : Bool) :
    Layout (p.setAutoRelease h autorelease) ∧ Ownership (p.setAutoRelease h autorelease) := by
  rw [setAutoRelease, if_neg (Bool.not_eq_true _ ▸ hlive)]
  set p₀ : Pool C := { p with
    handleAt := Function.update p.handleAt h
      { p.handleAt h with autorelease := some autorelease }
    slots := Function.update p.slots (p.handleAt h).slot
      { p.slots (p.handleAt h).slot with autorelease := autorelease } } with hp₀
  have hself : p₀.handleAt h = { p.handleAt h with autorelease := some autorelease } :=
    Function.update_self ..
  have hother : ∀ {h'}, h' ≠ h → p₀.handleAt h' = p.handleAt h' :=
    fun hne => Function.update_of_ne hne _ _
  have hsame : ∀ h', (p₀.handleAt h').slot = (p.handleAt h').slot ∧
      (p₀.handleAt h').holder = (p.handleAt h').holder ∧
      (p₀.handleAt h').disposed = (p.handleAt h').disposed ∧
      (p₀.handleAt h').closure = (p.handleAt h').closure := by
    intro h'
    by_cases heq : h' = h
    · subst heq
      rw [hself]
      exact ⟨rfl, rfl, rfl, rfl⟩
    · rw [hother heq]
      exact ⟨rfl, rfl, rfl, rfl⟩
  have hslot : p₀.slots (p.handleAt h).slot =
      { p.slots (p.handleAt h).slot with autorelease := autorelease } := Function.update_self ..
  have hclosure : ∀ s, (p₀.slots s).closure = (p.slots s).closure := by
    intro s
    by_cases heq : s = (p.handleAt h).slot
    · rw [heq, hslot]
    · exact congrArg PoolSlot.closure (Function.update_of_ne heq _ _)
  have hlast : ∀ s, p₀.lastIssued s = p.lastIssued s :=
    lastIssued_congr rfl fun h' _ => (hsame h').1
  refine ⟨hL.congr rfl (fun h' _ => ⟨(hsame h').2.1, (hsame h').1⟩) rfl rfl rfl (fun _ => rfl) rfl
    rfl, hO.handle_lt, fun h' hr' => ?_, hO.nodup, fun h₁ h₂ ho₁ ho₂ heq => ?_, fun h' hq => ?_,
    hO.issued, fun h' hh' hlive' => ?_, fun h' hlast' hdisposed => ?_,
    fun h' hi hlive' hoff => ?_⟩
  · rw [(hsame h').2.1]
    exact hO.alive h' hr'
  · rw [(hsame h₁).1, (hsame h₂).1] at heq
    exact hO.unique h₁ h₂ ⟨ho₁.1, (hsame h₁).2.2.1.symm.trans ho₁.2⟩
      ⟨ho₂.1, (hsame h₂).2.2.1.symm.trans ho₂.2⟩ heq
  · obtain ⟨hlive', hfresh, hauto, hnull⟩ := hO.queued h' hq
    have hne : h' ≠ h := by
      rintro rfl
      exact hfresh (hO.issued h' hh)
    rw [hother hne, hclosure]
    exact ⟨hlive', hfresh, hauto, hnull⟩
  · rw [(hsame h').2.2.1] at hlive'
    obtain ⟨hlast', hdispatches⟩ := hO.live h' hh' hlive'
    refine ⟨?_, hdispatches.congr (hsame h').1 (hsame h').2.2.2 (hclosure _)⟩
    rw [(hsame h').1, hlast]
    exact hlast'
  · rw [hlast, (hsame h').1] at hlast'
    rw [(hsame h').2.2.1] at hdisposed
    rw [(hsame h').1, hclosure]
    exact hO.disposed h' hlast' hdisposed
  · rw [(hsame h').2.2.1] at hlive'
    have hdispatches : p.Dispatches h' → p₀.Dispatches h' := fun hd =>
      hd.congr (hsame h').1 (hsame h').2.2.2 (hclosure _)
    rw [(hsame h').1, hlast]
    by_cases hne : h' = h
    · subst hne
      rw [hself] at hoff
      obtain rfl : autorelease = false := Option.some.inj hoff
      obtain ⟨hlast', hdispatches'⟩ := hO.live h' hh hlive
      refine ⟨hlast', hdispatches hdispatches', ?_, fun h₂ hq₂ => ?_⟩
      · exact congrArg PoolSlot.autorelease hslot
      · obtain ⟨hlive₂, hfresh, -, -⟩ := hO.queued h₂ hq₂
        rw [(hsame h₂).1]
        refine hO.slot_ne hh hlive (.inl ⟨reachable_of_queued hq₂, hlive₂⟩) ?_
        rintro rfl
        exact hfresh (hO.issued h₂ hh)
    · rw [hother hne] at hoff
      obtain ⟨hlast', hdispatches', hauto, hqueued⟩ := hO.permanent h' hi hlive' hoff
      refine ⟨hlast', hdispatches hdispatches', ?_, fun h₂ hq₂ => ?_⟩
      · have hother' : p₀.slots (p.handleAt h').slot = p.slots (p.handleAt h').slot :=
          Function.update_of_ne (hO.slot_ne hh hlive (.inr hlast') hne) _ _
        rw [hother']
        exact hauto
      · rw [(hsame h₂).1]
        exact hqueued h₂ hq₂

/-- `setAutoRelease` keeps layout and ownership on any handle that is held, disposed of or not. -/
theorem Ownership.setAutoRelease (hO : Ownership p) (hL : Layout p) (hh : h ∈ p.held)
    (autorelease : Bool) :
    Layout (p.setAutoRelease h autorelease) ∧ Ownership (p.setAutoRelease h autorelease) := by
  cases hlive : (p.handleAt h).disposed with
  | false => exact hO.setAutoRelease_of_live hL hh hlive autorelease
  | true =>
    rw [Pool.setAutoRelease, if_pos hlive]
    exact ⟨hL, hO⟩

/-- Nobody loses a slot when a program drops a handle. -/
theorem Ownership.drop (hO : Ownership p) (h : ℕ) :
    Ownership { p with held := p.held.erase h } := by
  have hheld : ∀ {h'}, h' ∈ p.held.erase h → h' ∈ p.held := List.mem_of_mem_erase
  have hreach : ∀ {h'}, Reachable { p with held := p.held.erase h } h' → p.Reachable h' :=
    fun hr => hr.imp_right (Or.imp_right hheld)
  refine ⟨fun h' hr => hO.handle_lt h' (hr.imp_left hreach), fun h' hr => hO.alive h' (hreach hr),
    hO.nodup.sublist (List.Sublist.append_left List.erase_sublist _),
    fun h₁ h₂ ho₁ ho₂ => hO.unique h₁ h₂ ⟨hreach ho₁.1, ho₁.2⟩ ⟨hreach ho₂.1, ho₂.2⟩, hO.queued,
    fun h' hh' => hO.issued h' (hheld hh'), fun h' hh' => hO.live h' (hheld hh'), hO.disposed,
    hO.permanent⟩

/-- When a holder that nothing refers to is collected, its magazine is recycled, and each slot in
use keeps its owner. -/
theorem Ownership.collect {holder : ℕ} (hO : Ownership p) (hL : Layout p)
    (hlt : holder < p.holderCount) (hnot : holder ∉ p.collected) (hfree : p.Unreferenced holder) :
    Layout ({ p with collected := holder :: p.collected }.recycleMagazine (p.holderAt holder)) ∧
      Ownership
        ({ p with collected := holder :: p.collected }.recycleMagazine (p.holderAt holder)) := by
  have hkeep : ∀ {holder'}, holder' ∉ holder :: p.collected →
      holder' ≠ holder ∧ holder' ∉ p.collected := fun hmem =>
    ⟨List.ne_of_not_mem_cons hmem, List.not_mem_of_not_mem_cons hmem⟩
  have hO₀ : Ownership { p with collected := holder :: p.collected } := by
    refine ⟨hO.handle_lt, fun h hr => ?_, hO.nodup, hO.unique, hO.queued, hO.issued, hO.live,
      hO.disposed, hO.permanent⟩
    refine List.not_mem_cons_of_ne_of_not_mem (hfree h ?_) (hO.alive h hr)
    rw [List.mem_append, List.mem_append, or_assoc]
    exact hr
  have hL₀ : Layout { p with collected := holder :: p.collected } := by
    refine ⟨hL.handle, hL.holder_lt, hL.slot_lt, hL.slot_magazine, hL.slots_nodup, ?_, ?_⟩
    · intro holder₁ hlt₁ holder₂ hlt₂ hnot₁ hnot₂
      exact hL.active holder₁ hlt₁ holder₂ hlt₂ (hkeep hnot₁).2 (hkeep hnot₂).2
    · intro holder' hmem
      rcases List.mem_cons.mp hmem with rfl | hmem
      · exact hlt
      · exact hL.collected_lt holder' hmem
  refine hO₀.recycleMagazine hL₀ (hL.holder_lt holder hlt) fun holder' hlt' hnot' heq => ?_
  obtain ⟨hne, hnot'⟩ := hkeep hnot'
  exact hne (hL.active holder' hlt' holder hlt hnot' hnot heq)

/-! ### Runs -/

/-- Each step of the pool and of the program keeps layout and ownership. -/
theorem Ownership.step {a : Act C} (hinv : Layout p ∧ Ownership p) (ha : step a p = some p') :
    Layout p' ∧ Ownership p' := by
  obtain ⟨hL, hO⟩ := hinv
  cases a with
  | newClosureHandle closure sizes => exact hO.newClosureHandle hL ha
  | dispose h =>
    obtain ⟨hh, heq⟩ := Option.ite_none_right_eq_some.mp ha
    cases heq
    exact hO.dispose hL hh
  | setAutoRelease h autorelease =>
    obtain ⟨hh, heq⟩ := Option.ite_none_right_eq_some.mp ha
    cases heq
    exact hO.setAutoRelease hL hh autorelease
  | drop h =>
    cases ha
    exact ⟨hL.congr rfl (fun _ _ => ⟨rfl, rfl⟩) rfl rfl rfl (fun _ => rfl) rfl rfl, hO.drop h⟩
  | collect holder =>
    obtain ⟨⟨hlt, hnot, hfree⟩, heq⟩ := Option.ite_none_right_eq_some.mp ha
    cases heq
    exact hO.collect hL hlt hnot hfree

theorem ownership_initial : Layout (initial : Pool C) ∧ Ownership (initial : Pool C) := by
  have hreach : ∀ {h}, ¬(initial : Pool C).Reachable h := by
    rintro h (hr | hr | hr) <;> cases hr
  constructor
  · exact ⟨by rintro h ⟨⟩, by rintro h ⟨⟩, by rintro h ⟨⟩, by rintro h ⟨⟩, by rintro h ⟨⟩,
      by rintro h ⟨⟩, by rintro h ⟨⟩⟩
  · refine ⟨?_, fun h hr => absurd hr hreach, List.nodup_nil,
      fun h _ ho => absurd ho.1 hreach, fun h hq => absurd (reachable_of_queued hq) hreach, ?_, ?_,
      ?_, ?_⟩
    · rintro h (hr | hi)
      · exact absurd hr hreach
      · cases hi
    · rintro h ⟨⟩
    · rintro h ⟨⟩
    · rintro h ⟨⟩
    · rintro h ⟨⟩

/-! ### Handles that were disposed of -/

/-- Some time later, when handles that were disposed of still are. -/
structure Later (p p' : Pool C) : Prop where
  count : p.handleCount ≤ p'.handleCount
  disposed : ∀ h < p.handleCount, (p.handleAt h).disposed = true → (p'.handleAt h).disposed = true

theorem Later.trans {p'' : Pool C} (h : Later p p') (h' : Later p' p'') : Later p p'' :=
  ⟨h.count.trans h'.count, fun x hx hd =>
    h'.disposed x (Nat.lt_of_lt_of_le hx h.count) (h.disposed x hx hd)⟩

/-- Whether one pool is later than another is decided by the handles. -/
theorem Later.of_handles (hcount : p'.handleCount = p.handleCount)
    (hhandle : ∀ h, (p.handleAt h).disposed = true → (p'.handleAt h).disposed = true) :
    Later p p' :=
  ⟨hcount.symm.le, fun h _ => hhandle h⟩

theorem later_addHandle (full : Bool) (holder s : ℕ) (p : Pool C) :
    Later p (p.addHandle full holder s) := by
  refine ⟨Nat.le_succ _, fun h hh hd => ?_⟩
  rw [handleAt_addHandle_of_lt hh]
  exact hd

theorem later_useMagazine (m : ℕ) (p : Pool C) : Later p (p.useMagazine m) := by
  have hfold : ∀ (full : Bool) (holder : ℕ) (l : List ℕ) (p : Pool C),
      Later p (l.foldl (Pool.addHandle full holder) p) := by
    intro full holder l
    induction l with
    | nil => exact fun p => .of_handles rfl fun _ => id
    | cons s l ih => exact fun p => (later_addHandle full holder s p).trans (ih _)
  refine Later.trans ?_ (hfold _ _ _ _)
  exact .of_handles rfl fun _ => id

theorem later_recycleMagazine (m : ℕ) (p : Pool C) : Later p (p.recycleMagazine m) := by
  rw [recycleMagazine]
  dsimp only
  split
  · refine Later.trans ?_ (later_useMagazine _ _)
    exact .of_handles rfl fun _ => id
  · exact .of_handles rfl fun _ => id

theorem later_poll (hpoll : p.poll = some (h, q)) : Later p q := by
  rw [(polled_of_poll hpoll).eq]
  exact .of_handles rfl fun _ => id

theorem later_allocateNewHandle {sizes : List ℕ}
    (hnew : p.allocateNewHandle sizes = some (h, q)) : Later p q := by
  induction sizes generalizing p with
  | nil => exact later_poll hnew
  | cons size sizes ih =>
    rw [allocateNewHandle] at hnew
    split at hnew
    case h_1 r hpoll =>
      cases hnew
      exact later_poll hpoll
    case h_2 hpoll =>
      have hmagazine : Later p (p.newMagazine size) := .of_handles rfl fun _ => id
      refine (hmagazine.trans (later_useMagazine p.magazineCount _)).trans ?_
      refine Later.trans ?_ (ih hnew)
      exact .of_handles rfl fun _ => id

theorem later_issue (closure : C) (h : ℕ) (p : Pool C) : Later p (p.issue closure h) :=
  .of_handles rfl fun h' hd => (handleAt_issue closure h h').2.2.1.trans hd

theorem disposed_update {handleAt : ℕ → PoolHandle C} {handle : PoolHandle C}
    (hhandle : (handleAt h).disposed = true → handle.disposed = true) (h' : ℕ)
    (hd : (handleAt h').disposed = true) :
    (Function.update handleAt h handle h').disposed = true := by
  by_cases heq : h' = h
  · subst heq
    rw [Function.update_self]
    exact hhandle hd
  · rw [Function.update_of_ne heq]
    exact hd

theorem later_dispose (h : ℕ) (p : Pool C) : Later p (p.dispose h) := by
  rw [dispose]
  split
  · exact .of_handles rfl fun _ => id
  · rw [Pool.recycleSlot]
    refine Later.trans ?_ (later_addHandle _ _ _ _)
    exact .of_handles rfl (disposed_update fun _ => rfl)

theorem later_setAutoRelease (h : ℕ) (autorelease : Bool) (p : Pool C) :
    Later p (p.setAutoRelease h autorelease) := by
  rw [setAutoRelease]
  split
  · exact .of_handles rfl fun _ => id
  · exact .of_handles rfl (disposed_update id)

/-- Once disposed of, a handle stays so in every step. -/
theorem later_of_step {a : Act C} (ha : step a p = some p') : Later p p' := by
  cases a with
  | newClosureHandle closure sizes =>
    change Pool.newClosureHandle closure sizes p = some p' at ha
    rw [newClosureHandle] at ha
    split at ha
    case h_1 h q hpoll =>
      cases ha
      exact (later_poll hpoll).trans (later_issue closure h q)
    case h_2 =>
      obtain ⟨r, halloc, rfl⟩ := Option.map_eq_some_iff.mp ha
      exact (later_allocateNewHandle halloc).trans (later_issue closure r.1 r.2)
  | dispose h =>
    obtain ⟨-, heq⟩ := Option.ite_none_right_eq_some.mp ha
    cases heq
    exact later_dispose h p
  | setAutoRelease h autorelease =>
    obtain ⟨-, heq⟩ := Option.ite_none_right_eq_some.mp ha
    cases heq
    exact later_setAutoRelease h autorelease p
  | drop h =>
    cases ha
    exact .of_handles rfl fun _ => id
  | collect holder =>
    obtain ⟨-, heq⟩ := Option.ite_none_right_eq_some.mp ha
    cases heq
    refine Later.trans ?_ (later_recycleMagazine _ _)
    exact .of_handles rfl fun _ => id

/-- After `dispose` a handle has been disposed of, whether or not it was before. -/
theorem disposed_dispose (hlt : h < p.handleCount) :
    ((p.dispose h).handleAt h).disposed = true := by
  rw [dispose]
  split
  case isTrue hdisposed => exact hdisposed
  case isFalse =>
    rw [Pool.recycleSlot, addHandle]
    dsimp only
    rw [Function.update_of_ne (Nat.ne_of_lt hlt), Function.update_self]

/-- What a program may rely on follows from who owns what. -/
theorem Ownership.kept (hO : Ownership p) : Kept p := by
  refine ⟨hO.unique, hO.nodup, fun h hh hlive => (hO.live h hh hlive).2, hO.disposed,
    fun h hi hlive hoff => ?_, fun h hh acts p' hruns => ?_⟩
  · obtain ⟨hlast, hdispatches, -⟩ := hO.permanent h hi hlive hoff
    exact ⟨hlast, hdispatches⟩
  · have hlt := hO.handle_lt h (.inl (reachable_of_held hh))
    have hlater : Later (p.dispose h) p' := by
      refine runs_invariant (I := Later (p.dispose h)) (fun a s s' hs ha => ?_) ?_ hruns
      · exact hs.trans (later_of_step ha)
      · exact .of_handles rfl fun _ => id
    have hdisposed := hlater.disposed h (Nat.lt_of_lt_of_le hlt (later_dispose h p).count)
      (disposed_dispose hlt)
    rw [Pool.dispose, if_pos hdisposed]

/-- **A slot has one owner, after every run** of the pool, and so all that a program may rely on
holds. -/
theorem kept_of_runs {acts : List (Act C)} (hruns : runs step acts initial = some p) : Kept p :=
  (runs_invariant (I := fun p => Layout p ∧ Ownership p) (fun _ _ _ hI ha => Ownership.step hI ha)
    ownership_initial hruns).2.kept

/-- One closure is kept for good, another is disposed of twice, and the magazine of both is
recycled. -/
def recycled : List (Act ℕ) :=
  [.newClosureHandle 7 [2], .setAutoRelease 0 false, .newClosureHandle 8 [], .dispose 1, .dispose 1,
    .newClosureHandle 9 [], .drop 0, .drop 1, .drop 2, .collect 0, .newClosureHandle 10 []]

theorem kept_recycled :
    ∃ p : Pool ℕ, runs step recycled initial = some p ∧ p.issued = [3, 2, 1, 0] ∧ Kept p := by
  have hissued : (runs step recycled initial).map issued = some [3, 2, 1, 0] := by decide
  obtain ⟨p, hp, h⟩ := Option.map_eq_some_iff.mp hissued
  exact ⟨p, hp, h, kept_of_runs hp⟩

end Pool

end Jffi
