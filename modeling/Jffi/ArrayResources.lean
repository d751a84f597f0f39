import Jffi.Exceptions
import Jffi.ObjectFates

/-!
# The resources of a call with objects

Every array that a call acquires joins a list, and `jffi_releaseArrays` works that list off from its
end. So whatever stops the call, what is on the list is given back once; and the arrays that were
pinned last are released first, before anything is copied back. What never got onto the list is
lost.

## Main definitions

* `Accounted` — what was acquired is given back, and copied back only where it should be
* `QuietWhilePinned` — no call into the virtual machine while an array is pinned

## Main results

* `releaseArrays_trace`, `releaseArrays_defined` — giving arrays back
* `accounted_iff` — when the resources of a call are accounted for
* `quiet_iff` — when a call is quiet
-/

namespace Jffi

open ObjectBuffer

variable {s s' : Native} {a : NativeArray} {arrays arrays' : List NativeArray}

/-! ### Giving back -/

theorem releaseArrays_append (arrays arrays' : List NativeArray) (s : Native) :
    releaseArrays (arrays ++ arrays') s =
      (releaseArrays arrays' s).bind (releaseArrays arrays) := by
  induction arrays with
  | nil =>
    rw [List.nil_append]
    cases releaseArrays arrays' s with
    | none => rfl
    | some s' => rfl
  | cons a arrays ih =>
    rw [List.cons_append, releaseArrays, ih, Option.bind_eq_bind, Option.bind_assoc]
    rfl

/-- Between `s` and `s'` the blocks `freed` and the pins `unpinned` were given back, in that order,
and nothing was acquired. -/
def Returns (freed unpinned : List ℕ) (s s' : Native) : Prop :=
  ∃ tr, s'.log = s.log ++ tr ∧ heapLedger.opened tr = [] ∧ pinLedger.opened tr = [] ∧
    heapLedger.closed tr = freed ∧ pinLedger.closed tr = unpinned

theorem Returns.trans {s₁ s₂ s₃ : Native} {freed freed' unpinned unpinned' : List ℕ}
    (h : Returns freed unpinned s₁ s₂) (h' : Returns freed' unpinned' s₂ s₃) :
    Returns (freed ++ freed') (unpinned ++ unpinned') s₁ s₃ := by
  obtain ⟨tr, hlog, hmalloc, hpin, hfree, hunpin⟩ := h
  obtain ⟨tr', hlog', hmalloc', hpin', hfree', hunpin'⟩ := h'
  refine ⟨tr ++ tr', by rw [hlog', hlog, List.append_assoc], ?_, ?_, ?_, ?_⟩
  · rw [Ledger.opened_append, hmalloc, hmalloc']
    rfl
  · rw [Ledger.opened_append, hpin, hpin']
    rfl
  · rw [Ledger.closed_append, hfree, hfree']
  · rw [Ledger.closed_append, hunpin, hunpin']

theorem returns_onlyJni {tr : List Event} (htr : OnlyJni tr) (hlog : s'.log = s.log ++ tr) :
    Returns [] [] s s' :=
  ⟨tr, hlog, htr.mallocs, htr.pins, htr.frees, htr.unpins⟩

theorem copyOut_returns (h : copyOut a s = some s') : Returns [] [] s s' := by
  unfold copyOut at h
  split at h
  · split at h
    · dsimp only [Native.exceptionCheck] at h
      split at h
      · cases h
        exact returns_onlyJni (onlyJni_singleton .exceptionCheck) rfl
      · obtain ⟨⟨r, x⟩, -, h⟩ := Option.bind_eq_some_iff.mp h
        have htwo : OnlyJni [.jni .exceptionCheck, .jni .setArrayRegion] :=
          (onlyJni_singleton _).append (onlyJni_singleton _)
        dsimp only at h
        split at h
        · obtain ⟨xs, -, h⟩ := Option.bind_eq_some_iff.mp h
          obtain ⟨cells, -, h⟩ := Option.bind_eq_some_iff.mp h
          cases h
          exact returns_onlyJni htwo (by simp [Native.logged])
        · cases h
          exact returns_onlyJni htwo (by simp [Native.logged])
    · cases h
      exact returns_onlyJni onlyJni_nil (List.append_nil _).symm
  · cases h
    exact returns_onlyJni onlyJni_nil (List.append_nil _).symm

theorem releaseElems_returns (ha : a.Releasable) (h : releaseElems a s = some s') :
    Returns ([a].filterMap NativeArray.heapBlock) ([a].filterMap NativeArray.pinnedRef) s s' := by
  unfold releaseElems at h
  cases hrelease : a.release with
  | none =>
    rw [hrelease] at h
    cases h
    have hheap : [a].filterMap NativeArray.heapBlock = [] := by
      simp [NativeArray.heapBlock, hrelease]
    have hpinned : [a].filterMap NativeArray.pinnedRef = [] := by
      simp [NativeArray.pinnedRef, hrelease]
    rw [hheap, hpinned]
    exact returns_onlyJni onlyJni_nil (List.append_nil _).symm
  | some release =>
    cases release with
    | heapArray =>
      obtain ⟨b, hb⟩ := ha.heap hrelease
      have hheap : [a].filterMap NativeArray.heapBlock = [b] := by
        simp [NativeArray.heapBlock, hrelease, hb]
      have hpinned : [a].filterMap NativeArray.pinnedRef = [] := by
        simp [NativeArray.pinnedRef, hrelease]
      rw [hheap, hpinned]
      rw [hrelease, hb] at h
      obtain ⟨blk, -, h⟩ := Option.bind_eq_some_iff.mp h
      split at h
      · cases h
        exact ⟨[.free b], rfl, rfl, rfl, rfl, rfl⟩
      · cases h
    | criticalArray =>
      obtain ⟨r, hr⟩ := ha.critical hrelease
      have hheap : [a].filterMap NativeArray.heapBlock = [] := by
        simp [NativeArray.heapBlock, hrelease]
      have hpinned : [a].filterMap NativeArray.pinnedRef = [r] := by
        simp [NativeArray.pinnedRef, hrelease, hr]
      rw [hheap, hpinned]
      rw [hrelease, hr] at h
      cases h
      exact ⟨[.unpin r], rfl, rfl, rfl, rfl, rfl⟩

theorem reverse_filterMap_singleton (f : NativeArray → Option ℕ) (a : NativeArray) :
    ([a].filterMap f).reverse = [a].filterMap f := by
  cases h : f a <;> simp [h]

/-- **Everything on the list is given back**, the last first: each block from `malloc` is freed and
each pinned array released, once. -/
theorem releaseArrays_returns (h : ∀ a ∈ arrays, a.Releasable)
    (hs : releaseArrays arrays s = some s') :
    Returns (arrays.filterMap NativeArray.heapBlock).reverse
      (arrays.filterMap NativeArray.pinnedRef).reverse s s' := by
  induction arrays generalizing s' with
  | nil =>
    cases hs
    exact returns_onlyJni onlyJni_nil (List.append_nil _).symm
  | cons a arrays ih =>
    obtain ⟨s₁, hrest, hs⟩ := Option.bind_eq_some_iff.mp hs
    obtain ⟨s₂, hout, helems⟩ := Option.bind_eq_some_iff.mp hs
    have htail := ih (fun b hb => h b (List.mem_cons_of_mem a hb)) hrest
    have hhead := (copyOut_returns hout).trans
      (releaseElems_returns (h a (List.mem_cons_self ..)) helems)
    have hall := htail.trans hhead
    have hcons : a :: arrays = [a] ++ arrays := rfl
    rw [hcons, List.filterMap_append, List.filterMap_append, List.reverse_append,
      List.reverse_append, reverse_filterMap_singleton, reverse_filterMap_singleton]
    exact hall

/-! ### What is copied back -/

theorem copyOut_arrays (h : copyOut a s = some s') :
    (s.pending.isSome = true → s'.arrays = s.arrays ∧ s'.pending = s.pending) ∧
      ∀ r, s'.arrays[r]? ≠ s.arrays[r]? →
        a.array = some (.array r) ∧ a.copyout.isSome = true := by
  unfold copyOut at h
  split at h
  · rename_i t hcopyout
    rw [hcopyout]
    split at h
    · dsimp only [Native.exceptionCheck] at h
      split at h
      · cases h
        exact ⟨fun _ => ⟨rfl, rfl⟩, fun r hr => absurd rfl hr⟩
      · rename_i hthrown
        refine ⟨fun h => absurd h hthrown, fun r hr => ⟨?_, rfl⟩⟩
        obtain ⟨⟨r', x⟩, harray, h⟩ := Option.bind_eq_some_iff.mp h
        have hr' : a.array = some (.array r') := by
          unfold Native.arrayOf at harray
          split at harray
          · obtain ⟨y, -, harray⟩ := Option.bind_eq_some_iff.mp harray
            split at harray
            · cases harray
              assumption
            · cases harray
          · cases harray
        dsimp only at h
        split at h
        · obtain ⟨xs, -, h⟩ := Option.bind_eq_some_iff.mp h
          obtain ⟨cells, -, h⟩ := Option.bind_eq_some_iff.mp h
          cases h
          by_cases hrr : r = r'
          · rw [hrr]
            exact hr'
          · refine absurd ?_ hr
            exact List.getElem?_set_ne (Ne.symm hrr)
        · cases h
          exact absurd rfl hr
    · cases h
      exact ⟨fun _ => ⟨rfl, rfl⟩, fun r hr => absurd rfl hr⟩
  · cases h
    exact ⟨fun _ => ⟨rfl, rfl⟩, fun r hr => absurd rfl hr⟩

theorem releaseElems_arrays (h : releaseElems a s = some s') :
    s'.arrays = s.arrays ∧ s'.pending = s.pending := by
  refine ⟨?_, pending_releaseElems h⟩
  unfold releaseElems at h
  split at h
  · unfold Native.free at h
    split at h
    · cases h
      rfl
    · obtain ⟨blk, -, h⟩ := Option.bind_eq_some_iff.mp h
      split at h
      · cases h
        rfl
      · cases h
    · cases h
  · unfold Native.releasePrimitiveArrayCritical at h
    split at h
    · cases h
      rfl
    · cases h
  · cases h
    rfl

/-- **Copying back**: nothing, while an exception is pending; and to no array but those whose
elements are to be copied back. -/
theorem releaseArrays_arrays (h : releaseArrays arrays s = some s') :
    (s.pending.isSome = true → s'.arrays = s.arrays ∧ s'.pending = s.pending) ∧
      ∀ r, s'.arrays[r]? ≠ s.arrays[r]? →
        ∃ a ∈ arrays, a.array = some (.array r) ∧ a.copyout.isSome = true := by
  induction arrays generalizing s' with
  | nil =>
    cases h
    exact ⟨fun _ => ⟨rfl, rfl⟩, fun r hr => absurd rfl hr⟩
  | cons a arrays ih =>
    obtain ⟨s₁, hrest, h⟩ := Option.bind_eq_some_iff.mp h
    obtain ⟨s₂, hout, helems⟩ := Option.bind_eq_some_iff.mp h
    obtain ⟨hstopped, hcopied⟩ := ih hrest
    obtain ⟨hstopped', hcopied'⟩ := copyOut_arrays hout
    obtain ⟨harrays, hpending⟩ := releaseElems_arrays helems
    constructor
    · intro hthrown
      obtain ⟨h₁, hp₁⟩ := hstopped hthrown
      obtain ⟨h₂, hp₂⟩ := hstopped' (hp₁ ▸ hthrown)
      exact ⟨harrays.trans (h₂.trans h₁), hpending.trans (hp₂.trans hp₁)⟩
    · intro r hr
      rw [harrays] at hr
      by_cases hr' : s₂.arrays[r]? = s₁.arrays[r]?
      · obtain ⟨x, hx, hcopy⟩ := hcopied r (hr' ▸ hr)
        exact ⟨x, List.mem_cons_of_mem a hx, hcopy⟩
      · exact ⟨a, List.mem_cons_self .., hcopied' r hr'⟩

/-! ### After an exception -/

theorem copyOut_pending (a : NativeArray) (h : s.pending.isSome = true) :
    ∃ s', copyOut a s = some s' ∧ s'.blocks = s.blocks ∧ s'.pending = s.pending := by
  rw [copyOut]
  split
  · split
    · dsimp only [Native.exceptionCheck]
      exact ⟨_, if_pos h, rfl, rfl⟩
    · exact ⟨s, rfl, rfl, rfl⟩
  · exact ⟨s, rfl, rfl, rfl⟩

theorem releaseElems_defined (ha : a.Releasable)
    (howned : ∀ b ∈ [a].filterMap NativeArray.heapBlock,
      ∃ blk, s.blocks[b]? = some blk ∧ blk.live = true ∧ blk.storage = .heap) :
    ∃ s', releaseElems a s = some s' ∧ s'.pending = s.pending ∧
      ∀ b, b ∉ [a].filterMap NativeArray.heapBlock → s'.blocks[b]? = s.blocks[b]? := by
  rw [releaseElems]
  cases hrelease : a.release with
  | none => exact ⟨s, rfl, rfl, fun _ _ => rfl⟩
  | some release =>
    cases release with
    | heapArray =>
      obtain ⟨b, hb⟩ := ha.heap hrelease
      have hheap : [a].filterMap NativeArray.heapBlock = [b] := by
        simp [NativeArray.heapBlock, hrelease, hb]
      rw [hheap] at howned ⊢
      obtain ⟨⟨storage, live, cells⟩, hblk, rfl, rfl⟩ := howned b (List.mem_singleton_self b)
      let freed : Native := { s with blocks := s.blocks.set b ⟨.heap, false, cells⟩ }
      refine ⟨freed.logged (.free b), ?_, rfl, fun b' hb' => ?_⟩
      · rw [hb]
        simp only [Native.free, hblk, Option.bind_eq_bind, Option.bind_some, and_self, if_true]
        rfl
      · exact List.getElem?_set_ne fun h => hb' (List.mem_singleton.mpr h.symm)
    | criticalArray =>
      obtain ⟨r, hr⟩ := ha.critical hrelease
      dsimp only
      rw [hr]
      exact ⟨_, rfl, rfl, fun _ _ => rfl⟩

/-- With an exception pending nothing is copied back, so that everything can be given back, whatever
lies in the buffers. -/
theorem releaseArrays_defined (h : s.pending.isSome = true)
    (hreleasable : ∀ a ∈ arrays, a.Releasable)
    (howned : ∀ b ∈ arrays.filterMap NativeArray.heapBlock,
      ∃ blk, s.blocks[b]? = some blk ∧ blk.live = true ∧ blk.storage = .heap)
    (hnodup : (arrays.filterMap NativeArray.heapBlock).Nodup) :
    ∃ s', releaseArrays arrays s = some s' ∧ s'.pending = s.pending ∧
      ∀ b, b ∉ arrays.filterMap NativeArray.heapBlock → s'.blocks[b]? = s.blocks[b]? := by
  induction arrays with
  | nil => exact ⟨s, rfl, rfl, fun _ _ => rfl⟩
  | cons a arrays ih =>
    have hcons : (a :: arrays).filterMap NativeArray.heapBlock =
        [a].filterMap NativeArray.heapBlock ++ arrays.filterMap NativeArray.heapBlock :=
      List.filterMap_append (l := [a])
    rw [hcons] at howned hnodup ⊢
    obtain ⟨-, htail, hdisjoint⟩ := List.nodup_append.mp hnodup
    obtain ⟨s₁, hs₁, hp₁, hkeep₁⟩ := ih (fun b hb => hreleasable b (List.mem_cons_of_mem a hb))
      (fun b hb => howned b (List.mem_append_right _ hb)) htail
    obtain ⟨s₂, hs₂, hblocks₂, hp₂⟩ := copyOut_pending a (hp₁ ▸ h)
    obtain ⟨s₃, hs₃, hp₃, hkeep₃⟩ := @releaseElems_defined s₂ a
      (hreleasable a (List.mem_cons_self ..)) fun b hb => by
        rw [hblocks₂, hkeep₁ b fun hb' => hdisjoint b hb b hb' rfl]
        exact howned b (List.mem_append_left _ hb)
    refine ⟨s₃, ?_, hp₃.trans (hp₂.trans hp₁), fun b hb => ?_⟩
    · simp only [releaseArrays, releaseArray, hs₁, hs₂, hs₃, Option.bind_eq_bind, Option.bind_some]
    · obtain ⟨hb₁, hb₂⟩ := not_or.mp fun h => hb (List.mem_append.mpr h)
      rw [hkeep₃ b hb₁, hblocks₂, hkeep₁ b hb₂]

/-! ### The trace of a call -/

/-- A list of pinned arrays is given back by calls of `ReleasePrimitiveArrayCritical` only. -/
theorem releaseArrays_critical (h : ∀ a ∈ arrays, a.Critical)
    (hs : releaseArrays arrays s = some s') :
    s'.log = s.log ++ (arrays.filterMap NativeArray.pinnedRef).reverse.map .unpin := by
  induction arrays generalizing s' with
  | nil =>
    cases hs
    exact (List.append_nil _).symm
  | cons a arrays ih =>
    obtain ⟨s₁, hrest, hs⟩ := Option.bind_eq_some_iff.mp hs
    obtain ⟨⟨r, hr⟩, hrelease, hcopyout⟩ := h a (List.mem_cons_self ..)
    have htail := ih (fun b hb => h b (List.mem_cons_of_mem a hb)) hrest
    have hpinned : a.pinnedRef = some r := by
      simp [NativeArray.pinnedRef, hrelease, hr]
    obtain ⟨s₂, hout, helems⟩ := Option.bind_eq_some_iff.mp hs
    rw [copyOut, hcopyout] at hout
    cases hout
    rw [releaseElems, hrelease, hr] at helems
    cases helems
    rw [List.filterMap_cons_some hpinned, List.reverse_cons, List.map_append,
      ← List.append_assoc, ← htail]
    rfl

theorem pinnedRef_copies {objects : List ObjectEntry}
    (h : ∀ a ∈ arrays, ∃ e ∈ objects, a.IsCopy e) :
    arrays.filterMap NativeArray.pinnedRef = [] := by
  refine List.filterMap_eq_nil_iff.mpr fun a ha => ?_
  obtain ⟨e, -, hcopy⟩ := h a ha
  rw [NativeArray.pinnedRef]
  split
  · rename_i hrelease _
    exact absurd hrelease hcopy.release
  · rfl

theorem heapBlock_critical (h : ∀ a ∈ arrays, a.Critical) :
    arrays.filterMap NativeArray.heapBlock = [] := by
  refine List.filterMap_eq_nil_iff.mpr fun a ha => ?_
  rw [NativeArray.heapBlock, (h a ha).release]

theorem opened_pinEvents (new : List NativeArray) :
    pinLedger.opened (pinEvents new) = new.filterMap NativeArray.pinnedRef := by
  rw [pinEvents, Ledger.opened, List.filterMap_map]
  exact List.filterMap_some

/-- The trace of a call, part by part: the objects resolved, the arrays pinned, what happened
between that and the release, the pins released, and the rest of the release. -/
structure Traced (s s' : Native) (copies pinned : List NativeArray) (lost : List ℕ)
    (tail : List Event) (resolved released : List Event) : Prop where
  log_eq : s'.log = s.log ++ (resolved ++ ((pinEvents pinned ++ tail ++
    (pinned.filterMap NativeArray.pinnedRef).reverse.map .unpin) ++ released))
  resolved_frees : heapLedger.closed resolved = []
  resolved_pins : pinLedger.opened resolved = []
  resolved_unpins : pinLedger.closed resolved = []
  resolved_mallocs : heapLedger.opened resolved = copies.filterMap NativeArray.heapBlock ++ lost
  released_mallocs : heapLedger.opened released = []
  released_pins : pinLedger.opened released = []
  released_unpins : pinLedger.closed released = []
  released_frees : heapLedger.closed released = (copies.filterMap NativeArray.heapBlock).reverse
  nodup : (copies.filterMap NativeArray.heapBlock).Nodup

/-- The trace of a call is that of acquiring, then the call, then that of giving back: what was
acquired, by which of the two lists, and in which order. -/
theorem exists_traced {objects : List ObjectEntry} {copies pinned : List NativeArray}
    {lost : List ℕ} {tail : List Event} {h : Holdings} {u : Native}
    (hp : h.Prepared s objects copies pinned lost tail) (hlog : u.log = h.native.log)
    (hs : releaseArrays h.arrays u = some s') :
    ∃ resolved released, Traced s s' copies pinned lost tail resolved released := by
  obtain ⟨h₁, rfl, hacq, hcopy, hpins⟩ := hp
  obtain ⟨resolved, hlog₁, hfree, hunpin, hmalloc, hpin⟩ := hacq.trace
  rw [hpins.arrays_eq, releaseArrays_append] at hs
  obtain ⟨s₁, hcritical, hs⟩ := Option.bind_eq_some_iff.mp hs
  have hlog₂ := releaseArrays_critical hpins.critical hcritical
  obtain ⟨released, hlog₃, hmalloc', hpin', hfree', hunpin'⟩ :=
    releaseArrays_returns hacq.releasable hs
  rw [pinnedRef_copies hcopy] at hpin hunpin'
  refine ⟨resolved, released, ?_, hfree, hpin, hunpin, hmalloc, hmalloc', hpin', hunpin', hfree',
    hacq.nodup⟩
  rw [hlog₃, hlog₂, hlog, hpins.log_eq, hlog₁]
  simp only [List.append_assoc]

/-! ### Accounting -/

/-- The Java arrays as the callee left them, or as they were if it was not called. -/
def leftArrays (s : Native) (result : Option CallResult) : List JavaArray :=
  (result.map fun r => r.memory.arrays).getD s.arrays

/-- An exception stopped the call: the callee was not called, or it called back Java code that
threw. -/
def Stopped (result : Option CallResult) : Prop := ∀ r, result = some r → r.thrown.isSome = true

/-- From `s` to `s'` a call with `objects` was made, to which the callee answered with `result`:
what was acquired is given back, each block once and each pin once, and copied back only into arrays
passed `OUT`, when nothing stopped the call. -/
structure Accounted (objects : List ObjectEntry) (s : Native) (result : Option CallResult)
    (s' : Native) : Prop where
  resources : ∃ tr, s'.log = s.log ++ tr ∧ heapLedger.Settled tr ∧ (heapLedger.opened tr).Nodup ∧
    pinLedger.Settled tr
  copied : ∀ r, s'.arrays[r]? ≠ (leftArrays s result)[r]? →
    ∃ e ∈ objects, e.object = some (.array r) ∧ isOutArray e.flags = true ∧ isPinned e.flags = false
  stopped : Stopped result → s'.arrays = leftArrays s result

/-- No call into the virtual machine but `Get`/`ReleasePrimitiveArrayCritical` is made from the
first pin to the last release. -/
def QuietWhilePinned (s s' : Native) : Prop :=
  ∃ tr, s'.log = s.log ++ tr ∧
    pinLedger.Outside (fun e => ∃ c, e = .jni c ∧ c ≠ .getPrimitiveArrayCritical) tr

section Accounting

variable {objects : List ObjectEntry} {copies pinned : List NativeArray} {lost : List ℕ}
  {tail : List Event} {h : Holdings} {u : Native} {resolved released : List Event}

theorem closed_map_pin (refs : List ℕ) : pinLedger.closed (refs.map .pin) = [] :=
  Ledger.closed_eq_nil _ fun e he => by
    obtain ⟨r, -, rfl⟩ := List.mem_map.mp he
    rfl

theorem opened_map_unpin (refs : List ℕ) : pinLedger.opened (refs.map .unpin) = [] :=
  Ledger.opened_eq_nil _ fun e he => by
    obtain ⟨r, -, rfl⟩ := List.mem_map.mp he
    rfl

theorem closed_map_unpin (refs : List ℕ) : pinLedger.closed (refs.map .unpin) = refs := by
  rw [Ledger.closed, List.filterMap_map]
  exact List.filterMap_some

/-- What happens between the first pin and the last unpin is nothing to `malloc` and `free`. -/
theorem heapLedger_between (htail : OnlyJni tail) :
    heapLedger.opened (pinEvents pinned ++ tail ++
        (pinned.filterMap NativeArray.pinnedRef).reverse.map .unpin) = [] ∧
      heapLedger.closed (pinEvents pinned ++ tail ++
        (pinned.filterMap NativeArray.pinnedRef).reverse.map .unpin) = [] := by
  have hevent : ∀ e ∈ pinEvents pinned ++ tail ++
      (pinned.filterMap NativeArray.pinnedRef).reverse.map .unpin,
      heapLedger.opens e = none ∧ heapLedger.closes e = none := by
    intro e he
    rcases List.mem_append.mp he with he | he
    · rcases List.mem_append.mp he with he | he
      · obtain ⟨r, -, rfl⟩ := List.mem_map.mp he
        exact ⟨rfl, rfl⟩
      · obtain ⟨c, rfl⟩ := htail e he
        exact ⟨rfl, rfl⟩
    · obtain ⟨r, -, rfl⟩ := List.mem_map.mp he
      exact ⟨rfl, rfl⟩
  exact ⟨Ledger.opened_eq_nil _ fun e he => (hevent e he).1,
    Ledger.closed_eq_nil _ fun e he => (hevent e he).2⟩

/-- **What the trace opens and closes**: the blocks of the copies and those lost, and the pins. -/
theorem Traced.settled (ht : Traced s s' copies pinned [] tail resolved released)
    (htail : OnlyJni tail) :
    ∃ tr, s'.log = s.log ++ tr ∧ heapLedger.Settled tr ∧ (heapLedger.opened tr).Nodup ∧
      pinLedger.Settled tr := by
  obtain ⟨hopened, hclosed⟩ := @heapLedger_between pinned tail htail
  refine ⟨_, ht.log_eq, ?_, ?_, ?_⟩
  · rw [← List.append_assoc]
    refine Ledger.settled_append ?_ ?_ ht.released_mallocs
    · rw [Ledger.closed_append, ht.resolved_frees, hclosed]
      rfl
    · rw [Ledger.opened_append, ht.resolved_mallocs, hopened, ht.released_frees, List.append_nil,
        List.append_nil]
      exact List.reverse_perm _
  · rw [Ledger.opened_append, Ledger.opened_append, ht.resolved_mallocs, hopened,
      ht.released_mallocs, List.append_nil, List.append_nil, List.append_nil]
    exact ht.nodup
  · have hsplit : resolved ++ ((pinEvents pinned ++ tail ++
        (pinned.filterMap NativeArray.pinnedRef).reverse.map .unpin) ++ released) =
        (resolved ++ (pinEvents pinned ++ tail)) ++
          ((pinned.filterMap NativeArray.pinnedRef).reverse.map .unpin ++ released) := by
      simp only [List.append_assoc]
    rw [hsplit]
    refine Ledger.settled_append ?_ ?_ ?_
    · rw [Ledger.closed_append, Ledger.closed_append, ht.resolved_unpins, pinEvents, closed_map_pin,
        htail.unpins]
      rfl
    · rw [Ledger.closed_append, closed_map_unpin, ht.released_unpins, List.append_nil,
        Ledger.opened_append, Ledger.opened_append, ht.resolved_pins, opened_pinEvents, htail.pins,
        List.nil_append, List.append_nil]
      exact List.reverse_perm _
    · rw [Ledger.opened_append, opened_map_unpin, ht.released_pins]
      rfl

/-- A block from `malloc` that is on no list makes the trace one in which something is not given
back. -/
theorem Traced.not_settled {b : ℕ} (ht : Traced s s' copies [] [b] [] resolved released) :
    ∀ tr, s'.log = s.log ++ tr → ¬heapLedger.Settled tr := by
  intro tr htr
  have hlog := ht.log_eq
  rw [htr] at hlog
  obtain rfl := List.append_cancel_left hlog
  refine Ledger.not_settled (r := b) ?_
  simp only [Ledger.closed_append, Ledger.opened_append, ht.resolved_frees, ht.released_frees,
    ht.resolved_mallocs, ht.released_mallocs, pinEvents, List.filterMap_nil, List.map_nil,
    List.reverse_nil, List.append_nil, List.nil_append, List.count_append, List.count_reverse,
    List.count_singleton_self]
  exact Nat.lt_succ_self _

/-- **Whatever prepared a call accounts for it**, if nothing is lost. -/
theorem Holdings.Prepared.accounted {result : Option CallResult}
    (hp : h.Prepared s objects copies pinned [] tail) (htail : OnlyJni tail)
    (hlog : u.log = h.native.log) (harrays : u.arrays = leftArrays s result)
    (hstopped : Stopped result → u.pending.isSome = true)
    (hs : releaseArrays h.arrays u = some s') : Accounted objects s result s' := by
  obtain ⟨resolved, released, ht⟩ := exists_traced hp hlog hs
  obtain ⟨hkept, hcopied⟩ := releaseArrays_arrays hs
  refine ⟨ht.settled htail, fun r hr => ?_, fun h => ?_⟩
  · rw [← harrays] at hr
    obtain ⟨a, ha, harray, hcopyout⟩ := hcopied r hr
    obtain ⟨h₁, rfl, -, hcopy, hpins⟩ := hp
    rw [hpins.arrays_eq] at ha
    rcases List.mem_append.mp ha with ha | ha
    · obtain ⟨e, he, hae⟩ := hcopy a ha
      obtain ⟨hout, hnot⟩ := hae.copyout hcopyout
      exact ⟨e, he, hae.array_eq.symm.trans harray, hout, hnot⟩
    · rw [(hpins.critical a ha).copyout] at hcopyout
      cases hcopyout
  · rw [(hkept (hstopped h)).1, harrays]

/-- **A call is quiet** if it pins nothing or calls nothing after the pins. -/
theorem Traced.quiet (ht : Traced s s' copies pinned lost tail resolved released)
    (htail : tail ≠ [] → pinned = []) (hjni : OnlyJni tail) : QuietWhilePinned s s' := by
  refine ⟨_, ht.log_eq, ?_⟩
  by_cases hnil : tail = []
  · refine Ledger.outside_append ht.resolved_pins (fun e he => ?_) ht.released_unpins
    rw [hnil, List.append_nil] at he
    rintro ⟨c, rfl, -⟩
    rcases List.mem_append.mp he with he | he
    · obtain ⟨r, -, h⟩ := List.mem_map.mp he
      cases h
    · obtain ⟨r, -, h⟩ := List.mem_map.mp he
      cases h
  · rw [htail hnil]
    have hresolved : pinLedger.opened (resolved ++ tail) = [] := by
      rw [Ledger.opened_append, ht.resolved_pins, hjni.pins]
      rfl
    have houtside := @Ledger.outside_append _ _ pinLedger
      (fun e => ∃ c, e = .jni c ∧ c ≠ .getPrimitiveArrayCritical) (resolved ++ tail) [] released
      hresolved (fun e he => absurd he List.not_mem_nil) ht.released_unpins
    simpa [pinEvents] using houtside

/-- **A call is not quiet** if a pin fails after another. -/
theorem Traced.not_quiet {tr : List Event} (hpinned : pinned ≠ [])
    (hcritical : ∀ a ∈ pinned, a.Critical)
    (ht : Traced s s' copies pinned lost
      (.jni .getPrimitiveArrayCritical :: .jni .exceptionCheck :: tr) resolved released) :
    ¬QuietWhilePinned s s' := by
  rintro ⟨tr', htr', houtside⟩
  have hrefs : pinned.filterMap NativeArray.pinnedRef ≠ [] := by
    obtain ⟨a, rest, rfl⟩ := List.exists_cons_of_ne_nil hpinned
    obtain ⟨⟨r, hr⟩, hrelease, -⟩ := hcritical a (List.mem_cons_self ..)
    have ha : a.pinnedRef = some r := by simp [NativeArray.pinnedRef, hrelease, hr]
    rw [List.filterMap_cons_some ha]
    exact List.cons_ne_nil _ _
  have hlog := ht.log_eq
  rw [htr'] at hlog
  have hsplit : tr' = (resolved ++ pinEvents pinned ++ [.jni .getPrimitiveArrayCritical]) ++
      .jni .exceptionCheck :: (tr ++
        ((pinned.filterMap NativeArray.pinnedRef).reverse.map .unpin ++ released)) := by
    rw [List.append_cancel_left hlog]
    simp only [List.append_assoc, List.cons_append, List.nil_append]
  rw [hsplit] at houtside
  refine Ledger.not_outside ?_ ⟨.exceptionCheck, rfl, by decide⟩ ?_ houtside
  · rw [Ledger.opened_append, Ledger.opened_append, opened_pinEvents]
    intro h
    exact hrefs (List.append_eq_nil_iff.mp (List.append_eq_nil_iff.mp h).1).2
  · rw [Ledger.closed_append, Ledger.closed_append, closed_map_unpin]
    intro h
    exact hrefs (List.reverse_eq_nil_iff.mp
      (List.append_eq_nil_iff.mp (List.append_eq_nil_iff.mp h).2).1)

theorem NativeArray.Critical.releasable (ha : a.Critical) : a.Releasable where
  heap h := by cases ha.release.symm.trans h
  critical _ := ha.array

/-- After an exception everything that was acquired can be given back. -/
theorem Holdings.Prepared.releases (hp : h.Prepared s objects copies pinned lost tail) {u : Native}
    (hsame : u.blocks = h.native.blocks) (hthrown : u.pending.isSome = true) :
    ∃ s', releaseArrays h.arrays u = some s' := by
  obtain ⟨h₁, rfl, hacq, -, hpins⟩ := hp
  have hblocks : (h₁.arrays ++ pinned).filterMap NativeArray.heapBlock =
      h₁.arrays.filterMap NativeArray.heapBlock := by
    rw [List.filterMap_append, heapBlock_critical hpins.critical, List.append_nil]
  obtain ⟨s', hs, -⟩ := @releaseArrays_defined u h.arrays hthrown
    (fun a ha => by
      rw [hpins.arrays_eq] at ha
      rcases List.mem_append.mp ha with ha | ha
      · exact hacq.releasable a ha
      · exact (hpins.critical a ha).releasable)
    (fun b hb => by
      rw [hpins.arrays_eq, hblocks] at hb
      rw [hsame, hpins.blocks_eq]
      exact (hacq.owned b hb).2)
    (by
      rw [hpins.arrays_eq, hblocks]
      exact hacq.nodup)
  exact ⟨s', hs⟩

end Accounting

/-! ### The end of a call -/

section Finish

variable {β ω : Type} (view : β → Holdings) (finish : Flow β → Option ω)
  (result : ω → Option CallResult) (native : ω → Native)

/-- How an entry point ends: what is held is released, after the call if there is one. -/
structure Finishes : Prop where
  cleanup : ∀ l o, finish (.cleanup l) = some o →
    result o = none ∧ releaseArrays (view l).arrays (view l).native = some (native o)
  next : ∀ l o, finish (.next l) = some o → ∃ r u, result o = some r ∧
    u.log = (view l).native.log ∧ u.arrays = r.memory.arrays ∧
    u.pending = r.thrown.or (view l).native.pending ∧
    releaseArrays (view l).arrays u = some (native o)
  defined : ∀ l s', releaseArrays (view l).arrays (view l).native = some s' →
    ∃ o, finish (.cleanup l) = some o

variable {view finish result native} {I : β → Prop} {d : Decisions} {jvm : Jvm}
  {objects : List ObjectEntry} {flow : Option (Flow β)}

/-- A call is accounted for, on either path, just when no round of it leaks a block. -/
theorem Finishes.accounted (hfinish : Finishes view finish result native)
    (hfollows : FollowsCall view I d jvm s objects flow (callFate d jvm s objects)) :
    (∀ o, flow.bind finish = some o → Accounted objects s (result o) (native o)) ↔
      callFate d jvm s objects ≠ .leaks := by
  cases hfate : callFate d jvm s objects with
  | undefined =>
    rw [hfate] at hfollows
    have hflow : flow = none := hfollows
    simp [hflow]
  | passes =>
    rw [hfate] at hfollows
    obtain ⟨l, copies, pinned, rfl, -, hp, -⟩ := hfollows
    refine ⟨fun _ h => (by cases h), fun _ o ho => ?_⟩
    obtain ⟨r, u, hr, hlog, harrays, hpending, hs⟩ := hfinish.next l o ho
    rw [hr]
    refine hp.accounted onlyJni_nil hlog harrays (fun hstopped => ?_) hs
    rw [hpending, Option.or_of_isSome (hstopped r rfl)]
    exact hstopped r rfl
  | throws =>
    rw [hfate] at hfollows
    obtain ⟨l, copies, pinned, tail, rfl, hp, htail, hthrown, -⟩ := hfollows
    refine ⟨fun _ h => (by cases h), fun _ o ho => ?_⟩
    obtain ⟨hr, hs⟩ := hfinish.cleanup l o ho
    obtain ⟨h₁, -, hacq, -, hpins⟩ := id hp
    rw [hr]
    exact hp.accounted htail rfl (hpins.heap_eq.trans hacq.arrays_eq) (fun _ => hthrown) hs
  | leaks =>
    rw [hfate] at hfollows
    obtain ⟨l, copies, b, rfl, hp, hthrown⟩ := hfollows
    refine ⟨fun h => ?_, fun h => absurd rfl h⟩
    obtain ⟨s', hs'⟩ := hp.releases rfl hthrown
    obtain ⟨o, ho⟩ := hfinish.defined l s' hs'
    obtain ⟨-, hs⟩ := hfinish.cleanup l o ho
    obtain ⟨resolved, released, ht⟩ := exists_traced hp rfl hs
    obtain ⟨tr, htr, hsettled, -⟩ := (h o ho).resources
    exact absurd hsettled (ht.not_settled tr htr)

/-- A call makes no other JNI call while an array is pinned just unless some of its arrays have been
pinned when the pinning of another one fails. -/
theorem Finishes.quiet (hfinish : Finishes view finish result native)
    (hfollows : FollowsCall view I d jvm s objects flow (callFate d jvm s objects)) :
    (∀ o, flow.bind finish = some o → QuietWhilePinned s (native o)) ↔
      ¬PinnedInPart d jvm s objects := by
  have hfated : PinnedInPart d jvm s objects → callFate d jvm s objects = .throws := by
    rintro ⟨hverdict, -, hpins⟩
    rw [callFate, hverdict]
    exact hpins
  cases hfate : callFate d jvm s objects with
  | undefined =>
    rw [hfate] at hfollows hfated
    have hflow : flow = none := hfollows
    rw [hflow]
    exact ⟨fun _ h => (by cases hfated h), fun _ o ho => (by cases ho)⟩
  | passes =>
    rw [hfate] at hfollows hfated
    obtain ⟨l, copies, pinned, rfl, -, hp, -⟩ := hfollows
    refine ⟨fun _ h => (by cases hfated h), fun _ o ho => ?_⟩
    obtain ⟨r, u, -, hlog, -, -, hs⟩ := hfinish.next l o ho
    obtain ⟨resolved, released, ht⟩ := exists_traced hp hlog hs
    exact ht.quiet (fun h => absurd rfl h) onlyJni_nil
  | leaks =>
    rw [hfate] at hfollows hfated
    obtain ⟨l, copies, b, rfl, hp, hthrown⟩ := hfollows
    refine ⟨fun _ h => (by cases hfated h), fun _ o ho => ?_⟩
    obtain ⟨-, hs⟩ := hfinish.cleanup l o ho
    obtain ⟨resolved, released, ht⟩ := exists_traced hp rfl hs
    exact ht.quiet (fun h => absurd rfl h) onlyJni_nil
  | throws =>
    rw [hfate] at hfollows
    obtain ⟨l, copies, pinned, tail, rfl, hp, htail, hthrown, hnone, hsome⟩ := hfollows
    constructor
    · intro h hpart
      obtain ⟨hpinned, tr, rfl⟩ := hsome hpart
      obtain ⟨s', hs'⟩ := hp.releases rfl hthrown
      obtain ⟨o, ho⟩ := hfinish.defined l s' hs'
      obtain ⟨-, hs⟩ := hfinish.cleanup l o ho
      obtain ⟨resolved, released, ht⟩ := exists_traced hp rfl hs
      obtain ⟨h₁, -, -, -, hpins⟩ := hp
      exact ht.not_quiet hpinned hpins.critical (h o ho)
    · intro hpart o ho
      obtain ⟨-, hs⟩ := hfinish.cleanup l o ho
      obtain ⟨resolved, released, ht⟩ := exists_traced hp rfl hs
      exact ht.quiet (fun _ => hnone hpart) htail

end Finish

/-! ### The two entry points -/

section EntryPoints

variable (pf : Platform) (jvm : Jvm) (ctx : NativeCallContext) (callee : Callee)

theorem log_saveErrno (s : Native) : (saveErrno pf ctx s).log = s.log := by
  rw [saveErrno]
  split <;> rfl

/-- What the callee answered to a call. -/
def NumericCall.answer (c : NumericCall) : CallResult := callee c.args c.memory

theorem finishCall_finishes (retval : List Cell) :
    Finishes ObjectLoop.holdings (finishCall pf ctx callee retval)
      (fun o => o.called.map (Call.answer callee)) Outcome.native where
  cleanup l o ho := by
    obtain ⟨s', hs, ho⟩ := Option.bind_eq_some_iff.mp ho
    cases ho
    exact ⟨rfl, hs⟩
  next l o ho := by
    obtain ⟨⟨call, retval', u⟩, hcall, ho⟩ := Option.bind_eq_some_iff.mp ho
    obtain ⟨args, -, hcall⟩ := Option.bind_eq_some_iff.mp hcall
    obtain ⟨retval'', -, hcall⟩ := Option.bind_eq_some_iff.mp hcall
    cases hcall
    obtain ⟨s', hs, ho⟩ := Option.bind_eq_some_iff.mp ho
    cases ho
    refine ⟨_, _, rfl, ?_, ?_, ?_, hs⟩
    · rw [log_saveErrno]
      rfl
    · rw [toMemory_saveErrno]
      rfl
    · rw [pending_saveErrno]
      rfl
  defined l s' hs := by
    refine ⟨⟨none, retval, s'⟩, ?_⟩
    exact Option.bind_eq_some_iff.mpr ⟨s', hs, rfl⟩

theorem finishFast_finishes :
    Finishes FastLoop.holdings (finishFast pf ctx callee)
      (fun o => o.called.map (NumericCall.answer callee)) FastOutcome.native where
  cleanup l o ho := by
    obtain ⟨s', hs, ho⟩ := Option.bind_eq_some_iff.mp ho
    cases ho
    exact ⟨rfl, hs⟩
  next l o ho := by
    obtain ⟨c, hcall, ho⟩ := Option.bind_eq_some_iff.mp ho
    obtain ⟨s', hs, ho⟩ := Option.bind_eq_some_iff.mp ho
    cases ho
    have hcalled := calledIn_callN hcall
    refine ⟨_, c.native, rfl, ?_, ?_, ?_, hs⟩
    · rw [hcalled.native_eq, log_saveErrno]
      rfl
    · rw [hcalled.native_eq, toMemory_saveErrno]
      rfl
    · rw [hcalled.native_eq, pending_saveErrno]
      rfl
  defined l s' hs := by
    refine ⟨⟨none, List.replicate 8 (.byte 0), s'⟩, ?_⟩
    exact Option.bind_eq_some_iff.mpr ⟨s', hs, rfl⟩

variable {bs : List Byte} (ns : List (BitVec 64)) (objects : List ObjectEntry) (retval : List Cell)

theorem invokeArrayWithObjects_accounted_iff (hbs : bs.length = ctx.cif.argTypes.length * slotSize)
    (hpending : s.pending = none) :
    (∀ o, invokeArrayWithObjects_ pf jvm ctx callee bs objects retval s = some o →
        Accounted objects s (o.called.map (Call.answer callee)) o.native) ↔
      ¬LosesCopy (genericDecisions ctx.cif.argTypes.length) jvm s objects := by
  rw [← callFate_leaks fun fails e => genericFate_leaks]
  exact (finishCall_finishes pf ctx callee retval).accounted
    (prepareCall_follows pf ctx hbs hpending)

theorem invokeNO_accounted_iff (hpending : s.pending = none) :
    (∀ o, invokeNO pf jvm ctx callee ns objects s = some o →
        Accounted objects s (o.called.map (NumericCall.answer callee)) o.native) ↔
      ¬LosesCopy (fastDecisions ns.length) jvm s objects := by
  rw [← callFate_leaks fun fails e => fastFate_leaks]
  exact (finishFast_finishes pf ctx callee).accounted (resolveFast_follows pf ns.length _ hpending)

theorem invokeArrayWithObjects_quiet_iff (hbs : bs.length = ctx.cif.argTypes.length * slotSize)
    (hpending : s.pending = none) :
    (∀ o, invokeArrayWithObjects_ pf jvm ctx callee bs objects retval s = some o →
        QuietWhilePinned s o.native) ↔
      ¬PinnedInPart (genericDecisions ctx.cif.argTypes.length) jvm s objects :=
  (finishCall_finishes pf ctx callee retval).quiet (prepareCall_follows pf ctx hbs hpending)

theorem invokeNO_quiet_iff (hpending : s.pending = none) :
    (∀ o, invokeNO pf jvm ctx callee ns objects s = some o → QuietWhilePinned s o.native) ↔
      ¬PinnedInPart (fastDecisions ns.length) jvm s objects :=
  (finishFast_finishes pf ctx callee).quiet (resolveFast_follows pf ns.length _ hpending)

/-- A Java heap with one `byte[1]`. -/
def withOneByte : Native :=
  ⟨⟨[⟨.byte, [.byte 7]⟩], [], fun _ => Cell.undef, ⟨0, 0⟩⟩, none, 0, 0, 0, []⟩

/-- More than there is of that array, and more than is copied to the stack. -/
def pastTheEnd : ObjectEntry := ⟨some (.array 0), Put.arrayFlags .byte IN 0, 0, 1024⟩

/-- A function that does nothing. -/
def doesNothing : Callee := fun _ m => ⟨m, [], none, none⟩

def threePointers : CallContext .linuxX64 :=
  (CallContext.create .linuxX64 .accepting (.builtin .void) 3
    [.builtin .pointer, .builtin .pointer, .builtin .pointer] .default true false).get (by decide)

/-- A Java heap with a `byte[1024]`, a `short[2]` and a `byte[1]`. -/
def withThreeArrays : Native :=
  ⟨⟨[⟨.byte, List.replicate 1024 (.byte 7)⟩, ⟨.short, List.replicate 4 (.byte 1)⟩,
      ⟨.byte, [.byte 7]⟩], [], fun _ => Cell.undef, ⟨0, 0⟩⟩, none, 0, 0, 0, []⟩

/-- The first array is copied to memory from `malloc`, the second one is pinned, and of the third
one there is a copy on the stack that is copied back. -/
def mixedObjects : List ObjectEntry :=
  [⟨some (.array 0), Put.arrayFlags .byte IN 0, 0, 1024⟩,
    ⟨some (.array 1), Put.arrayFlags .short PINNED 1, 0, 2⟩,
    ⟨some (.array 2), Put.arrayFlags .byte OUT 2, 0, 1⟩]

/-- One array is copied back, and two are pinned. -/
def pinnedObjects : List ObjectEntry :=
  [⟨some (.array 0), Put.arrayFlags .byte PINNED 0, 0, 1024⟩,
    ⟨some (.array 2), Put.arrayFlags .byte OUT 1, 0, 1⟩,
    ⟨some (.array 1), Put.arrayFlags .short PINNED 2, 0, 2⟩]

/-- **The resources of a call with objects** are accounted for, on either path, if and only if no
copy is refused after `malloc`. -/
theorem accounted_iff (hbs : bs.length = ctx.cif.argTypes.length * slotSize)
    (hpending : s.pending = none) :
    ((∀ o, invokeArrayWithObjects_ pf jvm ctx callee bs objects retval s = some o →
        Accounted objects s (o.called.map (Call.answer callee)) o.native) ↔
      ¬LosesCopy (genericDecisions ctx.cif.argTypes.length) jvm s objects) ∧
    ((∀ o, invokeNO pf jvm ctx callee ns objects s = some o →
        Accounted objects s (o.called.map (NumericCall.answer callee)) o.native) ↔
      ¬LosesCopy (fastDecisions ns.length) jvm s objects) :=
  ⟨invokeArrayWithObjects_accounted_iff pf jvm ctx callee objects retval hbs hpending,
    invokeNO_accounted_iff pf jvm ctx callee ns objects hpending⟩

/-- A copy on the heap, a pinned array and an array passed `OUT` are all accounted for. -/
theorem accounted_mixed :
    (∀ o, invokeArrayWithObjects_ .linuxX64 .reliable threePointers.native doesNothing
          (List.replicate 24 0) mixedObjects [Cell.undef] withThreeArrays = some o →
        Accounted mixedObjects withThreeArrays (o.called.map (Call.answer doesNothing))
          o.native) ∧
    (∀ o, invokeNO .linuxX64 .reliable threePointers.native doesNothing [0, 0, 0] mixedObjects
          withThreeArrays = some o →
        Accounted mixedObjects withThreeArrays (o.called.map (NumericCall.answer doesNothing))
          o.native) := by
  have h := @accounted_iff withThreeArrays .linuxX64 .reliable threePointers.native doesNothing
    (List.replicate 24 0) [0, 0, 0] mixedObjects [Cell.undef] rfl rfl
  refine ⟨h.1.mpr ?_, h.2.mpr ?_⟩
  · rw [← callFate_leaks fun fails e => genericFate_leaks]
    decide +kernel
  · rw [← callFate_leaks fun fails e => fastFate_leaks]
    decide +kernel

/-- `GetByteArrayRegion` refuses 1024 elements of an array of one, and the memory they were to be
copied to is lost. -/
theorem not_accounted_pastTheEnd :
    ¬∀ o, invokeArrayWithObjects_ .linuxX64 .reliable onePointer.native
        doesNothing (List.replicate 8 0) [pastTheEnd] [Cell.undef] withOneByte = some o →
      Accounted [pastTheEnd] withOneByte (o.called.map (Call.answer doesNothing)) o.native := by
  intro h
  refine (invokeArrayWithObjects_accounted_iff .linuxX64 .reliable onePointer.native _ [pastTheEnd]
    [Cell.undef] rfl rfl).mp h ?_
  exact ⟨[], pastTheEnd, [], rfl, rfl, by decide, rfl, 0, ⟨.byte, [.byte 7]⟩, rfl, rfl, by decide,
    by decide, by decide, by decide, by decide⟩

/-- **A call with objects is quiet** while an array is pinned, on either path, if and only if no pin
fails after another. -/
theorem quiet_iff (hbs : bs.length = ctx.cif.argTypes.length * slotSize)
    (hpending : s.pending = none) :
    ((∀ o, invokeArrayWithObjects_ pf jvm ctx callee bs objects retval s = some o →
        QuietWhilePinned s o.native) ↔
      ¬PinnedInPart (genericDecisions ctx.cif.argTypes.length) jvm s objects) ∧
    ((∀ o, invokeNO pf jvm ctx callee ns objects s = some o → QuietWhilePinned s o.native) ↔
      ¬PinnedInPart (fastDecisions ns.length) jvm s objects) :=
  ⟨invokeArrayWithObjects_quiet_iff pf jvm ctx callee objects retval hbs hpending,
    invokeNO_quiet_iff pf jvm ctx callee ns objects hpending⟩

/-- Two pinned arrays, with a third one to be copied back, are released without a call into the
virtual machine. -/
theorem quiet_twoPinned :
    (∀ o, invokeArrayWithObjects_ .linuxX64 .reliable threePointers.native doesNothing
          (List.replicate 24 0) pinnedObjects [Cell.undef] withThreeArrays = some o →
        QuietWhilePinned withThreeArrays o.native) ∧
    (∀ o, invokeNO .linuxX64 .reliable threePointers.native doesNothing [0, 0, 0] pinnedObjects
          withThreeArrays = some o →
        QuietWhilePinned withThreeArrays o.native) := by
  have h := @quiet_iff withThreeArrays .linuxX64 .reliable threePointers.native doesNothing
    (List.replicate 24 0) [0, 0, 0] pinnedObjects [Cell.undef] rfl rfl
  refine ⟨h.1.mpr fun hpart => ?_, h.2.mpr fun hpart => ?_⟩
  · exact absurd hpart.2.2 (by decide +kernel)
  · exact absurd hpart.2.2 (by decide +kernel)

/-- Of two arrays to be pinned the second one cannot be: the virtual machine is asked whether it has
thrown an exception while the first one is pinned. -/
theorem not_quiet_secondPin :
    ¬∀ o, invokeNO .linuxX64 ⟨fun _ => false, fun n => n == 1, fun _ => true⟩ onePointer.native
        doesNothing [0, 0]
        [⟨some (.array 0), Put.arrayFlags .byte PINNED 0, 0, 1⟩,
          ⟨some (.array 0), Put.arrayFlags .byte PINNED 1, 0, 1⟩] withOneByte = some o →
      QuietWhilePinned withOneByte o.native := by
  intro h
  refine (invokeNO_quiet_iff .linuxX64 _ onePointer.native _ [0, 0] _ rfl).mp h ?_
  exact ⟨by decide, rfl, by decide⟩

end EntryPoints

end Jffi
