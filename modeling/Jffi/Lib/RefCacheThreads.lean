import Jffi.Lib.RefCache
import Jffi.Lib.Runs
import Mathlib.Logic.Function.Basic

/-!
# Threads that share a cache of references

Threads look for keys in a cache of references, and between any two of their steps the collector may
clear a reference that nobody holds on to any more, or put one that it has cleared into the queue. A
thread that finds nothing takes the references from the queue, removes their keys, and puts
something new.

A reference that is still on its way into the queue may have been replaced in the table. Its key
then stands for another reference, which is removed in its place.

## Main definitions

* `LawfulProbe` — keys that do not change
* `Shared`, `SharedAct`, `Shared.step` — threads, the program and the collector
* `Shared.NoReplace` — nothing is put under a key that is there
* `Shared.CullsCleared`, `Shared.SameInstance` — what a cache should do

## Main results

* `Shared.cullsCleared` — a thread removes only what has been cleared, if nothing is replaced
* `Shared.sameInstance` — what is still held is found again, if there is one thread
* `Shared.runs_request` — the steps of a call that is not interrupted make up a request
-/

namespace Jffi

universe u

variable {H K V : Type u} [DecidableEq H]

/-- Keys that are equal once are always equal, and have the same hash. -/
structure LawfulProbe (probe : K → Probe H K) : Prop where
  refl : ∀ k, (probe k).equals k = true
  symm : ∀ {k k'}, (probe k).equals k' = true → (probe k').equals k = true
  trans : ∀ {k k' k''}, (probe k).equals k' = true → (probe k').equals k'' = true →
    (probe k).equals k'' = true
  hash : ∀ {k k'}, (probe k).equals k' = true → (probe k').hash = (probe k).hash

/-! ### What is known of a reference -/

namespace RefCache

/-- The key of a reference. -/
def keyOf (c : RefCache H K V) (r : ℕ) : Option K := c.refs[r]?.map Reference.key

def Cleared (c : RefCache H K V) (r : ℕ) : Prop := ∃ ref, c.refs[r]? = some ref ∧ ref.cleared = true

def Enqueued (c : RefCache H K V) (r : ℕ) : Prop :=
  ∃ ref, c.refs[r]? = some ref ∧ ref.enqueued = true

variable {c c' : RefCache H K V} {r r' : ℕ} {k : K} {v : V} {p : Probe H K}

omit [DecidableEq H] in
theorem referent_of_not_cleared (hkey : c.keyOf r = some k) (h : ¬c.Cleared r) :
    ∃ v, c.referent r = some v := by
  obtain ⟨ref, href, -⟩ := Option.map_eq_some_iff.mp hkey
  refine ⟨ref.referent, referent_eq_some_iff.mpr ⟨ref, href, ?_, rfl⟩⟩
  exact Bool.eq_false_iff.mpr fun hcleared => h ⟨ref, href, hcleared⟩

/-- A list in which one element was modified has, at a position, an element with a property just
when the old element has it, or its modification. -/
theorem exists_modify_iff {α : Type u} {l : List α} {f : α → α} {i j : ℕ} {P : α → Prop} :
    (∃ x, (l.modify i f)[j]? = some x ∧ P x) ↔
      ∃ x, l[j]? = some x ∧ P (if i = j then f x else x) := by
  rw [List.getElem?_modify]
  cases l[j]? <;> simp

/-- The keys do not change when a reference is modified otherwise. -/
theorem map_key_modify {refs : List (Reference K V)} {f : Reference K V → Reference K V}
    (hf : ∀ ref, (f ref).key = ref.key) (i r : ℕ) :
    (refs.modify i f)[r]?.map Reference.key = refs[r]?.map Reference.key := by
  rw [List.getElem?_modify]
  cases refs[r]? with
  | none => rfl
  | some ref =>
    refine congrArg some ?_
    dsimp only
    split
    · exact hf ref
    · rfl

omit [DecidableEq H] in
theorem keyOf_clear (r' r : ℕ) (c : RefCache H K V) : (c.clear r').keyOf r = c.keyOf r :=
  map_key_modify (f := fun ref => { ref with cleared := true }) (fun _ => rfl) r' r

omit [DecidableEq H] in
theorem enqueued_clear (r' r : ℕ) (c : RefCache H K V) :
    (c.clear r').Enqueued r ↔ c.Enqueued r := by
  rw [Enqueued, clear, exists_modify_iff]
  refine exists_congr fun ref => and_congr_right fun _ => ?_
  split <;> rfl

omit [DecidableEq H] in
theorem cleared_clear_iff (r' r : ℕ) (c : RefCache H K V) :
    (c.clear r').Cleared r ↔ c.Cleared r ∨ r' = r ∧ ∃ k, c.keyOf r = some k := by
  rw [Cleared, clear, exists_modify_iff]
  constructor
  · rintro ⟨ref, href, hcleared⟩
    split at hcleared
    case isTrue heq => exact .inr ⟨heq, ref.key, by rw [keyOf, href]; rfl⟩
    case isFalse => exact .inl ⟨ref, href, hcleared⟩
  · rintro (⟨ref, href, hcleared⟩ | ⟨rfl, k, hkey⟩)
    · refine ⟨ref, href, ?_⟩
      split
      · rfl
      · exact hcleared
    · obtain ⟨ref, href, -⟩ := Option.map_eq_some_iff.mp hkey
      exact ⟨ref, href, by rw [if_pos rfl]⟩

omit [DecidableEq H] in
/-- A reference is put into the queue once, after it has been cleared. -/
theorem enqueue_spec (h : c.enqueue r' = some c') :
    c.Cleared r' ∧ ¬c.Enqueued r' ∧ c'.table = c.table ∧ c'.queue = r' :: c.queue ∧
      (∀ r, c'.keyOf r = c.keyOf r) ∧ (∀ r, c'.Cleared r ↔ c.Cleared r) ∧
      (∀ r, c'.Enqueued r ↔ c.Enqueued r ∨ r' = r) := by
  obtain ⟨⟨ref, href, hcleared, hqueued⟩, rfl⟩ := enqueue_eq_some h
  refine ⟨⟨ref, href, hcleared⟩, ?_, rfl, rfl,
    map_key_modify (f := fun ref => { ref with enqueued := true }) (fun _ => rfl) r', fun r => ?_,
    fun r => ?_⟩
  · rintro ⟨ref', href', hqueued'⟩
    obtain rfl := Option.some.inj (href.symm.trans href')
    exact Bool.false_ne_true (hqueued.symm.trans hqueued')
  · rw [Cleared, exists_modify_iff]
    refine exists_congr fun ref => and_congr_right fun _ => ?_
    split <;> rfl
  · rw [Enqueued, exists_modify_iff]
    constructor
    · rintro ⟨ref, href, hq⟩
      split at hq
      case isTrue heq => exact .inr heq
      case isFalse => exact .inl ⟨ref, href, hq⟩
    · rintro (⟨ref, href, hq⟩ | rfl)
      · refine ⟨ref, href, ?_⟩
        split
        · rfl
        · exact hq
      · exact ⟨ref, href, by rw [if_pos rfl]⟩

/-- A put does not change the keys of the references that were there before. -/
theorem keyOf_put_of_lt (h : r < c.refs.length) : (c.put p k v).keyOf r = c.keyOf r := by
  rw [keyOf, keyOf, put]
  dsimp only
  rw [List.getElem?_append_left h]

theorem keyOf_put_self (p : Probe H K) (k : K) (v : V) (c : RefCache H K V) :
    (c.put p k v).keyOf c.refs.length = some k := by
  rw [keyOf, put]
  dsimp only
  rw [List.getElem?_append_right (Nat.le_refl _), Nat.sub_self]
  rfl

/-- The new reference is neither cleared nor in the queue, and the others are as they were. -/
theorem exists_put_iff {P : Reference K V → Prop} (hnew : ∀ k v, ¬P ⟨k, v, false, false⟩) :
    (∃ ref, (c.put p k v).refs[r]? = some ref ∧ P ref) ↔ ∃ ref, c.refs[r]? = some ref ∧ P ref := by
  refine exists_congr fun ref => ?_
  rw [put]
  dsimp only
  rcases Nat.lt_or_ge r c.refs.length with hlt | hge
  · rw [List.getElem?_append_left hlt]
  · rw [List.getElem?_append_right hge, List.getElem?_eq_none hge]
    constructor
    · rintro ⟨href, hP⟩
      obtain rfl := List.mem_singleton.mp (List.mem_of_getElem? href)
      exact absurd hP (hnew k v)
    · rintro ⟨href, -⟩
      cases href

theorem cleared_put_iff : (c.put p k v).Cleared r ↔ c.Cleared r :=
  exists_put_iff fun _ _ h => Bool.false_ne_true h

theorem enqueued_put_iff : (c.put p k v).Enqueued r ↔ c.Enqueued r :=
  exists_put_iff fun _ _ h => Bool.false_ne_true h

end RefCache

/-! ### The threads -/

/-- Where a thread is in its request, and what it has found by then. -/
inductive Pc (K : Type u)
  | idle
  /-- It has looked for a key. -/
  | looked (k : K) (found : Option ℕ)
  /-- It asks the queue for the next reference. -/
  | culling (k : K)
  /-- It has a reference, whose key it removes next. -/
  | removing (k : K) (r : ℕ)
  /-- The queue was empty. -/
  | making (k : K)

/-- The threads, the cache they share, and which references have somebody who holds on to what they
refer to. -/
structure Shared (H K V : Type u) where
  cache : RefCache H K V
  pc : ℕ → Pc K
  held : ℕ → Bool

/-- One step of a thread, of the program, or of the collector. -/
inductive SharedAct (K V : Type u)
  | start (t : ℕ) (k : K)
  | finish (t : ℕ)
  | poll (t : ℕ)
  | remove (t : ℕ)
  | put (t : ℕ) (v : V)
  /-- What was to be put cannot be made. -/
  | fail (t : ℕ)
  /-- Nobody holds on any more. -/
  | release (r : ℕ)
  | clear (r : ℕ)
  | enqueue (r : ℕ)

/-- The thread whose step it is. -/
def SharedAct.By (t : ℕ) : SharedAct K V → Prop
  | start t' _ | finish t' | poll t' | remove t' | put t' _ | fail t' => t' = t
  | release _ | clear _ | enqueue _ => True

namespace Shared

variable (probe : K → Probe H K)

def initial : Shared H K V := ⟨.empty, fun _ => .idle, fun _ => false⟩

/-- The state with a thread somewhere else. -/
def goto (t : ℕ) (pc : Pc K) (s : Shared H K V) : Shared H K V :=
  { s with pc := Function.update s.pc t pc }

/-- The thread returns what a reference refers to. -/
def ret (t r : ℕ) (s : Shared H K V) : Shared H K V :=
  { s.goto t .idle with held := Function.update s.held r true }

def step : SharedAct K V → Shared H K V → Option (Shared H K V)
  | .start t k, s =>
    match s.pc t with
    | .idle => some (s.goto t (.looked k (s.cache.get (probe k))))
    | _ => none
  | .finish t, s =>
    match s.pc t with
    | .looked k found =>
      match found.filter fun r => (s.cache.referent r).isSome with
      | some r => some (s.ret t r)
      | none => some (s.goto t (.culling k))
    | _ => none
  | .poll t, s =>
    match s.pc t with
    | .culling k =>
      match s.cache.poll with
      | some (r, cache) => some ({ s with cache := cache }.goto t (.removing k r))
      | none => some (s.goto t (.making k))
    | _ => none
  | .remove t, s =>
    match s.pc t with
    | .removing k r =>
      (s.cache.removeFor (fun k => some (probe k)) r).map fun cache =>
        { s with cache := cache }.goto t (.culling k)
    | _ => none
  | .put t v, s =>
    match s.pc t with
    | .making k => some ({ s with cache := s.cache.put (probe k) k v }.ret t s.cache.refs.length)
    | _ => none
  | .fail t, s =>
    match s.pc t with
    | .making _ => some (s.goto t .idle)
    | _ => none
  | .release r, s => some { s with held := Function.update s.held r false }
  | .clear r, s => if s.held r = true then none else some { s with cache := s.cache.clear r }
  | .enqueue r, s => (s.cache.enqueue r).map fun cache => { s with cache := cache }

/-- Nothing is put under a key that is there. -/
def NoReplace : SharedAct K V → Shared H K V → Prop
  | .put t _, s => ∀ k, s.pc t = .making k → s.cache.get (probe k) = none
  | _, _ => True

instance (a : SharedAct K V) (s : Shared H K V) : Decidable (NoReplace probe a s) :=
  match a with
  | .put t _ =>
    match hpc : s.pc t with
    | .making k => decidable_of_iff (s.cache.get (probe k) = none)
        ⟨fun h k' hk' => by cases hpc.symm.trans hk'; exact h, fun h => h k hpc⟩
    | .idle | .looked _ _ | .culling _ | .removing _ _ =>
      .isTrue fun k hk => by cases hpc.symm.trans hk
  | .start _ _ | .finish _ | .poll _ | .remove _ | .fail _ | .release _ | .clear _ | .enqueue _ =>
    .isTrue trivial

/-- What a thread removes for a reference has been cleared. -/
def CullsCleared : SharedAct K V → Shared H K V → Prop
  | .remove t, s =>
    ∀ k r k' r', s.pc t = .removing k r → s.cache.keyOf r = some k' →
      s.cache.get (probe k') = some r' → s.cache.Cleared r'
  | _, _ => True

/-- Somebody holds on to what was returned for an equal key. -/
def Wanted (s : Shared H K V) (k : K) (r : ℕ) : Prop :=
  s.held r = true ∧ ∃ k', s.cache.keyOf r = some k' ∧ (probe k).equals k' = true

/-- A thread that returns something returns what is still held for an equal key. -/
def SameInstance : SharedAct K V → Shared H K V → Prop
  | .finish t, s =>
    ∀ k r v, s.pc t = .looked k (some r) → s.cache.referent r = some v →
      ∀ r', Wanted probe s k r' → r' = r
  | .put t _, s => ∀ k, s.pc t = .making k → ∀ r', ¬Wanted probe s k r'
  | _, _ => True

/-! ### What holds at any time -/

/-- As long as nothing is replaced, a reference stays in the table under its own key until its key
has been removed for it. -/
structure Inv (s : Shared H K V) : Prop where
  /-- An entry is under the key of its reference. -/
  keys : ∀ e ∈ s.cache.table, s.cache.keyOf e.ref = some e.key ∧ e.hash = (probe e.key).hash
  unique : ∀ e ∈ s.cache.table, ∀ e' ∈ s.cache.table, (probe e.key).equals e'.key = true → e = e'
  cleared : ∀ r, s.cache.Enqueued r → s.cache.Cleared r
  queued : ∀ r ∈ s.cache.queue, s.cache.Enqueued r
  nodup : s.cache.queue.Nodup
  removing : ∀ t k r, s.pc t = .removing k r → s.cache.Enqueued r ∧ r ∉ s.cache.queue
  remover : ∀ t k r t' k', s.pc t = .removing k r → s.pc t' = .removing k' r → t' = t
  /-- A reference whose key has not been removed for it is in the table. -/
  present : ∀ r k, s.cache.keyOf r = some k →
    (s.cache.Enqueued r → r ∈ s.cache.queue ∨ ∃ t k', s.pc t = .removing k' r) →
    ∃ e ∈ s.cache.table, e.ref = r
  /-- What is held has not been cleared. -/
  held : ∀ r, s.held r = true → (∃ k, s.cache.keyOf r = some k) ∧ ¬s.cache.Cleared r

variable {probe} {s s' : Shared H K V} {t r : ℕ} {k : K}

omit [DecidableEq H] in
theorem inv_initial : Inv probe (initial : Shared H K V) where
  keys _ he := absurd he List.not_mem_nil
  unique _ he := absurd he List.not_mem_nil
  cleared _ h := by
    obtain ⟨_, href, -⟩ := h
    cases href
  queued _ hr := absurd hr List.not_mem_nil
  nodup := List.nodup_nil
  removing _ _ _ h := nomatch h
  remover _ _ _ _ _ h := nomatch h
  present _ _ h := nomatch h
  held _ h := nomatch h

/-- The entry of a reference is what the table has for its key. -/
theorem Inv.get_eq (hprobe : LawfulProbe probe) (h : Inv probe s) {e : Entry H K}
    (he : e ∈ s.cache.table) (hk : (probe k).equals e.key = true) :
    s.cache.get (probe k) = some e.ref := by
  have hmatches : e.Matches (probe k) :=
    ⟨(h.keys e he).2.trans (hprobe.hash hk), hk⟩
  cases hget : s.cache.get (probe k) with
  | none => exact absurd hmatches (RefCache.get_eq_none_iff.mp hget e he)
  | some r =>
    obtain ⟨e', he', hmatches', rfl⟩ := RefCache.get_eq_some hget
    rw [h.unique e he e' he' (hprobe.trans (hprobe.symm hk) hmatches'.2)]

/-- A reference that somebody holds for a key is the one that the map has under that key. -/
theorem Inv.get_of_wanted (hprobe : LawfulProbe probe) (h : Inv probe s)
    (hwanted : Wanted probe s k r) : s.cache.get (probe k) = some r := by
  obtain ⟨hheld, k', hkey, hequals⟩ := hwanted
  obtain ⟨-, hlive⟩ := h.held r hheld
  obtain ⟨e, he, rfl⟩ := h.present r k' hkey fun henqueued => absurd (h.cleared r henqueued) hlive
  have hk : e.key = k' := Option.some.inj ((h.keys e he).1.symm.trans hkey)
  exact h.get_eq hprobe he (hk ▸ hequals)

/-- What a thread removes while it culls is the entry of a reference that has been cleared. -/
theorem Inv.cullsCleared (hprobe : LawfulProbe probe) (h : Inv probe s) (a : SharedAct K V) :
    CullsCleared probe a s := by
  cases a with
  | remove t =>
    intro k r k' r' hpc hkey hget
    obtain ⟨henqueued, -⟩ := h.removing t k r hpc
    obtain ⟨e, he, rfl⟩ := h.present r k' hkey fun _ => .inr ⟨t, k, hpc⟩
    have hk : e.key = k' := Option.some.inj ((h.keys e he).1.symm.trans hkey)
    have hself := h.get_eq hprobe he (hprobe.refl e.key)
    rw [hk, hget] at hself
    cases hself
    exact h.cleared _ henqueued
  | _ => trivial

/-! ### What a step does -/

theorem step_start (h : step probe (.start t k) s = some s') :
    s.pc t = .idle ∧ s' = s.goto t (.looked k (s.cache.get (probe k))) := by
  simp only [step] at h
  split at h
  case h_1 hpc =>
    cases h
    exact ⟨hpc, rfl⟩
  case h_2 => cases h

theorem step_finish (h : step probe (.finish t) s = some s') :
    ∃ k found, s.pc t = .looked k found ∧
      ((∃ r v, found = some r ∧ s.cache.referent r = some v ∧ s' = s.ret t r) ∨
        (∀ r v, found = some r → s.cache.referent r ≠ some v) ∧ s' = s.goto t (.culling k)) := by
  simp only [step] at h
  split at h
  case h_1 k found hpc =>
    refine ⟨k, found, hpc, ?_⟩
    split at h
    case h_1 r hfilter =>
      cases h
      obtain ⟨hfound, hsome⟩ := Option.filter_eq_some_iff.mp hfilter
      obtain ⟨v, hv⟩ := Option.isSome_iff_exists.mp hsome
      exact .inl ⟨r, v, hfound, hv, rfl⟩
    case h_2 hfilter =>
      cases h
      refine .inr ⟨fun r v hfound hv => ?_, rfl⟩
      rw [hfound, Option.filter_some, hv] at hfilter
      cases hfilter
  case h_2 => cases h

theorem step_poll (h : step probe (.poll t) s = some s') :
    ∃ k, s.pc t = .culling k ∧
      ((∃ r queue, s.cache.queue = r :: queue ∧
          s' = { s with cache := { s.cache with queue := queue } }.goto t (.removing k r)) ∨
        s' = s.goto t (.making k)) := by
  simp only [step] at h
  split at h
  case h_1 k hpc =>
    refine ⟨k, hpc, ?_⟩
    split at h
    case h_1 r cache hpoll =>
      cases h
      unfold RefCache.poll at hpoll
      split at hpoll
      case h_1 => cases hpoll
      case h_2 r' queue hqueue =>
        cases hpoll
        exact .inl ⟨r, queue, hqueue, rfl⟩
    case h_2 =>
      cases h
      exact .inr rfl
  case h_2 => cases h

theorem step_remove (h : step probe (.remove t) s = some s') :
    ∃ k r, s.pc t = .removing k r ∧
      ∀ k', s.cache.keyOf r = some k' →
        s' = { s with cache := s.cache.remove (probe k') }.goto t (.culling k) := by
  simp only [step] at h
  split at h
  case h_1 k r hpc =>
    obtain ⟨cache, hremove, rfl⟩ := Option.map_eq_some_iff.mp h
    refine ⟨k, r, hpc, fun k' hkey => ?_⟩
    obtain ⟨ref, href, rfl⟩ := Option.map_eq_some_iff.mp hkey
    rw [RefCache.removeFor, href] at hremove
    cases hremove
    rfl
  case h_2 => cases h

theorem step_put {v : V} (h : step probe (.put t v) s = some s') :
    ∃ k, s.pc t = .making k ∧
      s' = { s with cache := s.cache.put (probe k) k v }.ret t s.cache.refs.length := by
  simp only [step] at h
  split at h
  case h_1 k hpc =>
    cases h
    exact ⟨k, hpc, rfl⟩
  case h_2 => cases h

theorem step_fail (h : step probe (.fail t) s = some s') :
    ∃ k, s.pc t = .making k ∧ s' = s.goto t .idle := by
  simp only [step] at h
  split at h
  case h_1 k hpc =>
    cases h
    exact ⟨k, hpc, rfl⟩
  case h_2 => cases h

theorem step_clear (h : step probe (.clear r) s = some s') :
    s.held r ≠ true ∧ s' = { s with cache := s.cache.clear r } := by
  simp only [step] at h
  split at h
  case isTrue => cases h
  case isFalse hfree =>
    cases h
    exact ⟨hfree, rfl⟩

/-! ### What a step keeps -/

section Step

variable {q : Pc K} (h : Inv probe s)
include h

omit [DecidableEq H] in
/-- A thread that neither comes from removing a key nor goes to it keeps the invariant. -/
theorem Inv.goto (hfrom : ∀ k r, s.pc t ≠ .removing k r) (hto : ∀ k r, q ≠ .removing k r) :
    Inv probe (s.goto t q) := by
  have hpc : ∀ t' k r, (s.goto t q).pc t' = .removing k r ↔ s.pc t' = .removing k r := by
    intro t' k r
    by_cases ht : t' = t
    · subst ht
      have hself : (s.goto t' q).pc t' = q := Function.update_self ..
      rw [hself]
      exact ⟨fun h => absurd h (hto k r), fun h => absurd h (hfrom k r)⟩
    · have hother : (s.goto t q).pc t' = s.pc t' := Function.update_of_ne ht ..
      rw [hother]
  refine ⟨h.keys, h.unique, h.cleared, h.queued, h.nodup, ?_, ?_, ?_, h.held⟩
  · intro t' k r hpc'
    exact h.removing t' k r ((hpc t' k r).mp hpc')
  · intro t' k r t'' k' hpc' hpc''
    exact h.remover t' k r t'' k' ((hpc _ _ _).mp hpc') ((hpc _ _ _).mp hpc'')
  · intro r k hkey hpending
    refine h.present r k hkey fun henqueued => (hpending henqueued).imp_right ?_
    rintro ⟨t', k', hpc'⟩
    exact ⟨t', k', (hpc t' k' r).mp hpc'⟩

omit [DecidableEq H] in
/-- The invariant holds when somebody else holds on to an instance that has not been cleared. -/
theorem Inv.hold (hkey : s.cache.keyOf r = some k) (hlive : ¬s.cache.Cleared r) :
    Inv probe { s with held := Function.update s.held r true } := by
  refine ⟨h.keys, h.unique, h.cleared, h.queued, h.nodup, h.removing, h.remover, h.present, ?_⟩
  intro r' hheld
  by_cases hr : r' = r
  · subst hr
    exact ⟨⟨k, hkey⟩, hlive⟩
  · have hother : Function.update s.held r true r' = s.held r' := Function.update_of_ne hr ..
    exact h.held r' (hother ▸ hheld)

omit [DecidableEq H] in
theorem Inv.release : Inv probe { s with held := Function.update s.held r false } := by
  refine ⟨h.keys, h.unique, h.cleared, h.queued, h.nodup, h.removing, h.remover, h.present, ?_⟩
  intro r' hheld
  by_cases hr : r' = r
  · subst hr
    have hself : Function.update s.held r' false r' = false := Function.update_self ..
    exact absurd (hself.symm.trans hheld) Bool.false_ne_true
  · have hother : Function.update s.held r false r' = s.held r' := Function.update_of_ne hr ..
    exact h.held r' (hother ▸ hheld)

omit [DecidableEq H] in
theorem Inv.clear (hfree : s.held r ≠ true) : Inv probe { s with cache := s.cache.clear r } := by
  refine ⟨?_, h.unique, ?_, ?_, h.nodup, ?_, h.remover, ?_, ?_⟩
  · intro e he
    rw [RefCache.keyOf_clear]
    exact h.keys e he
  · intro r' henqueued
    rw [RefCache.enqueued_clear] at henqueued
    exact (RefCache.cleared_clear_iff r r' s.cache).mpr (.inl (h.cleared r' henqueued))
  · intro r' hr'
    exact (RefCache.enqueued_clear r r' s.cache).mpr (h.queued r' hr')
  · intro t k r' hpc
    exact (h.removing t k r' hpc).imp_left (RefCache.enqueued_clear r r' s.cache).mpr
  · intro r' k hkey hpending
    rw [RefCache.keyOf_clear] at hkey
    rw [RefCache.enqueued_clear] at hpending
    exact h.present r' k hkey hpending
  · intro r' hheld
    obtain ⟨⟨k, hkey⟩, hlive⟩ := h.held r' hheld
    refine ⟨⟨k, (RefCache.keyOf_clear r r' s.cache).trans hkey⟩, fun hcleared => ?_⟩
    rcases (RefCache.cleared_clear_iff r r' s.cache).mp hcleared with hbefore | ⟨rfl, -⟩
    · exact hlive hbefore
    · exact hfree hheld

omit [DecidableEq H] in
theorem Inv.enqueue {c : RefCache H K V} (hc : s.cache.enqueue r = some c) :
    Inv probe { s with cache := c } := by
  obtain ⟨hcleared, hfirst, htable, hqueue, hkeyOf, hclearedIff, henqueuedIff⟩ :=
    RefCache.enqueue_spec hc
  refine ⟨?_, ?_, ?_, ?_, ?_, ?_, h.remover, ?_, ?_⟩
  · intro e he
    rw [hkeyOf]
    exact h.keys e (htable ▸ he)
  · intro e he e' he'
    exact h.unique e (htable ▸ he) e' (htable ▸ he')
  · intro r' henqueued
    rw [hclearedIff]
    rcases (henqueuedIff r').mp henqueued with hbefore | rfl
    · exact h.cleared r' hbefore
    · exact hcleared
  · intro r' hr'
    rw [henqueuedIff]
    rcases List.mem_cons.mp (hqueue ▸ hr') with rfl | hr'
    · exact .inr rfl
    · exact .inl (h.queued r' hr')
  · change c.queue.Nodup
    rw [hqueue]
    exact List.nodup_cons.mpr ⟨fun hr => hfirst (h.queued r hr), h.nodup⟩
  · intro t k r' hpc
    obtain ⟨henqueued, hnot⟩ := h.removing t k r' hpc
    refine ⟨(henqueuedIff r').mpr (.inl henqueued), fun hr' => ?_⟩
    rcases List.mem_cons.mp (hqueue ▸ hr') with rfl | hr'
    · exact hfirst henqueued
    · exact hnot hr'
  · intro r' k hkey hpending
    rw [hkeyOf] at hkey
    obtain ⟨e, he, rfl⟩ := h.present r' k hkey fun henqueued => by
      rcases hpending ((henqueuedIff r').mpr (.inl henqueued)) with hr' | hremoving
      · rcases List.mem_cons.mp (hqueue ▸ hr') with rfl | hr'
        · exact absurd henqueued hfirst
        · exact .inl hr'
      · exact .inr hremoving
    exact ⟨e, htable.symm ▸ he, rfl⟩
  · intro r' hheld
    obtain ⟨⟨k, hkey⟩, hlive⟩ := h.held r' hheld
    exact ⟨⟨k, (hkeyOf r').trans hkey⟩, fun hcleared => hlive ((hclearedIff r').mp hcleared)⟩

omit [DecidableEq H] in
/-- Taking the next reference from the queue keeps the invariant: it has been cleared, and its key
may be removed. -/
theorem Inv.poll {queue : List ℕ} (hqueue : s.cache.queue = r :: queue) :
    Inv probe ({ s with cache := { s.cache with queue := queue } }.goto t (.removing k r)) := by
  have hself : Function.update s.pc t (.removing k r) t = .removing k r := Function.update_self ..
  have hother : ∀ t' ≠ t, Function.update s.pc t (.removing k r) t' = s.pc t' := fun t' ht =>
    Function.update_of_ne ht ..
  have hmem : r ∈ s.cache.queue := hqueue ▸ List.mem_cons_self
  have hnodup := h.nodup
  rw [hqueue, List.nodup_cons] at hnodup
  refine ⟨h.keys, h.unique, h.cleared, ?_, hnodup.2, ?_, ?_, ?_, h.held⟩
  · intro r' hr'
    exact h.queued r' (hqueue ▸ List.mem_cons_of_mem r hr')
  · intro t' k' r' hpc'
    change Function.update s.pc t _ t' = _ at hpc'
    by_cases ht : t' = t
    · rw [ht, hself] at hpc'
      cases hpc'
      exact ⟨h.queued r hmem, hnodup.1⟩
    · rw [hother t' ht] at hpc'
      obtain ⟨henqueued, hnot⟩ := h.removing t' k' r' hpc'
      exact ⟨henqueued, fun hr' => hnot (hqueue ▸ List.mem_cons_of_mem r hr')⟩
  · intro t' k' r' t'' k'' hpc' hpc''
    change Function.update s.pc t _ t' = _ at hpc'
    change Function.update s.pc t _ t'' = _ at hpc''
    by_cases ht : t' = t
    · by_cases ht' : t'' = t
      · rw [ht, ht']
      · rw [ht, hself] at hpc'
        cases hpc'
        rw [hother t'' ht'] at hpc''
        exact absurd hmem (h.removing t'' k'' r hpc'').2
    · rw [hother t' ht] at hpc'
      by_cases ht' : t'' = t
      · rw [ht', hself] at hpc''
        cases hpc''
        exact absurd hmem (h.removing t' k' r hpc').2
      · rw [hother t'' ht'] at hpc''
        exact h.remover t' k' r' t'' k'' hpc' hpc''
  · intro r' k' hkey hpending
    refine h.present r' k' hkey fun henqueued => ?_
    rcases hpending henqueued with hr' | ⟨t', k'', hpc'⟩
    · exact .inl (hqueue ▸ List.mem_cons_of_mem r hr')
    · change Function.update s.pc t _ t' = _ at hpc'
      by_cases ht : t' = t
      · rw [ht, hself] at hpc'
        cases hpc'
        exact .inl hmem
      · rw [hother t' ht] at hpc'
        exact .inr ⟨t', k'', hpc'⟩

/-- The key of a reference is removed, and with it the entry of the reference. -/
theorem Inv.remove {k' : K} (hpc : s.pc t = .removing k r)
    (hkey : s.cache.keyOf r = some k') :
    Inv probe ({ s with cache := s.cache.remove (probe k') }.goto t (.culling k)) := by
  have hself : Function.update s.pc t (.culling k) t = .culling k := Function.update_self ..
  have hother : ∀ t' ≠ t, Function.update s.pc t (.culling k) t' = s.pc t' := fun t' ht =>
    Function.update_of_ne ht ..
  obtain ⟨henqueued, hnot⟩ := h.removing t k r hpc
  have hsub : ∀ e ∈ (s.cache.remove (probe k')).table, e ∈ s.cache.table := fun e =>
    RefCache.mem_of_mem_remove
  refine ⟨fun e he => h.keys e (hsub e he), fun e he e' he' => h.unique e (hsub e he)
    e' (hsub e' he'), h.cleared, h.queued, h.nodup, ?_, ?_, ?_, h.held⟩
  · intro t' k'' r' hpc'
    change Function.update s.pc t _ t' = _ at hpc'
    by_cases ht : t' = t
    · rw [ht, hself] at hpc'
      cases hpc'
    · rw [hother t' ht] at hpc'
      exact h.removing t' k'' r' hpc'
  · intro t' k₁ r' t'' k₂ hpc' hpc''
    change Function.update s.pc t _ t' = _ at hpc'
    change Function.update s.pc t _ t'' = _ at hpc''
    by_cases ht : t' = t
    · rw [ht, hself] at hpc'
      cases hpc'
    · by_cases ht' : t'' = t
      · rw [ht', hself] at hpc''
        cases hpc''
      · rw [hother t' ht] at hpc'
        rw [hother t'' ht'] at hpc''
        exact h.remover t' k₁ r' t'' k₂ hpc' hpc''
  · intro r' k'' hkey' hpending
    -- the reference whose key is removed has no thread left, and is not in the queue
    have hne : r' ≠ r := by
      rintro rfl
      rcases hpending henqueued with hr' | ⟨t', k₁, hpc'⟩
      · exact hnot hr'
      · change Function.update s.pc t _ t' = _ at hpc'
        by_cases ht : t' = t
        · rw [ht, hself] at hpc'
          cases hpc'
        · rw [hother t' ht] at hpc'
          exact ht (h.remover t k r' t' k₁ hpc hpc')
    obtain ⟨e, he, rfl⟩ := h.present r' k'' hkey' fun henqueued' =>
      (hpending henqueued').imp_right fun ⟨t', k₁, hpc'⟩ => by
        change Function.update s.pc t _ t' = _ at hpc'
        by_cases ht : t' = t
        · rw [ht, hself] at hpc'
          cases hpc'
        · exact ⟨t', k₁, (hother t' ht).symm.trans hpc'⟩
    refine ⟨e, ?_, rfl⟩
    obtain ⟨e₀, he₀, rfl⟩ := h.present r k' hkey fun _ => .inr ⟨t, k, hpc⟩
    have hk : e₀.key = k' := Option.some.inj ((h.keys e₀ he₀).1.symm.trans hkey)
    refine (List.mem_eraseP_of_neg fun hmatches => hne ?_).mpr he
    have hequals := (of_decide_eq_true hmatches).2
    rw [h.unique e₀ he₀ e he (hk.symm ▸ hequals)]

/-- Putting an instance under a key that is not there keeps the invariant. -/
theorem Inv.put (hprobe : LawfulProbe probe) {v : V} (hnew : s.cache.get (probe k) = none) :
    Inv probe { s with cache := s.cache.put (probe k) k v } := by
  have hnot := RefCache.get_eq_none_iff.mp hnew
  have htable : (s.cache.put (probe k) k v).table =
      s.cache.table ++ [⟨(probe k).hash, k, s.cache.refs.length⟩] := putRef_of_not_matches hnot
  have hlt : ∀ {r k'}, s.cache.keyOf r = some k' → r < s.cache.refs.length := by
    intro r k' hkey
    obtain ⟨ref, href, -⟩ := Option.map_eq_some_iff.mp hkey
    exact (List.getElem?_eq_some_iff.mp href).1
  have hkeyOf : ∀ {r k'}, s.cache.keyOf r = some k' →
      (s.cache.put (probe k) k v).keyOf r = some k' := fun hkey =>
    (RefCache.keyOf_put_of_lt (hlt hkey)).trans hkey
  -- no other key equals the new one
  have hdiffers : ∀ e ∈ s.cache.table, (probe k).equals e.key ≠ true := fun e he hequals =>
    hnot e he ⟨(h.keys e he).2.trans (hprobe.hash hequals), hequals⟩
  have hmem : ∀ e ∈ (s.cache.put (probe k) k v).table,
      e ∈ s.cache.table ∨ e = ⟨(probe k).hash, k, s.cache.refs.length⟩ := by
    intro e he
    rw [htable] at he
    exact (List.mem_append.mp he).imp_right List.mem_singleton.mp
  refine ⟨?_, ?_, ?_, ?_, h.nodup, ?_, h.remover, ?_, ?_⟩
  · intro e he
    rcases hmem e he with hold | rfl
    · exact (h.keys e hold).imp_left hkeyOf
    · exact ⟨RefCache.keyOf_put_self .., rfl⟩
  · intro e he e' he' hequals
    rcases hmem e he with hold | rfl
    · rcases hmem e' he' with hold' | rfl
      · exact h.unique e hold e' hold' hequals
      · exact absurd (hprobe.symm hequals) (hdiffers e hold)
    · rcases hmem e' he' with hold' | rfl
      · exact absurd hequals (hdiffers e' hold')
      · rfl
  · intro r' henqueued
    exact RefCache.cleared_put_iff.mpr (h.cleared r' (RefCache.enqueued_put_iff.mp henqueued))
  · intro r' hr'
    exact RefCache.enqueued_put_iff.mpr (h.queued r' hr')
  · intro t' k' r' hpc
    exact (h.removing t' k' r' hpc).imp_left RefCache.enqueued_put_iff.mpr
  · intro r' k' hkey hpending
    rcases Nat.lt_or_ge r' s.cache.refs.length with hold | hge
    · rw [RefCache.keyOf_put_of_lt hold] at hkey
      obtain ⟨e, he, rfl⟩ := h.present r' k' hkey fun henqueued =>
        hpending (RefCache.enqueued_put_iff.mpr henqueued)
      exact ⟨e, htable.symm ▸ List.mem_append_left _ he, rfl⟩
    · obtain ⟨ref, href, -⟩ := Option.map_eq_some_iff.mp hkey
      have hbound : r' < (s.cache.put (probe k) k v).refs.length :=
        (List.getElem?_eq_some_iff.mp href).1
      have hsucc : (s.cache.put (probe k) k v).refs.length = s.cache.refs.length + 1 :=
        List.length_append
      obtain rfl : r' = s.cache.refs.length := by omega
      exact ⟨_, htable.symm ▸ List.mem_append_right _ (List.mem_singleton_self _), rfl⟩
  · intro r' hheld
    obtain ⟨⟨k', hkey⟩, hlive⟩ := h.held r' hheld
    exact ⟨⟨k', hkeyOf hkey⟩, fun hcleared => hlive (RefCache.cleared_put_iff.mp hcleared)⟩

end Step

/-- **A step that replaces nothing** keeps the invariant, whichever thread takes it. -/
theorem inv_step (hprobe : LawfulProbe probe) {a : SharedAct K V} (h : Inv probe s)
    (hreplace : NoReplace probe a s) (hstep : step probe a s = some s') : Inv probe s' := by
  cases a with
  | start t k =>
    obtain ⟨hpc, rfl⟩ := step_start hstep
    exact h.goto (fun _ _ hr => nomatch hpc.symm.trans hr) fun _ _ hr => nomatch hr
  | finish t =>
    obtain ⟨k, found, hpc, ⟨r, v, rfl, hv, rfl⟩ | ⟨-, rfl⟩⟩ := step_finish hstep
    · obtain ⟨ref, href, hlive, -⟩ := RefCache.referent_eq_some_iff.mp hv
      have hgoto := h.goto (t := t) (q := .idle) (fun _ _ hr => nomatch hpc.symm.trans hr)
        fun _ _ hr => nomatch hr
      refine hgoto.hold (k := ref.key) ?_ ?_
      · exact congrArg (Option.map Reference.key) href
      · rintro ⟨ref', href', hcleared⟩
        obtain rfl := Option.some.inj (href.symm.trans href')
        exact Bool.false_ne_true (hlive.symm.trans hcleared)
    · exact h.goto (fun _ _ hr => nomatch hpc.symm.trans hr) fun _ _ hr => nomatch hr
  | poll t =>
    obtain ⟨k, hpc, ⟨r, queue, hqueue, rfl⟩ | rfl⟩ := step_poll hstep
    · exact h.poll hqueue
    · exact h.goto (fun _ _ hr => nomatch hpc.symm.trans hr) fun _ _ hr => nomatch hr
  | remove t =>
    obtain ⟨k, r, hpc, hs'⟩ := step_remove hstep
    obtain ⟨ref, href, -⟩ := (h.removing t k r hpc).1
    have hkey : s.cache.keyOf r = some ref.key := congrArg (Option.map Reference.key) href
    rw [hs' ref.key hkey]
    exact h.remove hpc hkey
  | put t v =>
    obtain ⟨k, hpc, rfl⟩ := step_put hstep
    have hput := h.put (v := v) hprobe (hreplace k hpc)
    have hgoto := hput.goto (t := t) (q := .idle) (fun _ _ hr => nomatch hpc.symm.trans hr)
      fun _ _ hr => nomatch hr
    refine hgoto.hold (k := k) (RefCache.keyOf_put_self ..) fun hcleared => ?_
    obtain ⟨ref, href, -⟩ := RefCache.cleared_put_iff.mp hcleared
    exact absurd (List.getElem?_eq_some_iff.mp href).1 (Nat.lt_irrefl _)
  | fail t =>
    obtain ⟨k, hpc, rfl⟩ := step_fail hstep
    exact h.goto (fun _ _ hr => nomatch hpc.symm.trans hr) fun _ _ hr => nomatch hr
  | release r =>
    cases hstep
    exact h.release
  | clear r =>
    obtain ⟨hfree, rfl⟩ := step_clear hstep
    exact h.clear hfree
  | enqueue r =>
    obtain ⟨cache, hcache, rfl⟩ := Option.map_eq_some_iff.mp hstep
    exact h.enqueue hcache

/-- **Every removal** is of something that has been cleared, if nothing is ever replaced. -/
theorem cullsCleared (hprobe : LawfulProbe probe) {acts : List (SharedAct K V)}
    (h : Always (step probe) (NoReplace probe) acts initial) :
    Always (step probe) (CullsCleared probe) acts initial :=
  h.of_invariant (I := Inv probe) (fun a _ hI _ => hI.cullsCleared hprobe a)
    (fun _ _ _ hI hreplace hstep => inv_step hprobe hI hreplace hstep) inv_initial

/-! ### One thread -/

/-- A thread that is looking for a key has found what is held for it, or there is no such thing. -/
def Knows (probe : K → Probe H K) (s : Shared H K V) : Pc K → Prop
  | .idle => True
  | .looked k found => ∀ r, Wanted probe s k r → found = some r
  | .culling k | .removing k _ | .making k => ∀ r, ¬Wanted probe s k r

omit [DecidableEq H] in
theorem Knows.mono {q : Pc K} (h : Knows probe s q)
    (hwanted : ∀ k r, Wanted probe s' k r → Wanted probe s k r) : Knows probe s' q := by
  cases q with
  | idle => trivial
  | looked k found => exact fun r hr => h r (hwanted k r hr)
  | culling k => exact fun r hr => h r (hwanted k r hr)
  | removing k r' => exact fun r hr => h r (hwanted k r hr)
  | making k => exact fun r hr => h r (hwanted k r hr)

/-- The invariant of a history in which the other threads do nothing. -/
structure Alone (probe : K → Probe H K) (t : ℕ) (s : Shared H K V) : Prop where
  inv : Inv probe s
  others : ∀ t' ≠ t, s.pc t' = .idle
  knows : Knows probe s (s.pc t)

omit [DecidableEq H] in
theorem others_goto (h : ∀ t' ≠ t, s.pc t' = .idle) (q : Pc K) :
    ∀ t' ≠ t, (s.goto t q).pc t' = .idle := fun t' ht =>
  (Function.update_of_ne ht ..).trans (h t' ht)

omit [DecidableEq H] in
theorem pc_goto (t : ℕ) (q : Pc K) (s : Shared H K V) : (s.goto t q).pc t = q :=
  Function.update_self ..

omit [DecidableEq H] in
/-- An instance that somebody holds has not been cleared. -/
theorem Inv.referent_of_wanted (h : Inv probe s) (hwanted : Wanted probe s k r) :
    ∃ v, s.cache.referent r = some v := by
  obtain ⟨⟨k', hkey⟩, hlive⟩ := h.held r hwanted.1
  exact RefCache.referent_of_not_cleared hkey hlive

/-- A step of the thread leaves the others where they do nothing. -/
theorem Alone.others_step {a : SharedAct K V} (h : Alone probe t s) (hby : a.By t)
    (hstep : step probe a s = some s') : ∀ t' ≠ t, s'.pc t' = .idle := by
  cases a with
  | start t' k =>
    obtain rfl := hby
    obtain ⟨-, rfl⟩ := step_start hstep
    exact others_goto h.others _
  | finish t' =>
    obtain rfl := hby
    obtain ⟨k, found, -, ⟨r, v, -, -, rfl⟩ | ⟨-, rfl⟩⟩ := step_finish hstep
    · exact others_goto h.others _
    · exact others_goto h.others _
  | poll t' =>
    obtain rfl := hby
    obtain ⟨k, -, ⟨r, queue, -, rfl⟩ | rfl⟩ := step_poll hstep
    · exact others_goto h.others _
    · exact others_goto h.others _
  | remove t' =>
    obtain rfl := hby
    obtain ⟨k, r, hpc, hs'⟩ := step_remove hstep
    obtain ⟨ref, href, -⟩ := (h.inv.removing t' k r hpc).1
    rw [hs' ref.key (congrArg (Option.map Reference.key) href)]
    exact others_goto h.others _
  | put t' v =>
    obtain rfl := hby
    obtain ⟨k, -, rfl⟩ := step_put hstep
    exact others_goto h.others _
  | fail t' =>
    obtain rfl := hby
    obtain ⟨k, -, rfl⟩ := step_fail hstep
    exact others_goto h.others _
  | release r =>
    cases hstep
    exact h.others
  | clear r =>
    obtain ⟨-, rfl⟩ := step_clear hstep
    exact h.others
  | enqueue r =>
    obtain ⟨cache, -, rfl⟩ := Option.map_eq_some_iff.mp hstep
    exact h.others

/-- After a step of its own the thread still knows where to find what is wanted. -/
theorem Alone.knows_step (hprobe : LawfulProbe probe) {a : SharedAct K V} (h : Alone probe t s)
    (hby : a.By t) (hstep : step probe a s = some s') : Knows probe s' (s'.pc t) := by
  cases a with
  | start t' k =>
    obtain rfl := hby
    obtain ⟨-, rfl⟩ := step_start hstep
    rw [pc_goto]
    exact fun r hr => h.inv.get_of_wanted hprobe hr
  | finish t' =>
    obtain rfl := hby
    obtain ⟨k, found, hpc, ⟨r, v, -, -, rfl⟩ | ⟨hnone, rfl⟩⟩ := step_finish hstep
    · rw [show (s.ret t' r).pc t' = .idle from pc_goto ..]
      trivial
    · have hknows := h.knows
      rw [hpc] at hknows
      rw [pc_goto]
      intro r hr
      obtain ⟨v, hv⟩ := h.inv.referent_of_wanted hr
      exact hnone r v (hknows r hr) hv
  | poll t' =>
    obtain rfl := hby
    have hknows := h.knows
    obtain ⟨k, hpc, ⟨r, queue, -, rfl⟩ | rfl⟩ := step_poll hstep
    · rw [hpc] at hknows
      rw [pc_goto]
      exact hknows
    · rw [hpc] at hknows
      rw [pc_goto]
      exact hknows
  | remove t' =>
    obtain rfl := hby
    have hknows := h.knows
    obtain ⟨k, r, hpc, hs'⟩ := step_remove hstep
    obtain ⟨ref, href, -⟩ := (h.inv.removing t' k r hpc).1
    rw [hs' ref.key (congrArg (Option.map Reference.key) href), pc_goto]
    rw [hpc] at hknows
    exact hknows
  | put t' v =>
    obtain rfl := hby
    obtain ⟨k, -, rfl⟩ := step_put hstep
    rw [show (ret t' s.cache.refs.length _).pc t' = .idle from pc_goto ..]
    trivial
  | fail t' =>
    obtain rfl := hby
    obtain ⟨k, -, rfl⟩ := step_fail hstep
    rw [pc_goto]
    trivial
  | release r =>
    cases hstep
    refine h.knows.mono fun k r' hr' => ⟨?_, hr'.2⟩
    by_cases hr : r' = r
    · subst hr
      exact absurd ((Function.update_self ..).symm.trans hr'.1) Bool.false_ne_true
    · exact (Function.update_of_ne hr ..).symm.trans hr'.1
  | clear r =>
    obtain ⟨-, rfl⟩ := step_clear hstep
    refine h.knows.mono fun k r' hr' => ⟨hr'.1, ?_⟩
    obtain ⟨k', hkey, hequals⟩ := hr'.2
    exact ⟨k', (RefCache.keyOf_clear r r' s.cache).symm.trans hkey, hequals⟩
  | enqueue r =>
    obtain ⟨cache, hcache, rfl⟩ := Option.map_eq_some_iff.mp hstep
    obtain ⟨-, -, -, -, hkeyOf, -⟩ := RefCache.enqueue_spec hcache
    refine h.knows.mono fun k r' hr' => ⟨hr'.1, ?_⟩
    obtain ⟨k', hkey, hequals⟩ := hr'.2
    exact ⟨k', (hkeyOf r').symm.trans hkey, hequals⟩

theorem alone_step (hprobe : LawfulProbe probe) {a : SharedAct K V} (h : Alone probe t s)
    (hreplace : NoReplace probe a s) (hby : a.By t) (hstep : step probe a s = some s') :
    Alone probe t s' :=
  ⟨inv_step hprobe h.inv hreplace hstep, h.others_step hby hstep, h.knows_step hprobe hby hstep⟩

/-- **What is still held is found again**, by a thread that is alone. -/
theorem sameInstance (hprobe : LawfulProbe probe) {acts : List (SharedAct K V)}
    (hby : ∀ a ∈ acts, a.By t) (h : Always (step probe) (NoReplace probe) acts initial) :
    Always (step probe) (SameInstance probe) acts initial := by
  refine (h.and_of_mem hby).of_invariant (I := Alone probe t) ?_ ?_
    ⟨inv_initial, fun _ _ => rfl, trivial⟩
  · intro a s hI ⟨_, hby⟩
    cases a with
    | finish t' =>
      obtain rfl := hby
      intro k r v hpc _ r' hr'
      have hknows := hI.knows
      rw [hpc] at hknows
      exact (Option.some.inj (hknows r' hr')).symm
    | put t' v =>
      obtain rfl := hby
      intro k hpc
      have hknows := hI.knows
      rw [hpc] at hknows
      exact hknows
    | _ => trivial
  · exact fun a s s' hI ⟨hreplace, hby⟩ hstep => alone_step hprobe hI hreplace hby hstep

/-! ### Calls that are not interrupted -/

omit [DecidableEq H] in
theorem goto_goto (t : ℕ) (q q' : Pc K) (s : Shared H K V) :
    (s.goto t q).goto t q' = s.goto t q' := by
  rw [goto, goto, goto]
  dsimp only
  rw [Function.update_idem]

/-- What is still in the queue does not matter to the loop, which has taken it out. -/
theorem cullAll_queue (probe : K → Option (Probe H K)) (queue rest : List ℕ) (c : RefCache H K V) :
    RefCache.cullAll probe queue { c with queue := rest } = RefCache.cullAll probe queue c := by
  induction queue generalizing c with
  | nil => rfl
  | cons r queue ih =>
    rw [RefCache.cullAll, RefCache.cullAll, RefCache.removeFor, RefCache.removeFor]
    dsimp only
    cases c.refs[r]? with
    | none => exact ih c
    | some ref =>
      dsimp only
      cases probe ref.key with
      | none => rfl
      | some p => exact ih (c.remove p)

/-- The loop of `cull` is a run of the steps of its thread, which polls and removes until the queue
is empty. -/
theorem runs_cull (probe : K → Probe H K) (t : ℕ) (k : K) (s : Shared H K V) :
    (s.cache.cull fun k => some (probe k)).2 = true ∧
      ∃ acts : List (SharedAct K V), (∀ a ∈ acts, a.By t) ∧
        runs (step probe) acts (s.goto t (.culling k)) =
          some
            ({ s with cache := (s.cache.cull fun k => some (probe k)).1 }.goto t (.making k)) := by
  obtain ⟨⟨table, refs, queue⟩, pc, held⟩ := s
  rw [RefCache.cull]
  dsimp only
  induction queue generalizing table with
  | nil =>
    refine ⟨rfl, [.poll t], by simp [SharedAct.By], ?_⟩
    rw [runs_cons, step, pc_goto]
    dsimp only [RefCache.poll, goto]
    rw [Function.update_idem]
    rfl
  | cons r queue ih =>
    -- the rest of the loop, after the key of `r` has been removed
    obtain ⟨table', hremove⟩ : ∃ table', (⟨table, refs, queue⟩ : RefCache H K V).removeFor
        (fun k => some (probe k)) r = some ⟨table', refs, queue⟩ := by
      rw [RefCache.removeFor]
      dsimp only
      cases refs[r]? with
      | none => exact ⟨table, rfl⟩
      | some ref => exact ⟨_, rfl⟩
    have hcull : RefCache.cullAll (fun k => some (probe k)) (r :: queue)
        (⟨table, refs, r :: queue⟩ : RefCache H K V) =
          RefCache.cullAll (fun k => some (probe k)) queue ⟨table', refs, queue⟩ := by
      rw [← cullAll_queue _ _ queue, RefCache.cullAll]
      dsimp only
      rw [hremove]
    obtain ⟨hdone, acts, hby, hruns⟩ := ih table'
    rw [hcull]
    refine ⟨hdone, .poll t :: .remove t :: acts, ?_, ?_⟩
    · simpa [SharedAct.By] using hby
    · have hpoll : step probe (.poll t)
          (goto t (.culling k) ⟨⟨table, refs, r :: queue⟩, pc, held⟩) =
          some (goto t (.removing k r) ⟨⟨table, refs, queue⟩, pc, held⟩) := by
        rw [step, pc_goto]
        dsimp only [RefCache.poll, goto]
        rw [Function.update_idem]
      have hremoved : step probe (.remove t)
          (goto t (.removing k r) ⟨⟨table, refs, queue⟩, pc, held⟩) =
          some (goto t (.culling k) ⟨⟨table', refs, queue⟩, pc, held⟩) := by
        rw [step, pc_goto]
        dsimp only [goto]
        rw [hremove, Option.map_some, Function.update_idem]
      rw [runs_cons, hpoll, Option.bind_some, runs_cons, hremoved, Option.bind_some]
      exact hruns

/-- **A call that is not interrupted** does what a request does. -/
theorem runs_request (probe : K → Probe H K) (k : K) (make : Option V) (hpc : s.pc t = .idle) :
    ∃ acts s', (∀ a ∈ acts, a.By t) ∧ runs (step probe) acts s = some s' ∧ s'.pc t = .idle ∧
      s'.cache = (s.cache.request (fun k => some (probe k)) k make).2 ∧
      ∀ r v, (s.cache.request (fun k => some (probe k)) k make).1 = some (r, v) →
        s'.held r = true := by
  have hstart : step (V := V) probe (.start t k) s =
      some (s.goto t (.looked k (s.cache.get (probe k)))) := by
    rw [step, hpc]
  rw [RefCache.request]
  dsimp only
  cases hlookup : s.cache.lookup (probe k) with
  | some found =>
    obtain ⟨r, v⟩ := found
    obtain ⟨r', hget, hreferent⟩ := Option.bind_eq_some_iff.mp hlookup
    obtain ⟨v', hv, heq⟩ := Option.map_eq_some_iff.mp hreferent
    cases heq
    have hfilter : (some r).filter (fun r => (s.cache.referent r).isSome) = some r := by
      simp [hv]
    have hfinish : step probe (.finish t) (s.goto t (.looked k (some r))) = some (s.ret t r) := by
      rw [step, pc_goto]
      dsimp only [goto, ret]
      rw [hfilter, Function.update_idem]
    refine ⟨[.start t k, .finish t], s.ret t r, by simp [SharedAct.By], ?_, pc_goto .., rfl, ?_⟩
    · rw [runs_cons, hstart, Option.bind_some, hget, runs_cons, hfinish, Option.bind_some, runs_nil]
    · rintro _ _ h
      cases h
      exact Function.update_self ..
  | none =>
    have hfinish : step probe (.finish t) (s.goto t (.looked k (s.cache.get (probe k)))) =
        some (s.goto t (.culling k)) := by
      have hfilter :
          (s.cache.get (probe k)).filter (fun r => (s.cache.referent r).isSome) = none := by
        rw [Option.filter_eq_none_iff]
        intro r hget hsome
        obtain ⟨v, hv⟩ := Option.isSome_iff_exists.mp hsome
        rw [RefCache.lookup, hget, Option.bind_some, hv] at hlookup
        cases hlookup
      rw [step, pc_goto]
      dsimp only [goto]
      rw [hfilter, Function.update_idem]
    obtain ⟨hdone, acts, hby, hruns⟩ := runs_cull probe t k s
    have hculled : runs (step probe) (.start t k :: .finish t :: acts) s =
        some ({ s with cache := (s.cache.cull fun k => some (probe k)).1 }.goto t (.making k)) := by
      rw [runs_cons, hstart, Option.bind_some, runs_cons, hfinish, Option.bind_some, hruns]
    have hbyAll : ∀ a : SharedAct K V, a.By t →
        ∀ b ∈ (.start t k :: .finish t :: acts) ++ [a], b.By t := by
      intro a ha b hb
      rcases List.mem_append.mp hb with hb | hb
      · rcases List.mem_cons.mp hb with rfl | hb
        · rfl
        · rcases List.mem_cons.mp hb with rfl | hb
          · rfl
          · exact hby b hb
      · obtain rfl := List.mem_singleton.mp hb
        exact ha
    generalize (s.cache.cull fun k => some (probe k)) = culled at hdone hculled ⊢
    obtain ⟨cache, done⟩ := culled
    obtain rfl : done = true := hdone
    dsimp only at hculled
    cases make with
    | none =>
      have hfail : step (V := V) probe (.fail t) ({ s with cache := cache }.goto t (.making k)) =
          some ({ s with cache := cache }.goto t .idle) := by
        rw [step, pc_goto]
        dsimp only
        rw [goto_goto]
      refine ⟨(.start t k :: .finish t :: acts) ++ [.fail t],
        { s with cache := cache }.goto t .idle, hbyAll (.fail t) rfl, ?_, pc_goto .., rfl, ?_⟩
      · rw [runs_append_of_eq hculled, runs_cons, hfail, Option.bind_some, runs_nil]
      · rintro _ _ h
        cases h
    | some v =>
      have hput : step probe (.put t v) ({ s with cache := cache }.goto t (.making k)) =
          some ({ s with cache := cache.put (probe k) k v }.ret t cache.refs.length) := by
        rw [step, pc_goto]
        dsimp only [goto, ret]
        rw [Function.update_idem]
      refine ⟨(.start t k :: .finish t :: acts) ++ [.put t v],
        { s with cache := cache.put (probe k) k v }.ret t cache.refs.length,
        hbyAll (.put t v) rfl, ?_, pc_goto .., rfl, ?_⟩
      · rw [runs_append_of_eq hculled, runs_cons, hput, Option.bind_some, runs_nil]
      · rintro _ _ h
        cases h
        exact Function.update_self ..

end Shared

end Jffi
