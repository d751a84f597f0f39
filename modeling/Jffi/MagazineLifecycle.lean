import Jffi.ClosureMagazine
import Jffi.Lib.Runs
import Mathlib.Data.List.Nodup

/-!
# The life of a closure magazine

A `ClosureMagazine` of Java stands for a native magazine, which it frees when it is disposed of or
has been collected, whichever comes first. Its `allocate` does not look whether that has happened.

The memory of a magazine that was freed may be used for another one, and then a magazine that was
disposed of hands out the closures of a stranger.

## Main definitions

* `ClosureMagazine` — the Java object
* `Magazines`, `Magazines.Act`, `Magazines.step` — all of them, and what may happen to them
* `Magazines.Kept` — what a log of native calls should look like
* `Magazines.NotDisposed` — `allocate` is called only on a magazine that has not been freed

## Main results

* `Magazines.keptThroughout_iff` — the log is as it should be exactly for the runs in which that is
  so
-/

namespace Jffi

variable {pf : Platform}

/-- The class `ClosureMagazine`. -/
structure ClosureMagazine where
  magazineAddress : ℕ
  disposed : Bool
  deriving DecidableEq, Repr

/-- A native call, or one of what it does. Magazines are numbered in the order they were made. -/
inductive MagazineEvent
  /-- `closureMagazineGet`, with the address this magazine had. -/
  | get (i : ℕ)
  /-- A global reference, for a closure of the magazine. -/
  | newGlobalRef (i ref : ℕ)
  /-- A closure of the magazine is returned. -/
  | handOut (i index : ℕ)
  /-- `freeClosureMagazine`. -/
  | free (i : ℕ)
  | deleteGlobalRef (ref : ℕ)
  deriving DecidableEq, Repr

/-- The magazines of a program. -/
structure Magazines where
  objects : List ClosureMagazine
  /-- The magazine at an address, and its number. -/
  memory : ℕ → Option (ℕ × Magazine)
  /-- The references that there have been. -/
  refs : ℕ
  log : List MagazineEvent
  /-- Memory was used that nothing is known about. -/
  broken : Bool

namespace Magazines

/-- What a program and the collector may do with magazines. -/
inductive Act
  /-- `ClosureManager.newClosureMagazine`. -/
  | newClosureMagazine (libs : MagazineLibs) (ctx : NativeCallContext) (method : ℕ)
      (callWithPrimitiveArgs : Bool)
  /-- `allocate`, with or without a global reference for the proxy. -/
  | allocate (i : ℕ) (referenced : Bool)
  | dispose (i : ℕ)
  /-- The cleaner runs. -/
  | clean (i : ℕ)

def initial : Magazines := ⟨[], fun _ => none, 0, [], false⟩

/-- A magazine that has been made. Nothing is allocated where something is. -/
def add (m : Magazine) (s : Magazines) : Option Magazines :=
  if (s.memory m.address).isSome then none
  else some { s with
    objects := s.objects ++ [⟨m.address, false⟩]
    memory := Function.update s.memory m.address (some (s.objects.length, m)) }

/-- What `closureMagazineGet` leaves in the log. -/
def getEvents (owner : ℕ) (newGlobalRef : Option ℕ) (m : Magazine) : List MagazineEvent :=
  (if m.nextclosure < m.nclosures then
    (newGlobalRef.map (MagazineEvent.newGlobalRef owner)).toList else []) ++
  match (Foreign.closureMagazineGet newGlobalRef m).2 with
  | .ok (some _) => [.handOut owner m.nextclosure]
  | .ok none | .error _ => []

/-- `closureMagazineGet`, for a magazine that is there. -/
def get (address owner : ℕ) (m : Magazine) (referenced : Bool) (s : Magazines) : Magazines :=
  let newGlobalRef := if referenced then some s.refs else none
  { s with
    memory := Function.update s.memory address
      (some (owner, (Foreign.closureMagazineGet newGlobalRef m).1))
    refs := s.refs + 1
    log := s.log ++ getEvents owner newGlobalRef m }

/-- `allocate`. -/
def allocate (i : ℕ) (referenced : Bool) (s : Magazines) : Option Magazines :=
  s.objects[i]?.map fun object =>
    let called := { s with log := s.log ++ [MagazineEvent.get i] }
    match s.memory object.magazineAddress with
    | none => { called with broken := true }
    | some (owner, m) => called.get object.magazineAddress owner m referenced

/-- `freeClosureMagazine`, for a magazine that is there. -/
def free (address : ℕ) (m : Magazine) (s : Magazines) : Magazines :=
  { s with
    memory := Function.update s.memory address none
    log := s.log ++
      (Foreign.freeClosureMagazine m).1.filterMap (Option.map MagazineEvent.deleteGlobalRef) }

/-- `dispose`, which is also what the cleaner runs. -/
def dispose (i : ℕ) (s : Magazines) : Option Magazines :=
  s.objects[i]?.map fun object =>
    -- `getAndSet`
    let s' := { s with objects := s.objects.set i { object with disposed := true } }
    if object.magazineAddress ≠ 0 ∧ object.disposed = false then
      let called := { s' with log := s.log ++ [MagazineEvent.free i] }
      match s.memory object.magazineAddress with
      | none => { called with broken := true }
      | some (_, m) => called.free object.magazineAddress m
    else s'

def step (b : ClosureBuild pf) (a : Act) (s : Magazines) : Option Magazines :=
  if s.broken then none
  else
    match a with
    | .newClosureMagazine libs ctx method prim =>
      (Foreign.newClosureMagazine b libs (some ctx) (some method) prim).bind fun result =>
        match result.handle with
        | none => some s
        | some m => if m.address = 0 then some s else s.add m
    | .allocate i referenced => s.allocate i referenced
    | .dispose i | .clean i => s.dispose i

/-! ### The log -/

/-- The closures of a magazine that were returned. -/
def handedOut (i : ℕ) (log : List MagazineEvent) : List ℕ :=
  log.filterMap fun
    | .handOut j index => if j = i then some index else none
    | _ => none

/-- The global references created for the closures of a magazine. -/
def created (i : ℕ) (log : List MagazineEvent) : List ℕ :=
  log.filterMap fun
    | .newGlobalRef j ref => if j = i then some ref else none
    | _ => none

def deleted (log : List MagazineEvent) : List ℕ :=
  log.filterMap fun
    | .deleteGlobalRef ref => some ref
    | _ => none

/-- The magazines that were freed. -/
def freed (log : List MagazineEvent) : List ℕ :=
  log.filterMap fun
    | .free i => some i
    | _ => none

/-- No closure is handed out twice, and no magazine is freed twice; the references of a magazine
that was freed have been deleted once, and those of another one not yet; and no magazine is asked
for a closure after it has been freed. -/
structure Kept (log : List MagazineEvent) : Prop where
  handedOut : ∀ i, (handedOut i log).Nodup
  deleted : ∀ i, ∀ ref ∈ created i log, (deleted log).count ref = if i ∈ freed log then 1 else 0
  freed : (freed log).Nodup
  get : ∀ before after i, log = before ++ .get i :: after → i ∉ Magazines.freed before

/-- `allocate` is not called on a magazine that was disposed of, or whose cleaner has run. -/
def NotDisposed : Act → Magazines → Prop
  | .allocate i _, s => ∀ object, s.objects[i]? = some object → object.disposed = false
  | _, _ => True

section Log

variable (i j : ℕ) (log log' : List MagazineEvent)

@[simp] theorem handedOut_append :
    handedOut i (log ++ log') = handedOut i log ++ handedOut i log' :=
  List.filterMap_append

@[simp] theorem created_append : created i (log ++ log') = created i log ++ created i log' :=
  List.filterMap_append

@[simp] theorem deleted_append : deleted (log ++ log') = deleted log ++ deleted log' :=
  List.filterMap_append

@[simp] theorem freed_append : freed (log ++ log') = freed log ++ freed log' :=
  List.filterMap_append

/-- The references that are deleted while a magazine is freed are those that its closures have. -/
theorem deleted_map (refs : List (Option ℕ)) :
    deleted (refs.filterMap (Option.map MagazineEvent.deleteGlobalRef)) = refs.filterMap id := by
  rw [deleted, List.filterMap_filterMap]
  refine congrFun (congrArg List.filterMap (funext fun ref => ?_)) refs
  cases ref <;> rfl

/-- Every event of the deletions is a deletion, and none of the others. -/
theorem eq_deleteGlobalRef {refs : List (Option ℕ)} {e : MagazineEvent}
    (h : e ∈ refs.filterMap (Option.map MagazineEvent.deleteGlobalRef)) :
    ∃ ref, e = .deleteGlobalRef ref := by
  obtain ⟨ref, -, he⟩ := List.mem_filterMap.mp h
  obtain ⟨ref', rfl, rfl⟩ := Option.map_eq_some_iff.mp he
  exact ⟨ref', rfl⟩

theorem freed_deletions (refs : List (Option ℕ)) :
    freed (refs.filterMap (Option.map MagazineEvent.deleteGlobalRef)) = [] := by
  refine List.filterMap_eq_nil_iff.mpr fun e he => ?_
  obtain ⟨ref, rfl⟩ := eq_deleteGlobalRef he
  rfl

theorem created_deletions (refs : List (Option ℕ)) :
    created i (refs.filterMap (Option.map MagazineEvent.deleteGlobalRef)) = [] := by
  refine List.filterMap_eq_nil_iff.mpr fun e he => ?_
  obtain ⟨ref, rfl⟩ := eq_deleteGlobalRef he
  rfl

theorem handedOut_deletions (refs : List (Option ℕ)) :
    handedOut i (refs.filterMap (Option.map MagazineEvent.deleteGlobalRef)) = [] := by
  refine List.filterMap_eq_nil_iff.mpr fun e he => ?_
  obtain ⟨ref, rfl⟩ := eq_deleteGlobalRef he
  rfl

variable {i j log log'}

/-- A log goes on with a call of `closureMagazineGet` that is not too late, or with none. -/
theorem get_append (h : ∀ before after i, log = before ++ .get i :: after → i ∉ freed before)
    (hget : ∀ i, .get i ∈ log' → i ∉ freed log) (hfree : ∀ i, .get i ∈ log' → freed log' = [])
    (before after : List MagazineEvent) (i : ℕ)
    (heq : log ++ log' = before ++ .get i :: after) : i ∉ freed before := by
  rcases List.append_eq_append_iff.mp heq with ⟨mid, rfl, hlog'⟩ | ⟨mid, hlog, hafter⟩
  · have hmem : MagazineEvent.get i ∈ log' := hlog' ▸ List.mem_append_right _ List.mem_cons_self
    have hmid : freed mid = [] := by
      have hnone := hfree i hmem
      rw [hlog', freed_append] at hnone
      exact (List.append_eq_nil_iff.mp hnone).1
    rw [freed_append, hmid, List.append_nil]
    exact hget i hmem
  · cases mid with
    | nil =>
      have hlog' : MagazineEvent.get i :: after = log' := hafter
      rw [List.append_nil] at hlog
      exact hlog ▸ hget i (hlog' ▸ List.mem_cons_self)
    | cons e mid =>
      obtain ⟨rfl, -⟩ := List.cons.inj hafter
      exact h before mid i hlog

end Log

/-! ### What holds as long as nothing is too late -/

/-- What a magazine has in common with the log. -/
structure Accords (log : List MagazineEvent) (i : ℕ) (m : Magazine) : Prop where
  length_eq : (m.closures.length : ℤ) = m.nclosures
  next_le : m.nextclosure ≤ m.closures.length
  handedOut_eq : handedOut i log = List.range m.nextclosure
  created_eq : (m.closures.take m.nextclosure).map Closure.javaObject = (created i log).map some

structure Inv (s : Magazines) : Prop where
  whole : s.broken = false
  kept : Kept s.log
  freed_iff : ∀ i, i ∈ freed s.log ↔ ∃ object, s.objects[i]? = some object ∧ object.disposed = true
  address_ne : ∀ object ∈ s.objects, object.magazineAddress ≠ 0
  /-- What has not been freed is there. -/
  there : ∀ i object, s.objects[i]? = some object → object.disposed = false →
    ∃ m, s.memory object.magazineAddress = some (i, m) ∧ Accords s.log i m
  /-- What is there has not been freed. -/
  owner : ∀ address i m, s.memory address = some (i, m) →
    ∃ object, s.objects[i]? = some object ∧ object.disposed = false ∧
      object.magazineAddress = address
  made : ∀ i, (handedOut i s.log ≠ [] ∨ created i s.log ≠ []) → i < s.objects.length
  created_lt : ∀ i, ∀ ref ∈ created i s.log, ref < s.refs
  created_nodup : ∀ i, (created i s.log).Nodup
  created_unique : ∀ i j ref, ref ∈ created i s.log → ref ∈ created j s.log → i = j
  deleted_lt : ∀ ref ∈ deleted s.log, ref < s.refs

theorem inv_initial : Inv initial where
  whole := rfl
  kept :=
    { handedOut := fun _ => List.nodup_nil
      deleted := fun _ _ h => absurd h List.not_mem_nil
      freed := List.nodup_nil
      get := fun before _ _ h => absurd (congrArg List.length h) (by simp [initial]) }
  freed_iff i := iff_of_false List.not_mem_nil (by rintro ⟨object, h, -⟩; cases h)
  address_ne _ h := absurd h List.not_mem_nil
  there _ _ h := nomatch h
  owner _ _ _ h := nomatch h
  made _ h := h.elim (fun h => absurd rfl h) fun h => absurd rfl h
  created_lt _ _ h := absurd h List.not_mem_nil
  created_nodup _ := List.nodup_nil
  created_unique _ _ _ h := absurd h List.not_mem_nil
  deleted_lt _ h := absurd h List.not_mem_nil

section Step

variable {s s' : Magazines} {i : ℕ} {object : ClosureMagazine} {m m' : Magazine}

/-- A magazine that was just made, with no closure given out and an address of its own, keeps the
invariant. -/
theorem Inv.add (h : Inv s) (hlength : (m.closures.length : ℤ) = m.nclosures)
    (hnext : m.nextclosure = 0) (hne : m.address ≠ 0) (hadd : s.add m = some s') : Inv s' := by
  unfold Magazines.add at hadd
  split at hadd
  case isTrue => cases hadd
  case isFalse hfree =>
    cases hadd
    have hnone : s.memory m.address = none := by simpa using hfree
    have hnew : handedOut s.objects.length s.log = [] ∧ created s.objects.length s.log = [] := by
      constructor
      · by_contra hhanded
        exact absurd (h.made _ (.inl hhanded)) (Nat.lt_irrefl _)
      · by_contra hcreated
        exact absurd (h.made _ (.inr hcreated)) (Nat.lt_irrefl _)
    have hold : ∀ {i object}, (s.objects ++ [⟨m.address, false⟩])[i]? = some object →
        s.objects[i]? = some object ∨ i = s.objects.length ∧ object = ⟨m.address, false⟩ := by
      intro i object hobject
      rcases Nat.lt_or_ge i s.objects.length with hlt | hge
      · rw [List.getElem?_append_left hlt] at hobject
        exact .inl hobject
      · rw [List.getElem?_append_right hge, List.getElem?_singleton] at hobject
        split at hobject
        · cases hobject
          exact .inr ⟨by omega, rfl⟩
        · cases hobject
    have hkeep : ∀ {i object}, s.objects[i]? = some object →
        (s.objects ++ [⟨m.address, false⟩])[i]? = some object := fun hobject => by
      rw [List.getElem?_append_left (List.getElem?_eq_some_iff.mp hobject).1]
      exact hobject
    refine ⟨h.whole, h.kept, ?_, ?_, ?_, ?_, ?_, h.created_lt, h.created_nodup, h.created_unique,
      h.deleted_lt⟩
    · intro i
      rw [h.freed_iff]
      constructor
      · rintro ⟨object, hobject, hdisposed⟩
        exact ⟨object, hkeep hobject, hdisposed⟩
      · rintro ⟨object, hobject, hdisposed⟩
        rcases hold hobject with hobject | ⟨-, rfl⟩
        · exact ⟨object, hobject, hdisposed⟩
        · cases hdisposed
    · intro object hobject
      rcases List.mem_append.mp hobject with hobject | hobject
      · exact h.address_ne object hobject
      · cases List.mem_singleton.mp hobject
        exact hne
    · intro i object hobject hlive
      rcases hold hobject with hobject | ⟨rfl, rfl⟩
      · obtain ⟨m', hm', haccords⟩ := h.there i object hobject hlive
        have haddress : object.magazineAddress ≠ m.address := fun heq => by
          rw [heq, hnone] at hm'
          cases hm'
        exact ⟨m', (Function.update_of_ne haddress _ _).trans hm', haccords⟩
      · refine ⟨m, Function.update_self _ _ _, hlength, hnext ▸ Nat.zero_le _, ?_, ?_⟩
        · rw [hnew.1, hnext]
          rfl
        · rw [hnew.2, hnext]
          rfl
    · intro address i m' hm'
      change Function.update s.memory _ _ address = _ at hm'
      by_cases haddress : address = m.address
      · subst haddress
        rw [Function.update_self] at hm'
        cases hm'
        exact ⟨⟨m.address, false⟩, by simp, rfl, rfl⟩
      · rw [Function.update_of_ne haddress] at hm'
        obtain ⟨object, hobject, hlive, haddress'⟩ := h.owner address i m' hm'
        exact ⟨object, hkeep hobject, hlive, haddress'⟩
    · intro i hi
      rw [List.length_append]
      exact Nat.lt_of_lt_of_le (h.made i hi) (Nat.le_add_right _ _)

/-- Events that are none of a magazine's handing out or creating keep it in accord with the log. -/
theorem Accords.append {log events : List MagazineEvent} (h : Accords log i m)
    (hhanded : handedOut i events = []) (hcreated : created i events = []) :
    Accords (log ++ events) i m where
  length_eq := h.length_eq
  next_le := h.next_le
  handedOut_eq := by rw [handedOut_append, hhanded, List.append_nil, h.handedOut_eq]
  created_eq := by rw [created_append, hcreated, List.append_nil, h.created_eq]

section Live

variable (h : Inv s) (hobject : s.objects[i]? = some object) (hlive : object.disposed = false)

include h hobject hlive

/-- A magazine that was not disposed of has not been freed. -/
theorem Inv.not_freed : i ∉ freed s.log := by
  intro hi
  obtain ⟨object', hobject', hdisposed⟩ := (h.freed_iff i).mp hi
  cases hobject.symm.trans hobject'
  exact Bool.false_ne_true (hlive.symm.trans hdisposed)

/-- Two magazines that were not disposed of have different addresses, since each of them is live. -/
theorem Inv.address_ne_of_ne {j : ℕ} {object' : ClosureMagazine}
    (hobject' : s.objects[j]? = some object') (hlive' : object'.disposed = false) (hne : j ≠ i) :
    object'.magazineAddress ≠ object.magazineAddress := by
  intro heq
  obtain ⟨m, hm, -⟩ := h.there i object hobject hlive
  obtain ⟨m', hm', -⟩ := h.there j object' hobject' hlive'
  rw [heq, hm] at hm'
  cases hm'
  exact hne rfl

end Live

/-! ### A magazine is asked for a closure -/

/-- What a call of `closureMagazineGet` for magazine `i` may add to the log: nothing for another
magazine, and no reference but `ref`. -/
structure GetEvents (i ref : ℕ) (events : List MagazineEvent) : Prop where
  freed_eq : freed events = []
  deleted_eq : deleted events = []
  get_eq : ∀ j, .get j ∈ events → j = i
  other : ∀ j ≠ i, handedOut j events = [] ∧ created j events = []
  created_eq : created i events = [] ∨ created i events = [ref]

section Get

variable {events : List MagazineEvent}

/-- A reference in the log is an old one, or the new one and that of the magazine. -/
theorem GetEvents.created_of_mem {ref : ℕ} (he : GetEvents i ref events) {log : List MagazineEvent}
    {j r : ℕ} (hr : r ∈ created j (log ++ events)) : r ∈ created j log ∨ r = ref ∧ j = i := by
  rw [created_append, List.mem_append] at hr
  refine hr.imp_right fun hr => ?_
  by_cases hj : j = i
  · subst hj
    rcases he.created_eq with hnone | hone
    · rw [hnone] at hr
      cases hr
    · rw [hone] at hr
      exact ⟨List.mem_singleton.mp hr, rfl⟩
  · rw [(he.other j hj).2] at hr
    cases hr

/-- The references that the events of one request create are different ones, for each magazine. -/
theorem GetEvents.created_nodup {ref : ℕ} (he : GetEvents i ref events) (j : ℕ) :
    (created j events).Nodup := by
  by_cases hj : j = i
  · subst hj
    rcases he.created_eq with hnone | hone
    · rw [hnone]
      exact List.nodup_nil
    · rw [hone]
      exact List.nodup_singleton _
  · rw [(he.other j hj).2]
    exact List.nodup_nil

variable (h : Inv s) (he : GetEvents i s.refs events)

include h he

/-- After a request no reference has been created twice by one magazine, since the new one is fresh.
-/
theorem Inv.created_nodup_get (j : ℕ) : (created j (s.log ++ events)).Nodup := by
  rw [created_append, List.nodup_append]
  refine ⟨h.created_nodup j, he.created_nodup j, fun ref href ref' href' heq => ?_⟩
  have hnew : ref' ∈ created j ([] ++ events) := href'
  rcases he.created_of_mem hnew with hnil | ⟨rfl, -⟩
  · cases hnil
  · exact absurd (heq ▸ h.created_lt j ref href) (Nat.lt_irrefl _)

/-- After a request no reference has been created by two magazines either. -/
theorem Inv.created_unique_get (j k ref : ℕ) (hj : ref ∈ created j (s.log ++ events))
    (hk : ref ∈ created k (s.log ++ events)) : j = k := by
  rcases he.created_of_mem hj with hj' | ⟨href, rfl⟩
  · rcases he.created_of_mem hk with hk' | ⟨rfl, -⟩
    · exact h.created_unique j k ref hj' hk'
    · exact absurd (h.created_lt j _ hj') (Nat.lt_irrefl _)
  · rcases he.created_of_mem hk with hk' | ⟨-, rfl⟩
    · exact absurd (href ▸ h.created_lt k _ hk') (Nat.lt_irrefl _)
    · rfl

variable (hobject : s.objects[i]? = some object) (hlive : object.disposed = false)
  (haccords : Accords (s.log ++ events) i m')

include hobject hlive haccords

/-- A request for a closure, of a magazine that has not been freed, keeps what `Kept` says of the
log: the closure has not been handed out yet, and its reference is a new one. -/
theorem Inv.kept_get : Kept (s.log ++ events) where
  handedOut j := by
    by_cases hj : j = i
    · rw [hj, haccords.handedOut_eq]
      exact List.nodup_range
    · rw [handedOut_append, (he.other j hj).1, List.append_nil]
      exact h.kept.handedOut j
  deleted j ref href := by
    rw [deleted_append, he.deleted_eq, List.append_nil, freed_append, he.freed_eq, List.append_nil]
    rcases he.created_of_mem href with href | ⟨rfl, rfl⟩
    · exact h.kept.deleted j ref href
    · rw [if_neg (h.not_freed hobject hlive), List.count_eq_zero]
      exact fun hmem => absurd (h.deleted_lt _ hmem) (Nat.lt_irrefl _)
  freed := by
    rw [freed_append, he.freed_eq, List.append_nil]
    exact h.kept.freed
  get := get_append h.kept.get (fun j hj => he.get_eq j hj ▸ h.not_freed hobject hlive)
    fun _ _ => he.freed_eq

/-- Every magazine that has not been freed is there still, and accords with the log. -/
theorem Inv.there_get (j : ℕ) (object' : ClosureMagazine) (hobject' : s.objects[j]? = some object')
    (hlive' : object'.disposed = false) :
    ∃ m, Function.update s.memory object.magazineAddress (some (i, m')) object'.magazineAddress =
      some (j, m) ∧ Accords (s.log ++ events) j m := by
  by_cases hj : j = i
  · subst hj
    cases hobject.symm.trans hobject'
    exact ⟨m', Function.update_self .., haccords⟩
  · obtain ⟨m, hm, haccords'⟩ := h.there j object' hobject' hlive'
    have haddress := h.address_ne_of_ne hobject hlive hobject' hlive' hj
    obtain ⟨hhanded, hcreated⟩ := he.other j hj
    exact ⟨m, (Function.update_of_ne haddress _ _).trans hm, haccords'.append hhanded hcreated⟩

/-- The invariant holds after a call of `closureMagazineGet` for a magazine that has not been
freed. -/
theorem Inv.get :
    Inv { s with
      memory := Function.update s.memory object.magazineAddress (some (i, m'))
      refs := s.refs + 1
      log := s.log ++ events } where
  whole := h.whole
  kept := h.kept_get he hobject hlive haccords
  freed_iff j := by
    rw [freed_append, he.freed_eq, List.append_nil]
    exact h.freed_iff j
  address_ne := h.address_ne
  there := h.there_get he hobject hlive haccords
  owner address j m hm := by
    change Function.update s.memory _ _ address = _ at hm
    by_cases haddress : address = object.magazineAddress
    · subst haddress
      rw [Function.update_self] at hm
      cases hm
      exact ⟨object, hobject, hlive, rfl⟩
    · rw [Function.update_of_ne haddress] at hm
      exact h.owner address j m hm
  made j hj := by
    by_cases hji : j = i
    · subst hji
      exact (List.getElem?_eq_some_iff.mp hobject).1
    · rw [handedOut_append, created_append, (he.other j hji).1, (he.other j hji).2,
        List.append_nil, List.append_nil] at hj
      exact h.made j hj
  created_lt j ref href := by
    rcases he.created_of_mem href with href | ⟨rfl, -⟩
    · exact Nat.lt_succ_of_lt (h.created_lt j ref href)
    · exact Nat.lt_succ_self _
  created_nodup := h.created_nodup_get he
  created_unique := h.created_unique_get he
  deleted_lt ref href := by
    rw [deleted_append, he.deleted_eq, List.append_nil] at href
    exact Nat.lt_succ_of_lt (h.deleted_lt ref href)

end Get

/-! ### A magazine is freed -/

/-- What `freeClosureMagazine` leaves in the log of a magazine. -/
def freeEvents (i : ℕ) (m : Magazine) : List MagazineEvent :=
  .free i :: (Foreign.freeClosureMagazine m).1.filterMap (Option.map MagazineEvent.deleteGlobalRef)

theorem freed_freeEvents (i : ℕ) (m : Magazine) : freed (freeEvents i m) = [i] :=
  congrArg (List.cons i) (freed_deletions _)

theorem created_freeEvents (i j : ℕ) (m : Magazine) : created j (freeEvents i m) = [] :=
  created_deletions j _

theorem handedOut_freeEvents (i j : ℕ) (m : Magazine) : handedOut j (freeEvents i m) = [] :=
  handedOut_deletions j _

/-- The references of a magazine that accords with the log are those that it has created. -/
theorem Accords.deleted_freeEvents {log : List MagazineEvent} (h : Accords log i m) :
    deleted (freeEvents i m) = created i log := by
  have hrefs : (Foreign.freeClosureMagazine m).1 = (created i log).map some := h.created_eq
  have hid : (id ∘ some : ℕ → Option ℕ) = some := rfl
  refine (deleted_map _).trans ?_
  rw [hrefs, List.filterMap_map, hid, List.filterMap_some]

/-- While a magazine is freed, no magazine is asked for a closure. -/
theorem get_notMem_freeEvents (i j : ℕ) (m : Magazine) : MagazineEvent.get j ∉ freeEvents i m := by
  intro hmem
  rcases List.mem_cons.mp hmem with hmem | hmem
  · cases hmem
  · obtain ⟨ref, href⟩ := eq_deleteGlobalRef hmem
    cases href

/-- The Java objects of the magazines, once one of them has been marked. -/
theorem getElem?_set_disposed (hlt : i < s.objects.length) (j : ℕ) (object' : ClosureMagazine) :
    (s.objects.set i { object with disposed := true })[j]? = some object' ↔
      if j = i then object' = { object with disposed := true }
      else s.objects[j]? = some object' := by
  rw [List.getElem?_set]
  by_cases hj : j = i
  · subst hj
    rw [if_pos rfl, if_pos rfl, if_pos hlt, Option.some_inj]
    exact eq_comm
  · rw [if_neg (Ne.symm hj), if_neg hj]

section Free

variable (h : Inv s) (hobject : s.objects[i]? = some object)

include h hobject

/-- When a magazine has been freed, it is this one that is marked as disposed of, and no other. -/
theorem Inv.freed_iff_free (j : ℕ) :
    j ∈ freed (s.log ++ freeEvents i m) ↔
      ∃ object', (s.objects.set i { object with disposed := true })[j]? = some object' ∧
        object'.disposed = true := by
  have hset := @getElem?_set_disposed s i object (List.getElem?_eq_some_iff.mp hobject).1 j
  rw [freed_append, freed_freeEvents, List.mem_append, h.freed_iff, List.mem_singleton]
  by_cases hj : j = i
  · refine iff_of_true (.inr hj) ⟨{ object with disposed := true }, ?_, rfl⟩
    exact (hset _).mpr (by rw [if_pos hj])
  · refine (or_iff_left hj).trans (exists_congr fun object' => and_congr_left' ?_)
    exact ((hset object').trans (by rw [if_neg hj])).symm

/-- What is there has another Java object, which is not marked. -/
theorem Inv.owner_free (address j : ℕ) (m' : Magazine)
    (hm' : Function.update s.memory object.magazineAddress none address = some (j, m')) :
    ∃ object', (s.objects.set i { object with disposed := true })[j]? = some object' ∧
      object'.disposed = false ∧ object'.magazineAddress = address := by
  by_cases haddress : address = object.magazineAddress
  · rw [haddress, Function.update_self] at hm'
    cases hm'
  · rw [Function.update_of_ne haddress] at hm'
    obtain ⟨object', hobject', hlive', haddress'⟩ := h.owner address j m' hm'
    have hj : j ≠ i := by
      rintro rfl
      cases hobject.symm.trans hobject'
      exact haddress haddress'.symm
    have hset := @getElem?_set_disposed s i object (List.getElem?_eq_some_iff.mp hobject).1 j
      object'
    exact ⟨object', hset.mpr (by rwa [if_neg hj]), hlive', haddress'⟩

variable (hlive : object.disposed = false)

include hlive

/-- Every other magazine that has not been freed is there still. -/
theorem Inv.there_free (j : ℕ) (object' : ClosureMagazine)
    (hobject' : (s.objects.set i { object with disposed := true })[j]? = some object')
    (hlive' : object'.disposed = false) :
    ∃ m', Function.update s.memory object.magazineAddress none object'.magazineAddress =
      some (j, m') ∧ Accords (s.log ++ freeEvents i m) j m' := by
  have hcase := (getElem?_set_disposed (List.getElem?_eq_some_iff.mp hobject).1 j object').mp
    hobject'
  split at hcase
  case isTrue =>
    rw [hcase] at hlive'
    cases hlive'
  case isFalse hj =>
    obtain ⟨m', hm', haccords'⟩ := h.there j object' hcase hlive'
    have haddress := h.address_ne_of_ne hobject hlive hcase hlive' hj
    exact ⟨m', (Function.update_of_ne haddress _ _).trans hm',
      haccords'.append (handedOut_freeEvents i j m) (created_freeEvents i j m)⟩

variable (haccords : Accords s.log i m)

include haccords

/-- The references of the magazine have now been deleted, and those of no other one. -/
theorem Inv.kept_free : Kept (s.log ++ freeEvents i m) where
  handedOut j := by
    rw [handedOut_append, handedOut_freeEvents, List.append_nil]
    exact h.kept.handedOut j
  deleted j ref href := by
    rw [created_append, created_freeEvents, List.append_nil] at href
    rw [deleted_append, haccords.deleted_freeEvents, freed_append, freed_freeEvents,
      List.count_append, h.kept.deleted j ref href]
    by_cases hj : j = i
    · subst hj
      rw [if_neg (h.not_freed hobject hlive),
        if_pos (List.mem_append_right _ List.mem_cons_self), Nat.zero_add]
      exact List.count_eq_one_of_mem (h.created_nodup j) href
    · have hother : ref ∉ created i s.log := fun hmem => hj (h.created_unique j i ref href hmem)
      rw [List.count_eq_zero.mpr hother, Nat.add_zero]
      simp [hj]
  freed := by
    rw [freed_append, freed_freeEvents]
    exact List.nodup_append.mpr ⟨h.kept.freed, List.nodup_singleton _, fun j hj k hk heq =>
      h.not_freed hobject hlive (List.mem_singleton.mp hk ▸ heq ▸ hj)⟩
  get := get_append h.kept.get (fun j hj => absurd hj (get_notMem_freeEvents i j m))
    fun j hj => absurd hj (get_notMem_freeEvents i j m)

/-- The invariant holds after a magazine has been freed for the first time. -/
theorem Inv.free :
    Inv ({ s with
      objects := s.objects.set i { object with disposed := true }
      log := s.log ++ [MagazineEvent.free i] }.free object.magazineAddress m) := by
  have hlog : s.log ++ [MagazineEvent.free i] ++ (Foreign.freeClosureMagazine m).1.filterMap
      (Option.map MagazineEvent.deleteGlobalRef) = s.log ++ freeEvents i m :=
    List.append_assoc ..
  have hcreated : ∀ j, created j (s.log ++ freeEvents i m) = created j s.log := fun j => by
    rw [created_append, created_freeEvents, List.append_nil]
  rw [Magazines.free]
  dsimp only
  rw [hlog]
  exact {
    whole := h.whole
    kept := h.kept_free hobject hlive haccords
    freed_iff := h.freed_iff_free hobject
    address_ne object' hobject' := by
      obtain ⟨j, hj⟩ := List.mem_iff_getElem?.mp hobject'
      have hcase := (getElem?_set_disposed (List.getElem?_eq_some_iff.mp hobject).1 j object').mp hj
      split at hcase
      · rw [hcase]
        exact h.address_ne object (List.mem_of_getElem? hobject)
      · exact h.address_ne object' (List.mem_of_getElem? hcase)
    there := h.there_free hobject hlive
    owner := h.owner_free hobject
    made j hj := by
      rw [handedOut_append, handedOut_freeEvents, List.append_nil, hcreated j] at hj
      rw [List.length_set]
      exact h.made j hj
    created_lt j ref href := h.created_lt j ref (hcreated j ▸ href)
    created_nodup j := (hcreated j).symm ▸ h.created_nodup j
    created_unique j k ref hj hk := h.created_unique j k ref (hcreated j ▸ hj) (hcreated k ▸ hk)
    deleted_lt ref href := by
      rw [deleted_append, haccords.deleted_freeEvents] at href
      rcases List.mem_append.mp href with hold | hnew
      · exact h.deleted_lt ref hold
      · exact h.created_lt i ref hnew }

end Free

/-! ### The steps -/

/-- Another Java object for the next closure changes none of those before it. -/
theorem take_setJavaObject (m : Magazine) (ref : Option ℕ) :
    (m.setJavaObject ref).closures.take m.nextclosure = m.closures.take m.nextclosure := by
  rw [Magazine.setJavaObject, List.take_modify, List.modify_eq_self]
  exact List.length_take_le _ _

/-- A magazine whose next closure was given a Java object in vain accords with the log still. -/
theorem Accords.setJavaObject {log : List MagazineEvent} (h : Accords log i m)
    (ref : Option ℕ) : Accords log i (m.setJavaObject ref) where
  length_eq := by
    rw [Magazine.setJavaObject, List.length_modify]
    exact h.length_eq
  next_le := by
    rw [Magazine.setJavaObject, List.length_modify]
    exact h.next_le
  handedOut_eq := h.handedOut_eq
  created_eq := (congrArg _ (take_setJavaObject m ref)).trans h.created_eq

/-- What `closureMagazineGet` does: either nothing is returned, or the next closure is. -/
theorem closureMagazineGet_cases (owner : ℕ) (newGlobalRef : Option ℕ) {m : Magazine}
    (hlength : (m.closures.length : ℤ) = m.nclosures) :
    (getEvents owner newGlobalRef m = [] ∧
      ((Foreign.closureMagazineGet newGlobalRef m).1 = m ∨
        (Foreign.closureMagazineGet newGlobalRef m).1 = m.setJavaObject newGlobalRef)) ∨
    ∃ ref, newGlobalRef = some ref ∧ m.nextclosure < m.closures.length ∧
      getEvents owner newGlobalRef m = [.newGlobalRef owner ref, .handOut owner m.nextclosure] ∧
      (Foreign.closureMagazineGet newGlobalRef m).1 =
        { m.setJavaObject newGlobalRef with nextclosure := m.nextclosure + 1 } := by
  rw [getEvents, Foreign.closureMagazineGet]
  by_cases hmore : (m.nextclosure : ℤ) < m.nclosures
  · rw [if_pos hmore, if_pos hmore]
    cases newGlobalRef with
    | none => exact .inl ⟨rfl, .inr rfl⟩
    | some ref =>
      have hlt : m.nextclosure < m.closures.length := by omega
      have hlt' : m.nextclosure < (m.setJavaObject (some ref)).closures.length := by
        rwa [Magazine.setJavaObject, List.length_modify]
      refine .inr ⟨ref, rfl, hlt, ?_, rfl⟩
      dsimp only
      rw [List.getElem?_eq_getElem hlt']
      rfl
  · rw [if_neg hmore, if_neg hmore]
    exact .inl ⟨rfl, .inl rfl⟩

/-- When the next closure is given a Java object, one more closure has one, and the others keep
theirs. -/
theorem map_take_setJavaObject {m : Magazine} (ref : ℕ) (hlt : m.nextclosure < m.closures.length) :
    ((m.setJavaObject (some ref)).closures.take (m.nextclosure + 1)).map Closure.javaObject =
      (m.closures.take m.nextclosure).map Closure.javaObject ++ [some ref] := by
  have hlt' : m.nextclosure < (m.setJavaObject (some ref)).closures.length := by
    rwa [Magazine.setJavaObject, List.length_modify]
  rw [List.take_succ_eq_append_getElem hlt', take_setJavaObject, List.map_append]
  refine congrArg _ ?_
  simp [Magazine.setJavaObject]

/-- `closureMagazineGet` keeps the invariant, for a magazine that has not been disposed of and
accords with the log. -/
theorem Inv.closureMagazineGet (h : Inv s) (hobject : s.objects[i]? = some object)
    (hlive : object.disposed = false) (haccords : Accords s.log i m) (referenced : Bool) :
    Inv ({ s with log := s.log ++ [MagazineEvent.get i] }.get object.magazineAddress i m
      referenced) := by
  obtain ⟨ref, href⟩ : ∃ ref, ref = if referenced then some s.refs else none := ⟨_, rfl⟩
  have hlog : s.log ++ [MagazineEvent.get i] ++ getEvents i ref m =
      s.log ++ (.get i :: getEvents i ref m) := List.append_assoc _ [_] _
  rw [Magazines.get]
  dsimp only
  rw [← href, hlog]
  rcases closureMagazineGet_cases i ref haccords.length_eq with
    ⟨hevents, hm'⟩ | ⟨r, rfl, hlt, hevents, hm'⟩
  · rw [hevents]
    refine h.get ⟨rfl, rfl, fun j hj => ?_, fun _ _ => ⟨rfl, rfl⟩, .inl rfl⟩ hobject hlive ?_
    · cases List.mem_singleton.mp hj
      rfl
    · rcases hm' with hm' | hm'
      · rw [hm']
        exact haccords.append rfl rfl
      · rw [hm']
        exact (haccords.setJavaObject ref).append rfl rfl
  · have hr : r = s.refs := by
      split at href
      · exact Option.some.inj href
      · cases href
    subst hr
    have hhanded : handedOut i [.get i, .newGlobalRef i s.refs, .handOut i m.nextclosure] =
        [m.nextclosure] := by simp [handedOut]
    have hcreated : created i [.get i, .newGlobalRef i s.refs, .handOut i m.nextclosure] =
        [s.refs] := by simp [created]
    rw [hevents, hm']
    refine h.get ⟨rfl, rfl, fun j hj => ?_, fun j hj => ?_, .inr hcreated⟩ hobject hlive
      ⟨?_, ?_, ?_, ?_⟩
    · simp at hj
      exact hj
    · simp [handedOut, created, Ne.symm hj]
    · rw [Magazine.setJavaObject, List.length_modify]
      exact haccords.length_eq
    · rw [Magazine.setJavaObject, List.length_modify]
      exact hlt
    · rw [handedOut_append, haccords.handedOut_eq, hhanded, List.range_succ]
    · rw [created_append, hcreated, List.map_append]
      exact (map_take_setJavaObject s.refs hlt).trans (congrArg (· ++ _) haccords.created_eq)

/-- `allocate` keeps the invariant on a magazine that has not been freed. -/
theorem Inv.allocate (h : Inv s) {referenced : Bool} (hstep : s.allocate i referenced = some s')
    (hlive : ∀ object, s.objects[i]? = some object → object.disposed = false) : Inv s' := by
  obtain ⟨object, hobject, hs'⟩ := Option.map_eq_some_iff.mp hstep
  obtain ⟨m, hmemory, haccords⟩ := h.there i object hobject (hlive object hobject)
  simp only [hmemory] at hs'
  exact hs' ▸ h.closureMagazineGet hobject (hlive object hobject) haccords referenced

/-- `dispose` keeps the invariant, as often as it is called, since only the first call frees
anything. -/
theorem Inv.dispose (h : Inv s) (hstep : s.dispose i = some s') : Inv s' := by
  obtain ⟨object, hobject, hs'⟩ := Option.map_eq_some_iff.mp hstep
  have hne := h.address_ne object (List.mem_of_getElem? hobject)
  cases hdisposed : object.disposed with
  | true =>
    rw [if_neg (fun hboth => Bool.false_ne_true (hboth.2.symm.trans hdisposed))] at hs'
    have hsame : s.objects.set i { object with disposed := true } = s.objects := by
      have hself : { object with disposed := true } = object := by
        rw [← hdisposed]
      obtain ⟨hlt, hget⟩ := List.getElem?_eq_some_iff.mp hobject
      rw [hself, ← hget]
      exact List.set_getElem_self hlt
    rw [hsame] at hs'
    exact hs' ▸ h
  | false =>
    obtain ⟨m, hmemory, haccords⟩ := h.there i object hobject hdisposed
    rw [if_pos ⟨hne, hdisposed⟩] at hs'
    simp only [hmemory] at hs'
    exact hs' ▸ h.free hobject hdisposed haccords

end Step

/-- **One step** keeps the invariant, if it is not an `allocate` that comes too late. -/
theorem Inv.step {b : ClosureBuild pf} {a : Act} {s s' : Magazines} (h : Inv s)
    (hlive : NotDisposed a s) (hstep : step b a s = some s') : Inv s' := by
  simp only [Magazines.step, h.whole, Bool.false_eq_true, if_false] at hstep
  cases a with
  | newClosureMagazine libs ctx method prim =>
    obtain ⟨result, hcall, hresult⟩ := Option.bind_eq_some_iff.mp hstep
    cases hhandle : result.handle with
    | none =>
      rw [hhandle] at hresult
      cases hresult
      exact h
    | some m =>
      obtain ⟨hlength, hnext⟩ := newClosureMagazine_handle _ _ _ hcall hhandle
      rw [hhandle] at hresult
      dsimp only at hresult
      split at hresult
      case isTrue =>
        cases hresult
        exact h
      case isFalse hne => exact h.add hlength hnext hne hresult
  | allocate i referenced => exact h.allocate hstep hlive
  | dispose i => exact h.dispose hstep
  | clean i => exact h.dispose hstep

/-- An `allocate` on a magazine that was freed goes through, and leaves its request behind the
freeing in the log. -/
theorem exists_late (b : ClosureBuild pf) {s : Magazines} {i : ℕ} (referenced : Bool)
    {object : ClosureMagazine} (hwhole : s.broken = false) (hobject : s.objects[i]? = some object) :
    ∃ s' after, step b (.allocate i referenced) s = some s' ∧
      s'.log = s.log ++ .get i :: after := by
  rw [step, if_neg (by rw [hwhole]; exact Bool.false_ne_true), allocate, hobject, Option.map_some]
  cases s.memory object.magazineAddress with
  | none => exact ⟨_, [], rfl, rfl⟩
  | some there => exact ⟨_, _, rfl, List.append_assoc _ [_] _⟩

/-- The log is as it should be whenever one looks at it. -/
def KeptThroughout (b : ClosureBuild pf) (acts : List Act) : Prop :=
  ∀ before s, before <+: acts → runs (step b) before initial = some s → Kept s.log

/-- **The log is as it should be** in exactly the runs in which `allocate` is only called on
magazines that have not been freed. -/
theorem keptThroughout_iff (b : ClosureBuild pf) (acts : List Act) :
    KeptThroughout b acts ↔ Always (step b) NotDisposed acts initial := by
  suffices h : ∀ s, Inv s →
      ((∀ before s', before <+: acts → runs (step b) before s = some s' → Kept s'.log) ↔
        Always (step b) NotDisposed acts s) from h initial inv_initial
  induction acts with
  | nil =>
    intro s hI
    refine iff_of_true (fun before s' hbefore hruns => ?_) trivial
    rw [List.prefix_nil.mp hbefore] at hruns
    cases hruns
    exact hI.kept
  | cons a acts ih =>
    intro s hI
    constructor
    · intro h
      have hlive : NotDisposed a s := by
        cases a with
        | allocate i referenced =>
          intro object hobject
          by_contra hdisposed
          obtain ⟨s', after, hstep, hlog⟩ := exists_late b referenced hI.whole hobject
          have hkept := h [.allocate i referenced] s' (by simp) (by rw [runs_cons, hstep]; rfl)
          refine hkept.get s.log after i hlog ((hI.freed_iff i).mpr ⟨object, hobject, ?_⟩)
          exact (Bool.not_eq_false _).mp hdisposed
        | newClosureMagazine | dispose | clean => trivial
      refine ⟨hlive, fun s₁ hs₁ => (ih s₁ (hI.step hlive hs₁)).mp fun before s' hbefore hruns => ?_⟩
      exact h (a :: before) s' (List.cons_prefix_cons.mpr ⟨rfl, hbefore⟩)
        (by rw [runs_cons, hs₁]; exact hruns)
    · rintro ⟨hlive, hrest⟩ before s' hbefore hruns
      cases before with
      | nil =>
        cases hruns
        exact hI.kept
      | cons a' before =>
        obtain ⟨rfl, htail⟩ := List.cons_prefix_cons.mp hbefore
        obtain ⟨s₁, hs₁, hruns⟩ := Option.bind_eq_some_iff.mp hruns
        exact (ih s₁ (hI.step hlive hs₁)).mpr (hrest s₁ hs₁) before s' htail hruns

/-- A build with closures of 32 bytes. -/
def smallClosures : ClosureBuild .linuxX64 := ⟨false, 32, by decide⟩

/-- Two closures in a page, at any address. -/
def pageOfTwo (address : ℕ) : MagazineLibs where
  callocMagazine := some address
  callocClosures := some (address + 0x100)
  pageSize := 64
  allocatePages := some (address + 0x1000)
  makePagesExecutable := true
  ffiClosureAlloc := none
  ffiPrepClosureLoc _ _ := .ok
  fromReflectedMethod method := .ok method
  getJavaVM := 0
  errno := 0
  strerror _ := "Success"

/-- A magazine is asked for a closure after it has been disposed of. -/
theorem not_keptThroughout_disposed :
    ¬KeptThroughout smallClosures
      [.newClosureMagazine (pageOfTwo 0x1000) ⟨⟨.defaultAbi, none, [], .void⟩, 0, [], 0, none⟩ 7
      true,
        .dispose 0, .allocate 0 true] := by
  intro h
  have hkept := h _ _ List.prefix_rfl rfl
  exact hkept.get [.free 0] [] 0 rfl List.mem_cons_self

end Magazines

end Jffi
