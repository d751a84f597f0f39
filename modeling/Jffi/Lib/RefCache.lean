import Mathlib.Data.List.Infix
import Mathlib.Tactic.Common

/-!
# Caches of references that a collector clears

A hash table maps keys to references, and a collector may clear a reference at any time after the
program has let go of what it refers to. Some time after that it puts the reference into a queue.
The program takes references from the queue and removes their keys from the table.

A key may be an object that changes. The table compares the hash a key had when it was put, and asks
a key it looks for whether it equals the key as it is now. How a key shows itself at some moment is
a `Probe`.

## Main definitions

* `Entry`, `Reference`, `RefCache` — the table, the references and the queue
* `RefCache.get`, `put`, `remove`, `poll` — what the program does with them
* `RefCache.request` — what is cached for a key, or else something new
* `RefCache.Sound` — what the cache holds is what is asked for

## Main results

* `RefCache.request_cases` — where the answer to a request comes from
* `RefCache.Sound.request` — a request keeps a cache sound
-/

namespace Jffi

universe u

variable {H K V : Type u}

/-- An entry of the table: the hash its key had, the key, and the number of the reference. -/
structure Entry (H K : Type u) where
  hash : H
  key : K
  ref : ℕ

/-- A reference, and the key that is removed for it. -/
structure Reference (K V : Type u) where
  key : K
  referent : V
  cleared : Bool
  enqueued : Bool

/-- The references are numbered in the order they were made in. -/
structure RefCache (H K V : Type u) where
  table : List (Entry H K)
  refs : List (Reference K V)
  queue : List ℕ

/-- A key at some moment: its hash, and which keys it says it equals. -/
structure Probe (H K : Type u) where
  hash : H
  equals : K → Bool

namespace RefCache

def empty : RefCache H K V := ⟨[], [], []⟩

/-- `ref.get()`. -/
def referent (r : ℕ) (c : RefCache H K V) : Option V :=
  match c.refs[r]? with
  | some ref => if ref.cleared then none else some ref.referent
  | none => none

/-- `queue.poll()`. -/
def poll (c : RefCache H K V) : Option (ℕ × RefCache H K V) :=
  match c.queue with
  | [] => none
  | r :: queue => some (r, { c with queue := queue })

/-- The collector clears a reference. -/
def clear (r : ℕ) (c : RefCache H K V) : RefCache H K V :=
  { c with refs := c.refs.modify r fun ref => { ref with cleared := true } }

/-- The collector puts a reference it has cleared into the queue, once. -/
def enqueue (r : ℕ) (c : RefCache H K V) : Option (RefCache H K V) :=
  match c.refs[r]? with
  | some ref =>
    if ref.cleared = true ∧ ref.enqueued = false then
      some { c with
        refs := c.refs.modify r fun ref => { ref with enqueued := true }
        queue := r :: c.queue }
    else none
  | none => none

/-- The table is rearranged, so that another entry comes first. -/
def transfer (i : ℕ) (c : RefCache H K V) : RefCache H K V :=
  match c.table[i]? with
  | some e => { c with table := e :: c.table.eraseIdx i }
  | none => c

variable {c c' : RefCache H K V} {r : ℕ} {v : V}

theorem referent_eq_some_iff :
    c.referent r = some v ↔
      ∃ ref, c.refs[r]? = some ref ∧ ref.cleared = false ∧ ref.referent = v := by
  rw [referent]
  cases c.refs[r]? with
  | none => simp
  | some ref => cases hcleared : ref.cleared <;> simp [hcleared]

theorem referent_congr (hrefs : c'.refs = c.refs) (r : ℕ) : c'.referent r = c.referent r := by
  rw [referent, referent, hrefs]

/-! ### What the collector keeps -/

/-- Every entry whose reference has not been cleared is as it should be, and every entry has a
reference. -/
structure Sound (Q : Entry H K → V → Prop) (c : RefCache H K V) : Prop where
  ref_lt : ∀ e ∈ c.table, e.ref < c.refs.length
  entry : ∀ e ∈ c.table, ∀ v, c.referent e.ref = some v → Q e v

theorem sound_empty (Q : Entry H K → V → Prop) : Sound Q (empty : RefCache H K V) :=
  ⟨fun _ he => absurd he List.not_mem_nil, fun _ he => absurd he List.not_mem_nil⟩

variable {Q Q' : Entry H K → V → Prop}

/-- A cache with fewer entries, and fewer references that have not been cleared. -/
theorem Sound.mono (h : Sound Q c) (htable : ∀ e ∈ c'.table, e ∈ c.table)
    (hrefs : c'.refs.length = c.refs.length)
    (hreferent : ∀ r v, c'.referent r = some v → c.referent r = some v)
    (hQ : ∀ e ∈ c.table, ∀ v, c.referent e.ref = some v → Q e v → Q' e v) : Sound Q' c' where
  ref_lt e he := hrefs ▸ h.ref_lt e (htable e he)
  entry e he v hv :=
    hQ e (htable e he) v (hreferent _ v hv) (h.entry e (htable e he) v (hreferent _ v hv))

theorem referent_clear {r' : ℕ} (h : (c.clear r').referent r = some v) : c.referent r = some v := by
  rw [referent_eq_some_iff] at h ⊢
  obtain ⟨ref, href, hcleared, rfl⟩ := h
  rw [clear, List.getElem?_modify] at href
  obtain ⟨ref', href', rfl⟩ := Option.map_eq_some_iff.mp href
  refine ⟨ref', href', ?_⟩
  by_cases hr : r' = r
  · simp [hr] at hcleared
  · simp [hr] at hcleared ⊢
    exact hcleared

theorem Sound.clear (h : Sound Q c) (r : ℕ) : Sound Q (c.clear r) :=
  h.mono (fun _ he => he) (List.length_modify ..) (fun _ _ hv => referent_clear hv)
    fun _ _ _ _ hQ => hQ

theorem enqueue_eq_some (h : c.enqueue r = some c') :
    (∃ ref, c.refs[r]? = some ref ∧ ref.cleared = true ∧ ref.enqueued = false) ∧
      c' = { c with
        refs := c.refs.modify r fun ref => { ref with enqueued := true }
        queue := r :: c.queue } := by
  unfold enqueue at h
  split at h
  case h_1 ref href =>
    split at h
    case isTrue hguard =>
      cases h
      exact ⟨⟨ref, href, hguard⟩, rfl⟩
    case isFalse => cases h
  case h_2 => cases h

theorem Sound.enqueue (h : Sound Q c) (henqueue : c.enqueue r = some c') : Sound Q c' := by
  obtain ⟨-, rfl⟩ := enqueue_eq_some henqueue
  refine h.mono (fun _ he => he) (List.length_modify ..) (fun r' v hv => ?_) fun _ _ _ _ hQ => hQ
  rw [referent_eq_some_iff] at hv ⊢
  obtain ⟨ref, href, hcleared, rfl⟩ := hv
  rw [List.getElem?_modify] at href
  obtain ⟨ref', href', rfl⟩ := Option.map_eq_some_iff.mp href
  refine ⟨ref', href', ?_⟩
  by_cases hr : r = r'
  · simpa [hr] using hcleared
  · simpa [hr] using hcleared

theorem mem_transfer {i : ℕ} {e : Entry H K} (h : e ∈ (c.transfer i).table) : e ∈ c.table := by
  unfold transfer at h
  split at h
  case h_1 e' he' =>
    rcases List.mem_cons.mp h with rfl | h
    · exact List.mem_of_getElem? he'
    · exact List.mem_of_mem_eraseIdx h
  case h_2 => exact h

theorem refs_transfer (i : ℕ) (c : RefCache H K V) : (c.transfer i).refs = c.refs := by
  rw [transfer]
  split <;> rfl

theorem Sound.transfer (h : Sound Q c) (i : ℕ) : Sound Q (c.transfer i) :=
  h.mono (fun _ => mem_transfer) (congrArg List.length (refs_transfer i c))
    (fun r _ hv => (referent_congr (refs_transfer i c) r).symm.trans hv) fun _ _ _ _ hQ => hQ

end RefCache

variable [DecidableEq H]

/-! ### The table -/

/-- The entry is the one looked for. -/
def Entry.Matches (e : Entry H K) (p : Probe H K) : Prop := e.hash = p.hash ∧ p.equals e.key = true

instance (e : Entry H K) (p : Probe H K) : Decidable (e.Matches p) := by
  unfold Entry.Matches; infer_instance

/-- The reference of the entry that matches is replaced, under the key that is there. -/
def putRef (p : Probe H K) (k : K) (r : ℕ) : List (Entry H K) → List (Entry H K)
  | [] => [⟨p.hash, k, r⟩]
  | e :: es => if e.Matches p then { e with ref := r } :: es else e :: putRef p k r es

theorem mem_putRef {p : Probe H K} {k : K} {r : ℕ} {es : List (Entry H K)} {e : Entry H K}
    (h : e ∈ putRef p k r es) :
    e ∈ es ∨ e.ref = r ∧ e.hash = p.hash ∧ (e.key = k ∨ p.equals e.key = true) := by
  induction es with
  | nil =>
    obtain rfl := List.mem_singleton.mp h
    exact .inr ⟨rfl, rfl, .inl rfl⟩
  | cons e' es ih =>
    rw [putRef] at h
    split at h
    case isTrue hmatches =>
      rcases List.mem_cons.mp h with rfl | h
      · exact .inr ⟨rfl, hmatches.1, .inr hmatches.2⟩
      · exact .inl (List.mem_cons_of_mem e' h)
    case isFalse =>
      rcases List.mem_cons.mp h with rfl | h
      · exact .inl List.mem_cons_self
      · exact (ih h).imp_left (List.mem_cons_of_mem e')

/-- A key that is not there is put behind the others. -/
theorem putRef_of_not_matches {p : Probe H K} {k : K} {r : ℕ} {es : List (Entry H K)}
    (h : ∀ e ∈ es, ¬e.Matches p) : putRef p k r es = es ++ [⟨p.hash, k, r⟩] := by
  induction es with
  | nil => rfl
  | cons e es ih =>
    rw [putRef, if_neg (h e List.mem_cons_self), ih fun e' he => h e' (List.mem_cons_of_mem e he)]
    rfl

namespace RefCache

/-- `map.get(key)`. -/
def get (p : Probe H K) (c : RefCache H K V) : Option ℕ :=
  (c.table.find? fun e => e.Matches p).map Entry.ref

/-- `map.remove(key)`. -/
def remove (p : Probe H K) (c : RefCache H K V) : RefCache H K V :=
  { c with table := c.table.eraseP fun e => e.Matches p }

/-- `map.remove(ref.key)`, unless the key throws. -/
def removeFor (probe : K → Option (Probe H K)) (r : ℕ) (c : RefCache H K V) :
    Option (RefCache H K V) :=
  match c.refs[r]? with
  | some ref => (probe ref.key).map fun p => c.remove p
  | none => some c

/-- `map.put(key, new Reference(key, value, queue))`. -/
def put (p : Probe H K) (k : K) (v : V) (c : RefCache H K V) : RefCache H K V :=
  { c with
    table := putRef p k c.refs.length c.table
    refs := c.refs ++ [⟨k, v, false, false⟩] }

/-- The keys of the references in the queue are removed, as far as none of them throws. -/
def cullAll (probe : K → Option (Probe H K)) : List ℕ → RefCache H K V → RefCache H K V × Bool
  | [], c => ({ c with queue := [] }, true)
  | r :: queue, c =>
    match c.removeFor probe r with
    | some c => cullAll probe queue c
    | none => ({ c with queue := queue }, false)

/-- `while ((ref = queue.poll()) != null) map.remove(ref.key);` -/
def cull (probe : K → Option (Probe H K)) (c : RefCache H K V) : RefCache H K V × Bool :=
  cullAll probe c.queue c

/-- What is cached for the key, with the number of its reference. -/
def lookup (p : Probe H K) (c : RefCache H K V) : Option (ℕ × V) :=
  (c.get p).bind fun r => (c.referent r).map fun v => (r, v)

/-- What is cached for the key, or else something new, unless something throws. -/
def request (probe : K → Option (Probe H K)) (k : K) (make : Option V) (c : RefCache H K V) :
    Option (ℕ × V) × RefCache H K V :=
  match probe k with
  | none => (none, c)
  | some p =>
    match c.lookup p with
    | some found => (some found, c)
    | none =>
      match c.cull probe, make with
      | (c, true), some v => (some (c.refs.length, v), c.put p k v)
      | (c, _), _ => (none, c)

/-! ### Looking up -/

variable {c c' : RefCache H K V} {p : Probe H K} {probe : K → Option (Probe H K)}
  {k : K} {r : ℕ} {v : V} {make : Option V} {Q : Entry H K → V → Prop}

theorem get_eq_some (h : c.get p = some r) : ∃ e ∈ c.table, e.Matches p ∧ e.ref = r := by
  obtain ⟨e, he, rfl⟩ := Option.map_eq_some_iff.mp h
  have hmatches := List.find?_some (p := fun e : Entry H K => decide (e.Matches p)) he
  exact ⟨e, List.mem_of_find?_eq_some he, of_decide_eq_true hmatches, rfl⟩

theorem get_eq_none_iff : c.get p = none ↔ ∀ e ∈ c.table, ¬e.Matches p := by
  rw [get, Option.map_eq_none_iff, List.find?_eq_none]
  simp only [decide_eq_true_eq]

theorem lookup_eq_some (h : c.lookup p = some (r, v)) :
    (∃ e ∈ c.table, e.Matches p ∧ e.ref = r) ∧ c.referent r = some v := by
  obtain ⟨r', hget, h⟩ := Option.bind_eq_some_iff.mp h
  obtain ⟨v', hv, heq⟩ := Option.map_eq_some_iff.mp h
  cases heq
  exact ⟨get_eq_some hget, hv⟩

/-! ### Culling -/

theorem mem_of_mem_remove {e : Entry H K} (h : e ∈ (c.remove p).table) : e ∈ c.table :=
  List.mem_of_mem_eraseP h

theorem removeFor_spec (h : c.removeFor probe r = some c') :
    (∀ e ∈ c'.table, e ∈ c.table) ∧ c'.refs = c.refs ∧ c'.queue = c.queue := by
  unfold removeFor at h
  split at h
  case h_1 ref _ =>
    obtain ⟨p, -, rfl⟩ := Option.map_eq_some_iff.mp h
    exact ⟨fun _ => mem_of_mem_remove, rfl, rfl⟩
  case h_2 =>
    cases h
    exact ⟨fun _ he => he, rfl, rfl⟩

theorem cullAll_spec (probe : K → Option (Probe H K)) (queue : List ℕ) (c : RefCache H K V) :
    (∀ e ∈ (cullAll probe queue c).1.table, e ∈ c.table) ∧
      (cullAll probe queue c).1.refs = c.refs := by
  induction queue generalizing c with
  | nil => exact ⟨fun e he => he, rfl⟩
  | cons r queue ih =>
    rw [cullAll]
    split
    case h_1 c' hremove =>
      obtain ⟨hmem, hrefs⟩ := ih c'
      obtain ⟨hmem', hrefs', -⟩ := removeFor_spec hremove
      exact ⟨fun e he => hmem' e (hmem e he), hrefs.trans hrefs'⟩
    case h_2 => exact ⟨fun e he => he, rfl⟩

theorem mem_of_mem_cull {e : Entry H K} (h : e ∈ (c.cull probe).1.table) : e ∈ c.table :=
  (cullAll_spec probe c.queue c).1 e h

@[simp] theorem refs_cull (probe : K → Option (Probe H K)) (c : RefCache H K V) :
    (c.cull probe).1.refs = c.refs :=
  (cullAll_spec probe c.queue c).2

/-! ### Requests -/

/-- A request is answered by the entry that comes first, if it matches and its reference has not
been cleared, and leaves the cache as it is. -/
theorem request_of_head {e : Entry H K} {es : List (Entry H K)} (htable : c.table = e :: es)
    (hp : probe k = some p) (hmatches : e.Matches p) (hreferent : c.referent e.ref = some v) :
    c.request probe k make = (some (e.ref, v), c) := by
  have hget : c.get p = some e.ref := by
    simp [get, htable, hmatches]
  rw [request, hp]
  dsimp only
  rw [lookup, hget, Option.bind_some, hreferent]
  rfl

/-- The answer to a request comes from an entry that matches, or has just been made. -/
theorem request_cases (h : (c.request probe k make).1 = some (r, v)) :
    ∃ p, probe k = some p ∧
      ((∃ e ∈ c.table, e.Matches p ∧ e.ref = r ∧ c.referent e.ref = some v) ∨ make = some v) := by
  unfold request at h
  split at h
  case h_1 => cases h
  case h_2 p hp =>
    refine ⟨p, hp, ?_⟩
    split at h
    case h_1 found hfound =>
      cases h
      obtain ⟨⟨e, he, hmatches, rfl⟩, hv⟩ := lookup_eq_some hfound
      exact .inl ⟨e, he, hmatches, rfl, hv⟩
    case h_2 =>
      split at h
      case h_1 v' _ _ =>
        cases h
        exact .inr rfl
      case h_2 => cases h

theorem Sound.cull (h : Sound Q c) (probe : K → Option (Probe H K)) : Sound Q (c.cull probe).1 :=
  h.mono (fun _ => mem_of_mem_cull) (congrArg List.length (refs_cull probe c))
    (fun r _ hv => (referent_congr (refs_cull probe c) r).symm.trans hv) fun _ _ _ _ hQ => hQ

/-- A put does not change what the references that were there before refer to. -/
theorem referent_put_of_lt (hr : r < c.refs.length) : (c.put p k v).referent r = c.referent r := by
  rw [referent, referent, put]
  dsimp only
  rw [List.getElem?_append_left hr]

theorem referent_put_self (p : Probe H K) (k : K) (v : V) (c : RefCache H K V) :
    (c.put p k v).referent c.refs.length = some v := by
  rw [referent, put]
  dsimp only
  rw [List.getElem?_append_right (Nat.le_refl _), Nat.sub_self]
  rfl

theorem Sound.put (h : Sound Q c)
    (hnew : ∀ e : Entry H K, e.hash = p.hash → e.key = k ∨ p.equals e.key = true → Q e v) :
    Sound Q (c.put p k v) where
  ref_lt e he := by
    rw [RefCache.put, List.length_append]
    rcases mem_putRef he with hold | ⟨hr, -⟩
    · exact Nat.lt_add_right 1 (h.ref_lt e hold)
    · rw [hr]
      exact Nat.lt_succ_self _
  entry e he w hw := by
    rcases mem_putRef he with hold | ⟨hr, hhash, hkey⟩
    · rw [referent_put_of_lt (h.ref_lt e hold)] at hw
      exact h.entry e hold w hw
    · rw [hr, referent_put_self] at hw
      cases hw
      exact hnew e hhash hkey

/-- **A request keeps a cache sound**, if what it makes is right for every key that the new entry
can be found under. -/
theorem Sound.request (h : Sound Q c)
    (hnew : ∀ p v, probe k = some p → make = some v → ∀ e : Entry H K, e.hash = p.hash →
      e.key = k ∨ p.equals e.key = true → Q e v) :
    Sound Q (c.request probe k make).2 := by
  have hcull := h.cull probe
  rw [RefCache.request]
  split
  case h_1 => exact h
  case h_2 p hp =>
    split
    case h_1 => exact h
    case h_2 =>
      split
      case h_1 c' v heq =>
        rw [heq] at hcull
        exact hcull.put (hnew p v hp rfl)
      case h_2 c' b heq _ =>
        rw [heq] at hcull
        exact hcull

/-! ### Other keys -/

section MapKey

variable {K' : Type u} {f : K → K'} {p' : Probe H K'} {probe' : K' → Option (Probe H K')}

/-- The cache with other keys in the place of its keys. -/
def mapKey (f : K → K') (c : RefCache H K V) : RefCache H K' V where
  table := c.table.map fun e => ⟨e.hash, f e.key, e.ref⟩
  refs := c.refs.map fun ref => ⟨f ref.key, ref.referent, ref.cleared, ref.enqueued⟩
  queue := c.queue

/-- The probe sees the other keys as the first one sees its own. -/
structure SeesAs (f : K → K') (p : Probe H K) (p' : Probe H K') : Prop where
  hash : p'.hash = p.hash
  equals : ∀ k, p'.equals (f k) = p.equals k

omit [DecidableEq H] in
theorem matches_mapKey (h : SeesAs f p p') (e : Entry H K) :
    Entry.Matches ⟨e.hash, f e.key, e.ref⟩ p' ↔ e.Matches p := by
  rw [Entry.Matches, Entry.Matches, h.hash, h.equals]

theorem get_mapKey (h : SeesAs f p p') (c : RefCache H K V) : (c.mapKey f).get p' = c.get p := by
  rw [get, get, mapKey, List.find?_map, Option.map_map]
  simp only [Function.comp_def, matches_mapKey h]

omit [DecidableEq H] in
theorem referent_mapKey (f : K → K') (r : ℕ) (c : RefCache H K V) :
    (c.mapKey f).referent r = c.referent r := by
  rw [referent, referent, mapKey, List.getElem?_map]
  cases c.refs[r]? <;> rfl

theorem lookup_mapKey (h : SeesAs f p p') (c : RefCache H K V) :
    (c.mapKey f).lookup p' = c.lookup p := by
  rw [lookup, lookup, get_mapKey h]
  simp only [referent_mapKey]

theorem remove_mapKey (h : SeesAs f p p') (c : RefCache H K V) :
    (c.mapKey f).remove p' = (c.remove p).mapKey f := by
  rw [remove, remove, mapKey, mapKey, List.eraseP_map]
  simp only [Function.comp_def, matches_mapKey h]

theorem putRef_map (h : SeesAs f p p') (k : K) (r : ℕ) (es : List (Entry H K)) :
    putRef p' (f k) r (es.map fun e => ⟨e.hash, f e.key, e.ref⟩) =
      (putRef p k r es).map fun e => ⟨e.hash, f e.key, e.ref⟩ := by
  induction es with
  | nil => rw [List.map_nil, putRef, putRef, h.hash]; rfl
  | cons e es ih =>
    rw [List.map_cons, putRef, putRef]
    by_cases hmatches : e.Matches p
    · rw [if_pos ((matches_mapKey h e).mpr hmatches), if_pos hmatches]
      rfl
    · rw [if_neg fun h' => hmatches ((matches_mapKey h e).mp h'), if_neg hmatches, ih]
      rfl

theorem put_mapKey (h : SeesAs f p p') (k : K) (v : V) (c : RefCache H K V) :
    (c.mapKey f).put p' (f k) v = (c.put p k v).mapKey f := by
  rw [put, put, mapKey, mapKey]
  dsimp only
  rw [putRef_map h, List.length_map, List.map_append]
  rfl

theorem cull_mapKey {probe : K → Probe H K}
    (h : ∀ k, ∃ p', probe' (f k) = some p' ∧ SeesAs f (probe k) p') (c : RefCache H K V) :
    (c.mapKey f).cull probe' =
      ((c.cull fun k => some (probe k)).1.mapKey f, (c.cull fun k => some (probe k)).2) := by
  have hall : ∀ (queue : List ℕ) (c : RefCache H K V), cullAll probe' queue (c.mapKey f) =
      ((cullAll (fun k => some (probe k)) queue c).1.mapKey f,
        (cullAll (fun k => some (probe k)) queue c).2) := by
    intro queue
    induction queue with
    | nil => exact fun c => rfl
    | cons r queue ih =>
      intro c
      rw [cullAll, cullAll, removeFor, removeFor]
      have href : (c.mapKey f).refs[r]? = c.refs[r]?.map fun ref =>
          ⟨f ref.key, ref.referent, ref.cleared, ref.enqueued⟩ := List.getElem?_map ..
      rw [href]
      cases c.refs[r]? with
      | none => exact ih c
      | some ref =>
        obtain ⟨p', hp', hsees⟩ := h ref.key
        dsimp only [Option.map_some]
        rw [hp', Option.map_some]
        dsimp only
        rw [remove_mapKey hsees, ih]
  exact hall c.queue c

/-- **Requests** do not depend on how the keys are represented, as long as the probes see them
alike. -/
theorem request_mapKey {probe : K → Probe H K}
    (h : ∀ k, ∃ p', probe' (f k) = some p' ∧ SeesAs f (probe k) p') (k : K) (make : Option V)
    (c : RefCache H K V) :
    (c.mapKey f).request probe' (f k) make =
      ((c.request (fun k => some (probe k)) k make).1,
        (c.request (fun k => some (probe k)) k make).2.mapKey f) := by
  obtain ⟨p', hp', hsees⟩ := h k
  rw [request, request, hp']
  dsimp only
  rw [lookup_mapKey hsees, cull_mapKey h]
  cases c.lookup (probe k) with
  | some found => rfl
  | none =>
    dsimp only
    generalize (c.cull fun k => some (probe k)) = culled
    obtain ⟨c', done⟩ := culled
    cases done with
    | false => rfl
    | true =>
      cases make with
      | none => rfl
      | some v =>
        dsimp only
        rw [put_mapKey hsees]
        rw [mapKey, List.length_map]

end MapKey

end RefCache

end Jffi
