import Jffi.Lib.RefCache
import Jffi.Lib.Runs
import Mathlib.Logic.Function.Basic

/-!
# The cache of structs

`Struct.newStruct` looks for the list of the field types in a `ConcurrentHashMap`. The key of the
map is `Arrays.asList(fields)`, a view of the array that the caller passed in. The caller may go on
writing to that array.

Types are compared by `equals` and have any hash codes. The references are weak ones, and the
collector may clear them at any time.

## Main definitions

* `StructCache` — the cache, and the arrays of the callers
* `StructCache.newStruct` — the method
* `StructCache.Act`, `StructCache.step` — calls, writes to arrays, and what the collector does

## Main results

* `StructCache.newStruct_asRequested` — every struct has the requested fields, unless the array of a
  key is given other contents with the same hash
* `StructCache.exists_other` — and after that some struct has not
-/

namespace Jffi

variable {T : Type} [DecidableEq T]

/-- `hashCode` of a list of types, for which a `null` counts nothing. -/
def listHashCode (hashCode : T → BitVec 32) (types : List (Option T)) : BitVec 32 :=
  types.foldl (fun hash type => 31 * hash + (type.map hashCode).getD 0) 1

/-- `spread` of `ConcurrentHashMap`, which is what an entry remembers of the hash code of its
key. -/
def spread (h : BitVec 32) : BitVec 32 := (h ^^^ (h >>> 16)) &&& 0x7fffffff

/-- The cache of the class `Struct`, and the contents of the arrays the callers have. A `Struct` is
given by its fields; the number of its reference says which one it is. -/
structure StructCache (T : Type) where
  arrays : ℕ → List (Option T)
  cache : RefCache (BitVec 32) ℕ (List T)

namespace StructCache

variable (hashCode : T → BitVec 32) (native : List T → Bool)

def initial (arrays : ℕ → List (Option T)) : StructCache T := ⟨arrays, .empty⟩

/-- `Arrays.asList(fields)`, as it is now. -/
def probe (arrays : ℕ → List (Option T)) (fields : ℕ) : Probe (BitVec 32) ℕ where
  hash := spread (listHashCode hashCode (arrays fields))
  equals other := arrays fields = arrays other

/-- `new Struct(foreign, fields)`: a `null` throws, and `Foreign.newStruct` may. -/
def makeStruct (fields : List (Option T)) : Option (List T) :=
  (fields.mapM id).filter native

/-- `Struct.newStruct(fields)`: the struct, unless it throws. -/
def newStruct (fields : ℕ) (s : StructCache T) : Option (ℕ × List T) × StructCache T :=
  let answer := s.cache.request (fun k => some (probe hashCode s.arrays k)) fields
    (makeStruct native (s.arrays fields))
  (answer.1, { s with cache := answer.2 })

/-- What happens, one thing after another. -/
inductive Act (T : Type)
  | newStruct (fields : ℕ)
  /-- A caller writes to an array. -/
  | write (array index : ℕ) (type : Option T)
  /-- The collector clears a reference. -/
  | clear (ref : ℕ)
  /-- The collector puts a reference into the queue. -/
  | enqueue (ref : ℕ)
  /-- The map is resized. -/
  | transfer (i : ℕ)
  deriving DecidableEq, Repr

def step : Act T → StructCache T → Option (StructCache T)
  | .newStruct fields, s => some (newStruct hashCode native fields s).2
  | .write array index type, s =>
    some { s with arrays := Function.update s.arrays array ((s.arrays array).set index type) }
  | .clear r, s => some { s with cache := s.cache.clear r }
  | .enqueue r, s => (s.cache.enqueue r).map fun cache => { s with cache := cache }
  | .transfer i, s => some { s with cache := s.cache.transfer i }

/-- A call that returns a struct returns one with the requested fields. -/
def AsRequested : Act T → StructCache T → Prop
  | .newStruct fields, s =>
    ∀ r types, (newStruct hashCode native fields s).1 = some (r, types) →
      types.map some = s.arrays fields
  | _, _ => True

/-- No write makes a key of the cache hash as it did when it was put, with contents that are not the
fields of the struct that is cached for it. -/
def KeepsKeys : Act T → StructCache T → Prop
  | .write array index type, s =>
    ∀ e ∈ s.cache.table, e.key = array → ∀ types, s.cache.referent e.ref = some types →
      spread (listHashCode hashCode ((s.arrays array).set index type)) = e.hash →
      (s.arrays array).set index type = types.map some
  | _, _ => True

/-- The entry is for the struct that its key lists, or the hash of the key has changed. -/
def Listed (arrays : ℕ → List (Option T)) (e : Entry (BitVec 32) ℕ) (types : List T) : Prop :=
  spread (listHashCode hashCode (arrays e.key)) = e.hash → arrays e.key = types.map some

variable {hashCode native} {s s' : StructCache T} {fields : ℕ}

omit [DecidableEq T] in
theorem eq_map_of_mapM_id {fields : List (Option T)} {types : List T}
    (h : fields.mapM id = some types) : fields = types.map some := by
  induction fields generalizing types with
  | nil =>
    cases h
    rfl
  | cons field fields ih =>
    simp only [List.mapM_cons, id, Option.bind_eq_bind, Option.bind_eq_some_iff] at h
    obtain ⟨type, rfl, types', htypes, h⟩ := h
    cases h
    rw [ih htypes]
    rfl

omit [DecidableEq T] in
theorem makeStruct_eq_some {fields : List (Option T)} {types : List T}
    (h : makeStruct native fields = some types) : fields = types.map some :=
  eq_map_of_mapM_id (Option.filter_eq_some_iff.mp h).1

/-- **A call answers with what is asked for**, when the entries are as they should be. -/
theorem newStruct_fields (h : s.cache.Sound (Listed hashCode s.arrays)) {r : ℕ} {types : List T}
    (hcall : (newStruct hashCode native fields s).1 = some (r, types)) :
    types.map some = s.arrays fields := by
  obtain ⟨p, hp, hcases⟩ := RefCache.request_cases hcall
  cases hp
  rcases hcases with ⟨e, he, ⟨hhash, hequals⟩, -, hreferent⟩ | hmake
  · have heq : s.arrays fields = s.arrays e.key := of_decide_eq_true hequals
    have hlisted := h.entry e he types hreferent
    rw [heq]
    exact (hlisted (by rw [hhash, ← heq]; rfl)).symm
  · exact (makeStruct_eq_some hmake).symm

theorem sound_step (h : s.cache.Sound (Listed hashCode s.arrays)) {a : Act T}
    (hkeeps : KeepsKeys hashCode a s) (hstep : step hashCode native a s = some s') :
    s'.cache.Sound (Listed hashCode s'.arrays) := by
  cases a with
  | newStruct fields =>
    cases hstep
    refine h.request fun p types hp hmake e hhash hkey _ => ?_
    cases hp
    have heq : s.arrays fields = s.arrays e.key := by
      rcases hkey with rfl | hequals
      · rfl
      · exact of_decide_eq_true hequals
    exact heq ▸ makeStruct_eq_some hmake
  | write array index type =>
    cases hstep
    refine h.mono (fun _ he => he) rfl (fun _ _ hv => hv) fun e he types hreferent hlisted => ?_
    by_cases harray : e.key = array
    · rw [Listed, harray]
      dsimp only
      rw [Function.update_self]
      exact hkeeps e he harray types hreferent
    · rw [Listed]
      dsimp only
      rw [Function.update_of_ne harray]
      exact hlisted
  | clear r =>
    cases hstep
    exact h.clear r
  | enqueue r =>
    obtain ⟨cache, hcache, rfl⟩ := Option.map_eq_some_iff.mp hstep
    exact h.enqueue hcache
  | transfer i =>
    cases hstep
    exact h.transfer i

/-- **Every struct has the requested fields**, as long as no key of the cache is given other
contents with the hash it was put under. -/
theorem newStruct_asRequested (arrays : ℕ → List (Option T)) (acts : List (Act T))
    (h : Always (step hashCode native) (KeepsKeys hashCode) acts (initial arrays)) :
    Always (step hashCode native) (AsRequested hashCode native) acts (initial arrays) := by
  refine h.of_invariant (I := fun s => s.cache.Sound (Listed hashCode s.arrays)) ?_ ?_
    (RefCache.sound_empty _)
  · intro a s hI _
    cases a with
    | newStruct fields => exact fun r types hcall => newStruct_fields hI hcall
    | write | clear | enqueue | transfer => trivial
  · exact fun a s s' hI hkeeps hstep => sound_step hI hkeeps hstep

/-- Two structs, one of them asked for again after its array has been written to. -/
theorem newStruct_asRequested_rewritten :
    Always (step (fun n : ℕ => BitVec.ofNat 32 n) fun _ => true)
      (AsRequested (fun n : ℕ => BitVec.ofNat 32 n) fun _ => true)
      [.newStruct 0, .write 0 1 (some 7), .newStruct 0]
      (initial fun _ => [some 1, some 2]) :=
  newStruct_asRequested (fun _ => [some 1, some 2]) _
    ⟨trivial, fun s hs => ⟨by
      cases hs
      intro e he _ types htypes hhash
      obtain rfl := List.mem_singleton.mp he
      exact absurd hhash (by decide), fun s' _ => ⟨trivial, fun _ _ => trivial⟩⟩⟩

/-- A struct of a type whose hash code is that of another type, and then one of the other type. -/
theorem not_newStruct_asRequested_collision :
    ¬Always (step (fun _ : Bool => 7#32) fun _ => true)
      (AsRequested (fun _ : Bool => 7#32) fun _ => true)
      [.newStruct 0, .write 0 0 (some true), .newStruct 1]
      (initial fun array => [some (array == 1)]) := by
  intro h
  have hlast := ((h.2 _ rfl).2 _ rfl).1
  exact absurd (hlast 0 [false] rfl) (by decide)

/-- **Once a key has been changed like that**, a call for its array returns a struct with other
fields, if the map comes to the entry first. -/
theorem exists_other {array index : ℕ} {type : Option T}
    (hwrite : ¬KeepsKeys hashCode (.write array index type) s) :
    ∃ i s₁ s₂, step hashCode native (.write array index type) s = some s₁ ∧
      step hashCode native (.transfer i) s₁ = some s₂ ∧
      ¬AsRequested hashCode native (.newStruct array) s₂ := by
  simp only [KeepsKeys, not_forall] at hwrite
  obtain ⟨e, he, harray, types, hreferent, hhash, hother⟩ := hwrite
  obtain ⟨i, hi, hget⟩ := List.getElem_of_mem he
  refine ⟨i, _, _, rfl, rfl, fun h => hother ?_⟩
  have hself : Function.update s.arrays array ((s.arrays array).set index type) array =
      (s.arrays array).set index type := Function.update_self ..
  have htable : (s.cache.transfer i).table = e :: s.cache.table.eraseIdx i := by
    rw [RefCache.transfer, List.getElem?_eq_getElem hi, hget]
  have hmatches : e.Matches (probe hashCode
      (Function.update s.arrays array ((s.arrays array).set index type)) array) :=
    ⟨by rw [probe, hself, hhash], by simp [probe, harray]⟩
  have hfound : (newStruct hashCode native array
      ⟨Function.update s.arrays array ((s.arrays array).set index type), s.cache.transfer i⟩).1 =
        some (e.ref, types) :=
    congrArg Prod.fst (RefCache.request_of_head htable rfl hmatches
      ((RefCache.referent_congr (RefCache.refs_transfer i s.cache) e.ref).trans hreferent))
  exact hself.symm.trans (h e.ref types hfound).symm

end StructCache

end Jffi
