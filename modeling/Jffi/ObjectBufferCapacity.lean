import Jffi.ObjectBuffer

/-!
# Runs of puts from any capacity

`ensureSpace` doubles the arrays when the next but one entry would not fit, so a buffer that has
room for one entry always has room for the next: over a run the capacity is the initial one times a
power of two. A capacity of zero stays zero however often it is doubled, and the sizes are `int`s
that wrap around.

## Main definitions

* `ObjectBuffer.KeepsPuts` — every put of a sequence succeeds and the buffer holds what was put
* `Roomy` — which sequences a capacity has room for

## Main results

* `keepsPuts_iff` — the buffer keeps a sequence of puts just when the capacity is roomy enough
-/

namespace Jffi

theorem toJint_of_wrapped {x : ℤ} (hl : 2 ^ 31 ≤ x) (hu : x < 2 ^ 32 + 2 ^ 31) :
    toJint x = x - 2 ^ 32 := by
  have hsub : toJint (x - 2 ^ 32) = toJint x := Int.sub_bmod_right x (2 ^ 32)
  rw [← hsub, toJint_of_bounds (by omega) (by omega)]

namespace ObjectBuffer

/-- The put of an object with its descriptor, offset and length. -/
def put (b : ObjectBuffer) (e : ObjectEntry) : Except ObjectBuffer ObjectBuffer :=
  b.putObject e.object e.offset e.length e.flags

/-- A sequence of puts, up to the first that throws. -/
def putAll : List ObjectEntry → ObjectBuffer → Except ObjectBuffer ObjectBuffer
  | [], b => .ok b
  | e :: es, b => do
    let b ← b.put e
    putAll es b

/-- The buffer holds exactly what is put: no put throws, what is stored after any of them are the
entries put so far, and a put that throws leaves those as they are. -/
structure KeepsPuts (b : ObjectBuffer) (es : List ObjectEntry) : Prop where
  succeeds : ∃ b', b.putAll es = .ok b'
  stores : ∀ pre post b', es = pre ++ post → b.putAll pre = .ok b' → b'.Stores pre
  unchanged : ∀ pre e post b₁ b₂, es = pre ++ e :: post → b.putAll pre = .ok b₁ →
    b₁.put e = .error b₂ → b₂.Stores pre

/-! ### One put -/

/-- A put that succeeds found room in both arrays, after the buffer was grown. -/
theorem room_of_put {b b₁ b' : ObjectBuffer} {e : ObjectEntry} (hspace : b.ensureSpace = .ok b₁)
    (h : b.put e = .ok b') :
    b₁.objectIndex < b₁.objects.length ∧ b₁.infoIndex + 3 ≤ b₁.info.length := by
  rw [put, putObject, hspace, ok_bind] at h
  obtain ⟨b₂, hobject, h⟩ := except_bind_eq_ok.mp h
  obtain ⟨b₃, hflags, h⟩ := except_bind_eq_ok.mp h
  obtain ⟨b₄, hoffset, hlength⟩ := except_bind_eq_ok.mp h
  obtain ⟨hroom, hinfo, hindex⟩ := storeObject_eq_ok hobject
  obtain ⟨-, hindex₃, hinfo₃⟩ := storeInfo_eq_ok hflags
  obtain ⟨-, hindex₄, hinfo₄⟩ := storeInfo_eq_ok hoffset
  obtain ⟨hlast, -, -⟩ := storeInfo_eq_ok hlength
  rw [hinfo] at hinfo₃
  exact ⟨hroom, by omega⟩

/-- Doubling a buffer whose descriptors would take more than an `int` throws. -/
theorem ensureSpace_of_large {b : ObjectBuffer} {es : List ObjectEntry} (h : b.Stores es)
    (hfull : b.objects.length ≤ b.objectIndex + 1)
    (hfit : b.objects.length * 3 < 2 ^ 31) (hlarge : 2 ^ 31 ≤ 2 * b.objects.length * 3) :
    ∃ b', b.ensureSpace = .error b' := by
  have hobj := h.objectIndex_eq
  have hofit := h.objects_fit
  have h2 : toJint (2 * b.objects.length) = (2 * b.objects.length : ℕ) := by
    rw [toJint_of_bounds (by omega) (by omega)]
    omega
  obtain ⟨objects, hcopy⟩ : ∃ objects, arraycopy b.objects
      (List.replicate (2 * b.objects.length) none) b.objectIndex = some objects :=
    exists_arraycopy (by omega) (by rw [List.length_replicate]; omega)
  have hlen := length_of_arraycopy hcopy
  rw [List.length_replicate] at hlen
  have hinfo : newArray (toJint (objects.length * 3)) 0#32 = none := by
    rw [toJint_of_wrapped (by omega) (by omega), newArray, if_neg (by omega)]
  refine ⟨{ b with objects := objects }, ?_⟩
  rw [ensureSpace, if_pos hfull, h2, newArray_natCast, orThrow_some, ok_bind, hcopy,
    orThrow_some, ok_bind]
  dsimp only
  rw [hinfo]
  rfl

theorem put_of_ensureSpace_error {b b₁ : ObjectBuffer} (h : b.ensureSpace = .error b₁)
    (e : ObjectEntry) : b.put e = .error b₁ := by
  rw [put, putObject, h]
  rfl

/-! ### Runs -/

/-- A buffer of the given initial capacity has room for so many puts: none at all, or fewer than a
capacity that doubling reaches before the descriptors outgrow an `int`, or as many as the array of
descriptors holds where its size has wrapped around to something positive. -/
def Roomy (capacity puts : ℕ) : Prop :=
  puts = 0 ∨ (∃ j, capacity * 2 ^ j * 3 < 2 ^ 31 ∧ puts < capacity * 2 ^ j) ∨
    2 ^ 32 + puts * 3 ≤ capacity * 3

theorem Roomy.mono {capacity m n : ℕ} (h : Roomy capacity n) (hm : m ≤ n) : Roomy capacity m := by
  rcases h with rfl | ⟨j, hj, hn⟩ | h
  · exact .inl (Nat.le_zero.mp hm)
  · exact .inr (.inl ⟨j, hj, by omega⟩)
  · exact .inr (.inr (by omega))

/-- `I` describes the buffers of a capacity along a run: a put keeps it, or throws for want of
room. -/
structure Tracks (capacity : ℕ) (I : ObjectBuffer → List ObjectEntry → Prop) : Prop where
  stores : ∀ {b es}, I b es → b.Stores es
  roomy : ∀ {b es}, I b es → Roomy capacity es.length
  put : ∀ {b es}, I b es → ∀ e, (∃ b', b.put e = .ok b' ∧ I b' (es ++ [e])) ∨
    (¬Roomy capacity (es.length + 1) ∧ ∃ b', b.put e = .error b')

section Tracks

variable {capacity : ℕ} {I : ObjectBuffer → List ObjectEntry → Prop} (htracks : Tracks capacity I)
include htracks

/-- A run of puts keeps the invariant, for the entries that were put by then. -/
theorem Tracks.putAll {b b' : ObjectBuffer} {pre es : List ObjectEntry} (h : I b pre)
    (hrun : b.putAll es = .ok b') : I b' (pre ++ es) := by
  induction es generalizing b pre with
  | nil =>
    cases hrun
    simpa using h
  | cons e es ih =>
    obtain ⟨b₁, hput, hrun⟩ := except_bind_eq_ok.mp hrun
    rcases htracks.put h e with ⟨b₂, hput', hnext⟩ | ⟨-, b₂, herror⟩
    · rw [hput'] at hput
      cases hput
      simpa using ih hnext hrun
    · rw [herror] at hput
      cases hput

/-- If the capacity leaves room for all the puts, a run of them goes through. -/
theorem Tracks.exists_putAll {b : ObjectBuffer} {pre es : List ObjectEntry} (h : I b pre)
    (hroomy : Roomy capacity (pre ++ es).length) : ∃ b', b.putAll es = .ok b' := by
  induction es generalizing b pre with
  | nil => exact ⟨b, rfl⟩
  | cons e es ih =>
    rcases htracks.put h e with ⟨b₁, hput, hnext⟩ | ⟨hnot, -⟩
    · rw [ObjectBuffer.putAll, hput, ok_bind]
      exact ih hnext (by simpa using hroomy)
    · exact absurd (hroomy.mono (by simp)) hnot

theorem Tracks.keeps_iff {b : ObjectBuffer} (h : I b []) (es : List ObjectEntry) :
    b.KeepsPuts es ↔ Roomy capacity es.length := by
  constructor
  · intro hkeeps
    obtain ⟨b', hrun⟩ := hkeeps.succeeds
    exact htracks.roomy (htracks.putAll h hrun)
  · intro hroomy
    refine ⟨htracks.exists_putAll h hroomy, ?_, ?_⟩
    · intro pre post b' _ hrun
      exact htracks.stores (htracks.putAll h hrun)
    · intro pre e post b₁ b₂ hes hrun herror
      rcases htracks.put (htracks.putAll h hrun) e with ⟨b', hput, -⟩ | ⟨hnot, -⟩
      · rw [herror] at hput
        cases hput
      · refine absurd (hroomy.mono ?_) hnot
        rw [hes, List.nil_append, List.length_append, List.length_cons]
        omega

end Tracks

/-! ### The three kinds of capacity -/

/-- A capacity of zero never grows, since doubling it leaves it at zero: no put succeeds. -/
theorem tracks_zero : Tracks 0 fun b es => b = ⟨[], [], 0, 0⟩ ∧ es = [] where
  stores := by
    rintro b es ⟨rfl, rfl⟩
    exact ⟨rfl, rfl, Nat.le_refl _, Nat.le_refl _, rfl, rfl⟩
  roomy := by
    rintro b es ⟨rfl, rfl⟩
    exact .inl rfl
  put := by
    rintro b es ⟨rfl, rfl⟩ e
    refine .inr ⟨?_, ⟨[], [], 0, 1⟩, rfl⟩
    rintro (h | ⟨j, -, h⟩ | h)
    · cases h
    · simp at h
    · simp at h

/-- A buffer of positive capacity, grown by doubling. -/
structure Grown (capacity : ℕ) (b : ObjectBuffer) (es : List ObjectEntry) : Prop where
  stores : b.Stores es
  doubled : ∃ j, b.objects.length = capacity * 2 ^ j
  info_length : b.info.length = b.objects.length * 3
  info_fit : b.objects.length * 3 < 2 ^ 31
  room : es.length < b.objects.length

theorem tracks_grown (capacity : ℕ) : Tracks capacity (Grown capacity) where
  stores h := h.stores
  roomy := by
    intro b es h
    obtain ⟨j, hj⟩ := h.doubled
    exact .inr (.inl ⟨j, hj ▸ h.info_fit, hj ▸ h.room⟩)
  put := by
    intro b es h e
    obtain ⟨hstores, ⟨j, hj⟩, hinfo, hfit, hroom⟩ := h
    have hindex := hstores.objectIndex_eq
    by_cases hfull : b.objects.length ≤ b.objectIndex + 1
    · by_cases hsize : 2 * b.objects.length * 3 < 2 ^ 31
      · obtain ⟨b₁, hspace, hstores₁, hlen, hilen⟩ :=
          ensureSpace_of_full hstores hfull (by omega) hsize
        obtain ⟨b', hput, hstores', hlen', hilen'⟩ :=
          putObject_of_room hspace hstores₁ e (by omega) (by omega)
        refine .inl ⟨b', hput, hstores', ⟨j + 1, ?_⟩, by omega, by omega, ?_⟩
        · rw [hlen', hlen, hj, Nat.pow_succ, Nat.mul_comm 2, Nat.mul_assoc]
        · rw [List.length_append, List.length_singleton]
          omega
      · obtain ⟨b₁, hspace⟩ := ensureSpace_of_large hstores hfull hfit (by omega)
        refine .inr ⟨?_, b₁, put_of_ensureSpace_error hspace e⟩
        rintro (h | ⟨k, hk, h⟩ | h)
        · cases h
        · -- a larger power of two is at least the next one
          have hlt : capacity * 2 ^ j < capacity * 2 ^ k := by omega
          have hexp : j + 1 ≤ k := (Nat.pow_lt_pow_iff_right (by decide)).mp
            (Nat.lt_of_mul_lt_mul_left hlt)
          have hle : capacity * 2 ^ (j + 1) ≤ capacity * 2 ^ k :=
            Nat.mul_le_mul_left _ (Nat.pow_le_pow_right (by decide) hexp)
          rw [Nat.pow_succ, ← Nat.mul_assoc, ← hj] at hle
          omega
        · have hle : capacity ≤ capacity * 2 ^ j := Nat.le_mul_of_pos_right _ (Nat.two_pow_pos j)
          omega
    · obtain ⟨b', hput, hstores', hlen', hilen'⟩ :=
        putObject_of_room (ensureSpace_of_room (by omega)) hstores e (by omega) (by omega)
      refine .inl ⟨b', hput, hstores', ⟨j, hlen'.trans hj⟩, by omega, by omega, ?_⟩
      rw [List.length_append, List.length_singleton]
      omega

/-- A buffer so large that the size of its descriptors has wrapped around. -/
structure Wrapped (capacity : ℕ) (b : ObjectBuffer) (es : List ObjectEntry) : Prop where
  stores : b.Stores es
  objects_length : b.objects.length = capacity
  info_length : 2 ^ 32 + b.info.length = capacity * 3
  capacity_lt : capacity < 2 ^ 31

theorem tracks_wrapped (capacity : ℕ) : Tracks capacity (Wrapped capacity) where
  stores h := h.stores
  roomy := by
    intro b es h
    have hinfo := h.info_length
    have hfit := h.stores.info_fit
    exact .inr (.inr (by omega))
  put := by
    intro b es h e
    obtain ⟨hstores, hlen, hinfo, hlt⟩ := h
    have hfit := hstores.info_fit
    have hindex := hstores.objectIndex_eq
    have hspace : b.ensureSpace = .ok b := ensureSpace_of_room (by omega)
    by_cases hroom : es.length * 3 + 3 ≤ b.info.length
    · obtain ⟨b', hput, hstores', hlen', hilen'⟩ :=
        putObject_of_room hspace hstores e (by omega) hroom
      exact .inl ⟨b', hput, hstores', hlen'.trans hlen, by omega, hlt⟩
    · refine .inr ⟨?_, ?_⟩
      · rintro (h | ⟨k, hk, h⟩ | h)
        · cases h
        · have hle : capacity ≤ capacity * 2 ^ k := Nat.le_mul_of_pos_right _ (Nat.two_pow_pos k)
          omega
        · omega
      · cases hput : b.put e with
        | error b' => exact ⟨b', rfl⟩
        | ok b' =>
          have hroom' := (room_of_put hspace hput).2
          rw [hstores.infoIndex_eq] at hroom'
          exact absurd hroom' hroom

theorem newArray_eq_some {α : Type} {n : ℤ} {x : α} {l : List α} :
    newArray n x = some l ↔ 0 ≤ n ∧ l = List.replicate n.toNat x := by
  by_cases h : 0 ≤ n <;> simp [newArray, h, eq_comm]

/-- What a constructor that returns has allocated: two arrays of the sizes that were computed, with
nothing in them. -/
theorem ofCount_eq_some {objectCount : BitVec 32} {b : ObjectBuffer}
    (h : ofCount objectCount = some b) :
    objectCount.toNat < 2 ^ 31 ∧ ∃ i : ℕ, toJint (objectCount.toNat * 3) = i ∧
      b = ⟨List.replicate objectCount.toNat none, List.replicate i 0#32, 0, 0⟩ := by
  obtain ⟨objects, hobjects, h⟩ := Option.bind_eq_some_iff.mp h
  obtain ⟨info, hinfo, h⟩ := Option.bind_eq_some_iff.mp h
  cases h
  obtain ⟨hpos, rfl⟩ := newArray_eq_some.mp hobjects
  obtain ⟨hpos', rfl⟩ := newArray_eq_some.mp hinfo
  have hlt := objectCount.isLt
  have hcount : objectCount.toInt = objectCount.toNat ∧ objectCount.toNat < 2 ^ 31 := by
    rw [BitVec.toInt_eq_toNat_cond] at hpos ⊢
    split <;> split at hpos <;> omega
  rw [hcount.1] at hpos' ⊢
  exact ⟨hcount.2, _, (Int.toNat_of_nonneg hpos').symm, rfl⟩

theorem stores_fresh (n i : ℕ) :
    Stores ⟨List.replicate n none, List.replicate i 0#32, 0, 0⟩ [] :=
  ⟨rfl, rfl, Nat.zero_le _, Nat.zero_le _, rfl, rfl⟩

/-- Every capacity a constructor accepts is of one of the three kinds. -/
theorem exists_tracks {objectCount : BitVec 32} {b : ObjectBuffer}
    (h : ofCount objectCount = some b) :
    ∃ I, Tracks objectCount.toNat I ∧ I b [] := by
  obtain ⟨hlt, i, hi, rfl⟩ := ofCount_eq_some h
  generalize objectCount.toNat = n at hlt hi ⊢
  rcases Nat.eq_zero_or_pos n with rfl | hpos
  · obtain rfl : i = 0 := by
      rw [toJint_of_bounds (by omega) (by omega)] at hi
      omega
    exact ⟨_, tracks_zero, rfl, rfl⟩
  · rcases Nat.lt_or_ge (n * 3) (2 ^ 31) with hsmall | hlarge
    · rw [toJint_of_bounds (by omega) (by omega)] at hi
      refine ⟨_, tracks_grown n, stores_fresh n i, ⟨0, ?_⟩, ?_, ?_, ?_⟩
      · simp
      · rw [List.length_replicate, List.length_replicate]
        omega
      · rwa [List.length_replicate]
      · rwa [List.length_replicate]
    · rw [toJint_of_wrapped (by omega) (by omega)] at hi
      refine ⟨_, tracks_wrapped n, stores_fresh n i, ?_, ?_, hlt⟩
      · exact List.length_replicate
      · rw [List.length_replicate]
        omega

/-- **A buffer keeps what is put** into it just when its initial capacity is roomy enough. -/
theorem keepsPuts_iff {objectCount : BitVec 32} {b : ObjectBuffer}
    (h : ofCount objectCount = some b) (es : List ObjectEntry) :
    b.KeepsPuts es ↔ Roomy objectCount.toNat es.length := by
  obtain ⟨I, htracks, hI⟩ := exists_tracks h
  exact htracks.keeps_iff hI es

/-- A buffer made for one object keeps the three that are put into it. -/
theorem keepsPuts_three : new.KeepsPuts (List.replicate 3 ⟨none, 0, 0, 0⟩) :=
  (@keepsPuts_iff 1 new (by decide) _).mpr (.inr (.inl ⟨2, by decide, by decide⟩))

/-- A buffer made for no object does not keep the first one. -/
theorem not_keepsPuts_zero :
    ∃ b, ofCount 0 = some b ∧ ¬b.KeepsPuts [⟨some (.other 0), 0, 0, 0⟩] := by
  refine ⟨⟨[], [], 0, 0⟩, by decide, fun h => ?_⟩
  obtain ⟨b', hrun⟩ := h.succeeds
  cases hrun

end ObjectBuffer

end Jffi
