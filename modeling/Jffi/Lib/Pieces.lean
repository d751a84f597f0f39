import Jffi.Lib.Bytes
import Mathlib.Data.List.Nodup
import Mathlib.Data.List.Perm.Subperm

/-!
# Pieces of memory

Pieces that are written one after the other, and the stretches they take.

## Main definitions

* `Stretch` — where a piece lies; `Stretch.Apart`, `Stretch.Within`
* `readAt` — reading memory
* `overlays` — memory with pieces written to it

## Main results

* `overlays_of_mem`, `readAt_overlays_of_mem` — a piece is there at the end when the pieces are
  apart
* `Stretch.sum_size_le` — stretches that are apart have no more room than all of it
-/

namespace Jffi

/-! ### Stretches -/

/-- The `size` addresses from `start` on. -/
structure Stretch where
  start : ℕ
  size : ℕ
  deriving DecidableEq, Repr

namespace Stretch

/-- One of the stretches ends before the other one begins. -/
def Apart (x y : Stretch) : Prop := x.start + x.size ≤ y.start ∨ y.start + y.size ≤ x.start

def Within (x y : Stretch) : Prop := y.start ≤ x.start ∧ x.start + x.size ≤ y.start + y.size

instance (x y : Stretch) : Decidable (x.Apart y) := by unfold Apart; infer_instance

instance (x y : Stretch) : Decidable (x.Within y) := by unfold Within; infer_instance

/-- The addresses of the bytes of a stretch. -/
def addresses (x : Stretch) : List ℕ := List.range' x.start x.size

theorem mem_addresses {x : Stretch} {a : ℕ} :
    a ∈ x.addresses ↔ x.start ≤ a ∧ a < x.start + x.size := List.mem_range'_1

theorem Apart.disjoint {x y : Stretch} (h : x.Apart y) : x.addresses.Disjoint y.addresses := by
  intro a hx hy
  rw [mem_addresses] at hx hy
  rcases h with h | h <;> omega

/-- Parts of stretches that have no byte in common have none in common either. -/
theorem Apart.within {x y x' y' : Stretch} (h : x.Apart y) (hx : x'.Within x) (hy : y'.Within y) :
    x'.Apart y' :=
  h.imp (fun h => Nat.le_trans hx.2 (Nat.le_trans h hy.1)) fun h =>
    Nat.le_trans hy.2 (Nat.le_trans h hx.1)

theorem Apart.start_ne {x y : Stretch} (h : x.Apart y) (hx : 0 < x.size) (hy : 0 < y.size) :
    x.start ≠ y.start := by
  rcases h with h | h <;> omega

theorem Apart.symm {x y : Stretch} (h : x.Apart y) : y.Apart x := Or.symm h

/-- **Stretches that are apart** have no more room than all of it. -/
theorem sum_size_le {xs : List Stretch} {y : Stretch} (hapart : xs.Pairwise Apart)
    (hwithin : ∀ x ∈ xs, x.Within y) : (xs.map size).sum ≤ y.size := by
  have hnodup : (xs.flatMap addresses).Nodup :=
    List.nodup_flatMap.mpr ⟨fun x _ => List.nodup_range', hapart.imp Apart.disjoint⟩
  have hsubset : xs.flatMap addresses ⊆ y.addresses := by
    intro a ha
    obtain ⟨x, hx, ha⟩ := List.mem_flatMap.mp ha
    obtain ⟨hl, hu⟩ := hwithin x hx
    rw [mem_addresses] at ha ⊢
    omega
  have hle := (List.subperm_of_subset hnodup hsubset).length_le
  rw [List.length_flatMap] at hle
  simpa [addresses] using hle

end Stretch

/-! ### Reading -/

section Read

variable {α : Type} {m : ℕ → α} {a : ℕ} {xs : List α}

/-- What is in the `n` cells from `a` on. -/
def readAt (m : ℕ → α) (a n : ℕ) : List α := (List.range n).map fun k => m (a + k)

@[simp] theorem length_readAt (m : ℕ → α) (a n : ℕ) : (readAt m a n).length = n := by
  simp [readAt]

theorem readAt_eq_iff :
    readAt m a xs.length = xs ↔ ∀ (k : ℕ) (hk : k < xs.length), m (a + k) = xs[k] := by
  constructor
  · intro h k hk
    have hget := congrArg (·[k]?) h
    simp only [readAt, List.getElem?_map, List.getElem?_range hk, Option.map_some,
      List.getElem?_eq_getElem hk] at hget
    exact Option.some.inj hget
  · intro h
    refine List.ext_getElem (length_readAt m a _) fun k _ hk => ?_
    simpa [readAt] using h k hk

/-- Reading from the middle of what lies at an address gives the elements from there on. -/
theorem readAt_middle {k n : ℕ} (h : readAt m a xs.length = xs) (hle : k + n ≤ xs.length) :
    readAt m (a + k) n = (xs.drop k).take n := by
  rw [readAt_eq_iff] at h
  refine List.ext_getElem (by simp; omega) fun i hi _ => ?_
  rw [length_readAt] at hi
  simpa [readAt, Nat.add_assoc] using h (k + i) (by omega)

theorem readAt_congr {m' : ℕ → α} {n : ℕ} (h : ∀ k < n, m' (a + k) = m (a + k)) :
    readAt m' a n = readAt m a n :=
  List.map_congr_left fun k hk => h k (List.mem_range.mp hk)

end Read

/-! ### Pieces -/

variable {α : Type}

/-- The stretch of a piece, which is an address and what is written there. -/
def stretch (piece : ℕ × List α) : Stretch := ⟨piece.1, piece.2.length⟩

/-- `m` with the pieces written to it, one after the other. -/
def overlays (m : ℕ → α) (pieces : List (ℕ × List α)) : ℕ → α :=
  pieces.foldl (fun m piece => overlay m piece.1 piece.2) m

@[simp] theorem overlays_nil (m : ℕ → α) : overlays m [] = m := rfl

@[simp] theorem overlays_cons (m : ℕ → α) (piece : ℕ × List α) (pieces : List (ℕ × List α)) :
    overlays m (piece :: pieces) = overlays (overlay m piece.1 piece.2) pieces := rfl

theorem overlays_append (m : ℕ → α) (xs ys : List (ℕ × List α)) :
    overlays m (xs ++ ys) = overlays (overlays m xs) ys := List.foldl_append

/-- Writing pieces changes nothing at an address that lies in none of them. -/
theorem overlays_of_outside {m : ℕ → α} {pieces : List (ℕ × List α)} {a : ℕ}
    (h : ∀ piece ∈ pieces, a < piece.1 ∨ piece.1 + piece.2.length ≤ a) :
    overlays m pieces a = m a := by
  induction pieces generalizing m with
  | nil => rfl
  | cons piece pieces ih =>
    rw [overlays_cons, ih fun p hp => h p (List.mem_cons_of_mem _ hp)]
    rcases h piece List.mem_cons_self with hlt | hge
    · exact overlay_of_lt _ hlt
    · exact overlay_of_ge hge

/-- **A piece is there at the end** when the pieces are apart. -/
theorem overlays_of_mem {m : ℕ → α} {pieces : List (ℕ × List α)}
    (h : pieces.Pairwise fun p q => (stretch p).Apart (stretch q)) {piece : ℕ × List α}
    (hmem : piece ∈ pieces) {k : ℕ} (hk : k < piece.2.length) :
    overlays m pieces (piece.1 + k) = piece.2[k] := by
  induction pieces generalizing m with
  | nil => cases hmem
  | cons p pieces ih =>
    obtain ⟨hp, hpieces⟩ := List.pairwise_cons.mp h
    rcases List.mem_cons.mp hmem with rfl | hmem
    · -- nothing is written there later
      rw [overlays_cons, overlays_of_outside, overlay_of_mem hk]
      intro q hq
      rcases hp q hq with hle | hle <;> simp only [stretch] at hle <;> omega
    · rw [overlays_cons]
      exact ih hpieces hmem

theorem readAt_overlays_of_mem {m : ℕ → α} {pieces : List (ℕ × List α)}
    (h : pieces.Pairwise fun p q => (stretch p).Apart (stretch q)) {piece : ℕ × List α}
    (hmem : piece ∈ pieces) : readAt (overlays m pieces) piece.1 piece.2.length = piece.2 :=
  readAt_eq_iff.mpr fun _ hk => overlays_of_mem h hmem hk

/-- Reading apart from all pieces that were written gives what was there before. -/
theorem readAt_overlays_of_apart {m : ℕ → α} {pieces : List (ℕ × List α)} {x : Stretch}
    (h : ∀ piece ∈ pieces, (stretch piece).Apart x) :
    readAt (overlays m pieces) x.start x.size = readAt m x.start x.size := by
  refine readAt_congr fun k hk => overlays_of_outside fun piece hpiece => ?_
  rcases h piece hpiece with hle | hle <;> simp only [stretch] at hle <;> omega

end Jffi
