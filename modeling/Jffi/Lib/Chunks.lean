import Mathlib.Algebra.Ring.Int.Defs
import Mathlib.Algebra.Ring.Nat
import Mathlib.Data.Nat.Init
import Mathlib.Tactic.Common

/-!
# Loops over chunks

Something long is worked on in chunks of a fixed size, the last of which may be shorter.

## Main definitions

* `chunked` — the loop

## Main results

* `chunked_exists` — rounds that all succeed establish what they lead to
* `chunked_invariant` — what every round keeps, a run keeps
* `chunked_eq_none` — a loop that comes to a round it cannot finish
-/

namespace Jffi

universe u

variable {σ : Type u} {c n off : ℕ}

/-- The next chunk starts at a multiple of the size, too, unless there is none. -/
theorem dvd_next (h : c ∣ off) : c ∣ off + min c (n - off) ∨ n ≤ off + min c (n - off) := by
  rcases Nat.le_total c (n - off) with hle | hge
  · rw [Nat.min_eq_left hle]
    exact .inl (Nat.dvd_add h (Nat.dvd_refl c))
  · rw [Nat.min_eq_right hge]
    exact .inr (by omega)

variable [NeZero c] {round : ℕ → ℕ → σ → Option σ} {s s' : σ} {I : ℕ → σ → Prop}

/-- `while (off < n) { len = MIN(c, n - off); …; off += len; }`. -/
def chunked (c n : ℕ) [NeZero c] (round : ℕ → ℕ → σ → Option σ) (off : ℕ) (s : σ) : Option σ :=
  if off < n then
    (round off (min c (n - off)) s).bind (chunked c n round (off + min c (n - off)))
  else some s
termination_by n - off
decreasing_by
  have hc := Nat.pos_of_neZero c
  omega

theorem chunked_of_le (h : n ≤ off) : chunked c n round off s = some s := by
  rw [chunked, if_neg (by omega)]

theorem chunked_of_lt (h : off < n) :
    chunked c n round off s =
      (round off (min c (n - off)) s).bind (chunked c n round (off + min c (n - off))) := by
  rw [chunked, if_pos h]

/-- If every round that starts with the invariant can be finished and keeps it, the loop can be
finished, and ends with the invariant. -/
theorem chunked_exists
    (hround : ∀ off s, off < n → c ∣ off → I off s →
      ∃ s', round off (min c (n - off)) s = some s' ∧ I (off + min c (n - off)) s')
    (hoff : off ≤ n) (hdvd : c ∣ off ∨ n ≤ off) (hI : I off s) :
    ∃ s', chunked c n round off s = some s' ∧ I n s' := by
  induction hd : n - off using Nat.strongRecOn generalizing off s with
  | _ d ih =>
    rcases Nat.lt_or_ge off n with hlt | hge
    · have hc := Nat.pos_of_neZero c
      have hdvd' := hdvd.resolve_right (by omega)
      obtain ⟨s₁, hs₁, hI₁⟩ := hround off s hlt hdvd' hI
      rw [chunked_of_lt hlt, hs₁, Option.bind_some]
      exact ih (n - (off + min c (n - off))) (by omega) (by omega) (dvd_next hdvd') hI₁ rfl
    · obtain rfl : off = n := by omega
      exact ⟨s, chunked_of_le (Nat.le_refl off), hI⟩

/-- What every round keeps holds when the loop has ended. -/
theorem chunked_invariant
    (hround : ∀ off s s', off < n → c ∣ off → I off s →
      round off (min c (n - off)) s = some s' → I (off + min c (n - off)) s')
    (hoff : off ≤ n) (hdvd : c ∣ off ∨ n ≤ off) (hI : I off s)
    (h : chunked c n round off s = some s') : I n s' := by
  induction hd : n - off using Nat.strongRecOn generalizing off s with
  | _ d ih =>
    rcases Nat.lt_or_ge off n with hlt | hge
    · have hc := Nat.pos_of_neZero c
      have hdvd' := hdvd.resolve_right (by omega)
      rw [chunked_of_lt hlt] at h
      obtain ⟨s₁, hs₁, h⟩ := Option.bind_eq_some_iff.mp h
      exact ih (n - (off + min c (n - off))) (by omega) (by omega) (dvd_next hdvd')
        (hround off s s₁ hlt hdvd' hI hs₁) h rfl
    · obtain rfl : off = n := by omega
      rw [chunked_of_le (Nat.le_refl off)] at h
      cases h
      exact hI

/-- If some round cannot be finished from any state, the loop that comes to it cannot be finished
either. -/
theorem chunked_eq_none {k : ℕ} (hk : c ∣ k) (hlt : k < n) (hoff : off ≤ k) (hdvd : c ∣ off)
    (hround : ∀ s, round k (min c (n - k)) s = none) : chunked c n round off s = none := by
  induction hd : k - off using Nat.strongRecOn generalizing off s with
  | _ d ih =>
    have hc := Nat.pos_of_neZero c
    rw [chunked_of_lt (by omega)]
    rcases Nat.eq_or_lt_of_le hoff with rfl | hbefore
    · rw [hround]
      rfl
    · -- a whole chunk lies before the one in question
      have hstep : off + c ≤ k := by
        obtain ⟨i, rfl⟩ := hdvd
        obtain ⟨j, rfl⟩ := hk
        have hij : i < j := Nat.lt_of_mul_lt_mul_left hbefore
        calc c * i + c = c * (i + 1) := (Nat.mul_succ c i).symm
          _ ≤ c * j := Nat.mul_le_mul_left c hij
      rw [Nat.min_eq_left (by omega)]
      cases round off c s with
      | none => rfl
      | some s₁ =>
        exact ih (k - (off + c)) (by omega) hstep (Nat.dvd_add hdvd (Nat.dvd_refl c)) rfl

end Jffi
