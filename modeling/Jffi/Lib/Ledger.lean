import Mathlib.Data.List.Count
import Mathlib.Tactic.Common

/-!
# What was opened is closed

A trace of events, some of which open a resource and some of which close one. The trace is settled
when at its end each resource has been closed as often as it was opened, and at no moment more often
than that.

A function that acquires its resources one after the other and at its end gives them all back leaves
a trace of two parts: in the first nothing is closed, in the second nothing is opened. Then it is
enough to look at what each part opens or closes.

## Main definitions

* `Ledger` — which events open and close which resources
* `Ledger.Settled` — everything is closed as often as it is opened
* `Ledger.Outside` — an event that never falls into the time during which something is open

## Main results

* `Ledger.settled_append` — an opening part and a closing part
* `Ledger.outside_append` — between them, nothing else
-/

namespace Jffi

universe u v

/-- Which events open, and which close, a resource. -/
structure Ledger (ε : Type u) (ρ : Type v) where
  opens : ε → Option ρ
  closes : ε → Option ρ

namespace Ledger

variable {ε : Type u} {ρ : Type v} (k : Ledger ε ρ)

/-- The resources opened, in order. -/
def opened (tr : List ε) : List ρ := tr.filterMap k.opens

/-- The resources closed, in order. -/
def closed (tr : List ε) : List ρ := tr.filterMap k.closes

@[simp] theorem opened_append (tr tr' : List ε) :
    k.opened (tr ++ tr') = k.opened tr ++ k.opened tr' :=
  List.filterMap_append

@[simp] theorem closed_append (tr tr' : List ε) :
    k.closed (tr ++ tr') = k.closed tr ++ k.closed tr' :=
  List.filterMap_append

/-- An event that is none of the ledger's leaves no mark in it. -/
theorem opened_eq_nil {tr : List ε} (h : ∀ e ∈ tr, k.opens e = none) : k.opened tr = [] :=
  List.filterMap_eq_nil_iff.mpr h

theorem closed_eq_nil {tr : List ε} (h : ∀ e ∈ tr, k.closes e = none) : k.closed tr = [] :=
  List.filterMap_eq_nil_iff.mpr h

variable {k}

theorem closed_prefix {pre tr : List ε} (h : pre <+: tr) : k.closed pre <+: k.closed tr := by
  obtain ⟨post, rfl⟩ := h
  rw [closed_append]
  exact List.prefix_append ..

/-! ### Settled traces -/

variable [DecidableEq ρ]

/-- Each resource is closed as often as it is opened, and never before. -/
structure Settled (k : Ledger ε ρ) (tr : List ε) : Prop where
  count_eq : ∀ r, (k.closed tr).count r = (k.opened tr).count r
  never_ahead : ∀ pre, pre <+: tr → ∀ r, (k.closed pre).count r ≤ (k.opened pre).count r

/-- A trace that only opens is settled by one that closes everything it has opened, once, and opens
nothing more. -/
theorem settled_append {tr tr' : List ε} (hopen : k.closed tr = [])
    (hperm : (k.closed tr').Perm (k.opened tr)) (hclose : k.opened tr' = []) :
    Settled k (tr ++ tr') where
  count_eq r := by
    rw [closed_append, opened_append, hopen, hclose, List.nil_append, List.append_nil]
    exact hperm.count_eq r
  never_ahead pre hpre r := by
    rcases List.prefix_or_prefix_of_prefix hpre (List.prefix_append tr tr') with hpre' | ⟨q, rfl⟩
    · have hnil := closed_prefix hpre' (k := k)
      rw [hopen, List.prefix_nil] at hnil
      rw [hnil]
      exact Nat.zero_le _
    · have hq := closed_prefix ((List.prefix_append_right_inj tr).mp hpre) (k := k)
      rw [closed_append, opened_append, hopen, List.nil_append, List.count_append]
      have hle := hq.sublist.count_le r
      rw [hperm.count_eq r] at hle
      exact Nat.le_trans hle (Nat.le_add_right ..)

/-- A trace that closes less than it opens is not settled. -/
theorem not_settled {tr : List ε} {r : ρ} (h : (k.closed tr).count r < (k.opened tr).count r) :
    ¬Settled k tr :=
  fun hsettled => Nat.ne_of_lt h (hsettled.count_eq r)

/-! ### Between the first opening and the last closing -/

omit [DecidableEq ρ]

/-- No event of `P` lies between one that opens and one that closes. -/
def Outside (k : Ledger ε ρ) (P : ε → Prop) (tr : List ε) : Prop :=
  ∀ pre e post, tr = pre ++ e :: post → P e → k.opened pre = [] ∨ k.closed post = []

/-- **Nothing else happens in between**: a part that opens nothing, one without events of `P`, and
a part that closes nothing. -/
theorem outside_append {P : ε → Prop} {before between after : List ε}
    (hbefore : k.opened before = []) (hbetween : ∀ e ∈ between, ¬P e)
    (hafter : k.closed after = []) : Outside k P (before ++ (between ++ after)) := by
  intro pre e post htr he
  rcases List.append_eq_append_iff.mp htr with ⟨as, hpre, hrest⟩ | ⟨bs, hbs, -⟩
  · rcases List.append_eq_append_iff.mp hrest with ⟨cs, -, hafter'⟩ | ⟨cs, hbetween', hpost⟩
    · refine .inr ?_
      rw [hafter'] at hafter
      have hcons : k.closed (e :: post) = [] := (List.append_eq_nil_iff.mp
        ((closed_append k cs (e :: post)).symm.trans hafter)).2
      exact List.filterMap_eq_nil_iff.mpr fun x hx =>
        List.filterMap_eq_nil_iff.mp hcons x (List.mem_cons_of_mem e hx)
    · cases cs with
      | nil =>
        refine .inr ?_
        rw [List.nil_append] at hpost
        rw [← hpost] at hafter
        exact List.filterMap_eq_nil_iff.mpr fun x hx =>
          List.filterMap_eq_nil_iff.mp hafter x (List.mem_cons_of_mem e hx)
      | cons c cs =>
        cases hpost
        refine absurd he (hbetween e ?_)
        rw [hbetween']
        exact List.mem_append_right _ (List.mem_cons_self ..)
  · refine .inl ?_
    rw [hbs, opened_append] at hbefore
    exact (List.append_eq_nil_iff.mp hbefore).1

/-- An event of `P` after an opening and before a closing. -/
theorem not_outside {P : ε → Prop} {before between after : List ε} {e : ε}
    (hbefore : k.opened before ≠ []) (he : P e) (hafter : k.closed (between ++ after) ≠ []) :
    ¬Outside k P (before ++ e :: (between ++ after)) := by
  intro h
  rcases h before e (between ++ after) rfl he with hnil | hnil
  · exact hbefore hnil
  · exact hafter hnil

end Ledger

end Jffi
