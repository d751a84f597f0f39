import Jffi.ObjectParameterStrategy

/-!
# The object overloads of `Invoker`

`invokeN2`, …, `invokeN6` take any number of object parameters, of which the caller has counted the
ones without an address. These are moved to the front, variable by variable, and the native method
for so many objects is called with them.

From the third parameter on the moving is done by one `switch` for each variable, whose cases fall
through to the next parameter that has no address. `select` runs them one after the other.

## Main definitions

* `Switch`, `select` — the moving
* `Invoker.invokeN2With1`, …, `Invoker.invokeN6With6` — the overloads, by their number of objects
* `nonDirect` — the parameters without an address

## Main results

* `Selected.run` — what one `switch` does
* `select_eq` — what a row of them does
* `invokeObjects_eq` — every overload passes on exactly the parameters without an address
-/

namespace Jffi

open ObjectBuffer

variable {pf : Platform} {T : Type}

/-! ### Parameters and calls -/

/-- The variables `o1`, `s1` and `o1info` of an overload. -/
structure ObjectParameter (T : Type) where
  o : T
  s : ObjectParameterStrategy T
  info : ObjectParameterInfo

namespace ObjectParameter

def isDirect (p : ObjectParameter T) : Bool := p.s.isDirect

/-- `s1.object(o1), s1.objectInfo(o1info), s1.offset(o1), s1.length(o1)`. -/
def entry (p : ObjectParameter T) : Except String ObjectEntry := do
  let object ← p.s.object p.o
  let offset ← p.s.offset p.o
  let length ← p.s.length p.o
  .ok ⟨object, p.s.objectInfo p.info, offset, length⟩

end ObjectParameter

/-- A call of a native method: of `invokeN3` for three numbers and no object, of `invokeN3O2` for
three numbers and two objects. -/
structure ForeignCall (pf : Platform) where
  ctx : CallContext pf
  function : BitVec 64
  numbers : List (BitVec 64)
  objects : List ObjectEntry

namespace Foreign

variable (ctx : CallContext pf) (function : BitVec 64) (ns : List (BitVec 64))

/-- `Foreign.invokeN2(ctx.contextAddress, function, n1, n2)` and its like. -/
def invokeNn : ForeignCall pf := ⟨ctx, function, ns, []⟩

/-- `Foreign.invokeN2O1(ctx.contextAddress, function, n1, n2, s1.object(o1), …)` and its like. -/
def invokeNnOm (ps : List (ObjectParameter T)) : Except String (ForeignCall pf) := do
  let objects ← ps.mapM ObjectParameter.entry
  .ok ⟨ctx, function, ns, objects⟩

end Foreign

def newObjectCountError (objCount : ℤ) : String := "invalid object count: " ++ toString objCount

def newInsufficientObjectCountError (objCount : ℤ) : String :=
  "invalid object count: " ++ toString objCount

/-! ### The switches -/

/-- The local variables of an overload, which the `switch` over the parameters assigns. -/
structure Locals (T : Type) where
  params : List (ObjectParameter T)
  next : ℕ

/-- A `switch (next)` that looks for a parameter for one of the variables: the labels of its cases,
and whether they count `next` up. -/
structure Switch where
  labels : List ℕ
  increments : Bool

/-- `case k: next++; if (!sk.isDirect()) { oj = ok; sj = sk; ojinfo = okinfo; break; }` for the
labels `k` from the one that is jumped to. The case `k = j` moves nothing. -/
def Switch.fallThrough (increments : Bool) (j : ℕ) : List ℕ → Locals T → Locals T
  | [], l => l
  | k :: ks, l =>
    let next := if increments then l.next + 1 else l.next
    match l.params[k - 1]? with
    | none => l
    | some p =>
      if !p.isDirect then ⟨l.params.set (j - 1) p, next⟩
      else fallThrough increments j ks ⟨l.params, next⟩

/-- The `switch` for variable `j`. -/
def Switch.run (sw : Switch) (j : ℕ) (l : Locals T) : Locals T :=
  fallThrough sw.increments j (sw.labels.dropWhile fun k => k != l.next) l

section Overloads

variable (ctx : CallContext pf) (function : BitVec 64)

/-- The switches for the variables from `j` on, each followed by the call for `j` objects. -/
def select (ns : List (BitVec 64)) (objCount : ℤ)
    (otherwise : Locals T → Except String (ForeignCall pf)) :
    ℕ → List Switch → Locals T → Except String (ForeignCall pf)
  | _, [], l => otherwise l
  | j, sw :: sws, l =>
    if objCount = j then Foreign.invokeNnOm ctx function ns ((sw.run j l).params.take j)
    else select ns objCount otherwise (j + 1) sws (sw.run j l)

/-- The overloads with a `switch` for every variable. -/
def invokeSwitched (ns : List (BitVec 64)) (objCount : ℤ) (sws : List Switch)
    (ps : List (ObjectParameter T)) : Except String (ForeignCall pf) :=
  if objCount = 0 then .ok (Foreign.invokeNn ctx function ns)
  else
    select ctx function ns objCount (fun _ => .error (newObjectCountError objCount)) 1 sws ⟨ps, 1⟩

/-- The overloads for one object. -/
def invokeSingle (ns : List (BitVec 64)) (objCount : ℤ) (p1 : ObjectParameter T) :
    Except String (ForeignCall pf) :=
  if objCount = 0 then .ok (Foreign.invokeNn ctx function ns)
  else if objCount = 1 then Foreign.invokeNnOm ctx function ns [p1]
  else .error (newObjectCountError objCount)

/-- The overloads for two objects, of which `heap` is the one that is passed on alone. -/
def invokePair (ns : List (BitVec 64)) (objCount : ℤ) (heap p1 p2 : ObjectParameter T) :
    Except String (ForeignCall pf) :=
  if objCount = 0 then .ok (Foreign.invokeNn ctx function ns)
  else if objCount = 1 then Foreign.invokeNnOm ctx function ns [heap]
  else if objCount = 2 then Foreign.invokeNnOm ctx function ns [p1, p2]
  else .error (newObjectCountError objCount)

namespace Invoker

/-! ### The overloads -/

def invokeN2With1 (n1 n2 : BitVec 64) (objCount : ℤ) (p1 : ObjectParameter T) :
    Except String (ForeignCall pf) :=
  invokeSingle ctx function [n1, n2] objCount p1

def invokeN2With2 (n1 n2 : BitVec 64) (objCount : ℤ) (p1 p2 : ObjectParameter T) :
    Except String (ForeignCall pf) :=
  invokePair ctx function [n1, n2] objCount
    (if !p1.isDirect then p1 else if !p2.isDirect then p2 else p1) p1 p2

def invokeN3With1 (n1 n2 n3 : BitVec 64) (objCount : ℤ) (p1 : ObjectParameter T) :
    Except String (ForeignCall pf) :=
  if objCount = 0 then .ok (Foreign.invokeNn ctx function [n1, n2, n3])
  else if objCount = 1 then
    -- the only overload for one object that looks at its strategy
    if p1.isDirect then .error (newInsufficientObjectCountError objCount)
    else Foreign.invokeNnOm ctx function [n1, n2, n3] [p1]
  else .error (newObjectCountError objCount)

def invokeN3With2 (n1 n2 n3 : BitVec 64) (objCount : ℤ) (p1 p2 : ObjectParameter T) :
    Except String (ForeignCall pf) :=
  invokePair ctx function [n1, n2, n3] objCount
    (if !p1.isDirect then p1 else if !p2.isDirect then p2 else p1) p1 p2

/-- Any count above two is taken for three. -/
def invokeN3With3 (n1 n2 n3 : BitVec 64) (objCount : ℤ) (p1 p2 p3 : ObjectParameter T) :
    Except String (ForeignCall pf) :=
  if objCount = 0 then .ok (Foreign.invokeNn ctx function [n1, n2, n3])
  else if objCount < 3 then
    -- the first non-direct object
    let (o1, next) := if !p1.isDirect then (p1, 2) else if !p2.isDirect then (p2, 3) else (p3, 4)
    if objCount = 1 then Foreign.invokeNnOm ctx function [n1, n2, n3] [o1]
    else if objCount = 2 then
      -- the second one
      let o2 := if next ≤ 2 ∧ !p2.isDirect then p2 else if next ≤ 3 then p3 else p2
      Foreign.invokeNnOm ctx function [n1, n2, n3] [o1, o2]
    else .error (newObjectCountError objCount)
  else Foreign.invokeNnOm ctx function [n1, n2, n3] [p1, p2, p3]

def invokeN4With1 (n1 n2 n3 n4 : BitVec 64) (objCount : ℤ) (p1 : ObjectParameter T) :
    Except String (ForeignCall pf) :=
  invokeSingle ctx function [n1, n2, n3, n4] objCount p1

def invokeN4With2 (n1 n2 n3 n4 : BitVec 64) (objCount : ℤ) (p1 p2 : ObjectParameter T) :
    Except String (ForeignCall pf) :=
  invokePair ctx function [n1, n2, n3, n4] objCount
    (if !p1.isDirect then p1 else if !p2.isDirect then p2 else p1) p1 p2

/-- The switches for the first two variables, and then a check of the third. -/
def invokeN4With3 (n1 n2 n3 n4 : BitVec 64) (objCount : ℤ) (p1 p2 p3 : ObjectParameter T) :
    Except String (ForeignCall pf) :=
  if objCount = 0 then .ok (Foreign.invokeNn ctx function [n1, n2, n3, n4])
  else
    select ctx function [n1, n2, n3, n4] objCount
      (fun l =>
        if l.next = 3 ∧ !p3.isDirect then
          if objCount = 3 then Foreign.invokeNnOm ctx function [n1, n2, n3, n4] (l.params.take 3)
          else .error (newObjectCountError objCount)
        else .error (newInsufficientObjectCountError objCount))
      1 [⟨[1, 2, 3], true⟩, ⟨[2, 3], true⟩] ⟨[p1, p2, p3], 1⟩

/-- The switches for the first three variables, and then a check of the fourth. -/
def invokeN4With4 (n1 n2 n3 n4 : BitVec 64) (objCount : ℤ) (p1 p2 p3 p4 : ObjectParameter T) :
    Except String (ForeignCall pf) :=
  if objCount = 0 then .ok (Foreign.invokeNn ctx function [n1, n2, n3, n4])
  else
    select ctx function [n1, n2, n3, n4] objCount
      (fun l =>
        if l.next ≠ 4 ∨ p4.isDirect then .error (newInsufficientObjectCountError objCount)
        else if objCount = 4 then
          Foreign.invokeNnOm ctx function [n1, n2, n3, n4] (l.params.take 4)
        else .error (newObjectCountError objCount))
      1 [⟨[1, 2, 3, 4], true⟩, ⟨[2, 3, 4], true⟩, ⟨[3, 4], true⟩] ⟨[p1, p2, p3, p4], 1⟩

def invokeN5With1 (n1 n2 n3 n4 n5 : BitVec 64) (objCount : ℤ) (p1 : ObjectParameter T) :
    Except String (ForeignCall pf) :=
  invokeSingle ctx function [n1, n2, n3, n4, n5] objCount p1

def invokeN5With2 (n1 n2 n3 n4 n5 : BitVec 64) (objCount : ℤ) (p1 p2 : ObjectParameter T) :
    Except String (ForeignCall pf) :=
  invokePair ctx function [n1, n2, n3, n4, n5] objCount (if !p1.isDirect then p1 else p2) p1 p2

def invokeN5With3 (n1 n2 n3 n4 n5 : BitVec 64) (objCount : ℤ) (p1 p2 p3 : ObjectParameter T) :
    Except String (ForeignCall pf) :=
  invokeSwitched ctx function [n1, n2, n3, n4, n5] objCount
    [⟨[1, 2, 3], true⟩, ⟨[2, 3], true⟩, ⟨[3], false⟩] [p1, p2, p3]

def invokeN5With4 (n1 n2 n3 n4 n5 : BitVec 64) (objCount : ℤ) (p1 p2 p3 p4 : ObjectParameter T) :
    Except String (ForeignCall pf) :=
  invokeSwitched ctx function [n1, n2, n3, n4, n5] objCount
    [⟨[1, 2, 3, 4], true⟩, ⟨[2, 3, 4], true⟩, ⟨[3, 4], false⟩, ⟨[], false⟩] [p1, p2, p3, p4]

def invokeN5With5 (n1 n2 n3 n4 n5 : BitVec 64) (objCount : ℤ)
    (p1 p2 p3 p4 p5 : ObjectParameter T) : Except String (ForeignCall pf) :=
  invokeSwitched ctx function [n1, n2, n3, n4, n5] objCount
    [⟨[1, 2, 3, 4, 5], true⟩, ⟨[2, 3, 4, 5], true⟩, ⟨[3, 4, 5], true⟩, ⟨[4, 5], false⟩,
      ⟨[], false⟩]
    [p1, p2, p3, p4, p5]

def invokeN6With1 (n1 n2 n3 n4 n5 n6 : BitVec 64) (objCount : ℤ) (p1 : ObjectParameter T) :
    Except String (ForeignCall pf) :=
  invokeSingle ctx function [n1, n2, n3, n4, n5, n6] objCount p1

def invokeN6With2 (n1 n2 n3 n4 n5 n6 : BitVec 64) (objCount : ℤ) (p1 p2 : ObjectParameter T) :
    Except String (ForeignCall pf) :=
  invokePair ctx function [n1, n2, n3, n4, n5, n6] objCount (if !p1.isDirect then p1 else p2) p1 p2

def invokeN6With3 (n1 n2 n3 n4 n5 n6 : BitVec 64) (objCount : ℤ) (p1 p2 p3 : ObjectParameter T) :
    Except String (ForeignCall pf) :=
  invokeSwitched ctx function [n1, n2, n3, n4, n5, n6] objCount
    [⟨[1, 2, 3], true⟩, ⟨[2, 3], true⟩, ⟨[3], false⟩] [p1, p2, p3]

def invokeN6With4 (n1 n2 n3 n4 n5 n6 : BitVec 64) (objCount : ℤ)
    (p1 p2 p3 p4 : ObjectParameter T) : Except String (ForeignCall pf) :=
  invokeSwitched ctx function [n1, n2, n3, n4, n5, n6] objCount
    [⟨[1, 2, 3, 4], true⟩, ⟨[2, 3, 4], true⟩, ⟨[3, 4], false⟩, ⟨[], false⟩] [p1, p2, p3, p4]

def invokeN6With5 (n1 n2 n3 n4 n5 n6 : BitVec 64) (objCount : ℤ)
    (p1 p2 p3 p4 p5 : ObjectParameter T) : Except String (ForeignCall pf) :=
  invokeSwitched ctx function [n1, n2, n3, n4, n5, n6] objCount
    [⟨[1, 2, 3, 4, 5], true⟩, ⟨[2, 3, 4, 5], true⟩, ⟨[3, 4, 5], true⟩, ⟨[4, 5], false⟩,
      ⟨[], false⟩]
    [p1, p2, p3, p4, p5]

def invokeN6With6 (n1 n2 n3 n4 n5 n6 : BitVec 64) (objCount : ℤ)
    (p1 p2 p3 p4 p5 p6 : ObjectParameter T) : Except String (ForeignCall pf) :=
  invokeSwitched ctx function [n1, n2, n3, n4, n5, n6] objCount
    [⟨[1, 2, 3, 4, 5, 6], true⟩, ⟨[2, 3, 4, 5, 6], true⟩, ⟨[3, 4, 5, 6], true⟩,
      ⟨[4, 5, 6], true⟩, ⟨[5, 6], false⟩, ⟨[], false⟩]
    [p1, p2, p3, p4, p5, p6]

/-- The overload for these numbers and parameters, if there is one. -/
def invokeObjects (ns : List (BitVec 64)) (objCount : ℤ) (ps : List (ObjectParameter T)) :
    Option (Except String (ForeignCall pf)) :=
  match ns, ps with
  | [n1, n2], [p1] => some (invokeN2With1 ctx function n1 n2 objCount p1)
  | [n1, n2], [p1, p2] => some (invokeN2With2 ctx function n1 n2 objCount p1 p2)
  | [n1, n2, n3], [p1] => some (invokeN3With1 ctx function n1 n2 n3 objCount p1)
  | [n1, n2, n3], [p1, p2] => some (invokeN3With2 ctx function n1 n2 n3 objCount p1 p2)
  | [n1, n2, n3], [p1, p2, p3] => some (invokeN3With3 ctx function n1 n2 n3 objCount p1 p2 p3)
  | [n1, n2, n3, n4], [p1] => some (invokeN4With1 ctx function n1 n2 n3 n4 objCount p1)
  | [n1, n2, n3, n4], [p1, p2] => some (invokeN4With2 ctx function n1 n2 n3 n4 objCount p1 p2)
  | [n1, n2, n3, n4], [p1, p2, p3] =>
    some (invokeN4With3 ctx function n1 n2 n3 n4 objCount p1 p2 p3)
  | [n1, n2, n3, n4], [p1, p2, p3, p4] =>
    some (invokeN4With4 ctx function n1 n2 n3 n4 objCount p1 p2 p3 p4)
  | [n1, n2, n3, n4, n5], [p1] => some (invokeN5With1 ctx function n1 n2 n3 n4 n5 objCount p1)
  | [n1, n2, n3, n4, n5], [p1, p2] =>
    some (invokeN5With2 ctx function n1 n2 n3 n4 n5 objCount p1 p2)
  | [n1, n2, n3, n4, n5], [p1, p2, p3] =>
    some (invokeN5With3 ctx function n1 n2 n3 n4 n5 objCount p1 p2 p3)
  | [n1, n2, n3, n4, n5], [p1, p2, p3, p4] =>
    some (invokeN5With4 ctx function n1 n2 n3 n4 n5 objCount p1 p2 p3 p4)
  | [n1, n2, n3, n4, n5], [p1, p2, p3, p4, p5] =>
    some (invokeN5With5 ctx function n1 n2 n3 n4 n5 objCount p1 p2 p3 p4 p5)
  | [n1, n2, n3, n4, n5, n6], [p1] =>
    some (invokeN6With1 ctx function n1 n2 n3 n4 n5 n6 objCount p1)
  | [n1, n2, n3, n4, n5, n6], [p1, p2] =>
    some (invokeN6With2 ctx function n1 n2 n3 n4 n5 n6 objCount p1 p2)
  | [n1, n2, n3, n4, n5, n6], [p1, p2, p3] =>
    some (invokeN6With3 ctx function n1 n2 n3 n4 n5 n6 objCount p1 p2 p3)
  | [n1, n2, n3, n4, n5, n6], [p1, p2, p3, p4] =>
    some (invokeN6With4 ctx function n1 n2 n3 n4 n5 n6 objCount p1 p2 p3 p4)
  | [n1, n2, n3, n4, n5, n6], [p1, p2, p3, p4, p5] =>
    some (invokeN6With5 ctx function n1 n2 n3 n4 n5 n6 objCount p1 p2 p3 p4 p5)
  | [n1, n2, n3, n4, n5, n6], [p1, p2, p3, p4, p5, p6] =>
    some (invokeN6With6 ctx function n1 n2 n3 n4 n5 n6 objCount p1 p2 p3 p4 p5 p6)
  | _, _ => none

end Invoker

end Overloads

/-! ### What a switch does -/

/-- The parameters that are passed as objects. -/
def nonDirect (ps : List (ObjectParameter T)) : List (ObjectParameter T) :=
  ps.filter fun p => !p.isDirect

/-- The first `chosen` variables are the first parameters without an address, the rest of which are
among those from `r` on, and these have not been moved. -/
structure Selected (ps : List (ObjectParameter T)) (chosen r : ℕ)
    (vars : List (ObjectParameter T)) : Prop where
  chosen_le : chosen ≤ r
  le_length : r ≤ ps.length
  length_eq : vars.length = ps.length
  nonDirect_eq : nonDirect ps = vars.take chosen ++ nonDirect (ps.drop r)
  unmoved : ∀ i, r ≤ i → vars[i]? = ps[i]?

theorem selected_start (ps : List (ObjectParameter T)) : Selected ps 0 0 ps :=
  ⟨Nat.le_refl 0, Nat.zero_le _, rfl, rfl, fun _ _ => rfl⟩

/-- Falling through the cases from the one for parameter `r` finds the next parameter without an
address. -/
theorem fallThrough_range {ps vars : List (ObjectParameter T)} (increments : Bool) (j next : ℕ)
    {m r : ℕ} (hlen : ps.length = r + m) (hunmoved : ∀ i, r ≤ i → vars[i]? = ps[i]?)
    (hne : nonDirect (ps.drop r) ≠ []) :
    ∃ q r', nonDirect (ps.drop r) = q :: nonDirect (ps.drop r') ∧ r < r' ∧ r' ≤ ps.length ∧
      (Switch.fallThrough increments j (List.range' (r + 1) m) ⟨vars, next⟩).params =
        vars.set (j - 1) q ∧
      (increments = true →
        (Switch.fallThrough increments j (List.range' (r + 1) m) ⟨vars, next⟩).next + r =
          next + r') := by
  induction m generalizing r next with
  | zero =>
    rw [List.drop_of_length_le (by omega)] at hne
    exact absurd rfl hne
  | succ m ih =>
    have hlt : r < ps.length := by omega
    have hvar : vars[r + 1 - 1]? = some ps[r] := by
      rw [Nat.add_sub_cancel, hunmoved r (Nat.le_refl r), List.getElem?_eq_getElem hlt]
    have hdrop : ps.drop r = ps[r] :: ps.drop (r + 1) := List.drop_eq_getElem_cons hlt
    rw [List.range'_succ, Switch.fallThrough, hvar]
    by_cases hdirect : ps[r].isDirect = true
    · -- the case falls through to the next
      have hskip : nonDirect (ps.drop r) = nonDirect (ps.drop (r + 1)) := by
        rw [hdrop, nonDirect, List.filter_cons_of_neg (by simp [hdirect])]
        rfl
      rw [hskip] at hne ⊢
      obtain ⟨q, r', heq, hlt', hle, hparams, hnext⟩ :=
        ih (if increments then next + 1 else next) (by omega)
          (fun i hi => hunmoved i (by omega)) hne
      refine ⟨q, r', heq, by omega, hle, ?_, ?_⟩
      · simpa [hdirect] using hparams
      · intro hinc
        have hnext' := hnext hinc
        simp only [hinc, if_true, hdirect, Bool.not_true, Bool.false_eq_true, if_false] at hnext' ⊢
        omega
    · refine ⟨ps[r], r + 1, ?_, by omega, by omega, ?_, ?_⟩
      · rw [hdrop, nonDirect, List.filter_cons_of_pos (by simpa using hdirect)]
        rfl
      · simp [hdirect]
      · intro hinc
        simp [hdirect, hinc]
        omega

/-- A `switch` on the number of the parameter taken last goes on with the cases behind it. -/
theorem dropWhile_range {j k r : ℕ} (hj : j ≤ r) :
    (List.range' (j + 1) (k - j)).dropWhile (fun i => i != r + 1) =
      List.range' (r + 1) (k - r) := by
  induction hd : r - j generalizing j with
  | zero =>
    obtain rfl : j = r := by omega
    cases hm : k - j with
    | zero => rfl
    | succ m =>
      rw [List.range'_succ, List.dropWhile_cons_of_neg (by simp)]
  | succ d ih =>
    cases hm : k - j with
    | zero =>
      have hz : k - r = 0 := by omega
      rw [hz]
      rfl
    | succ m =>
      rw [List.range'_succ, List.dropWhile_cons_of_pos (by simp; omega)]
      have hm' : m = k - (j + 1) := by omega
      rw [hm']
      exact ih (by omega) (by omega)

/-- **A `switch` for the next variable** moves the next parameter without an address there. -/
theorem Selected.run {ps : List (ObjectParameter T)} {j r : ℕ} {l : Locals T}
    (h : Selected ps j r l.params) (sw : Switch) (hnext : l.next = r + 1)
    (hlabels : sw.labels = List.range' (j + 1) (ps.length - j))
    (hmore : j < (nonDirect ps).length) :
    ∃ r', Selected ps (j + 1) r' (sw.run (j + 1) l).params ∧
      (sw.increments = true → (sw.run (j + 1) l).next = r' + 1) := by
  obtain ⟨vars, next⟩ := l
  obtain ⟨hle, hr, hlen, heq, hunmoved⟩ := h
  have hne : nonDirect (ps.drop r) ≠ [] := by
    intro hnil
    rw [heq, hnil, List.append_nil, List.length_take] at hmore
    omega
  obtain ⟨q, r', hq, hlt, hr', hparams, hnext'⟩ :=
    @fallThrough_range _ ps vars sw.increments (j + 1) next (ps.length - r) r
    (by omega) hunmoved hne
  have hrun : sw.run (j + 1) ⟨vars, next⟩ = Switch.fallThrough sw.increments (j + 1)
      (List.range' (r + 1) (ps.length - r)) ⟨vars, next⟩ := by
    rw [Switch.run, hlabels]
    change Switch.fallThrough _ _ (List.dropWhile (fun k => k != next) _) _ = _
    have hn : next = r + 1 := hnext
    rw [hn, dropWhile_range hle]
  rw [hrun]
  refine ⟨r', ⟨by omega, hr', ?_, ?_, ?_⟩, ?_⟩
  · rw [hparams, List.length_set, hlen]
  · have hj : j < vars.length := by
      have := List.length_filter_le (fun p : ObjectParameter T => !p.isDirect) ps
      rw [hlen]
      exact Nat.lt_of_lt_of_le hmore this
    rw [hparams, heq, hq, Nat.add_sub_cancel, List.take_add_one, List.getElem?_set_self hj,
      List.take_set_of_le (Nat.le_refl j), List.append_assoc]
    rfl
  · intro i hi
    rw [hparams, List.getElem?_set_ne (by omega)]
    exact hunmoved i (by omega)
  · intro hinc
    have hnext'' := hnext' hinc
    have hn : next = r + 1 := hnext
    omega

/-! ### A row of switches -/

/-- Switches for `n` variables after the first `j`: each has a case for its own and every later
parameter, and counts `next` up. -/
def regular (k j n : ℕ) : List Switch :=
  (List.range' j n).map fun i => ⟨List.range' (i + 1) (k - i), true⟩

theorem regular_succ (k j n : ℕ) :
    regular k j (n + 1) = ⟨List.range' (j + 1) (k - j), true⟩ :: regular k (j + 1) n := by
  rw [regular, List.range'_succ, List.map_cons]
  rfl

section Row

variable (ctx : CallContext pf) (function : BitVec 64) (ns : List (BitVec 64))

/-- The variables that have been filled are those of the parameters that are not direct, in order.
-/
theorem Selected.take_eq {ps vars : List (ObjectParameter T)} {j r : ℕ} (h : Selected ps j r vars)
    (hcount : (nonDirect ps).length = j) : vars.take j = nonDirect ps := by
  have hle := h.chosen_le
  have hr := h.le_length
  have hlen := h.length_eq
  have hlength := congrArg List.length h.nonDirect_eq
  rw [List.length_append, List.length_take, hcount] at hlength
  have hnil : nonDirect (ps.drop r) = [] := List.length_eq_zero_iff.mp (by omega)
  rw [h.nonDirect_eq, hnil, List.append_nil]

/-- **A row of switches** either comes to the call, or fills its variables. -/
theorem select_regular {ps : List (ObjectParameter T)} {j r n : ℕ} {l : Locals T}
    (rest : List Switch) (otherwise : Locals T → Except String (ForeignCall pf))
    (h : Selected ps j r l.params) (hnext : l.next = r + 1) (hmore : j < (nonDirect ps).length) :
    ((nonDirect ps).length ≤ j + n →
      select ctx function ns (nonDirect ps).length otherwise (j + 1)
        (regular ps.length j n ++ rest) l = Foreign.invokeNnOm ctx function ns (nonDirect ps)) ∧
    (j + n < (nonDirect ps).length →
      ∃ r' l', Selected ps (j + n) r' l'.params ∧ l'.next = r' + 1 ∧
        select ctx function ns (nonDirect ps).length otherwise (j + 1)
          (regular ps.length j n ++ rest) l =
        select ctx function ns (nonDirect ps).length otherwise (j + n + 1) rest l') := by
  induction n generalizing j r l with
  | zero => exact ⟨fun hle => by omega, fun _ => ⟨r, l, h, hnext, rfl⟩⟩
  | succ n ih =>
    obtain ⟨r', hselected, hnext'⟩ :=
      h.run ⟨List.range' (j + 1) (ps.length - j), true⟩ hnext rfl hmore
    rw [regular_succ, List.cons_append, select]
    by_cases hcall : (nonDirect ps).length = j + 1
    · rw [if_pos (by exact_mod_cast hcall), hselected.take_eq hcall]
      exact ⟨fun _ => rfl, fun hlt => by omega⟩
    · rw [if_neg (by exact_mod_cast hcall)]
      obtain ⟨hdone, hgoes⟩ := ih hselected (hnext' rfl) (by omega)
      refine ⟨fun hle => hdone (by omega), fun hlt => ?_⟩
      obtain ⟨r'', l', hselected', hn, heq⟩ := hgoes (by omega)
      have hsum : j + 1 + n = j + (n + 1) := by omega
      exact ⟨r'', l', hsum ▸ hselected', hn, hsum ▸ heq⟩

/-- When every parameter is passed as an object, each one stays where it is. -/
theorem Selected.all {ps vars : List (ObjectParameter T)} {j r : ℕ} (h : Selected ps j r vars)
    (hcount : (nonDirect ps).length = ps.length) : vars = nonDirect ps ∧ r = j := by
  obtain ⟨hle, hr, hlen, heq, hunmoved⟩ := h
  have hlength := congrArg List.length heq
  have hrest : (nonDirect (ps.drop r)).length ≤ (ps.drop r).length := List.length_filter_le _ _
  rw [List.length_append, List.length_take, hcount] at hlength
  rw [List.length_drop] at hrest
  have hrj : r = j := by omega
  subst hrj
  have hkept : nonDirect (ps.drop r) = ps.drop r := by
    refine List.filter_eq_self.mpr (List.length_filter_eq_length_iff.mp ?_)
    change (nonDirect (ps.drop r)).length = _
    rw [List.length_drop]
    omega
  have hdrop : vars.drop r = ps.drop r := by
    refine List.ext_getElem? fun i => ?_
    rw [List.getElem?_drop, List.getElem?_drop]
    exact hunmoved (r + i) (Nat.le_add_right r i)
  refine ⟨?_, rfl⟩
  rw [heq, hkept, ← hdrop, List.take_append_drop]

theorem length_nonDirect_le (ps : List (ObjectParameter T)) : (nonDirect ps).length ≤ ps.length :=
  List.length_filter_le _ _

/-- A row of switches from the start, by what becomes of the calls it does not come to. -/
theorem select_start {ps : List (ObjectParameter T)} {n : ℕ} {rest : List Switch}
    {otherwise : Locals T → Except String (ForeignCall pf)}
    (hrest : ∀ r l, Selected ps n r l.params → l.next = r + 1 → n < (nonDirect ps).length →
      select ctx function ns (nonDirect ps).length otherwise (n + 1) rest l =
        Foreign.invokeNnOm ctx function ns (nonDirect ps)) :
    (if ((nonDirect ps).length : ℤ) = 0 then .ok (Foreign.invokeNn ctx function ns)
      else select ctx function ns (nonDirect ps).length otherwise 1
        (regular ps.length 0 n ++ rest) ⟨ps, 1⟩) =
      Foreign.invokeNnOm ctx function ns (nonDirect ps) := by
  by_cases hzero : (nonDirect ps).length = 0
  · rw [if_pos (by exact_mod_cast hzero), List.length_eq_zero_iff.mp hzero]
    rfl
  rw [if_neg (by exact_mod_cast hzero)]
  obtain ⟨hdone, hgoes⟩ := select_regular ctx function ns (n := n) (l := ⟨ps, 1⟩) rest otherwise
    (selected_start ps) rfl (by omega)
  rcases Nat.lt_or_ge n (nonDirect ps).length with hlt | hge
  · obtain ⟨r, l, hselected, hnext, heq⟩ := hgoes (by omega)
    simp only [Nat.zero_add] at hselected heq
    rw [heq]
    exact hrest r l hselected hnext hlt
  · exact hdone (by omega)

/-- An overload whose last `switch` has only its own case passes on the parameters that are not
direct, in order. -/
theorem invokeSwitched_eq_of_own {ps : List (ObjectParameter T)} {n : ℕ}
    (hlen : ps.length = n + 1) :
    invokeSwitched ctx function ns (nonDirect ps).length
      (regular ps.length 0 n ++ [⟨[n + 1], false⟩]) ps =
        Foreign.invokeNnOm ctx function ns (nonDirect ps) := by
  have hle := length_nonDirect_le ps
  refine select_start ctx function ns fun r l hselected hnext hlt => ?_
  have hlabels : [n + 1] = List.range' (n + 1) (ps.length - n) := by
    rw [hlen, Nat.add_sub_cancel_left]
    rfl
  obtain ⟨r', hselected', -⟩ := hselected.run ⟨[n + 1], false⟩ hnext hlabels hlt
  have hcount : (nonDirect ps).length = n + 1 := by omega
  rw [select, if_pos (by exact_mod_cast hcount), hselected'.take_eq hcount]

/-- An overload whose last variable is not switched passes on the parameters that are not direct, in
order. -/
theorem invokeSwitched_eq_of_last {ps : List (ObjectParameter T)} {n : ℕ}
    (hlen : ps.length = n + 2) :
    invokeSwitched ctx function ns (nonDirect ps).length
      (regular ps.length 0 n ++ [⟨[n + 1, n + 2], false⟩, ⟨[], false⟩]) ps =
        Foreign.invokeNnOm ctx function ns (nonDirect ps) := by
  have hle := length_nonDirect_le ps
  refine select_start ctx function ns fun r l hselected hnext hlt => ?_
  have hlabels : [n + 1, n + 2] = List.range' (n + 1) (ps.length - n) := by
    rw [hlen, Nat.add_sub_cancel_left]
    rfl
  obtain ⟨r', hselected', -⟩ := hselected.run ⟨[n + 1, n + 2], false⟩ hnext hlabels hlt
  rw [select]
  by_cases hcall : (nonDirect ps).length = n + 1
  · rw [if_pos (by exact_mod_cast hcall), hselected'.take_eq hcall]
  · -- every parameter is passed, and the last one is where it was
    have hall : (nonDirect ps).length = n + 1 + 1 := by omega
    obtain ⟨hvars, -⟩ := hselected'.all (by omega)
    rw [if_neg (by exact_mod_cast hcall), select, if_pos (by exact_mod_cast hall)]
    change Foreign.invokeNnOm ctx function ns (List.take (n + 1 + 1) (Switch.run _ _ l).params) = _
    rw [hvars, List.take_of_length_le (by omega)]

/-! ### The overloads -/

/-- If as many parameters are passed on as there are, none of them is direct. -/
theorem isDirect_of_all {ps : List (ObjectParameter T)} (h : (nonDirect ps).length = ps.length)
    {p : ObjectParameter T} (hp : p ∈ ps) : p.isDirect = false := by
  have hkept := List.length_filter_eq_length_iff.mp h p hp
  simpa using hkept

theorem invokeSingle_eq (p1 : ObjectParameter T) :
    invokeSingle ctx function ns (nonDirect [p1]).length p1 =
      Foreign.invokeNnOm ctx function ns (nonDirect [p1]) := by
  cases h : p1.isDirect with
  | true => simp [invokeSingle, nonDirect, h, Foreign.invokeNnOm, Foreign.invokeNn]
  | false => simp [invokeSingle, nonDirect, h]

/-- The parameter that is passed on alone only matters when there is just one. -/
theorem invokePair_eq {heap p1 p2 : ObjectParameter T}
    (h : p1.isDirect ≠ p2.isDirect → nonDirect [p1, p2] = [heap]) :
    invokePair ctx function ns (nonDirect [p1, p2]).length heap p1 p2 =
      Foreign.invokeNnOm ctx function ns (nonDirect [p1, p2]) := by
  by_cases heq : p1.isDirect = p2.isDirect
  · cases h2 : p2.isDirect with
    | true =>
      simp [invokePair, nonDirect, h2, heq ▸ h2, Foreign.invokeNnOm, Foreign.invokeNn]
    | false =>
      simp [invokePair, nonDirect, h2, heq ▸ h2]
  · rw [h heq]
    rfl

end Row

namespace Invoker

variable (ctx : CallContext pf) (function : BitVec 64)

theorem invokeN3With3_eq (n1 n2 n3 : BitVec 64) (p1 p2 p3 : ObjectParameter T) :
    invokeN3With3 ctx function n1 n2 n3 (nonDirect [p1, p2, p3]).length p1 p2 p3 =
      Foreign.invokeNnOm ctx function [n1, n2, n3] (nonDirect [p1, p2, p3]) := by
  cases h1 : p1.isDirect <;> cases h2 : p2.isDirect <;> cases h3 : p3.isDirect <;>
    simp [invokeN3With3, nonDirect, h1, h2, h3, Foreign.invokeNnOm, Foreign.invokeNn]

theorem invokeN3With1_eq (n1 n2 n3 : BitVec 64) (p1 : ObjectParameter T) :
    invokeN3With1 ctx function n1 n2 n3 (nonDirect [p1]).length p1 =
      Foreign.invokeNnOm ctx function [n1, n2, n3] (nonDirect [p1]) := by
  cases h : p1.isDirect with
  | true => simp [invokeN3With1, nonDirect, h, Foreign.invokeNnOm, Foreign.invokeNn]
  | false => simp [invokeN3With1, nonDirect, h]

theorem invokeN4With3_eq (n1 n2 n3 n4 : BitVec 64) (p1 p2 p3 : ObjectParameter T) :
    invokeN4With3 ctx function n1 n2 n3 n4 (nonDirect [p1, p2, p3]).length p1 p2 p3 =
      Foreign.invokeNnOm ctx function [n1, n2, n3, n4] (nonDirect [p1, p2, p3]) := by
  refine select_start ctx function [n1, n2, n3, n4] (n := 2) fun r l hselected hnext hlt => ?_
  have hcount : (nonDirect [p1, p2, p3]).length = 3 := by
    have hle := length_nonDirect_le [p1, p2, p3]
    exact Nat.le_antisymm hle hlt
  obtain ⟨hvars, rfl⟩ := hselected.all hcount
  have h3 : p3.isDirect = false := isDirect_of_all hcount (by simp)
  have hnext' : l.next = 3 ∧ (!p3.isDirect) = true := ⟨hnext, by rw [h3]; rfl⟩
  rw [select, if_pos hnext', hcount, if_pos (show ((3 : ℕ) : ℤ) = 3 from rfl), hvars,
    List.take_of_length_le (by omega)]

theorem invokeN4With4_eq (n1 n2 n3 n4 : BitVec 64) (p1 p2 p3 p4 : ObjectParameter T) :
    invokeN4With4 ctx function n1 n2 n3 n4 (nonDirect [p1, p2, p3, p4]).length p1 p2 p3 p4 =
      Foreign.invokeNnOm ctx function [n1, n2, n3, n4] (nonDirect [p1, p2, p3, p4]) := by
  refine select_start ctx function [n1, n2, n3, n4] (n := 3) fun r l hselected hnext hlt => ?_
  have hcount : (nonDirect [p1, p2, p3, p4]).length = 4 := by
    have hle := length_nonDirect_le [p1, p2, p3, p4]
    exact Nat.le_antisymm hle hlt
  obtain ⟨hvars, rfl⟩ := hselected.all hcount
  have h4 : p4.isDirect = false := isDirect_of_all hcount (by simp)
  have hnext' : ¬(l.next ≠ 4 ∨ p4.isDirect = true) := by
    rw [h4]
    rintro (h | h)
    · exact h hnext
    · cases h
  rw [select, if_neg hnext', hcount, if_pos (show ((4 : ℕ) : ℤ) = 4 from rfl), hvars,
    List.take_of_length_le (by omega)]

/-- With one direct parameter of two, the conditions with an `else if` select the other one. -/
theorem nonDirect_pair_of_elseIf {p1 p2 : ObjectParameter T} (h : p1.isDirect ≠ p2.isDirect) :
    nonDirect [p1, p2] = [if !p1.isDirect then p1 else if !p2.isDirect then p2 else p1] := by
  cases h1 : p1.isDirect <;> cases h2 : p2.isDirect <;> simp_all [nonDirect]

/-- With one direct parameter of two, the condition with an `else` selects the other one. -/
theorem nonDirect_pair_of_else {p1 p2 : ObjectParameter T} (h : p1.isDirect ≠ p2.isDirect) :
    nonDirect [p1, p2] = [if !p1.isDirect then p1 else p2] := by
  cases h1 : p1.isDirect <;> cases h2 : p2.isDirect <;> simp_all [nonDirect]

/-- **The overloads** pass on the objects of exactly the parameters without an address, in their
order, and the numbers as they are. -/
theorem invokeObjects_eq (ns : List (BitVec 64)) (ps : List (ObjectParameter T))
    (hns : 2 ≤ ns.length ∧ ns.length ≤ 6) (hps : 1 ≤ ps.length ∧ ps.length ≤ ns.length) :
    invokeObjects ctx function ns (nonDirect ps).length ps =
      some (do
        let objects ← (ps.filter fun p => !p.isDirect).mapM ObjectParameter.entry
        .ok ⟨ctx, function, ns, objects⟩) := by
  match ns, ps, hns, hps with
  | [_, _], [p1], _, _ => exact congrArg some (invokeSingle_eq ctx function _ p1)
  | [_, _], [_, _], _, _ =>
    exact congrArg some (invokePair_eq ctx function _ nonDirect_pair_of_elseIf)
  | [_, _], [], _, h => exact absurd h.1 (by simp)
  | [_, _], _ :: _ :: _ :: _, _, h => exact absurd h.2 (by simp)
  | [n1, n2, n3], [p1], _, _ => exact congrArg some (invokeN3With1_eq ctx function n1 n2 n3 p1)
  | [_, _, _], [_, _], _, _ =>
    exact congrArg some (invokePair_eq ctx function _ nonDirect_pair_of_elseIf)
  | [n1, n2, n3], [p1, p2, p3], _, _ =>
    exact congrArg some (invokeN3With3_eq ctx function n1 n2 n3 p1 p2 p3)
  | [_, _, _], [], _, h => exact absurd h.1 (by simp)
  | [_, _, _], _ :: _ :: _ :: _ :: _, _, h => exact absurd h.2 (by simp)
  | [_, _, _, _], [p1], _, _ => exact congrArg some (invokeSingle_eq ctx function _ p1)
  | [_, _, _, _], [_, _], _, _ =>
    exact congrArg some (invokePair_eq ctx function _ nonDirect_pair_of_elseIf)
  | [n1, n2, n3, n4], [p1, p2, p3], _, _ =>
    exact congrArg some (invokeN4With3_eq ctx function n1 n2 n3 n4 p1 p2 p3)
  | [n1, n2, n3, n4], [p1, p2, p3, p4], _, _ =>
    exact congrArg some (invokeN4With4_eq ctx function n1 n2 n3 n4 p1 p2 p3 p4)
  | [_, _, _, _], [], _, h => exact absurd h.1 (by simp)
  | [_, _, _, _], _ :: _ :: _ :: _ :: _ :: _, _, h => exact absurd h.2 (by simp)
  | [_, _, _, _, _], [p1], _, _ => exact congrArg some (invokeSingle_eq ctx function _ p1)
  | [_, _, _, _, _], [_, _], _, _ =>
    exact congrArg some (invokePair_eq ctx function _ nonDirect_pair_of_else)
  | [_, _, _, _, _], [_, _, _], _, _ =>
    exact congrArg some (invokeSwitched_eq_of_own ctx function _ (n := 2) rfl)
  | [_, _, _, _, _], [_, _, _, _], _, _ =>
    exact congrArg some (invokeSwitched_eq_of_last ctx function _ (n := 2) rfl)
  | [_, _, _, _, _], [_, _, _, _, _], _, _ =>
    exact congrArg some (invokeSwitched_eq_of_last ctx function _ (n := 3) rfl)
  | [_, _, _, _, _], [], _, h => exact absurd h.1 (by simp)
  | [_, _, _, _, _], _ :: _ :: _ :: _ :: _ :: _ :: _, _, h => exact absurd h.2 (by simp)
  | [_, _, _, _, _, _], [p1], _, _ => exact congrArg some (invokeSingle_eq ctx function _ p1)
  | [_, _, _, _, _, _], [_, _], _, _ =>
    exact congrArg some (invokePair_eq ctx function _ nonDirect_pair_of_else)
  | [_, _, _, _, _, _], [_, _, _], _, _ =>
    exact congrArg some (invokeSwitched_eq_of_own ctx function _ (n := 2) rfl)
  | [_, _, _, _, _, _], [_, _, _, _], _, _ =>
    exact congrArg some (invokeSwitched_eq_of_last ctx function _ (n := 2) rfl)
  | [_, _, _, _, _, _], [_, _, _, _, _], _, _ =>
    exact congrArg some (invokeSwitched_eq_of_last ctx function _ (n := 3) rfl)
  | [_, _, _, _, _, _], [_, _, _, _, _, _], _, _ =>
    exact congrArg some (invokeSwitched_eq_of_last ctx function _ (n := 4) rfl)
  | [_, _, _, _, _, _], [], _, h => exact absurd h.1 (by simp)
  | [_, _, _, _, _, _], _ :: _ :: _ :: _ :: _ :: _ :: _ :: _, _, h => exact absurd h.2 (by simp)
  | [], _, h, _ => exact absurd h.1 (by simp)
  | [_], _, h, _ => exact absurd h.1 (by simp)
  | _ :: _ :: _ :: _ :: _ :: _ :: _ :: _, _, h, _ => exact absurd h.2 (by simp)

/-- One byte of an array, passed with its address or as an object. -/
def oneByteParameter (isDirect : Bool) (i : BitVec 32) : ObjectParameter (Option Obj) :=
  ⟨some (.array 0), { heapBytes (.create .ARRAY .byte) with isDirect := isDirect },
    .createUntyped i IN⟩

theorem invokeObjects_eq_secondDirect :
    invokeObjects onePointer 0 [1, 2, 3] 2
        [oneByteParameter false 0, oneByteParameter true 1, oneByteParameter false 2] =
      some (.ok ⟨onePointer, 0, [1, 2, 3],
        [⟨some (.array 0), 0x11000001, 0, 1⟩, ⟨some (.array 0), 0x11020001, 0, 1⟩]⟩) :=
  invokeObjects_eq onePointer 0 [1, 2, 3]
    [oneByteParameter false 0, oneByteParameter true 1, oneByteParameter false 2] (by decide)
    (by decide)

end Invoker

end Jffi
