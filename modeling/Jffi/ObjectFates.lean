import Jffi.ArrayFates
import Jffi.FastObjects
import Jffi.Marshalling

/-!
# What becomes of the objects of a call

The two paths resolve the objects of a call by loops of their own, and decide in different places of
the code which objects pass. Here the decisions are written down for each, in the order they are
taken, and the rounds of both loops are shown to follow them. From there on both paths are treated
alike: what the loops share is the list of the arrays acquired, the list of those left to be pinned,
and the state.

## Main definitions

* `genericDecisions`, `fastDecisions` — the decisions of the two paths
* `verdict`, `pinVerdict` — the fate of all objects, and of the arrays that are pinned
* `Follows`, `FollowsPins` — what these fates say of a loop

## Main results

* `objectStep_follows`, `addObj_follows` — a round
* `loop_follows` — a loop whose rounds follow the decisions follows the verdict
* `pinLoop_follows` — pinning
-/

namespace Jffi

open ObjectBuffer

/-! ### Decisions -/

/-- The fate of a direct buffer. -/
def addressFate (o : Obj) : Fate :=
  match o with
  | .buffer a => if a = 0 then .throws else .passes
  | _ => .throws

/-- There is no parameter of that index to pass the pointer to. -/
def Fate.within (f : Fate) (n : ℕ) (e : ObjectEntry) : Fate :=
  match f with
  | .passes => if descriptorIndex e.flags < n then .passes else .undefined
  | f => f

/-- The decisions that a path takes: the fate of an object, whether it calls `malloc` for one that
passes, and whether it leaves it to be pinned. -/
structure Decisions where
  fate : List JavaArray → Bool → ObjectEntry → Fate
  mallocs : ObjectEntry → Bool
  pins : ObjectEntry → Bool

/-- The fate of an array in a call of a function of `n` parameters. -/
def arrayFate (n : ℕ) (heap : List JavaArray) (fails : Bool) (e : ObjectEntry) : Fate :=
  match e.object with
  | none => .throws
  | some _ =>
    if isPinned e.flags then Fate.within .passes n e
    else if e.length.toInt < MAX_STACK_ARRAY then (stackFate heap e).within n e
    else (heapFate heap fails e).within n e

/-- The fate of an `nio` buffer. -/
def bufferFate (n : ℕ) (e : ObjectEntry) : Fate :=
  match e.object with
  | none => .throws
  | some o => (addressFate o).within n e

/-- The decisions of `invokeArrayWithObjects_` for a function of `n` parameters. -/
def genericDecisions (n : ℕ) : Decisions where
  fate heap fails e :=
    match decodeKind e.flags with
    | .array => arrayFate n heap fails e
    | .buffer => bufferFate n e
    | .jniEnvironment | .jniObject => Fate.within .passes n e
    | .unsupported => .throws
  mallocs e := decodeKind e.flags = .array ∧ isPinned e.flags = false ∧
    ¬e.length.toInt < MAX_STACK_ARRAY
  pins e := decodeKind e.flags = .array ∧ isPinned e.flags = true

/-- The decisions of the entry points of `n` numbers. -/
def fastDecisions (n : ℕ) : Decisions where
  fate heap fails e :=
    if n - 1 < descriptorIndex e.flags then .throws
    else if isUnpinnedArray e.flags = true ∧ e.length.toInt < MAX_STACK_ARRAY then stackFate heap e
    else
      match e.object with
      | none => .throws
      | some o =>
        if isPinnedArray e.flags then .passes
        else if isArray e.flags then heapFate heap fails e
        else if isBuffer e.flags then addressFate o
        else .throws
  mallocs e := ¬n - 1 < descriptorIndex e.flags ∧
    ¬(isUnpinnedArray e.flags = true ∧ e.length.toInt < MAX_STACK_ARRAY) ∧
    isPinnedArray e.flags = false ∧ isArray e.flags = true
  pins e := isPinnedArray e.flags

/-- The fate of all objects: that of the first one that does not pass. -/
def verdict (d : Decisions) (jvm : Jvm) (heap : List JavaArray) : ℕ → List ObjectEntry → Fate
  | _, [] => .passes
  | n, e :: es =>
    match d.fate heap (jvm.mallocFails n) e with
    | .passes => verdict d jvm heap (if d.mallocs e then n + 1 else n) es
    | f => f

/-- What is recorded of an array to be pinned. -/
def ObjectEntry.pinned (e : ObjectEntry) : Pinned :=
  ⟨e.object, e.offset.toInt, e.length.toInt, e.flags⟩

/-- The arrays that are left to be pinned. -/
def Decisions.pinnedOf (d : Decisions) (objects : List ObjectEntry) : List Pinned :=
  (objects.filter d.pins).map ObjectEntry.pinned

/-- The fate of an array that is pinned by the `n`-th call of `GetPrimitiveArrayCritical`. -/
def pinFate (jvm : Jvm) (heap : List JavaArray) (n : ℕ) (p : Pinned) : Fate :=
  match p.object with
  | some (.array r) =>
    if r < heap.length then if jvm.pinFails n = true then .throws else .passes else .undefined
  | _ => .undefined

/-- The fate of all arrays that are pinned. -/
def pinVerdict (jvm : Jvm) (heap : List JavaArray) : ℕ → List Pinned → Fate
  | _, [] => .passes
  | n, p :: ps =>
    match pinFate jvm heap n p with
    | .passes => pinVerdict jvm heap (n + 1) ps
    | f => f

/-! ### What the loops share -/

/-- The local variables that both paths have. -/
structure Holdings where
  arrays : List NativeArray
  pinned : List Pinned
  native : Native

def ObjectLoop.holdings (l : ObjectLoop) : Holdings := ⟨l.arrays, l.pinned, l.native⟩

def FastLoop.holdings (l : FastLoop) : Holdings := ⟨l.arrays, l.pinned, l.native⟩

namespace Holdings

/-- Copies were made of some of the objects, and the blocks `lost` acquired besides. -/
def Gains (objects : List ObjectEntry) (lost : List ℕ) (h h' : Holdings) : Prop :=
  ∃ new, h'.arrays = h.arrays ++ new ∧ Acquires h.native new lost h'.native ∧
    ∀ a ∈ new, ∃ e ∈ objects, a.IsCopy e

/-- The objects were resolved: the copies have been acquired, and the arrays that are to be pinned
are listed. -/
structure Passes (d : Decisions) (objects : List ObjectEntry) (h h' : Holdings) : Prop where
  gains : h.Gains objects [] h'
  pinned_eq : h'.pinned = h.pinned ++ d.pinnedOf objects
  pending_eq : h'.native.pending = h.native.pending
  mallocs_eq : h'.native.mallocs = h.native.mallocs + objects.countP d.mallocs
  pins_eq : h'.native.pins = h.native.pins

variable {d : Decisions} {h h₁ h₂ h₃ : Holdings} {objects objects' : List ObjectEntry}
  {lost : List ℕ}

theorem Gains.trans (hg : h₁.Gains objects [] h₂) (hg' : h₂.Gains objects' lost h₃) :
    h₁.Gains (objects ++ objects') lost h₃ := by
  obtain ⟨new, harrays, hacq, hcopy⟩ := hg
  obtain ⟨new', harrays', hacq', hcopy'⟩ := hg'
  refine ⟨new ++ new', by rw [harrays', harrays, List.append_assoc], hacq.trans hacq', ?_⟩
  intro a ha
  rcases List.mem_append.mp ha with ha | ha
  · obtain ⟨e, he, hae⟩ := hcopy a ha
    exact ⟨e, List.mem_append_left _ he, hae⟩
  · obtain ⟨e, he, hae⟩ := hcopy' a ha
    exact ⟨e, List.mem_append_right _ he, hae⟩

theorem Gains.mono (hg : h₁.Gains objects lost h₂) (hsub : ∀ e ∈ objects, e ∈ objects') :
    h₁.Gains objects' lost h₂ := by
  obtain ⟨new, harrays, hacq, hcopy⟩ := hg
  refine ⟨new, harrays, hacq, fun a ha => ?_⟩
  obtain ⟨e, he, hae⟩ := hcopy a ha
  exact ⟨e, hsub e he, hae⟩

theorem Passes.refl (d : Decisions) (h : Holdings) : h.Passes d [] h where
  gains := ⟨[], (List.append_nil _).symm, .refl _, fun _ ha => absurd ha List.not_mem_nil⟩
  pinned_eq := (List.append_nil _).symm
  pending_eq := rfl
  mallocs_eq := rfl
  pins_eq := rfl

theorem Passes.trans (hp : h₁.Passes d objects h₂) (hp' : h₂.Passes d objects' h₃) :
    h₁.Passes d (objects ++ objects') h₃ where
  gains := hp.gains.trans hp'.gains
  pinned_eq := by
    rw [hp'.pinned_eq, hp.pinned_eq, List.append_assoc, Decisions.pinnedOf, Decisions.pinnedOf,
      Decisions.pinnedOf, List.filter_append, List.map_append]
  pending_eq := hp'.pending_eq.trans hp.pending_eq
  mallocs_eq := by
    rw [hp'.mallocs_eq, hp.mallocs_eq, List.countP_append, Nat.add_assoc]
  pins_eq := hp'.pins_eq.trans hp.pins_eq

end Holdings

/-! ### A loop that follows the decisions -/

section Follows

variable {β : Type} {d : Decisions} {jvm : Jvm} (view : β → Holdings) (I : β → Prop)

/-- What the fate of some objects says of the rounds for them, which keep the invariant `I`. -/
def Follows (d : Decisions) (objects : List ObjectEntry) (l : β) (o : Option (Flow β)) :
    Fate → Prop
  | .passes => ∃ l', o = some (.next l') ∧ I l' ∧ (view l).Passes d objects (view l')
  | .throws => ∃ l', o = some (.cleanup l') ∧ (view l).Gains objects [] (view l') ∧
      (view l').native.pending.isSome = true
  | .leaks => ∃ l' b, o = some (.cleanup l') ∧ (view l).Gains objects [b] (view l') ∧
      (view l').native.pending.isSome = true
  | .undefined => o = none

variable {view I}

theorem Follows.after {objects objects' : List ObjectEntry} {l l' : β} {o : Option (Flow β)}
    (hp : (view l).Passes d objects (view l')) {f : Fate} (h : Follows view I d objects' l' o f) :
    Follows view I d (objects ++ objects') l o f := by
  cases f with
  | passes =>
    obtain ⟨l'', ho, hI, hp'⟩ := h
    exact ⟨l'', ho, hI, hp.trans hp'⟩
  | throws =>
    obtain ⟨l'', ho, hg, hpending⟩ := h
    exact ⟨l'', ho, hp.gains.trans hg, hpending⟩
  | leaks =>
    obtain ⟨l'', b, ho, hg, hpending⟩ := h
    exact ⟨l'', b, ho, hp.gains.trans hg, hpending⟩
  | undefined => exact h

/-- When each round follows the decision on its object, the whole loop follows the verdict on all
objects. -/
theorem loop_follows {step : ObjectEntry → β → Option (Flow β)}
    (hstep : ∀ e l, I l → (view l).native.pending = none →
      Follows view I d [e] l (step e l)
        (d.fate (view l).native.arrays (jvm.mallocFails (view l).native.mallocs) e))
    (objects : List ObjectEntry) {l : β} (hI : I l) (hpending : (view l).native.pending = none) :
    Follows view I d objects l (loopM step objects l)
      (verdict d jvm (view l).native.arrays (view l).native.mallocs objects) := by
  induction objects generalizing l with
  | nil => exact ⟨l, rfl, hI, .refl d _⟩
  | cons e objects ih =>
    have hround := hstep e l hI hpending
    have hhead : ∀ e' ∈ [e], e' ∈ e :: objects := by
      intro e' he'
      exact List.mem_cons.mpr (.inl (List.mem_singleton.mp he'))
    rw [verdict, loopM]
    revert hround
    cases d.fate (view l).native.arrays (jvm.mallocFails (view l).native.mallocs) e with
    | passes =>
      rintro ⟨l', ho, hI', hp⟩
      have hrest := ih hI' (hp.pending_eq.trans hpending)
      obtain ⟨new, -, hacq, -⟩ := hp.gains
      have hmallocs : (view l').native.mallocs =
          if d.mallocs e = true then (view l).native.mallocs + 1 else (view l).native.mallocs := by
        rw [hp.mallocs_eq, List.countP_singleton]
        split <;> rfl
      rw [hacq.arrays_eq, hmallocs] at hrest
      rw [ho]
      exact hrest.after hp
    | throws =>
      rintro ⟨l', ho, hg, hthrown⟩
      rw [ho]
      exact ⟨l', rfl, hg.mono hhead, hthrown⟩
    | leaks =>
      rintro ⟨l', b, ho, hg, hthrown⟩
      rw [ho]
      exact ⟨l', b, rfl, hg.mono hhead, hthrown⟩
    | undefined =>
      intro ho
      rw [show step e l = none from ho]
      rfl

end Follows

/-! ### The rounds of the generic path -/

/-- The places of all parameters are as `COPY_ARGS` left them, up to the pointers passed. -/
def WellFramed (ctx : NativeCallContext) (f : Frame) : Prop :=
  ∀ k t, ctx.cif.argTypes[k]? = some t → Untouched ctx k f

section Generic

variable {pf : Platform} {jvm : Jvm} {ctx : NativeCallContext} {e : ObjectEntry} {l : ObjectLoop}

/-- A round that has found its pointer and its parameter sets an argument, and the frame keeps its
shape. -/
theorem setArg_wellFramed (h : WellFramed ctx l.frame) {k : ℕ} (hk : k < ctx.cif.argTypes.length)
    (ptr : Ptr) :
    ∃ f, setArg pf ctx k ptr l = some (.next { l with frame := f }) ∧ WellFramed ctx f := by
  have ht : ctx.cif.argTypes[k]? = some ctx.cif.argTypes[k] := List.getElem?_eq_getElem hk
  obtain ⟨l', hset, hpasses, hothers, hnative, harrays⟩ := setArg_spec pf ht (h k _ ht) ptr
  refine ⟨l'.frame, ?_, fun i t hi => ?_⟩
  · obtain ⟨frame', arrays', pinned', native'⟩ := l'
    cases hnative
    cases harrays
    cases hothers.pinned_eq
    exact hset
  · have hold := h i t hi
    refine ⟨hothers.ffiArgs_length ▸ hold.lt, hothers.tmpBuffer_length ▸ hold.room, fun htype => ?_⟩
    by_cases hik : i = k
    · subst hik
      exact (hpasses.1 (Option.some.inj (ht.symm.trans htype))).1
    · rw [hothers.args i hik]
      exact hold.slot htype

/-- A pointer for a parameter that is not there cannot be passed. -/
theorem setArg_outside {k : ℕ} (hk : ctx.cif.argTypes.length ≤ k) (ptr : Ptr) :
    setArg pf ctx k ptr l = none := by
  rw [setArg, List.getElem?_eq_none hk]
  rfl

/-- **A pointer that cost nothing**, besides calls into the virtual machine. -/
theorem setArg_follows {d : Decisions} (h : WellFramed ctx l.frame) (hmallocs : d.mallocs e = false)
    {s : Native} {pinned : List Pinned} (hacq : Acquires l.native [] [] s)
    (hpinned : pinned = d.pinnedOf [e]) (hpending : s.pending = l.native.pending)
    (hm : s.mallocs = l.native.mallocs) (hp : s.pins = l.native.pins) (ptr : Ptr) :
    Follows ObjectLoop.holdings (fun l => WellFramed ctx l.frame) d [e] l
      (setArg pf ctx (descriptorIndex e.flags) ptr
        { l with pinned := l.pinned ++ pinned, native := s })
      (Fate.within .passes ctx.cif.argTypes.length e) := by
  rw [Fate.within]
  by_cases hk : descriptorIndex e.flags < ctx.cif.argTypes.length
  · rw [if_pos hk]
    obtain ⟨f, hset, hf⟩ := @setArg_wellFramed pf ctx
      { l with pinned := l.pinned ++ pinned, native := s } h _ hk ptr
    refine ⟨_, hset, hf, ⟨⟨[], (List.append_nil _).symm, hacq, ?_⟩, ?_, hpending, ?_, hp⟩⟩
    · exact fun a ha => absurd ha List.not_mem_nil
    · rw [← hpinned]
      rfl
    · rw [List.countP_singleton, hmallocs]
      exact hm
  · rw [if_neg hk]
    exact setArg_outside (Nat.not_lt.mp hk) ptr

/-- A round that acquires a copied array follows the fate of the acquisition, and adds the array to
those to be given back. -/
theorem addArray_follows {d : Decisions} (h : WellFramed ctx l.frame) {n : ℕ}
    (hn : n = l.native.mallocs + [e].countP d.mallocs) (hpins : d.pins e = false)
    {o : Option (Option NativeArray × Native)} {f : Fate} (ho : Obtains l.native e n o f) :
    Follows ObjectLoop.holdings (fun l => WellFramed ctx l.frame) d [e] l
      (o.bind (addArray pf ctx (descriptorIndex e.flags) l))
      (f.within ctx.cif.argTypes.length e) := by
  cases f with
  | undefined =>
    rw [show o = none from ho]
    rfl
  | throws =>
    obtain ⟨s, rfl, hacq, hthrown⟩ := ho
    exact ⟨_, rfl, ⟨[], (List.append_nil _).symm, hacq, fun a ha => absurd ha List.not_mem_nil⟩,
      hthrown⟩
  | leaks =>
    obtain ⟨s, b, rfl, hacq, hthrown⟩ := ho
    exact ⟨_, b, rfl,
      ⟨[], (List.append_nil _).symm, hacq, fun a ha => absurd ha List.not_mem_nil⟩, hthrown⟩
  | passes =>
    obtain ⟨a, s, rfl, hcopy, -, hacq, hpending, hm, hp⟩ := ho
    rw [Fate.within]
    by_cases hk : descriptorIndex e.flags < ctx.cif.argTypes.length
    · rw [if_pos hk]
      obtain ⟨f, hset, hf⟩ := @setArg_wellFramed pf ctx
        { l with arrays := l.arrays ++ [a], native := s } h _ hk a.elems
      refine ⟨_, hset, hf, ⟨⟨[a], rfl, hacq, ?_⟩, ?_, hpending, hm.trans hn, hp⟩⟩
      · intro a' ha'
        rw [List.mem_singleton.mp ha']
        exact ⟨e, List.mem_singleton_self e, hcopy⟩
      · rw [Decisions.pinnedOf, List.filter_singleton, hpins]
        exact (List.append_nil _).symm
    · rw [if_neg hk]
      exact setArg_outside (Nat.not_lt.mp hk) a.elems

/-- A round that throws an exception, having acquired nothing, follows the decision to throw. -/
theorem throw_follows (d : Decisions) (l : ObjectLoop) {s : Native}
    (hacq : Acquires l.native [] [] s)
    (x : Exn) (f : Fate) (hf : f = .throws) :
    Follows ObjectLoop.holdings (fun l => WellFramed ctx l.frame) d [e] l
      (ObjectLoop.throw { l with native := s } x) f := by
  subst hf
  refine ⟨_, rfl, ⟨[], (List.append_nil _).symm, ?_, fun a ha => absurd ha List.not_mem_nil⟩, rfl⟩
  exact hacq.trans (.throw s x)

theorem genericDecisions_notArray {n : ℕ} (hkind : decodeKind e.flags ≠ .array) :
    (genericDecisions n).mallocs e = false ∧ (genericDecisions n).pinnedOf [e] = [] := by
  simp [genericDecisions, hkind, Decisions.pinnedOf]

/-- The round for an array of the generic path follows the decision on arrays. -/
theorem arrayStep_follows (h : WellFramed ctx l.frame) (hpending : l.native.pending = none)
    (hkind : decodeKind e.flags = .array) :
    Follows ObjectLoop.holdings (fun l => WellFramed ctx l.frame)
      (genericDecisions ctx.cif.argTypes.length) [e] l (arrayStep pf jvm ctx e l)
      (arrayFate ctx.cif.argTypes.length l.native.arrays (jvm.mallocFails l.native.mallocs) e) := by
  rw [arrayStep, arrayFate]
  cases ho : e.object with
  | none => exact throw_follows _ l (.refl _) _ _ rfl
  | some o =>
    dsimp only
    by_cases hpinned : isPinned e.flags = true
    · have hmallocs : (genericDecisions ctx.cif.argTypes.length).mallocs e = false := by
        simp [genericDecisions, hpinned]
      have hpins : [e.pinned] = (genericDecisions ctx.cif.argTypes.length).pinnedOf [e] := by
        simp [genericDecisions, hpinned, hkind, Decisions.pinnedOf]
      rw [if_pos hpinned, if_pos hpinned, ← ho]
      exact setArg_follows h hmallocs (.refl _) hpins rfl rfl rfl _
    · have hnot : isPinned e.flags = false := by simpa using hpinned
      have hpins : (genericDecisions ctx.cif.argTypes.length).pins e = false := by
        simp [genericDecisions, hnot]
      rw [if_neg hpinned, if_neg hpinned, ← ho]
      by_cases hshort : e.length.toInt < MAX_STACK_ARRAY
      · rw [if_pos hshort, if_pos hshort]
        have hcount : l.native.mallocs = l.native.mallocs +
            [e].countP (genericDecisions ctx.cif.argTypes.length).mallocs := by
          simp [genericDecisions, hshort]
        have hcopy := @addArray_follows pf ctx e l _ h _ hcount hpins _ _
          (stackCopy_fate pf hnot hpending)
        rw [Option.bind_assoc] at hcopy
        exact hcopy
      · rw [if_neg hshort, if_neg hshort]
        exact addArray_follows h (by simp [genericDecisions, hshort, hkind, hnot]) hpins
          (heapCopy_fate pf jvm hnot hpending)

/-- The round for an `nio` buffer of the generic path follows the decision on buffers. -/
theorem bufferStep_follows (h : WellFramed ctx l.frame) (hkind : decodeKind e.flags = .buffer) :
    Follows ObjectLoop.holdings (fun l => WellFramed ctx l.frame)
      (genericDecisions ctx.cif.argTypes.length) [e] l (bufferStep pf ctx e l)
      (bufferFate ctx.cif.argTypes.length e) := by
  obtain ⟨hmallocs, hpins⟩ := @genericDecisions_notArray e ctx.cif.argTypes.length
    (by rw [hkind]; decide)
  have hlogged : Acquires l.native [] [] (l.native.logged (.jni .getDirectBufferAddress)) :=
    .of_onlyJni (onlyJni_singleton _) rfl rfl rfl rfl rfl List.prefix_rfl
  rw [bufferStep, bufferFate]
  cases ho : e.object with
  | none => exact throw_follows _ l (.refl _) _ _ rfl
  | some o =>
    cases o with
    | buffer a =>
      simp only [Native.getDirectBufferAddress, Option.bind_eq_bind, Option.bind_some, addressFate]
      by_cases ha : a = 0
      · rw [if_pos ha, if_pos (congrArg Ptr.addr ha)]
        exact throw_follows _ l hlogged _ _ rfl
      · rw [if_neg ha, if_neg fun h => ha (Ptr.addr.inj h)]
        have hset := @setArg_follows pf ctx e l _ h hmallocs _ [] hlogged hpins.symm rfl rfl rfl
          ((Ptr.addr a).add pf e.offset.toInt)
        rw [List.append_nil] at hset
        exact hset
    | array r => exact throw_follows _ l hlogged _ _ rfl
    | other r => exact throw_follows _ l hlogged _ _ rfl

/-- Each round of the object loop on the generic path follows the decision on its object. -/
theorem objectStep_follows (h : WellFramed ctx l.frame) (hpending : l.native.pending = none) :
    Follows ObjectLoop.holdings (fun l => WellFramed ctx l.frame)
      (genericDecisions ctx.cif.argTypes.length) [e] l (objectStep pf jvm ctx e l)
      ((genericDecisions ctx.cif.argTypes.length).fate l.native.arrays
        (jvm.mallocFails l.native.mallocs) e) := by
  have hpassed : ∀ (hkind : decodeKind e.flags ≠ .array) (ptr : Ptr),
      Follows ObjectLoop.holdings (fun l => WellFramed ctx l.frame)
        (genericDecisions ctx.cif.argTypes.length) [e] l
        (setArg pf ctx (descriptorIndex e.flags) ptr l)
        (Fate.within .passes ctx.cif.argTypes.length e) := by
    intro hkind ptr
    obtain ⟨hmallocs, hpins⟩ := @genericDecisions_notArray e ctx.cif.argTypes.length hkind
    have hset := @setArg_follows pf ctx e l _ h hmallocs l.native [] (.refl _) hpins.symm rfl rfl
      rfl ptr
    rw [List.append_nil] at hset
    exact hset
  change Follows _ _ _ _ _ _ (match decodeKind e.flags with
    | .array => _
    | .buffer => _
    | .jniEnvironment => _
    | .jniObject => _
    | .unsupported => _)
  rw [objectStep]
  cases hkind : decodeKind e.flags with
  | array => exact arrayStep_follows h hpending hkind
  | buffer => exact bufferStep_follows h hkind
  | jniEnvironment => exact hpassed (by rw [hkind]; decide) .env
  | jniObject => exact hpassed (by rw [hkind]; decide) (handleOf e.object)
  | unsupported => exact throw_follows _ l (.refl _) _ _ rfl

end Generic

/-! ### The rounds of the fast path -/

section Fast

variable {pf : Platform} {jvm : Jvm} {n : ℕ} {e : ObjectEntry} {l : FastLoop}

/-- On the fast path nothing can go wrong with `v[]`, so a round that acquires an array follows the
fate of the acquisition. -/
theorem fastAddArray_follows {d : Decisions} {m : ℕ}
    (hm : m = l.native.mallocs + [e].countP d.mallocs) (hpins : d.pins e = false)
    {o : Option (Option NativeArray × Native)} {f : Fate} (ho : Obtains l.native e m o f) :
    Follows FastLoop.holdings (fun _ => True) d [e] l
      (o.bind fun acquired => some (l.addArray pf (descriptorIndex e.flags) acquired)) f := by
  cases f with
  | undefined =>
    rw [show o = none from ho]
    rfl
  | throws =>
    obtain ⟨s, rfl, hacq, hthrown⟩ := ho
    exact ⟨_, rfl, ⟨[], (List.append_nil _).symm, hacq, fun a ha => absurd ha List.not_mem_nil⟩,
      hthrown⟩
  | leaks =>
    obtain ⟨s, b, rfl, hacq, hthrown⟩ := ho
    exact ⟨_, b, rfl,
      ⟨[], (List.append_nil _).symm, hacq, fun a ha => absurd ha List.not_mem_nil⟩, hthrown⟩
  | passes =>
    obtain ⟨a, s, rfl, hcopy, -, hacq, hpending, hmallocs, hp⟩ := ho
    refine ⟨_, rfl, trivial, ⟨⟨[a], rfl, hacq, ?_⟩, ?_, hpending, hmallocs.trans hm, hp⟩⟩
    · intro a' ha'
      rw [List.mem_singleton.mp ha']
      exact ⟨e, List.mem_singleton_self e, hcopy⟩
    · rw [Decisions.pinnedOf, List.filter_singleton, hpins]
      exact (List.append_nil _).symm

theorem fastThrow_follows (d : Decisions) (l : FastLoop) {s : Native}
    (hacq : Acquires l.native [] [] s) (x : Exn) :
    Follows FastLoop.holdings (fun _ => True) d [e] l (FastLoop.throw { l with native := s } x)
      .throws := by
  refine ⟨_, rfl, ⟨[], (List.append_nil _).symm, ?_, fun a ha => absurd ha List.not_mem_nil⟩, rfl⟩
  exact hacq.trans (.throw s x)

theorem fastPass_follows {d : Decisions} (hmallocs : d.mallocs e = false) {s : Native}
    {pinned : List Pinned} (hacq : Acquires l.native [] [] s) (hpinned : pinned = d.pinnedOf [e])
    (hpending : s.pending = l.native.pending) (hm : s.mallocs = l.native.mallocs)
    (hp : s.pins = l.native.pins) (v : List (List Cell)) :
    Follows FastLoop.holdings (fun _ => True) d [e] l
      (some (.next ⟨v, l.arrays, l.pinned ++ pinned, s⟩)) .passes := by
  refine ⟨_, rfl, trivial, ⟨⟨[], (List.append_nil _).symm, hacq, ?_⟩, ?_, hpending, ?_, hp⟩⟩
  · exact fun a ha => absurd ha List.not_mem_nil
  · rw [← hpinned]
    rfl
  · rw [List.countP_singleton, hmallocs]
    exact hm

theorem isPinned_of_isUnpinnedArray (h : isUnpinnedArray e.flags = true) :
    isPinned e.flags = false := by
  have heq : e.flags &&& (ARRAY ||| PINNED) = ARRAY := beq_iff_eq.mp h
  have hand : e.flags &&& PINNED = 0 := by
    calc e.flags &&& PINNED = e.flags &&& ((ARRAY ||| PINNED) &&& PINNED) := rfl
      _ = 0 := by rw [← BitVec.and_assoc, heq]; rfl
  rw [isPinned, hand]
  rfl

/-- The bits of the kind can be read one by one, with any mask that lies under that of the kinds. -/
theorem and_kind {flags kind m : BitVec 32} (h : flags &&& TYPE_MASK &&& ~~~PRIM_MASK = kind)
    (hm : TYPE_MASK &&& (~~~PRIM_MASK &&& m) = m) : flags &&& m = kind &&& m := by
  rw [← h, BitVec.and_assoc, BitVec.and_assoc, hm]

/-- The descriptor of an array has one more bit to look at. -/
theorem isPinnedArray_eq (h : isArray e.flags = true) :
    isPinnedArray e.flags = isPinned e.flags ∧ isUnpinnedArray e.flags = !isPinned e.flags := by
  have hbit := @and_kind _ _ ARRAY (beq_iff_eq.mp h) (by decide)
  have hpinned : e.flags &&& PINNED = if e.flags.getLsbD 3 then PINNED else 0 :=
    BitVec.and_twoPow e.flags 3
  rw [isPinnedArray, isUnpinnedArray, isPinned, BitVec.and_or_distrib_left, hbit, hpinned]
  cases e.flags.getLsbD 3 with
  | true => exact ⟨rfl, rfl⟩
  | false => exact ⟨rfl, rfl⟩

/-- What `object_to_ptr` does with an object that is not copied to the stack follows the decision of
the fast path. -/
theorem objectToPtr_follows (hpending : l.native.pending = none)
    (hidx : ¬n - 1 < descriptorIndex e.flags)
    (hshort : ¬(isUnpinnedArray e.flags = true ∧ e.length.toInt < MAX_STACK_ARRAY)) :
    Follows FastLoop.holdings (fun _ => True) (fastDecisions n) [e] l (objectToPtr pf jvm e l)
      (match e.object with
      | none => .throws
      | some o =>
        if isPinnedArray e.flags then .passes
        else if isArray e.flags then heapFate l.native.arrays (jvm.mallocFails l.native.mallocs) e
        else if isBuffer e.flags then addressFate o
        else .throws) := by
  have hlogged : Acquires l.native [] [] (l.native.logged (.jni .getDirectBufferAddress)) :=
    .of_onlyJni (onlyJni_singleton _) rfl rfl rfl rfl rfl List.prefix_rfl
  rw [objectToPtr]
  cases ho : e.object with
  | none => exact fastThrow_follows _ l (.refl _) _
  | some o =>
    dsimp only
    by_cases hpinned : isPinnedArray e.flags = true
    · rw [if_pos hpinned, if_pos hpinned, ← ho]
      have hpins : [e.pinned] = (fastDecisions n).pinnedOf [e] := by
        simp [fastDecisions, hpinned, Decisions.pinnedOf]
      exact fastPass_follows (by simp [fastDecisions, hpinned]) (.refl _) hpins rfl rfl rfl _
    rw [if_neg hpinned, if_neg hpinned, ← ho]
    have hnot : isPinnedArray e.flags = false := by simpa using hpinned
    have hpins : (fastDecisions n).pins e = false := hnot
    by_cases harray : isArray e.flags = true
    · rw [if_pos harray, if_pos harray]
      have hcount : l.native.mallocs + 1 = l.native.mallocs +
          [e].countP (fastDecisions n).mallocs := by
        rw [List.countP_singleton, if_pos]
        simp only [fastDecisions, decide_eq_true_eq]
        exact ⟨hidx, hshort, hnot, harray⟩
      exact fastAddArray_follows hcount hpins
        (heapCopy_fate pf jvm ((isPinnedArray_eq harray).1.symm.trans hnot) hpending)
    rw [if_neg harray, if_neg harray]
    by_cases hbuffer : isBuffer e.flags = true
    · rw [if_pos hbuffer, if_pos hbuffer, ho]
      have hmallocs : (fastDecisions n).mallocs e = false := by
        simp [fastDecisions, harray]
      have hnone : [] = (fastDecisions n).pinnedOf [e] := by
        simp [Decisions.pinnedOf, hpins]
      cases o with
      | buffer a =>
        simp only [Native.getDirectBufferAddress, Option.bind_eq_bind, Option.bind_some,
          addressFate]
        by_cases ha : a = 0
        · rw [if_pos ha, if_pos (congrArg Ptr.addr ha)]
          exact fastThrow_follows _ l hlogged _
        · rw [if_neg ha, if_neg fun h => ha (Ptr.addr.inj h)]
          have hpass := @fastPass_follows e l _ hmallocs _ [] hlogged hnone rfl rfl rfl
            (l.v.set (descriptorIndex e.flags) (p2j pf ((Ptr.addr a).add pf e.offset.toInt)))
          rw [List.append_nil] at hpass
          exact hpass
      | array r => exact fastThrow_follows _ l hlogged _
      | other r => exact fastThrow_follows _ l hlogged _
    · rw [if_neg hbuffer, if_neg hbuffer]
      exact fastThrow_follows _ l (.refl _) _

/-- Each round of `ADDOBJ` follows the decision of the fast path on its object. -/
theorem addObj_follows (hpending : l.native.pending = none) :
    Follows FastLoop.holdings (fun _ => True) (fastDecisions n) [e] l (addObj pf jvm n e l)
      ((fastDecisions n).fate l.native.arrays (jvm.mallocFails l.native.mallocs) e) := by
  change Follows _ _ _ _ _ _ (if _ then _ else if _ then _ else _)
  rw [addObj]
  dsimp only
  by_cases hidx : n - 1 < descriptorIndex e.flags
  · rw [if_pos hidx, if_pos hidx]
    exact fastThrow_follows _ l (.refl _) _
  rw [if_neg hidx, if_neg hidx]
  by_cases hshort : isUnpinnedArray e.flags = true ∧ e.length.toInt < MAX_STACK_ARRAY
  · rw [if_pos hshort, if_pos hshort]
    have hnot := isPinned_of_isUnpinnedArray hshort.1
    have hcount : l.native.mallocs = l.native.mallocs + [e].countP (fastDecisions n).mallocs := by
      simp only [fastDecisions, hshort, List.countP_singleton]
      simp
    have hpins : (fastDecisions n).pins e = false := by
      have heq : e.flags &&& (ARRAY ||| PINNED) = ARRAY := beq_iff_eq.mp hshort.1
      simp only [fastDecisions, isPinnedArray, heq]
      decide
    have hcopy := @fastAddArray_follows pf e l _ _ hcount hpins _ _
      (stackCopy_fate pf hnot hpending)
    rw [Option.bind_assoc] at hcopy
    exact hcopy
  · rw [if_neg hshort, if_neg hshort]
    exact objectToPtr_follows hpending hidx hshort

end Fast

/-! ### Pinning -/

/-- An array that is pinned, and not copied back. -/
structure NativeArray.Critical (a : NativeArray) : Prop where
  array : ∃ r, a.array = some (.array r)
  release : a.release = some .criticalArray
  copyout : a.copyout = none

/-- The successful calls of `GetPrimitiveArrayCritical` for some arrays. -/
def pinEvents (new : List NativeArray) : List Event :=
  (new.filterMap NativeArray.pinnedRef).map .pin

theorem pinEvents_append (new new' : List NativeArray) :
    pinEvents (new ++ new') = pinEvents new ++ pinEvents new' := by
  rw [pinEvents, List.filterMap_append, List.map_append]
  rfl

/-- The arrays `new` were pinned, and then nothing happened but `tail`. -/
structure Holdings.Pins (new : List NativeArray) (tail : List Event) (h h' : Holdings) : Prop where
  arrays_eq : h'.arrays = h.arrays ++ new
  critical : ∀ a ∈ new, a.Critical
  heap_eq : h'.native.arrays = h.native.arrays
  ext_eq : h'.native.ext = h.native.ext
  errors_eq : h'.native.errors = h.native.errors
  lastError_eq : h'.native.lastError = h.native.lastError
  blocks_eq : h'.native.blocks = h.native.blocks
  log_eq : h'.native.log = h.native.log ++ (pinEvents new ++ tail)

theorem Holdings.Pins.trans {h₁ h₂ h₃ : Holdings} {new new' : List NativeArray} {tail : List Event}
    (h : h₁.Pins new [] h₂) (h' : h₂.Pins new' tail h₃) : h₁.Pins (new ++ new') tail h₃ where
  arrays_eq := by rw [h'.arrays_eq, h.arrays_eq, List.append_assoc]
  critical a ha := by
    rcases List.mem_append.mp ha with ha | ha
    · exact h.critical a ha
    · exact h'.critical a ha
  heap_eq := h'.heap_eq.trans h.heap_eq
  ext_eq := h'.ext_eq.trans h.ext_eq
  errors_eq := h'.errors_eq.trans h.errors_eq
  lastError_eq := h'.lastError_eq.trans h.lastError_eq
  blocks_eq := h'.blocks_eq.trans h.blocks_eq
  log_eq := by
    rw [h'.log_eq, h.log_eq, pinEvents_append, List.append_nil, List.append_assoc,
      List.append_assoc]

section Pinning

variable {β : Type} {jvm : Jvm} (view : β → Holdings) (I : β → Prop)

/-- What the fate of `n` arrays to be pinned says of the rounds for them. An exception ends them
with two calls into the virtual machine, the one that has failed and `ExceptionCheck`. -/
def FollowsPins (jvm : Jvm) (n : ℕ) (l : β) (o : Option (Flow β)) : Fate → Prop
  | .passes => ∃ l' new, o = some (.next l') ∧ I l' ∧ (view l).Pins new [] (view l') ∧
      new.length = n ∧ (view l').native.pending = (view l).native.pending ∧
      (view l').native.pins = (view l).native.pins + n
  | .throws => ∃ l' new tr, o = some (.cleanup l') ∧
      (view l).Pins new (.jni .getPrimitiveArrayCritical :: .jni .exceptionCheck :: tr) (view l') ∧
      OnlyJni tr ∧ (view l').native.pending.isSome = true ∧
      (new = [] ↔ jvm.pinFails (view l).native.pins = true)
  | .leaks => False
  | .undefined => o = none

variable {view I}

theorem pinFails_of_passes {heap : List JavaArray} {n : ℕ} {p : Pinned}
    (h : pinFate jvm heap n p = .passes) : jvm.pinFails n = false := by
  unfold pinFate at h
  split at h
  · split at h
    · split at h
      · cases h
      · simpa using ‹¬jvm.pinFails n = true›
    · cases h
  · cases h

/-- When each round follows the fate of its array, the pinning loop follows the verdict on all
arrays. -/
theorem pinLoop_follows {step : Pinned → β → Option (Flow β)} {ps : List Pinned}
    (hstep : ∀ p ∈ ps, ∀ l, I l → (view l).native.pending = none →
      FollowsPins view I jvm 1 l (step p l)
        (pinFate jvm (view l).native.arrays (view l).native.pins p))
    {l : β} (hI : I l) (hpending : (view l).native.pending = none) :
    FollowsPins view I jvm ps.length l (loopM step ps l)
      (pinVerdict jvm (view l).native.arrays (view l).native.pins ps) := by
  induction ps generalizing l with
  | nil =>
    refine ⟨l, [], rfl, hI, ?_, rfl, rfl, rfl⟩
    exact ⟨(List.append_nil _).symm, fun a ha => absurd ha List.not_mem_nil, rfl,
      rfl, rfl, rfl, rfl, (List.append_nil _).symm⟩
  | cons p ps ih =>
    have hround := hstep p (List.mem_cons_self ..) l hI hpending
    rw [pinVerdict, loopM]
    revert hround
    cases hfate : pinFate jvm (view l).native.arrays (view l).native.pins p with
    | undefined =>
      intro ho
      rw [show step p l = none from ho]
      rfl
    | leaks => exact False.elim
    | throws =>
      rintro ⟨l', new, tr, ho, hpins, htr, hthrown, hfirst⟩
      rw [ho]
      exact ⟨l', new, tr, rfl, hpins, htr, hthrown, hfirst⟩
    | passes =>
      rintro ⟨l', new, ho, hI', hpins, hlen, hpending', hcount⟩
      have hnew : new ≠ [] := by
        rintro rfl
        cases hlen
      have hrest := ih (fun q hq => hstep q (List.mem_cons_of_mem p hq)) hI'
        (hpending'.trans hpending)
      rw [hpins.heap_eq, hcount] at hrest
      rw [ho]
      revert hrest
      cases pinVerdict jvm (view l).native.arrays ((view l).native.pins + 1) ps with
      | undefined => exact id
      | leaks => exact False.elim
      | passes =>
        rintro ⟨l'', new', ho', hI'', hpins', hlen', hpending'', hcount'⟩
        refine ⟨l'', new ++ new', ho', hI'', hpins.trans hpins', ?_, hpending''.trans hpending', ?_⟩
        · rw [List.length_append, hlen, hlen', List.length_cons, Nat.add_comm]
        · rw [hcount', hcount, List.length_cons]
          omega
      | throws =>
        rintro ⟨l'', new', tr, ho', hpins', htr, hthrown, -⟩
        refine ⟨l'', new ++ new', tr, ho', hpins.trans hpins', htr, hthrown, ?_⟩
        rw [pinFails_of_passes hfate]
        simp [hnew]

end Pinning

section PinRounds

variable {pf : Platform} {jvm : Jvm} {ctx : NativeCallContext} {p : Pinned} {s : Native}

/-- A failed call of `GetPrimitiveArrayCritical`, and what is done about it. -/
structure PinFails (s : Native) (tr : List Event) (s' : Native) : Prop where
  onlyJni : OnlyJni tr
  log_eq : s'.log = s.log ++ .jni .getPrimitiveArrayCritical :: .jni .exceptionCheck :: tr
  arrays_eq : s'.arrays = s.arrays
  ext_eq : s'.ext = s.ext
  errors_eq : s'.errors = s.errors
  lastError_eq : s'.lastError = s.lastError
  blocks_eq : s'.blocks = s.blocks
  pending : s'.pending.isSome = true

/-- The array that is recorded for a pinned one. -/
def Pinned.critical (p : Pinned) (r : ℕ) : NativeArray :=
  ⟨p.object, .array r 0, p.offset, p.length, p.type, none, some .criticalArray⟩

/-- What the fate of a pin says of `jffi_getArrayCritical`. -/
def PinsOne (pf : Platform) (jvm : Jvm) (p : Pinned) (s : Native)
    (o : Option (Option (Ptr × NativeArray) × Native)) : Fate → Prop
  | .passes => ∃ r, p.object = some (.array r) ∧
      o = some (some ((Ptr.array r 0).add pf p.offset, p.critical r),
        { s.logged (.pin r) with pins := s.pins + 1 })
  | .throws => ∃ s' tr, o = some (none, s') ∧ PinFails s tr s' ∧ jvm.pinFails s.pins = true
  | .leaks => False
  | .undefined => o = none

/-- `jffi_getArrayCritical` pins the array or fails, as the fate of the array says. -/
theorem getArrayCritical_fate (pf : Platform) (jvm : Jvm) (p : Pinned) (s : Native) :
    PinsOne pf jvm p s (getArrayCritical pf jvm p.object p.offset p.length p.type s)
      (pinFate jvm s.arrays s.pins p) := by
  simp only [getArrayCritical, pinFate, Native.getPrimitiveArrayCritical]
  rcases ho : p.object with _ | r | address | ref
  · exact rfl
  · dsimp only
    by_cases hr : r < s.arrays.length
    · rw [if_pos hr, List.getElem?_eq_getElem hr]
      by_cases hfails : jvm.pinFails s.pins = true
      · rw [if_pos hfails]
        simp only [Option.bind_eq_bind, Option.bind_some, if_pos hfails, Native.exceptionCheck]
        by_cases hthrown : jvm.pinThrows s.pins = true
        · refine ⟨_, [], rfl, ?_, hfails⟩
          simp only [if_pos hthrown]
          exact ⟨onlyJni_nil, by simp [Native.logged], rfl, rfl, rfl, rfl, rfl, rfl⟩
        · cases hpending : s.pending with
          | some x =>
            refine ⟨_, [], rfl, ?_, hfails⟩
            simp only [if_neg hthrown]
            exact ⟨onlyJni_nil, by simp [Native.logged], rfl, rfl, rfl, rfl, rfl, rfl⟩
          | none =>
            refine ⟨_, [.jni .throwNew], rfl, ?_, hfails⟩
            simp only [if_neg hthrown]
            exact ⟨onlyJni_singleton _, by simp [Native.logged, Native.throw], rfl, rfl, rfl, rfl,
              rfl, rfl⟩
      · rw [if_neg hfails]
        simp only [Option.bind_eq_bind, Option.bind_some, if_neg hfails]
        exact ⟨r, ho, by rw [Pinned.critical, ho]⟩
    · rw [if_neg hr, List.getElem?_eq_none (Nat.not_lt.mp hr)]
      rfl
  · exact rfl
  · exact rfl

/-- A round that pins its array, on either path, adds it to the arrays and the pin to the log. -/
theorem pins_of_critical {h h' : Holdings} {r : ℕ} (hp : p.object = some (.array r))
    (harrays : h'.arrays = h.arrays ++ [p.critical r])
    (hnative : h'.native = { h.native.logged (.pin r) with pins := h.native.pins + 1 }) :
    h.Pins [p.critical r] [] h' := by
  refine ⟨harrays, ?_, ?_, ?_, ?_, ?_, ?_, ?_⟩
  · intro a ha
    rw [List.mem_singleton.mp ha]
    exact ⟨⟨r, hp⟩, rfl, rfl⟩
  all_goals rw [hnative]
  · rfl
  · rfl
  · rfl
  · rfl
  · rfl
  · simp [pinEvents, NativeArray.pinnedRef, Pinned.critical, hp, Native.logged]

/-- A round that cannot pin its array, on either path, makes the calls of the failure and adds
nothing. -/
theorem pins_of_fails {h h' : Holdings} {tr : List Event} (harrays : h'.arrays = h.arrays)
    (hfails : PinFails h.native tr h'.native) :
    h.Pins [] (.jni .getPrimitiveArrayCritical :: .jni .exceptionCheck :: tr) h' :=
  ⟨by rw [harrays, List.append_nil], fun a ha => absurd ha List.not_mem_nil, hfails.arrays_eq,
    hfails.ext_eq, hfails.errors_eq, hfails.lastError_eq, hfails.blocks_eq, hfails.log_eq⟩

/-- Each round of the pinning loop on the generic path follows the fate of its array. -/
theorem pinStep_follows {l : ObjectLoop} (h : WellFramed ctx l.frame)
    (hidx : descriptorIndex p.type < ctx.cif.argTypes.length) :
    FollowsPins ObjectLoop.holdings (fun l => WellFramed ctx l.frame) jvm 1 l
      (pinStep pf jvm ctx p l) (pinFate jvm l.native.arrays l.native.pins p) := by
  have hpin := getArrayCritical_fate pf jvm p l.native
  rw [pinStep]
  revert hpin
  cases pinFate jvm l.native.arrays l.native.pins p with
  | undefined =>
    intro ho
    rw [show getArrayCritical pf jvm p.object p.offset p.length p.type l.native = none from ho]
    rfl
  | leaks => exact False.elim
  | throws =>
    rintro ⟨s', tr, ho, hfails, hfirst⟩
    rw [ho]
    exact ⟨_, [], tr, rfl, pins_of_fails rfl hfails, hfails.onlyJni, hfails.pending,
      fun _ => hfirst, fun _ => rfl⟩
  | passes =>
    rintro ⟨r, hobject, ho⟩
    rw [ho]
    let s : Native := { l.native.logged (.pin r) with pins := l.native.pins + 1 }
    obtain ⟨f, hset, hf⟩ := @setArg_wellFramed pf ctx { l with native := s } h _ hidx
      ((Ptr.array r 0).add pf p.offset)
    simp only [Option.bind_eq_bind, Option.bind_some]
    rw [show setArg pf ctx (descriptorIndex p.type) ((Ptr.array r 0).add pf p.offset)
      { l with native := s } = _ from hset]
    exact ⟨_, _, rfl, hf, pins_of_critical hobject rfl rfl, rfl, rfl, rfl⟩

/-- Each round of `pin_arrays` follows the fate of its array. -/
theorem pinArray_follows {l : FastLoop} :
    FollowsPins FastLoop.holdings (fun _ => True) jvm 1 l (pinArray pf jvm p l)
      (pinFate jvm l.native.arrays l.native.pins p) := by
  have hpin := getArrayCritical_fate pf jvm p l.native
  rw [pinArray]
  revert hpin
  cases pinFate jvm l.native.arrays l.native.pins p with
  | undefined =>
    intro ho
    rw [show getArrayCritical pf jvm p.object p.offset p.length p.type l.native = none from ho]
    rfl
  | leaks => exact False.elim
  | throws =>
    rintro ⟨s', tr, ho, hfails, hfirst⟩
    rw [ho]
    exact ⟨_, [], tr, rfl, pins_of_fails rfl hfails, hfails.onlyJni, hfails.pending,
      fun _ => hfirst, fun _ => rfl⟩
  | passes =>
    rintro ⟨r, hobject, ho⟩
    rw [ho]
    exact ⟨_, _, rfl, trivial, pins_of_critical hobject rfl rfl, rfl, rfl, rfl⟩

end PinRounds

/-! ### Both loops -/

/-- From `s` copies were made, arrays pinned and the blocks `lost` acquired besides; and after the
pinning nothing happened but `tail`. -/
def Holdings.Prepared (s : Native) (objects : List ObjectEntry) (copies pinned : List NativeArray)
    (lost : List ℕ) (tail : List Event) (h : Holdings) : Prop :=
  ∃ h₁ : Holdings, h₁.arrays = copies ∧ Acquires s copies lost h₁.native ∧
    (∀ a ∈ copies, ∃ e ∈ objects, a.IsCopy e) ∧ h₁.Pins pinned tail h

/-- All objects are resolved, and then an array is pinned and a later one is not. -/
def PinnedInPart (d : Decisions) (jvm : Jvm) (s : Native) (objects : List ObjectEntry) : Prop :=
  verdict d jvm s.arrays s.mallocs objects = .passes ∧ jvm.pinFails s.pins = false ∧
    pinVerdict jvm s.arrays s.pins (d.pinnedOf objects) = .throws

/-- The fate of a call: the verdict on the objects or, if they pass, that on the arrays to be
pinned. -/
def callFate (d : Decisions) (jvm : Jvm) (s : Native) (objects : List ObjectEntry) : Fate :=
  match verdict d jvm s.arrays s.mallocs objects with
  | .passes => pinVerdict jvm s.arrays s.pins (d.pinnedOf objects)
  | f => f

section Both

variable {β : Type} {d : Decisions} {jvm : Jvm} {objects : List ObjectEntry}
  (view : β → Holdings) (I : β → Prop)

/-- What the fate of a call that starts in `s` says of its two loops. -/
def FollowsCall (d : Decisions) (jvm : Jvm) (s : Native) (objects : List ObjectEntry)
    (o : Option (Flow β)) : Fate → Prop
  | .passes => ∃ l copies pinned, o = some (.next l) ∧ I l ∧
      (view l).Prepared s objects copies pinned [] [] ∧ (view l).native.pending = none
  | .throws => ∃ l copies pinned tail, o = some (.cleanup l) ∧
      (view l).Prepared s objects copies pinned [] tail ∧ OnlyJni tail ∧
      (view l).native.pending.isSome = true ∧
      (¬PinnedInPart d jvm s objects → pinned = []) ∧
      (PinnedInPart d jvm s objects → pinned ≠ [] ∧
        ∃ tr, tail = .jni .getPrimitiveArrayCritical :: .jni .exceptionCheck :: tr)
  | .leaks => ∃ l copies b, o = some (.cleanup l) ∧
      (view l).Prepared s objects copies [] [b] [] ∧ (view l).native.pending.isSome = true
  | .undefined => o = none

variable {view I}

theorem Holdings.Pins.refl (h : Holdings) : h.Pins [] [] h :=
  ⟨(List.append_nil _).symm, fun _ ha => absurd ha List.not_mem_nil, rfl, rfl, rfl, rfl, rfl,
    (List.append_nil _).symm⟩

/-- When the rounds of both loops follow their decisions, the two loops together follow the fate of
the call. -/
theorem resolve_follows {step : ObjectEntry → β → Option (Flow β)}
    {pin : Pinned → β → Option (Flow β)} {o : Option (Flow β)}
    (hstep : ∀ e l, I l → (view l).native.pending = none →
      Follows view I d [e] l (step e l)
        (d.fate (view l).native.arrays (jvm.mallocFails (view l).native.mallocs) e))
    {l : β} (harrays : (view l).arrays = []) (hpinned : (view l).pinned = [])
    (hpin : verdict d jvm (view l).native.arrays (view l).native.mallocs objects = .passes →
      ∀ p ∈ d.pinnedOf objects, ∀ l, I l → (view l).native.pending = none →
        FollowsPins view I jvm 1 l (pin p l)
          (pinFate jvm (view l).native.arrays (view l).native.pins p))
    (hI : I l) (hpending : (view l).native.pending = none)
    (hnone : loopM step objects l = none → o = none)
    (hnext : ∀ l', loopM step objects l = some (.next l') → o = loopM pin (view l').pinned l')
    (hcleanup : ∀ l', loopM step objects l = some (.cleanup l') → o = some (.cleanup l')) :
    FollowsCall view I d jvm (view l).native objects o
    (callFate d jvm (view l).native objects) := by
  have hloop := loop_follows hstep objects hI hpending
  rw [callFate]
  revert hloop
  cases hverdict : verdict d jvm (view l).native.arrays (view l).native.mallocs objects with
  | undefined =>
    exact hnone
  | throws =>
    rintro ⟨l', ho, ⟨new, hnew, hacq, hcopy⟩, hthrown⟩
    rw [harrays, List.nil_append] at hnew
    refine ⟨l', new, [], [], hcleanup l' ho, ⟨view l', hnew, hacq, hcopy, .refl _⟩,
      onlyJni_nil, hthrown, fun _ => rfl, fun h => ?_⟩
    cases hverdict.symm.trans h.1
  | leaks =>
    rintro ⟨l', b, ho, ⟨new, hnew, hacq, hcopy⟩, hthrown⟩
    rw [harrays, List.nil_append] at hnew
    exact ⟨l', new, b, hcleanup l' ho, ⟨view l', hnew, hacq, hcopy, .refl _⟩, hthrown⟩
  | passes =>
    rintro ⟨l', ho, hI', hp⟩
    obtain ⟨new, hnew, hacq, hcopy⟩ := hp.gains
    rw [harrays, List.nil_append] at hnew
    have hpins := pinLoop_follows (hpin hverdict) hI' (hp.pending_eq.trans hpending)
    rw [hacq.arrays_eq, hp.pins_eq] at hpins
    rw [hnext l' ho, hp.pinned_eq, hpinned, List.nil_append]
    revert hpins
    cases hfate : pinVerdict jvm (view l).native.arrays (view l).native.pins
      (d.pinnedOf objects) with
    | undefined => exact id
    | leaks => exact False.elim
    | passes =>
      rintro ⟨l'', pinned, ho', hI'', hpins', -, hpending', -⟩
      exact ⟨l'', new, pinned, ho', hI'', ⟨view l', hnew, hacq, hcopy, hpins'⟩,
        hpending'.trans (hp.pending_eq.trans hpending)⟩
    | throws =>
      rintro ⟨l'', pinned, tr, ho', hpins', htr, hthrown, hfirst⟩
      rw [hp.pins_eq] at hfirst
      refine ⟨l'', new, pinned, _, ho', ⟨view l', hnew, hacq, hcopy, hpins'⟩, ?_, hthrown,
        fun h => ?_, fun h => ⟨fun hnil => ?_, tr, rfl⟩⟩
      · exact ((onlyJni_singleton _).append (onlyJni_singleton _)).append htr
      · refine hfirst.mpr ?_
        by_contra hnot
        exact h ⟨hverdict, by simpa using hnot, hfate⟩
      · have := hfirst.mp hnil
        rw [h.2.1] at this
        cases this

end Both

/-! ### The two paths -/

section Paths

variable {jvm : Jvm} {s : Native} {objects : List ObjectEntry}

/-- The generic path lets an object to be pinned pass only if its parameter is there. -/
theorem index_lt_of_fate {n : ℕ} {heap : List JavaArray} {fails : Bool} {e : ObjectEntry}
    (hpins : (genericDecisions n).pins e = true)
    (h : (genericDecisions n).fate heap fails e = .passes) : descriptorIndex e.flags < n := by
  simp only [genericDecisions, decide_eq_true_eq] at hpins
  simp only [genericDecisions, hpins.1, arrayFate] at h
  split at h
  · cases h
  · rw [if_pos hpins.2, Fate.within] at h
    by_contra hnot
    rw [if_neg hnot] at h
    cases h

theorem index_lt_of_verdict {n : ℕ} {heap : List JavaArray} {m : ℕ}
    (h : verdict (genericDecisions n) jvm heap m objects = .passes) :
    ∀ p ∈ (genericDecisions n).pinnedOf objects, descriptorIndex p.type < n := by
  induction objects generalizing m with
  | nil => exact fun p hp => absurd hp List.not_mem_nil
  | cons e objects ih =>
    rw [verdict] at h
    split at h
    · rename_i hfate
      intro p hp
      obtain ⟨e', he', rfl⟩ := List.mem_map.mp hp
      obtain ⟨hmem, hpins⟩ := List.mem_filter.mp he'
      rcases List.mem_cons.mp hmem with rfl | hmem
      · exact index_lt_of_fate hpins hfate
      · exact ih h _ (List.mem_map.mpr ⟨e', List.mem_filter.mpr ⟨hmem, hpins⟩, rfl⟩)
    · rename_i hne
      exact absurd h hne

/-- Before its loops the generic path reads the parameter buffer, which acquires nothing and cannot
fail. -/
theorem newFrame_follows (pf : Platform) (ctx : NativeCallContext) {bs : List Byte} (s : Native)
    (hbs : bs.length = ctx.cif.argTypes.length * slotSize) :
    ∃ f s', newFrame pf ctx bs s = some (f, s') ∧ WellFramed ctx f ∧ Acquires s [] [] s' ∧
      s'.pending = s.pending ∧ s'.mallocs = s.mallocs ∧ s'.pins = s.pins := by
  obtain ⟨args, s', hframe, -, hlen, hspec⟩ := newFrame_spec pf ctx s hbs
  refine ⟨_, s', hframe, fun k t ht => ?_, ?_⟩
  · have hk := (List.getElem?_eq_some_iff.mp ht).1
    refine ⟨by rw [hlen]; exact hk, ?_, fun htype => ?_⟩
    · rw [List.length_map, hbs]
      exact Nat.mul_le_mul_right _ hk
    · refine (hspec k .pointer htype).1 ?_
      simp [FFIType.code]
  · unfold newFrame at hframe
    dsimp only at hframe
    split at hframe
    · rw [if_pos (Nat.le_of_eq hbs.symm)] at hframe
      obtain ⟨args', -, hframe⟩ := Option.bind_eq_some_iff.mp hframe
      obtain ⟨-, rfl⟩ := Prod.mk.injEq .. ▸ Option.some.inj hframe
      exact ⟨.of_onlyJni (onlyJni_singleton .getArrayRegion) rfl rfl rfl rfl rfl List.prefix_rfl,
        rfl, rfl, rfl⟩
    · obtain ⟨-, rfl⟩ := Prod.mk.injEq .. ▸ Option.some.inj hframe
      exact ⟨.refl s, rfl, rfl, rfl⟩

theorem Holdings.Prepared.after {s s' : Native} {copies pinned : List NativeArray} {lost : List ℕ}
    {tail : List Event} {h : Holdings} (hacq : Acquires s [] [] s')
    (hp : h.Prepared s' objects copies pinned lost tail) :
    h.Prepared s objects copies pinned lost tail := by
  obtain ⟨h₁, harrays, hacq', hcopy, hpins⟩ := hp
  exact ⟨h₁, harrays, hacq.trans hacq', hcopy, hpins⟩

/-- The calls into the virtual machine before the loops decide nothing. -/
theorem FollowsCall.after {β : Type} {view : β → Holdings} {I : β → Prop} {d : Decisions}
    {s s' : Native} (hacq : Acquires s [] [] s') (hmallocs : s'.mallocs = s.mallocs)
    (hpins : s'.pins = s.pins) {o : Option (Flow β)}
    (h : FollowsCall view I d jvm s' objects o (callFate d jvm s' objects)) :
    FollowsCall view I d jvm s objects o (callFate d jvm s objects) := by
  have hpart : PinnedInPart d jvm s' objects ↔ PinnedInPart d jvm s objects := by
    rw [PinnedInPart, PinnedInPart, hacq.arrays_eq, hmallocs, hpins]
  have hfate : callFate d jvm s' objects = callFate d jvm s objects := by
    rw [callFate, callFate, hacq.arrays_eq, hmallocs, hpins]
  rw [hfate] at h
  revert h
  cases callFate d jvm s objects with
  | undefined => exact id
  | passes =>
    rintro ⟨l, copies, pinned, ho, hI, hp, hpending⟩
    exact ⟨l, copies, pinned, ho, hI, hp.after hacq, hpending⟩
  | leaks =>
    rintro ⟨l, copies, b, ho, hp, hpending⟩
    exact ⟨l, copies, b, ho, hp.after hacq, hpending⟩
  | throws =>
    rintro ⟨l, copies, pinned, tail, ho, hp, htail, hpending, hnone, hsome⟩
    exact ⟨l, copies, pinned, tail, ho, hp.after hacq, htail, hpending,
      fun h => hnone fun h' => h (hpart.mp h'), fun h => hsome (hpart.mpr h)⟩

/-- Everything that the generic path does before a call follows the fate of the call. -/
theorem prepareCall_follows (pf : Platform) (ctx : NativeCallContext) {bs : List Byte}
    (hbs : bs.length = ctx.cif.argTypes.length * slotSize) (hpending : s.pending = none) :
    FollowsCall ObjectLoop.holdings (fun l => WellFramed ctx l.frame)
      (genericDecisions ctx.cif.argTypes.length) jvm s objects
      (prepareCall pf jvm ctx bs objects s)
      (callFate (genericDecisions ctx.cif.argTypes.length) jvm s objects) := by
  obtain ⟨f, s', hframe, hf, hacq, hpending', hmallocs, hpins⟩ := newFrame_follows pf ctx s hbs
  rw [prepareCall, hframe]
  refine FollowsCall.after hacq hmallocs hpins ?_
  refine @resolve_follows _ _ jvm objects ObjectLoop.holdings _ (objectStep pf jvm ctx)
    (pinStep pf jvm ctx) _ (fun e l hl hnone => objectStep_follows hl hnone) ⟨f, [], [], s'⟩ rfl rfl
    (fun hverdict p hp l hl _ => pinStep_follows hl (index_lt_of_verdict hverdict p hp)) hf
    (hpending'.trans hpending) (fun h => ?_) (fun l h => ?_) (fun l h => ?_)
  · simp only [Option.bind_eq_bind, Option.bind_some, resolveObjects, h, Option.bind_none]
  · simp only [Option.bind_eq_bind, Option.bind_some, resolveObjects, h]
    rfl
  · simp only [Option.bind_eq_bind, Option.bind_some, resolveObjects, h]

/-- Everything that the fast path does before a call follows the fate of the call. -/
theorem resolveFast_follows (pf : Platform) (n : ℕ) (v : List (List Cell))
    (hpending : s.pending = none) :
    FollowsCall FastLoop.holdings (fun _ => True) (fastDecisions n) jvm s objects
      (resolveFast pf jvm n objects ⟨v, [], [], s⟩) (callFate (fastDecisions n) jvm s objects) := by
  refine @resolve_follows _ _ jvm objects FastLoop.holdings _ (addObj pf jvm n) (pinArray pf jvm) _
    (fun _ _ _ hnone => addObj_follows hnone) ⟨v, [], [], s⟩ rfl rfl
    (fun _ _ _ _ _ _ => pinArray_follows) trivial hpending (fun h => ?_) (fun l h => ?_)
    (fun l h => ?_)
  all_goals
    rw [resolveFast, h]
    rfl

end Paths

/-! ### The copy that is lost -/

/-- The elements asked for are not those of the array, which turns out once the size of the copy has
been found fit for `malloc`. -/
def RefusedCopy (heap : List JavaArray) (e : ObjectEntry) : Prop :=
  ∃ r a, e.object = some (.array r) ∧ heap[r]? = some a ∧
    componentOf e.flags = some a.component ∧ isInArray e.flags = true ∧
    e.length.toInt + 1 < 2 ^ 31 ∧ 0 ≤ copySize a.component e.length.toInt ∧
    ¬Native.inRange e.offset.toInt e.length.toInt a.length

/-- Of the objects, an array reaches `malloc`, which answers, and is then refused; all objects
before it are resolved. -/
def LosesCopy (d : Decisions) (jvm : Jvm) (s : Native) (objects : List ObjectEntry) : Prop :=
  ∃ before e after, objects = before ++ e :: after ∧
    verdict d jvm s.arrays s.mallocs before = .passes ∧ d.mallocs e = true ∧
    jvm.mallocFails (s.mallocs + before.countP d.mallocs) = false ∧ RefusedCopy s.arrays e

section LosesCopy

variable {heap : List JavaArray} {fails : Bool} {e : ObjectEntry} {t : ComponentType} {room : ℕ}

theorem fillFate_refused {length offset : ℤ} {type : BitVec 32} {object : Option Obj} :
    fillFate t length type room heap object offset = .refused ↔
      ∃ r a, object = some (.array r) ∧ heap[r]? = some a ∧ a.component = t ∧
        isInArray type = true ∧ ¬Native.inRange offset length a.length := by
  have hcopy : fillFate t length type room heap object offset = .refused ↔
      copyFate t length type room heap object offset = .refused := by
    simp only [fillFate]
    cases copyFate t length type room heap object offset with
    | filled =>
      dsimp only
      split <;> simp
    | refused => simp
    | undefined => simp
  have hroom : roomFate t length room ≠ .refused := by
    simp only [roomFate]
    split <;> simp
  rw [hcopy]
  simp only [copyFate]
  by_cases hin : isInArray type = true
  · rw [if_pos hin]
    rcases object with _ | r | address | ref
    · simp
    · dsimp only
      cases ha : heap[r]? with
      | none => simp [ha]
      | some a =>
        dsimp only
        by_cases ht : a.component = t
        · rw [if_pos ht]
          by_cases hrange : Native.inRange offset length a.length
          · rw [if_pos hrange]
            constructor
            · intro h
              exact absurd h hroom
            · rintro ⟨r', a', hr', ha', -, -, hnot⟩
              cases hr'
              cases ha.symm.trans ha'
              exact absurd hrange hnot
          · rw [if_neg hrange]
            exact ⟨fun _ => ⟨r, a, rfl, ha, ht, hin, hrange⟩, fun _ => rfl⟩
        · rw [if_neg ht]
          constructor
          · intro h
            cases h
          · rintro ⟨r', a', hr', ha', ht', -⟩
            cases hr'
            cases ha.symm.trans ha'
            exact absurd ht' ht
    · simp
    · simp
  · rw [if_neg hin]
    constructor
    · intro h
      split at h
      · exact absurd h hroom
      · cases h
    · rintro ⟨r, a, -, -, -, hin', -⟩
      exact absurd hin' hin

theorem heapFate_leaks : heapFate heap fails e = .leaks ↔ fails = false ∧ RefusedCopy heap e := by
  simp only [heapFate]
  cases htype : componentOf e.flags with
  | none =>
    constructor
    · intro h
      cases h
    · rintro ⟨-, r, a, -, -, htype', -⟩
      cases htype.symm.trans htype'
  | some t =>
    dsimp only
    constructor
    · intro h
      split at h
      · rename_i hlt
        split at h
        · cases h
        · rename_i hmet
          obtain ⟨hsize, hfails⟩ := not_or.mp hmet
          split at h
          · cases h
          · rename_i hfill
            obtain ⟨r, a, hobject, ha, rfl, hin, hrange⟩ := fillFate_refused.mp hfill
            exact ⟨by simpa using hfails, r, a, hobject, ha, htype, hin, hlt, Int.not_lt.mp hsize,
              hrange⟩
          · cases h
      · cases h
    · rintro ⟨hfails, r, a, hobject, ha, htype', hin, hlt, hsize, hrange⟩
      cases htype.symm.trans htype'
      have hmet : ¬(copySize a.component e.length.toInt < 0 ∨ fails = true) := by
        rw [hfails]
        exact not_or.mpr ⟨Int.not_lt.mpr hsize, Bool.false_ne_true⟩
      rw [if_pos hlt, if_neg hmet, fillFate_refused.mpr ⟨r, a, hobject, ha, rfl, hin, hrange⟩]

theorem stackFate_ne_leaks : stackFate heap e ≠ .leaks := by
  simp only [stackFate]
  split
  · split
    · split <;> simp
    · simp
  · simp

theorem addressFate_ne_leaks {o : Obj} : addressFate o ≠ .leaks := by
  simp only [addressFate]
  split
  · split <;> simp
  · simp

theorem within_leaks {f : Fate} {n : ℕ} : f.within n e = .leaks ↔ f = .leaks := by
  cases f with
  | passes =>
    rw [Fate.within]
    split <;> simp
  | _ => simp [Fate.within]

theorem RefusedCopy.object_ne_none (h : RefusedCopy heap e) : e.object ≠ none := by
  obtain ⟨r, a, hobject, -⟩ := h
  rw [hobject]
  exact Option.some_ne_none _

theorem arrayFate_leaks {n : ℕ} :
    arrayFate n heap fails e = .leaks ↔ isPinned e.flags = false ∧
      ¬e.length.toInt < MAX_STACK_ARRAY ∧ fails = false ∧ RefusedCopy heap e := by
  rw [arrayFate]
  cases ho : e.object with
  | none =>
    constructor
    · intro h
      cases h
    · rintro ⟨-, -, -, hrefused⟩
      exact absurd ho hrefused.object_ne_none
  | some o =>
    dsimp only
    by_cases hpinned : isPinned e.flags = true
    · rw [if_pos hpinned, within_leaks, hpinned]
      simp
    · rw [if_neg hpinned]
      have hnot : isPinned e.flags = false := by simpa using hpinned
      by_cases hshort : e.length.toInt < MAX_STACK_ARRAY
      · rw [if_pos hshort, within_leaks]
        exact ⟨fun h => absurd h stackFate_ne_leaks, fun h => absurd hshort h.2.1⟩
      · rw [if_neg hshort, within_leaks, heapFate_leaks]
        exact ⟨fun h => ⟨hnot, hshort, h⟩, fun h => h.2.2⟩

/-- The generic path loses a block for an object if and only if `malloc` has answered one and the
copy into it is refused. -/
theorem genericFate_leaks {n : ℕ} :
    (genericDecisions n).fate heap fails e = .leaks ↔
      (genericDecisions n).mallocs e = true ∧ fails = false ∧ RefusedCopy heap e := by
  simp only [genericDecisions, decide_eq_true_eq, and_assoc]
  cases hkind : decodeKind e.flags with
  | array => simp only [arrayFate_leaks, true_and]
  | buffer =>
    dsimp only
    rw [bufferFate]
    split
    · simp
    · rw [within_leaks]
      simp [addressFate_ne_leaks]
  | jniEnvironment => simp [within_leaks]
  | jniObject => simp [within_leaks]
  | unsupported => simp

/-- The fast path loses a block for an object if and only if `malloc` has answered one and the copy
into it is refused. -/
theorem fastFate_leaks {n : ℕ} :
    (fastDecisions n).fate heap fails e = .leaks ↔
      (fastDecisions n).mallocs e = true ∧ fails = false ∧ RefusedCopy heap e := by
  simp only [fastDecisions, decide_eq_true_eq, and_assoc]
  by_cases hidx : n - 1 < descriptorIndex e.flags
  · rw [if_pos hidx]
    constructor
    · intro h
      cases h
    · rintro ⟨hidx', -⟩
      exact absurd hidx hidx'
  rw [if_neg hidx]
  by_cases hshort : isUnpinnedArray e.flags = true ∧ e.length.toInt < MAX_STACK_ARRAY
  · rw [if_pos hshort]
    constructor
    · intro h
      exact absurd h stackFate_ne_leaks
    · rintro ⟨-, hlong, -⟩
      exact absurd hshort hlong
  rw [if_neg hshort]
  cases ho : e.object with
  | none =>
    constructor
    · intro h
      cases h
    · rintro ⟨-, -, -, -, -, hrefused⟩
      exact absurd ho hrefused.object_ne_none
  | some o =>
    dsimp only
    by_cases hpinned : isPinnedArray e.flags = true
    · rw [if_pos hpinned, hpinned]
      simp
    rw [if_neg hpinned]
    have hnot : isPinnedArray e.flags = false := by simpa using hpinned
    by_cases harray : isArray e.flags = true
    · rw [if_pos harray, heapFate_leaks]
      exact ⟨fun h => ⟨hidx, hshort, hnot, harray, h⟩, fun h => h.2.2.2.2⟩
    · rw [if_neg harray]
      constructor
      · intro h
        split at h
        · exact absurd h addressFate_ne_leaks
        · cases h
      · rintro ⟨-, -, -, harray', -⟩
        exact absurd harray' harray

theorem verdict_cons_leaks {d : Decisions} {jvm : Jvm} {m : ℕ} {objects : List ObjectEntry}
    (hfate : ∀ fails e, d.fate heap fails e = .leaks ↔
      d.mallocs e = true ∧ fails = false ∧ RefusedCopy heap e) :
    verdict d jvm heap m objects = .leaks ↔
      ∃ before e after, objects = before ++ e :: after ∧
        verdict d jvm heap m before = .passes ∧ d.mallocs e = true ∧
        jvm.mallocFails (m + before.countP d.mallocs) = false ∧ RefusedCopy heap e := by
  induction objects generalizing m with
  | nil => simp [verdict]
  | cons e objects ih =>
    rw [verdict]
    constructor
    · intro h
      split at h
      · rename_i hpasses
        obtain ⟨before, e', after, rfl, hbefore, hmallocs, hmet, hrefused⟩ := ih.mp h
        refine ⟨e :: before, e', after, rfl, ?_, hmallocs, ?_, hrefused⟩
        · rw [verdict, hpasses]
          exact hbefore
        · rw [List.countP_cons, Nat.add_comm (before.countP _), ← Nat.add_assoc]
          split at hmet <;> simp_all
      · obtain ⟨hmallocs, hmet, hrefused⟩ := (hfate _ e).mp h
        exact ⟨[], e, objects, rfl, rfl, hmallocs, hmet, hrefused⟩
    · rintro ⟨before, e', after, hsplit, hbefore, hmallocs, hmet, hrefused⟩
      cases before with
      | nil =>
        cases hsplit
        have hleaks := (hfate (jvm.mallocFails m) e).mpr ⟨hmallocs, hmet, hrefused⟩
        rw [hleaks]
      | cons e'' before =>
        cases hsplit
        rw [verdict] at hbefore
        split at hbefore
        · refine ih.mpr ⟨before, e', after, rfl, hbefore, hmallocs, ?_, hrefused⟩
          rw [List.countP_cons, Nat.add_comm (before.countP _), ← Nat.add_assoc] at hmet
          split <;> simp_all
        · rename_i hne
          exact absurd hbefore hne

theorem pinFate_ne_leaks (jvm : Jvm) (heap : List JavaArray) (n : ℕ) (p : Pinned) :
    pinFate jvm heap n p ≠ .leaks := by
  rw [pinFate]
  split
  · split
    · split <;> simp
    · simp
  · simp

theorem pinVerdict_ne_leaks (jvm : Jvm) (heap : List JavaArray) (n : ℕ) (ps : List Pinned) :
    pinVerdict jvm heap n ps ≠ .leaks := by
  induction ps generalizing n with
  | nil => simp [pinVerdict]
  | cons p ps ih =>
    rw [pinVerdict]
    split
    · exact ih (n + 1)
    · exact pinFate_ne_leaks jvm heap n p

/-- **A call is fated to lose a block** if and only if one of its objects is such a copy. -/
theorem callFate_leaks {d : Decisions} {jvm : Jvm} {s : Native} {objects : List ObjectEntry}
    (hfate : ∀ fails e, d.fate s.arrays fails e = .leaks ↔
      d.mallocs e = true ∧ fails = false ∧ RefusedCopy s.arrays e) :
    callFate d jvm s objects = .leaks ↔ LosesCopy d jvm s objects := by
  rw [LosesCopy, ← verdict_cons_leaks hfate, callFate]
  cases hverdict : verdict d jvm s.arrays s.mallocs objects with
  | passes =>
    simp [pinVerdict_ne_leaks]
  | _ => simp

end LosesCopy

end Jffi
