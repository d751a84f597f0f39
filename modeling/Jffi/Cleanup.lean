import Mathlib.Data.List.Nodup
import Mathlib.Logic.Relation
import Mathlib.Tactic.Common

/-!
# Cleanup actions

A `CallContext`, an `Aggregate`, a `Library`, a `ClosureMagazine` and a magazine of a `ClosurePool`
register an action that frees their native resource when they have been collected. The cleaner holds
on to the actions. Each action is an anonymous class that uses a field of its object, or the object
itself, and so it has a reference to the object. The action of a `MagazineHolder` only uses the
parameters of the constructor.

Objects that are not registered, such as collections, slots and the objects of a program, may refer
to anything, and their references may change.

## Main definitions

* `Heap` — objects with their references, and what is registered
* `Creation` — the constructors that register an action
* `Heap.Act`, `Heap.Step`, `Heap.Reached` — what may happen to a heap
* `Heap.Collectable` — nothing is kept by its own action, and nothing is released twice

## Main results

* `Heap.collectable_iff` — that is so exactly as long as nothing has been created
-/

namespace Jffi

/-! ### Objects -/

/-- The classes whose objects refer to each other, as far as their cleaning depends on it. -/
inductive JavaClass
  | callContext | aggregate | library | closureMagazine | poolMagazine
  | magazineHolder
  | action
  | other
  deriving DecidableEq, Repr

/-- Objects of this class have a native resource, which a cleaner frees. -/
def JavaClass.HasResource : JavaClass → Prop
  | .callContext | .aggregate | .library | .closureMagazine | .poolMagazine => True
  | .magazineHolder | .action | .other => False

structure JavaObject where
  cls : JavaClass
  /-- The objects its fields refer to. -/
  refs : List ℕ
  disposed : Bool

/-- What `Cleaner.register` was called with. -/
structure Registration where
  object : ℕ
  action : ℕ
  deriving DecidableEq, Repr

structure Heap where
  objects : List JavaObject
  registered : List Registration
  /-- What the program holds on to. -/
  roots : List ℕ
  /-- The objects whose native resource was released, in order. -/
  released : List ℕ

/-- `Foreign.getInstance()`. -/
def foreignInstance : ℕ := 0

/-- A constructor that registers an action, with the objects it is given. -/
inductive Creation
  /-- With the types of the result and of the parameters. -/
  | callContext (types : List ℕ)
  /-- A `Struct`, a `Union` or an `Array`. -/
  | aggregate (types : List ℕ)
  | library
  | closureMagazine (ctx : ℕ)
  /-- A magazine of a pool, whose slots have proxies in native code. -/
  | poolMagazine (ctx : ℕ) (slots : List ℕ)
  | magazineHolder (pool magazine : ℕ)

namespace Creation

def cls : Creation → JavaClass
  | .callContext _ => .callContext
  | .aggregate _ => .aggregate
  | .library => .library
  | .closureMagazine _ => .closureMagazine
  | .poolMagazine .. => .poolMagazine
  | .magazineHolder .. => .magazineHolder

/-- The objects that the constructor is given, and that must be there already. -/
def arguments : Creation → List ℕ
  | .callContext types | .aggregate types => types
  | .library => []
  | .closureMagazine ctx => [ctx]
  | .poolMagazine ctx slots => ctx :: slots
  | .magazineHolder pool magazine => [pool, magazine]

/-- What the fields of the object refer to. -/
def fields : Creation → List ℕ
  | .magazineHolder pool magazine => [pool, magazine]
  | c => foreignInstance :: c.arguments

/-- What the action refers to: the object itself, when it uses a field of it, and the parameters and
variables of the constructor that it uses. -/
def captures (this : ℕ) : Creation → List ℕ
  -- `UPDATER`, `CallContext.this`, `contextAddress` and `foreign`
  | .callContext _ => [this]
  -- `Aggregate.this` and `typeInfo`
  | .aggregate _ => [this, foreignInstance]
  -- `Library.this` and `handle`
  | .library => [this, foreignInstance]
  -- `ClosureMagazine.this`
  | .closureMagazine _ => [this, foreignInstance]
  -- `Magazine.this.slots`, `magazine` and `foreign`
  | .poolMagazine .. => [this]
  | .magazineHolder pool magazine => [pool, magazine]

theorem this_mem_captures {c : Creation} (h : c.cls.HasResource) (this : ℕ) :
    this ∈ c.captures this := by
  cases c with
  | magazineHolder => exact h.elim
  | callContext | aggregate | library | closureMagazine | poolMagazine => exact List.mem_cons_self

end Creation

namespace Heap

/-- There is nothing but `Foreign`. -/
def initial : Heap := ⟨[⟨.other, [], false⟩], [], [foreignInstance], []⟩

/-! ### Reachability -/

def Refers (h : Heap) (x y : ℕ) : Prop := ∃ object, h.objects[x]? = some object ∧ y ∈ object.refs

/-- One object leads to the other, over any number of strong references. -/
def Reaches (h : Heap) : ℕ → ℕ → Prop := Relation.ReflTransGen h.Refers

/-- The program can still get at it. -/
def Held (h : Heap) (x : ℕ) : Prop := ∃ root ∈ h.roots, h.Reaches root x

/-- The program can, or the cleaner. -/
def StronglyReachable (h : Heap) (x : ℕ) : Prop :=
  h.Held x ∨ ∃ reg ∈ h.registered, h.Reaches reg.action x

/-- Nothing is kept by its own action, what the program has dropped is cleaned up some time, and
nothing is released twice. -/
structure Collectable (h : Heap) : Prop where
  not_captured : ∀ reg ∈ h.registered, ¬h.Reaches reg.action reg.object
  eligible : ∀ reg ∈ h.registered, ¬h.Held reg.object → ¬h.StronglyReachable reg.object
  released : h.released.Nodup

/-! ### Steps -/

/-- A new object, which the program holds on to. -/
def alloc (cls : JavaClass) (refs : List ℕ) (h : Heap) : Heap :=
  { h with
    objects := h.objects ++ [⟨cls, refs, false⟩]
    roots := h.objects.length :: h.roots }

/-- A constructor, up to its end. -/
def create (c : Creation) (h : Heap) : Heap :=
  let this := h.objects.length
  { h with
    objects := h.objects ++ [⟨c.cls, c.fields, false⟩, ⟨.action, c.captures this, false⟩]
    registered := ⟨this, this + 1⟩ :: h.registered
    roots := this :: h.roots }

/-- The references of an object change. -/
def setRefs (x : ℕ) (refs : List ℕ) (h : Heap) : Heap :=
  { h with objects := h.objects.modify x fun object => { object with refs := refs } }

/-- The native resource of an object is released, unless that has been done. -/
def release (x : ℕ) (object : JavaObject) (h : Heap) : Heap :=
  if object.disposed then h
  else { h with
    objects := h.objects.modify x fun object => { object with disposed := true }
    released := h.released ++ [x] }

inductive Act
  | create (c : Creation)
  | newObject (refs : List ℕ)
  | setRefs (x : ℕ) (refs : List ℕ)
  | hold (x : ℕ)
  | drop (x : ℕ)
  /-- `ClosureMagazine.dispose`. -/
  | dispose (x : ℕ)
  /-- The cleaner runs an action. -/
  | clean (reg : Registration)

def Act.CreatesResource : Act → Prop
  | .create c => c.cls.HasResource
  | _ => False

/-- What may happen. The program only uses what it can get at; only what is not registered changes
its references; and an action is run when its object is not strongly reachable. -/
inductive Step (h : Heap) : Act → Heap → Prop
  | create (c : Creation) (hheld : ∀ x ∈ c.arguments, h.Held x)
      (hmagazine : ∀ pool magazine, c = .magazineHolder pool magazine →
        ∃ object, h.objects[magazine]? = some object ∧ object.cls = .poolMagazine) :
      Step h (.create c) (h.create c)
  | newObject (refs : List ℕ) (hheld : ∀ x ∈ refs, h.Held x) :
      Step h (.newObject refs) (h.alloc .other refs)
  | setRefs (x : ℕ) (refs : List ℕ) {object : JavaObject} (hobject : h.objects[x]? = some object)
      (hother : object.cls = .other) (hx : h.Held x) (hheld : ∀ y ∈ refs, h.Held y) :
      Step h (.setRefs x refs) (h.setRefs x refs)
  | hold (x : ℕ) (hheld : h.Held x) : Step h (.hold x) { h with roots := x :: h.roots }
  | drop (x : ℕ) : Step h (.drop x) { h with roots := h.roots.erase x }
  | dispose (x : ℕ) {object : JavaObject} (hobject : h.objects[x]? = some object)
      (hcls : object.cls = .closureMagazine) (hheld : h.Held x) :
      Step h (.dispose x) (h.release x object)
  /-- What frees the resource finds what it has captured. -/
  | clean (reg : Registration) {object action : JavaObject} (hreg : reg ∈ h.registered)
      (hfree : ¬h.StronglyReachable reg.object) (hobject : h.objects[reg.object]? = some object)
      (hcls : object.cls.HasResource) (haction : h.objects[reg.action]? = some action) :
      Step h (.clean reg)
        { h.release reg.object object with
          registered := h.registered.erase reg
          roots := action.refs ++ h.roots }
  /-- The action of a holder recycles its magazine. -/
  | recycle (reg : Registration) {object action : JavaObject} (hreg : reg ∈ h.registered)
      (hfree : ¬h.StronglyReachable reg.object) (hobject : h.objects[reg.object]? = some object)
      (hcls : object.cls = .magazineHolder) (haction : h.objects[reg.action]? = some action) :
      Step h (.clean reg)
        { h with registered := h.registered.erase reg, roots := action.refs ++ h.roots }

/-- The heaps that some actions lead to. -/
inductive Reached : List Act → Heap → Prop
  | initial : Reached [] .initial
  | step {acts : List Act} {h h' : Heap} {a : Act} (hrun : Reached acts h) (hstep : Step h a h') :
      Reached (acts ++ [a]) h'

/-! ### The invariant -/

/-- An object with a resource is kept by its action, which does not change. -/
structure Inv (h : Heap) : Prop where
  registered : ∀ reg ∈ h.registered, ∃ object action,
    h.objects[reg.object]? = some object ∧ h.objects[reg.action]? = some action ∧
      action.cls = .action ∧ (object.cls.HasResource → reg.object ∈ action.refs)
  released : h.released.Nodup
  disposed : ∀ x ∈ h.released, ∃ object, h.objects[x]? = some object ∧ object.disposed = true

variable {h h' : Heap} {a : Act} {acts : List Act}

theorem inv_initial : Inv initial where
  registered _ h := absurd h List.not_mem_nil
  released := List.nodup_nil
  disposed _ h := absurd h List.not_mem_nil

/-- The action that is registered for an object with a resource refers to the object itself, which
is thus strongly reachable from its registration. -/
theorem Inv.reaches (hI : Inv h) {reg : Registration} (hreg : reg ∈ h.registered)
    {object : JavaObject} (hobject : h.objects[reg.object]? = some object)
    (hcls : object.cls.HasResource) : h.Reaches reg.action reg.object := by
  obtain ⟨object', action, hobject', haction, -, hcaptured⟩ := hI.registered reg hreg
  cases hobject.symm.trans hobject'
  exact .single ⟨action, haction, hcaptured hcls⟩

/-- New objects that nothing refers to yet, and other roots, leave the registered actions as they
were. -/
theorem Inv.append (hI : Inv h) (objects : List JavaObject) (roots : List ℕ) :
    Inv { h with objects := h.objects ++ objects, roots := roots } := by
  have hkeep : ∀ {x : ℕ} {object : JavaObject}, h.objects[x]? = some object →
      (h.objects ++ objects)[x]? = some object := fun hobject => by
    rw [List.getElem?_append_left (List.getElem?_eq_some_iff.mp hobject).1]
    exact hobject
  refine ⟨fun reg hreg => ?_, hI.released, fun x hx => ?_⟩
  · obtain ⟨object, action, hobject, haction, hrest⟩ := hI.registered reg hreg
    exact ⟨object, action, hkeep hobject, hkeep haction, hrest⟩
  · obtain ⟨object, hobject, hdisposed⟩ := hI.disposed x hx
    exact ⟨object, hkeep hobject, hdisposed⟩

/-- A constructor adds its object and a registration whose action refers to it, if the object has a
resource. -/
theorem Inv.create (hI : Inv h) (c : Creation) : Inv (h.create c) := by
  have happend := hI.append
      [⟨c.cls, c.fields, false⟩, ⟨.action, c.captures h.objects.length, false⟩]
    (h.objects.length :: h.roots)
  refine ⟨fun reg hreg => ?_, happend.released, happend.disposed⟩
  rcases List.mem_cons.mp hreg with rfl | hreg
  · refine ⟨⟨c.cls, c.fields, false⟩, ⟨.action, c.captures h.objects.length, false⟩, ?_, ?_, rfl,
      fun hcls => Creation.this_mem_captures hcls _⟩
    · simp [Heap.create]
    · simp [Heap.create]
  · exact happend.registered reg hreg

/-- An object changes, but neither its class nor what an action refers to. -/
theorem Inv.modify (hI : Inv h) (x : ℕ) (f : JavaObject → JavaObject)
    (hcls : ∀ object, (f object).cls = object.cls)
    (hrefs : ∀ object, h.objects[x]? = some object → object.cls = .action →
      (f object).refs = object.refs)
    (hdisposed : ∀ object, object.disposed = true → (f object).disposed = true) :
    Inv { h with objects := h.objects.modify x f } := by
  have hget : ∀ {y : ℕ} {object : JavaObject}, h.objects[y]? = some object →
      (h.objects.modify x f)[y]? = some (if x = y then f object else object) := fun hobject => by
    rw [List.getElem?_modify, hobject]
    rfl
  refine ⟨fun reg hreg => ?_, hI.released, fun y hy => ?_⟩
  · obtain ⟨object, action, hobject, haction, hact, hcaptured⟩ := hI.registered reg hreg
    refine ⟨_, _, hget hobject, hget haction, ?_, ?_⟩
    · split
      · rw [hcls]
        exact hact
      · exact hact
    · intro hresource
      have hobjectCls : object.cls.HasResource := by
        split at hresource
        · rwa [hcls] at hresource
        · exact hresource
      split
      case isTrue heq =>
        rw [hrefs action (heq ▸ haction) hact]
        exact hcaptured hobjectCls
      case isFalse => exact hcaptured hobjectCls
  · obtain ⟨object, hobject, hy⟩ := hI.disposed y hy
    refine ⟨_, hget hobject, ?_⟩
    split
    · exact hdisposed object hy
    · exact hy

/-- **A step** keeps an object with a resource from being collected. -/
theorem Inv.step (hI : Inv h) (hstep : Step h a h') : Inv h' := by
  cases hstep with
  | create c => exact hI.create c
  | newObject refs => exact hI.append _ _
  | setRefs x refs hobject hother =>
    refine hI.modify x _ (fun _ => rfl) (fun object hobject' haction => ?_) fun _ h => h
    cases hobject.symm.trans hobject'
    exact absurd (hother.symm.trans haction) (by decide)
  | hold x => exact ⟨hI.registered, hI.released, hI.disposed⟩
  | drop x => exact ⟨hI.registered, hI.released, hI.disposed⟩
  | @dispose x object hobject =>
    rw [release]
    split
    case isTrue => exact hI
    case isFalse hdisposed =>
      have hmodify := hI.modify x (fun object => { object with disposed := true }) (fun _ => rfl)
        (fun _ _ _ => rfl) fun _ _ => rfl
      refine ⟨hmodify.registered, ?_, fun y hy => ?_⟩
      · refine List.nodup_append.mpr ⟨hI.released, List.nodup_singleton x, fun y hy z hz heq => ?_⟩
        obtain rfl := List.mem_singleton.mp hz
        subst heq
        obtain ⟨object', hobject', hdisposed'⟩ := hI.disposed y hy
        cases hobject.symm.trans hobject'
        exact hdisposed hdisposed'
      · rcases List.mem_append.mp hy with hy | hy
        · exact hmodify.disposed y hy
        · obtain rfl := List.mem_singleton.mp hy
          exact ⟨_, by rw [List.getElem?_modify, hobject]; rfl, by simp⟩
  | clean reg hreg hfree hobject hcls =>
    exact absurd (.inr ⟨reg, hreg, hI.reaches hreg hobject hcls⟩) hfree
  | recycle reg hreg =>
    exact ⟨fun reg' hreg' => hI.registered reg' (List.mem_of_mem_erase hreg'), hI.released,
      hI.disposed⟩

theorem Reached.inv (hrun : Reached acts h) : Inv h := by
  induction hrun with
  | initial => exact inv_initial
  | step _ hstep ih => exact ih.step hstep

/-! ### What is registered stays registered -/

/-- Some object with a resource is registered. -/
def KeepsResource (h : Heap) : Prop :=
  ∃ reg ∈ h.registered, ∃ object, h.objects[reg.object]? = some object ∧ object.cls.HasResource

/-- Nothing with a resource, and nothing for one, is there. -/
structure Bare (h : Heap) : Prop where
  registered : h.registered = []
  released : h.released = []
  cls : ∀ object ∈ h.objects, ¬object.cls.HasResource

theorem KeepsResource.append (hK : KeepsResource h) (objects : List JavaObject)
    (registered : List Registration) (roots : List ℕ) :
    KeepsResource { h with
      objects := h.objects ++ objects
      registered := registered ++ h.registered
      roots := roots } := by
  obtain ⟨reg, hreg, object, hobject, hcls⟩ := hK
  refine ⟨reg, List.mem_append_right _ hreg, object, ?_, hcls⟩
  rw [List.getElem?_append_left (List.getElem?_eq_some_iff.mp hobject).1]
  exact hobject

theorem KeepsResource.modify (hK : KeepsResource h) (x : ℕ) (f : JavaObject → JavaObject)
    (hcls : ∀ object, (f object).cls = object.cls) (released : List ℕ) :
    KeepsResource { h with objects := h.objects.modify x f, released := released } := by
  obtain ⟨reg, hreg, object, hobject, hresource⟩ := hK
  refine ⟨reg, hreg, if x = reg.object then f object else object, ?_, ?_⟩
  · rw [List.getElem?_modify, hobject]
    rfl
  · split
    · rwa [hcls]
    · exact hresource

/-- **Nothing with a resource is ever unregistered**: no step runs an action whose object is
strongly reachable, as every such object is from its own action. -/
theorem KeepsResource.step (hI : Inv h) (hK : KeepsResource h) (hstep : Step h a h') :
    KeepsResource h' := by
  cases hstep with
  | create c => exact hK.append _ [_] _
  | newObject refs => exact hK.append _ [] _
  | setRefs x refs =>
    exact hK.modify x (fun object => { object with refs := refs }) (fun _ => rfl) _
  | hold x => exact hK
  | drop x => exact hK
  | @dispose x object =>
    rw [release]
    split
    · exact hK
    · exact hK.modify x (fun object => { object with disposed := true }) (fun _ => rfl) _
  | clean reg hreg hfree hobject hcls =>
    exact absurd (.inr ⟨reg, hreg, hI.reaches hreg hobject hcls⟩) hfree
  | recycle reg hreg hfree hobject hcls =>
    obtain ⟨reg', hreg', object', hobject', hresource⟩ := hK
    refine ⟨reg', (List.mem_erase_of_ne ?_).mpr hreg', object', hobject', hresource⟩
    rintro rfl
    cases hobject.symm.trans hobject'
    rw [hcls] at hresource
    exact hresource

/-- The object that a constructor has just registered is one with a resource that is still
registered. -/
theorem keepsResource_create {c : Creation} (hc : c.cls.HasResource) :
    KeepsResource (h.create c) := by
  refine ⟨⟨h.objects.length, h.objects.length + 1⟩, List.mem_cons_self,
    ⟨c.cls, c.fields, false⟩, ?_, hc⟩
  simp [Heap.create]

theorem Bare.step (hB : Bare h) (hstep : Step h a h') (ha : ¬a.CreatesResource) : Bare h' := by
  have hnot : ∀ reg, reg ∉ h.registered := fun reg hreg => by
    rw [hB.registered] at hreg
    cases hreg
  cases hstep with
  | create c hheld hmagazine =>
    cases c with
    | magazineHolder pool magazine =>
      obtain ⟨object, hobject, hcls⟩ := hmagazine pool magazine rfl
      refine absurd ?_ (hB.cls object (List.mem_of_getElem? hobject))
      rw [hcls]
      trivial
    | callContext | aggregate | library | closureMagazine | poolMagazine => exact absurd trivial ha
  | newObject refs =>
    refine ⟨hB.registered, hB.released, fun object hobject => ?_⟩
    rcases List.mem_append.mp hobject with hobject | hobject
    · exact hB.cls object hobject
    · cases List.mem_singleton.mp hobject
      exact id
  | setRefs x refs =>
    refine ⟨hB.registered, hB.released, fun object hobject => ?_⟩
    obtain ⟨y, hy⟩ := List.mem_iff_getElem?.mp hobject
    change (h.objects.modify x _)[y]? = _ at hy
    rw [List.getElem?_modify] at hy
    obtain ⟨object', hobject', rfl⟩ := Option.map_eq_some_iff.mp hy
    split
    · exact hB.cls object' (List.mem_of_getElem? hobject')
    · exact hB.cls object' (List.mem_of_getElem? hobject')
  | hold x => exact ⟨hB.registered, hB.released, hB.cls⟩
  | drop x => exact ⟨hB.registered, hB.released, hB.cls⟩
  | dispose x hobject hcls =>
    refine absurd ?_ (hB.cls _ (List.mem_of_getElem? hobject))
    rw [hcls]
    trivial
  | clean reg hreg => exact absurd hreg (hnot reg)
  | recycle reg hreg => exact absurd hreg (hnot reg)

/-- In every heap reached by creating something with a resource, an object with a resource is
registered. -/
theorem Reached.keepsResource (hrun : Reached acts h) (hcreates : ∃ a ∈ acts, a.CreatesResource) :
    KeepsResource h := by
  induction hrun with
  | initial =>
    obtain ⟨a, ha, -⟩ := hcreates
    cases ha
  | @step acts h h' a hrun hstep ih =>
    by_cases hbefore : ∃ a ∈ acts, a.CreatesResource
    · exact (ih hbefore).step hrun.inv hstep
    · obtain ⟨a', ha', hcreate⟩ := hcreates
      rcases List.mem_append.mp ha' with ha' | ha'
      · exact absurd ⟨a', ha', hcreate⟩ hbefore
      · obtain rfl := List.mem_singleton.mp ha'
        cases hstep with
        | create c => exact keepsResource_create hcreate
        | newObject | setRefs | hold | drop | dispose | clean | recycle => exact hcreate.elim

theorem Reached.bare (hrun : Reached acts h) (hcreates : ∀ a ∈ acts, ¬a.CreatesResource) :
    Bare h := by
  induction hrun with
  | initial =>
    refine ⟨rfl, rfl, fun object hobject => ?_⟩
    cases List.mem_singleton.mp hobject
    exact id
  | step _ hstep ih =>
    exact (ih fun a ha => hcreates a (List.mem_append_left _ ha)).step hstep
      (hcreates _ (List.mem_append_right _ List.mem_cons_self))

/-- **Everything can be collected** exactly as long as nothing with a resource has been created. -/
theorem collectable_iff (hrun : Reached acts h) :
    Collectable h ↔ ∀ a ∈ acts, ¬a.CreatesResource := by
  constructor
  · intro hcollectable a ha hcreates
    obtain ⟨reg, hreg, object, hobject, hcls⟩ := hrun.keepsResource ⟨a, ha, hcreates⟩
    exact hcollectable.not_captured reg hreg (hrun.inv.reaches hreg hobject hcls)
  · intro hcreates
    have hbare := hrun.bare hcreates
    refine ⟨fun reg hreg => ?_, fun reg hreg => ?_, hrun.inv.released⟩
    · rw [hbare.registered] at hreg
      cases hreg
    · rw [hbare.registered] at hreg
      cases hreg

/-- A library that was opened and dropped. -/
def droppedLibrary : Heap := { initial.create .library with roots := [foreignInstance] }

theorem reached_droppedLibrary : Reached [.create .library, .drop 1] droppedLibrary := by
  have hcreated : Reached [.create .library] (initial.create .library) :=
    @Reached.step [] _ _ _ .initial
      (.create .library (fun _ hx => absurd hx List.not_mem_nil) fun _ _ hc => nomatch hc)
  exact hcreated.step (.drop 1)

/-- A library holds no resource of its own, so that once dropped it is collectable, as nothing with
a resource was created. -/
theorem collectable_iff_droppedLibrary :
    Collectable droppedLibrary ↔
      ∀ a ∈ [Act.create .library, .drop 1], ¬a.CreatesResource :=
  collectable_iff reached_droppedLibrary

theorem not_collectable_droppedLibrary :
    ¬∀ acts h, Reached acts h → Collectable h := by
  intro hall
  have hcollectable := hall _ _ reached_droppedLibrary
  exact hcollectable.not_captured ⟨1, 2⟩ List.mem_cons_self
    (.single ⟨⟨.action, [1, foreignInstance], false⟩, rfl, List.mem_cons_self⟩)

end Heap

end Jffi
