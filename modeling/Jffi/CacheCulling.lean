import Jffi.CallContextCache
import Jffi.Lib.RefCacheThreads

/-!
# Culling the caches

`CallContextCache.getCallContext` and `Struct.newStruct` cull their caches in the same way, on
behalf of any number of threads: they take references from the queue of the collector, and remove
their keys from the map. They do not ask whether the map has still the same reference for the key.

Here the callers leave their arrays alone.

## Main definitions

* `HashedSignature` — the signatures the map comes to see
* `CullsOnlyCleared` — live entries are not culled, and are found again

## Main results

* `caches_cullOnlyCleared` — both caches cull only what has been cleared, as long as nothing is put
  under a key that is there
-/

namespace Jffi

variable {T : Type} [DecidableEq T]

theorem lawfulProbe_structCache (hashCode : T → BitVec 32) (arrays : ℕ → List (Option T)) :
    LawfulProbe (StructCache.probe hashCode arrays) where
  refl k := decide_eq_true rfl
  symm h := decide_eq_true (of_decide_eq_true h).symm
  trans h h' := decide_eq_true ((of_decide_eq_true h).trans (of_decide_eq_true h'))
  hash h := by
    have heq := of_decide_eq_true h
    rw [StructCache.probe, StructCache.probe, heq]

/-- A signature whose hash code has been asked for. -/
def HashedSignature (hash : HashCodes T) (arrays : ℕ → List (Option T)) : Type :=
  { sig : Signature T // sig.calculateHashCode hash arrays = some sig.hashCode }

namespace HashedSignature

variable {hash : HashCodes T} {arrays : ℕ → List (Option T)}

def probe (sig : HashedSignature hash arrays) :
    Probe (BitVec 32) (HashedSignature hash arrays) where
  hash := spread sig.1.hashCode
  equals other := sig.1.equals arrays other.1

/-- A map compares signatures through their hash codes and `equals`, and so it sees each as the list
of native types it stands for. -/
theorem exists_probe (sig : HashedSignature hash arrays) :
    ∃ p, sig.1.probe hash arrays = some p ∧ RefCache.SeesAs Subtype.val sig.probe p :=
  ⟨_, CallContextCache.probe_of_calculate sig.2, rfl, fun _ => rfl⟩

theorem lawfulProbe : LawfulProbe (probe : HashedSignature hash arrays → _) where
  refl sig := CallContextCache.equals_iff.mpr ⟨rfl, rfl, rfl, rfl, rfl⟩
  symm h := by
    obtain ⟨hc, he, hf, hr, hp⟩ := CallContextCache.equals_iff.mp h
    exact CallContextCache.equals_iff.mpr ⟨hc.symm, he.symm, hf.symm, hr.symm, hp.symm⟩
  trans h h' := by
    obtain ⟨hc, he, hf, hr, hp⟩ := CallContextCache.equals_iff.mp h
    obtain ⟨hc', he', hf', hr', hp'⟩ := CallContextCache.equals_iff.mp h'
    exact CallContextCache.equals_iff.mpr
      ⟨hc.trans hc', he.trans he', hf.trans hf', hr.trans hr', hp.trans hp'⟩
  hash {sig other} h := by
    have heq : other.1.calculateHashCode hash arrays = sig.1.calculateHashCode hash arrays :=
      CallContextCache.calculateHashCode_congr h
    rw [sig.2, other.2] at heq
    exact congrArg spread (Option.some.inj heq)

end HashedSignature

/-! ### The methods are what a thread does -/

section Calls

variable {hashCode : T → BitVec 32} {hash : HashCodes T} {arrays : ℕ → List (Option T)} {t : ℕ}

/-- What `Struct.newStruct` returns and leaves in the cache is what a run of the steps of its
thread, uninterrupted, leaves there. -/
theorem runs_newStruct (native : List T → Bool) (fields : ℕ)
    {s : Shared (BitVec 32) ℕ (List T)} (hpc : s.pc t = .idle) :
    ∃ acts s', (∀ a ∈ acts, a.By t) ∧
      runs (Shared.step (StructCache.probe hashCode arrays)) acts s = some s' ∧ s'.pc t = .idle ∧
      s'.cache = (StructCache.newStruct hashCode native fields ⟨arrays, s.cache⟩).2.cache := by
  obtain ⟨acts, s', hby, hruns, hpc', hcache, -⟩ := Shared.runs_request
    (StructCache.probe hashCode arrays) fields (StructCache.makeStruct native (arrays fields)) hpc
  exact ⟨acts, s', hby, hruns, hpc', hcache⟩

/-- What `CallContextCache.getCallContext` returns and leaves in the cache is what a run of the
steps of its thread, uninterrupted, leaves there. -/
theorem runs_getCallContext (native : TypedContext T → Bool) {req : ContextRequest T}
    {sig : HashedSignature hash arrays}
    (hsig : CallContextCache.signatureOf hash arrays req = some sig.1)
    {s : Shared (BitVec 32) (HashedSignature hash arrays) (TypedContext T)}
    (hpc : s.pc t = .idle) :
    ∃ acts s', (∀ a ∈ acts, a.By t) ∧
      runs (Shared.step HashedSignature.probe) acts s = some s' ∧ s'.pc t = .idle ∧
      s'.cache.mapKey Subtype.val = (CallContextCache.getCallContext hash native req
        ⟨arrays, s.cache.mapKey Subtype.val⟩).2.cache := by
  obtain ⟨acts, s', hby, hruns, hpc', hcache, -⟩ := Shared.runs_request
    HashedSignature.probe sig (CallContextCache.makeContext native sig.1.returnType
      req.fixedParamCount (arrays sig.1.parameterTypes) req.convention req.saveErrno
      req.faultProtect) hpc
  refine ⟨acts, s', hby, hruns, hpc', ?_⟩
  have hrequest := RefCache.request_mapKey HashedSignature.exists_probe sig
    (CallContextCache.makeContext native sig.1.returnType req.fixedParamCount
      (arrays sig.1.parameterTypes) req.convention req.saveErrno req.faultProtect) s.cache
  rw [CallContextCache.getCallContext, hsig]
  exact (congrArg (RefCache.mapKey Subtype.val) hcache).trans (congrArg Prod.snd hrequest).symm

end Calls

/-- No live entry is culled; and when all calls are made by one thread, what is still held is
returned again. -/
def CullsOnlyCleared {K V : Type} (probe : K → Probe (BitVec 32) K) (acts : List (SharedAct K V)) :
    Prop :=
  Always (Shared.step probe) (Shared.CullsCleared probe) acts .initial ∧
    ∀ t, (∀ a ∈ acts, a.By t) →
      Always (Shared.step probe) (Shared.SameInstance probe) acts .initial

/-- **Both caches cull only what has been cleared**, in every interleaving in which no thread puts
something under a key that is there. -/
theorem caches_cullOnlyCleared (hashCode : T → BitVec 32) (hash : HashCodes T)
    (arrays : ℕ → List (Option T)) :
    (∀ acts : List (SharedAct ℕ (List T)),
      Always (Shared.step (StructCache.probe hashCode arrays))
        (Shared.NoReplace (StructCache.probe hashCode arrays)) acts .initial →
      CullsOnlyCleared (StructCache.probe hashCode arrays) acts) ∧
    ∀ acts : List (SharedAct (HashedSignature hash arrays) (TypedContext T)),
      Always (Shared.step HashedSignature.probe) (Shared.NoReplace HashedSignature.probe) acts
        .initial →
      CullsOnlyCleared HashedSignature.probe acts := by
  have hstructs := lawfulProbe_structCache hashCode arrays
  have hcontexts : LawfulProbe (HashedSignature.probe : HashedSignature hash arrays → _) :=
    HashedSignature.lawfulProbe
  constructor
  · intro acts h
    exact ⟨Shared.cullsCleared hstructs h, fun t hby => Shared.sameInstance hstructs hby h⟩
  · intro acts h
    exact ⟨Shared.cullsCleared hcontexts h, fun t hby => Shared.sameInstance hcontexts hby h⟩

/-- The signature of a function of a pointer. -/
def pointerSignature : HashedSignature CallContextCache.constantHash fun _ => [some .pointer] :=
  ⟨⟨.sint32, 0, .default, true, false, 2988267624⟩, by decide⟩

/-- The fields of two structs. -/
def oneField (array : ℕ) : List (Option NativeType) :=
  [some (if array = 0 then .sint32 else .pointer)]

/-- A struct is made, cleared and enqueued. The request for other fields culls it, and the same
request is made again, for what is still held. -/
def structCulled : List (SharedAct ℕ (List NativeType)) :=
  [.start 0 0, .finish 0, .poll 0, .put 0 [.sint32], .release 0, .clear 0, .enqueue 0,
    .start 0 1, .finish 0, .poll 0, .remove 0, .poll 0, .put 0 [.pointer], .start 0 1, .finish 0]

/-- A context is made, cleared and enqueued. An equal request finds the cleared reference and culls
it, while another thread asks for a context too and then finds the new one. -/
def contextCulled :
    List (SharedAct (HashedSignature CallContextCache.constantHash fun _ => [some .pointer])
      (TypedContext NativeType)) :=
  [.start 1 pointerSignature, .finish 1, .poll 1, .put 1 ⟨.sint32, [.pointer], 1, 0⟩, .release 0,
    .clear 0, .enqueue 0, .start 1 pointerSignature, .finish 1, .poll 1, .remove 1, .poll 1,
    .put 1 ⟨.sint32, [.pointer], 1, 0⟩, .start 2 pointerSignature, .finish 2]

/-- In both caches a reference that was cleared reaches the queue, the next request culls it, and a
request equal to this one gets the new instance, which is still held. -/
theorem caches_cullOnlyCleared_culled :
    CullsOnlyCleared (StructCache.probe (fun _ => 7#32) oneField) structCulled ∧
    CullsOnlyCleared HashedSignature.probe contextCulled :=
  ⟨(caches_cullOnlyCleared (fun _ => 7#32) CallContextCache.constantHash oneField).1 structCulled
      (by decide),
    (caches_cullOnlyCleared (fun _ : NativeType => 7#32) CallContextCache.constantHash
      fun _ => [some .pointer]).2 contextCulled (by decide)⟩

/-- The reference to a struct reaches the queue when another struct has been cached for the same
fields. A call for other fields removes that one, which is still held, and makes a third one. -/
def lateReference : List (SharedAct ℕ (List Bool)) :=
  [.start 0 0, .finish 0, .poll 0, .put 0 [true], .release 0, .clear 0,
    .start 0 0, .finish 0, .poll 0, .put 0 [true], .enqueue 0, .start 0 1, .finish 0, .poll 0]

/-- The mapping that is removed is that of a struct which has not been cleared. -/
theorem not_caches_cullOnlyCleared_late :
    ¬CullsOnlyCleared (StructCache.probe (fun _ => 7#32) fun array => [some (array == 0)])
      (lateReference ++ .remove 0 :: [.poll 0, .put 0 [false]]) := by
  rintro ⟨h, -⟩
  obtain ⟨ref, href, hcleared⟩ := h.of_runs rfl 1 0 0 1 rfl rfl rfl
  cases href
  exact Bool.false_ne_true hcleared

end Jffi
