import Jffi.CallContext
import Jffi.StructCache

/-!
# The cache of call contexts

`CallContextCache.getCallContext` looks for a `Signature`. A signature keeps the array of the
parameter types that the caller passed in, and its hash code once that has been calculated, unless
it is zero. The number of fixed parameters of a variadic function is no part of it.

## Main definitions

* `Signature`, with `Signature.equals` and `Signature.hashCode`
* `CallContextCache.getCallContext` — the method that the other overloads call
* `CallContextCache.Act`, `CallContextCache.step`

## Main results

* `CallContextCache.getCallContext_asRequested` — what the returned context has, as long as the
  number of fixed parameters agrees with that of the cached context and keys are not written to
-/

namespace Jffi

/-- `CallContextCache.Signature`. -/
structure Signature (T : Type) where
  returnType : T
  /-- The array, not its contents. -/
  parameterTypes : ℕ
  convention : CallingConvention
  saveErrno : Bool
  faultProtect : Bool
  hashCode : BitVec 32

/-- What the constructor of `CallContext` keeps of its arguments. -/
structure TypedContext (T : Type) where
  returnType : T
  parameterTypes : List T
  fixedParamCount : BitVec 32
  flags : BitVec 32
  deriving DecidableEq, Repr

/-- The arguments of `getCallContext`. A type or an array may be `null`. -/
structure ContextRequest (T : Type) where
  returnType : Option T
  fixedParamCount : BitVec 32
  parameterTypes : Option ℕ
  convention : CallingConvention
  saveErrno : Bool
  faultProtect : Bool
  deriving DecidableEq, Repr

variable {T : Type} [DecidableEq T]

/-- Hash codes of types and of calling conventions. -/
structure HashCodes (T : Type) where
  ofType : T → BitVec 32
  ofConvention : CallingConvention → BitVec 32

namespace Signature

variable (hash : HashCodes T) (arrays : ℕ → List (Option T))

/-- `equals`. -/
def equals (sig other : Signature T) : Bool :=
  sig.convention = other.convention && sig.saveErrno == other.saveErrno &&
    sig.faultProtect == other.faultProtect && sig.returnType = other.returnType &&
    arrays sig.parameterTypes = arrays other.parameterTypes

/-- The hash of some parameter types. A `null` throws. -/
def paramHash (types : List (Option T)) : Option (BitVec 32) :=
  types.foldlM (fun h type => type.map fun t => 31 * h + hash.ofType t) 1

/-- `calculateHashCode`, for the parameter types `types`. -/
def calculate (returnType : T) (types : List (Option T)) (convention : CallingConvention)
    (saveErrno faultProtect : Bool) : Option (BitVec 32) := do
  let h := 53 * 7 + hash.ofType returnType
  let h := 53 * h + (← paramHash hash types)
  let h := 53 * h + hash.ofConvention convention
  let h := 53 * h + if saveErrno then 1 else 0
  return 53 * h + if faultProtect then 1 else 0

/-- `calculateHashCode`. -/
def calculateHashCode (sig : Signature T) : Option (BitVec 32) :=
  calculate hash sig.returnType (arrays sig.parameterTypes) sig.convention sig.saveErrno
    sig.faultProtect

/-- `hashCode`, which calculates anew what is zero. -/
def currentHashCode (sig : Signature T) : Option (BitVec 32) :=
  if sig.hashCode ≠ 0 then some sig.hashCode else calculateHashCode hash arrays sig

/-- A signature in the eyes of a `ConcurrentHashMap`. -/
def probe (sig : Signature T) : Option (Probe (BitVec 32) (Signature T)) :=
  (currentHashCode hash arrays sig).map fun h => ⟨spread h, sig.equals arrays⟩

end Signature

/-- The cache, and the contents of the arrays the callers have. -/
structure CallContextCache (T : Type) where
  arrays : ℕ → List (Option T)
  cache : RefCache (BitVec 32) (Signature T) (TypedContext T)

namespace CallContextCache

variable (hash : HashCodes T) (native : TypedContext T → Bool)

def initial (arrays : ℕ → List (Option T)) : CallContextCache T := ⟨arrays, .empty⟩

/-- `new CallContext(returnType, fixedParamCount, parameterTypes.clone(), …)`: a `null` throws, and
`Foreign.newCallContext` may. -/
def makeContext (returnType : T) (fixedParamCount : BitVec 32) (types : List (Option T))
    (convention : CallingConvention) (saveErrno faultProtect : Bool) : Option (TypedContext T) :=
  ((types.mapM id).map fun types =>
    ⟨returnType, types, fixedParamCount,
      CallContext.javaFlags convention saveErrno faultProtect⟩).filter native

/-- The signature of a request once its hash code has been asked for. -/
def signatureOf (arrays : ℕ → List (Option T)) (req : ContextRequest T) : Option (Signature T) :=
  match req.returnType, req.parameterTypes with
  | some returnType, some parameterTypes =>
    let sig : Signature T :=
      ⟨returnType, parameterTypes, req.convention, req.saveErrno, req.faultProtect, 0⟩
    (sig.currentHashCode hash arrays).map fun h => { sig with hashCode := h }
  | _, _ => none

/-- `getCallContext(returnType, fixedParamCount, parameterTypes, convention, saveErrno,
faultProtect)`: the context, unless it throws. -/
def getCallContext (req : ContextRequest T) (s : CallContextCache T) :
    Option (ℕ × TypedContext T) × CallContextCache T :=
  match signatureOf hash s.arrays req with
  | none => (none, s)
  | some sig =>
    let answer := s.cache.request (Signature.probe hash s.arrays) sig
      (makeContext native sig.returnType req.fixedParamCount (s.arrays sig.parameterTypes)
        req.convention req.saveErrno req.faultProtect)
    (answer.1, { s with cache := answer.2 })

/-- The overloads. -/
inductive Call (T : Type)
  | convention (returnType : Option T) (parameterTypes : Option ℕ) (convention : CallingConvention)
  | saveErrno (returnType : Option T) (parameterTypes : Option ℕ) (convention : CallingConvention)
    (saveErrno : Bool)
  | variadicSaveErrno (returnType : Option T) (fixedParamCount : BitVec 32)
    (parameterTypes : Option ℕ) (convention : CallingConvention) (saveErrno : Bool)
  | faultProtect (returnType : Option T) (parameterTypes : Option ℕ)
    (convention : CallingConvention) (saveErrno faultProtect : Bool)
  | variadic (req : ContextRequest T)
  deriving DecidableEq, Repr

/-- `parameterTypes.length` stands in for the number of fixed parameters. -/
def fixedArity (arrays : ℕ → List (Option T)) (returnType : Option T) (parameterTypes : Option ℕ)
    (convention : CallingConvention) (saveErrno faultProtect : Bool) : Option (ContextRequest T) :=
  parameterTypes.map fun array =>
    ⟨returnType, BitVec.ofNat 32 (arrays array).length, some array, convention,
    saveErrno, faultProtect⟩

/-- What an overload asks for, unless it throws. -/
def Call.request (arrays : ℕ → List (Option T)) : Call T → Option (ContextRequest T)
  | convention r ps c => fixedArity arrays r ps c true false
  | saveErrno r ps c e => fixedArity arrays r ps c e false
  | variadicSaveErrno r n ps c e => some ⟨r, n, ps, c, e, false⟩
  | faultProtect r ps c e f => fixedArity arrays r ps c e f
  | variadic req => some req

def call (c : Call T) (s : CallContextCache T) :
    Option (ℕ × TypedContext T) × CallContextCache T :=
  match c.request s.arrays with
  | none => (none, s)
  | some req => getCallContext hash native req s

/-- What happens, one thing after another. -/
inductive Act (T : Type)
  | call (c : Call T)
  /-- A caller writes to an array. -/
  | write (array index : ℕ) (type : Option T)
  /-- The collector clears a reference. -/
  | clear (ref : ℕ)
  /-- The collector puts a reference into the queue. -/
  | enqueue (ref : ℕ)
  /-- The map is resized. -/
  | transfer (i : ℕ)
  deriving DecidableEq, Repr

def step : Act T → CallContextCache T → Option (CallContextCache T)
  | .call c, s => some (call hash native c s).2
  | .write array index type, s =>
    some { s with arrays := Function.update s.arrays array ((s.arrays array).set index type) }
  | .clear r, s => some { s with cache := s.cache.clear r }
  | .enqueue r, s => (s.cache.enqueue r).map fun cache => { s with cache := cache }
  | .transfer i, s => some { s with cache := s.cache.transfer i }

/-- The context is what the request asks for. -/
structure IsFor (arrays : ℕ → List (Option T)) (req : ContextRequest T) (ctx : TypedContext T) :
    Prop where
  returnType : some ctx.returnType = req.returnType
  parameterTypes : req.parameterTypes.map arrays = some (ctx.parameterTypes.map some)
  fixedParamCount : ctx.fixedParamCount = req.fixedParamCount
  flags : ctx.flags = CallContext.javaFlags req.convention req.saveErrno req.faultProtect

/-- A call that returns a context returns one that is for the request. -/
def AsRequested : Act T → CallContextCache T → Prop
  | .call c, s =>
    ∀ req r ctx, c.request s.arrays = some req → (call hash native c s).1 = some (r, ctx) →
      IsFor s.arrays req ctx
  | _, _ => True

/-- No call comes to a context with another number of fixed parameters, and no write makes a key of
the cache hash as it did when it was put, with contents that are not the parameter types of the
context that is cached for it. -/
def KeepsKeys : Act T → CallContextCache T → Prop
  | .call c, s =>
    ∀ req sig p, c.request s.arrays = some req → signatureOf hash s.arrays req = some sig →
      sig.probe hash s.arrays = some p → ∀ e ∈ s.cache.table, e.Matches p →
      ∀ ctx, s.cache.referent e.ref = some ctx → ctx.fixedParamCount = req.fixedParamCount
  | .write array index type, s =>
    ∀ e ∈ s.cache.table, e.key.parameterTypes = array →
      ∀ ctx, s.cache.referent e.ref = some ctx →
      ∀ h, Signature.calculate hash e.key.returnType ((s.arrays array).set index type)
        e.key.convention e.key.saveErrno e.key.faultProtect = some h → spread h = e.hash →
      (s.arrays array).set index type = ctx.parameterTypes.map some
  | _, _ => True

/-- The entry is for the context that its key describes, or the hash of the key has changed. -/
structure Described (arrays : ℕ → List (Option T)) (e : Entry (BitVec 32) (Signature T))
    (ctx : TypedContext T) : Prop where
  returnType : ctx.returnType = e.key.returnType
  flags : ctx.flags = CallContext.javaFlags e.key.convention e.key.saveErrno e.key.faultProtect
  parameterTypes : ∀ h, e.key.calculateHashCode hash arrays = some h → spread h = e.hash →
    arrays e.key.parameterTypes = ctx.parameterTypes.map some

variable {hash native} {s s' : CallContextCache T} {req : ContextRequest T} {sig : Signature T}

omit [DecidableEq T] in
theorem makeContext_eq_some {returnType : T} {fixedParamCount : BitVec 32}
    {types : List (Option T)} {convention : CallingConvention} {saveErrno faultProtect : Bool}
    {ctx : TypedContext T}
    (h : makeContext native returnType fixedParamCount types convention saveErrno faultProtect =
      some ctx) :
    types = ctx.parameterTypes.map some ∧ ctx.returnType = returnType ∧
      ctx.fixedParamCount = fixedParamCount ∧
      ctx.flags = CallContext.javaFlags convention saveErrno faultProtect := by
  obtain ⟨types', htypes, rfl⟩ := Option.map_eq_some_iff.mp (Option.filter_eq_some_iff.mp h).1
  exact ⟨StructCache.eq_map_of_mapM_id htypes, rfl, rfl, rfl⟩

omit [DecidableEq T] in
/-- A signature is made of the request, and its hash code is up to date. -/
theorem signatureOf_eq_some {arrays : ℕ → List (Option T)}
    (h : signatureOf hash arrays req = some sig) :
    req.returnType = some sig.returnType ∧ req.parameterTypes = some sig.parameterTypes ∧
      req.convention = sig.convention ∧ req.saveErrno = sig.saveErrno ∧
      req.faultProtect = sig.faultProtect ∧
      sig.calculateHashCode hash arrays = some sig.hashCode := by
  unfold signatureOf at h
  split at h
  case h_1 returnType parameterTypes hr hp =>
    obtain ⟨code, hcode, rfl⟩ := Option.map_eq_some_iff.mp h
    exact ⟨hr, hp, rfl, rfl, rfl, hcode⟩
  case h_2 => cases h

theorem probe_of_calculate {arrays : ℕ → List (Option T)}
    (h : sig.calculateHashCode hash arrays = some sig.hashCode) :
    sig.probe hash arrays = some ⟨spread sig.hashCode, sig.equals arrays⟩ := by
  have hcurrent : sig.currentHashCode hash arrays = some sig.hashCode := by
    rw [Signature.currentHashCode]
    split
    · rfl
    · exact h
  rw [Signature.probe, hcurrent]
  rfl

theorem equals_iff {arrays : ℕ → List (Option T)} {other : Signature T} :
    sig.equals arrays other = true ↔
      sig.convention = other.convention ∧ sig.saveErrno = other.saveErrno ∧
        sig.faultProtect = other.faultProtect ∧ sig.returnType = other.returnType ∧
        arrays sig.parameterTypes = arrays other.parameterTypes := by
  simp [Signature.equals, and_assoc]

/-- Signatures that `equals` takes for the same have the same hash code, as a `HashMap` demands of
its keys. -/
theorem calculateHashCode_congr {arrays : ℕ → List (Option T)} {other : Signature T}
    (h : sig.equals arrays other = true) :
    other.calculateHashCode hash arrays = sig.calculateHashCode hash arrays := by
  obtain ⟨hc, he, hf, hr, hp⟩ := equals_iff.mp h
  rw [Signature.calculateHashCode, Signature.calculateHashCode, hc, he, hf, hr, hp]

/-- **A call answers with what is asked for**, when the entries are as they should be. -/
theorem getCallContext_isFor (h : s.cache.Sound (Described hash s.arrays))
    {r : ℕ} {ctx : TypedContext T}
    (hfixed : ∀ sig p, signatureOf hash s.arrays req = some sig →
      sig.probe hash s.arrays = some p → ∀ e ∈ s.cache.table, e.Matches p →
      ∀ ctx, s.cache.referent e.ref = some ctx → ctx.fixedParamCount = req.fixedParamCount)
    (hcall : (getCallContext hash native req s).1 = some (r, ctx)) : IsFor s.arrays req ctx := by
  unfold getCallContext at hcall
  split at hcall
  case h_1 => cases hcall
  case h_2 sig hsig =>
    obtain ⟨hr, hps, hc, he, hf, hcode⟩ := signatureOf_eq_some hsig
    obtain ⟨p, hp, hcases⟩ := RefCache.request_cases hcall
    have hprobe := probe_of_calculate hcode
    rcases hcases with ⟨e, hmem, hmatches, -, hreferent⟩ | hmake
    · have hcount := hfixed sig p hsig hp e hmem hmatches ctx hreferent
      obtain rfl := Option.some.inj (hp.symm.trans hprobe)
      obtain ⟨hhash, hequals⟩ := hmatches
      obtain ⟨hreturn, hflags, htypes⟩ := h.entry e hmem ctx hreferent
      obtain ⟨hc', he', hf', hr', hps'⟩ := equals_iff.mp hequals
      have htypes' := htypes _ ((calculateHashCode_congr hequals).trans hcode) hhash.symm
      refine ⟨?_, ?_, hcount, ?_⟩
      · rw [hreturn, hr, hr']
      · rw [hps, Option.map_some, hps', htypes']
      · rw [hflags, hc, he, hf, hc', he', hf']
    · obtain ⟨htypes, hreturn, hcount, hflags⟩ := makeContext_eq_some hmake
      refine ⟨?_, ?_, hcount, hflags⟩
      · rw [hreturn, hr]
      · rw [hps, Option.map_some, htypes]

theorem sound_getCallContext (h : s.cache.Sound (Described hash s.arrays)) :
    (getCallContext hash native req s).2.cache.Sound (Described hash s.arrays) := by
  rw [getCallContext]
  split
  case h_1 => exact h
  case h_2 sig hsig =>
    obtain ⟨-, -, hc, he, hf, hcode⟩ := signatureOf_eq_some hsig
    refine h.request fun p ctx hp hmake e hhash hkey => ?_
    obtain rfl := Option.some.inj (hp.symm.trans (probe_of_calculate hcode))
    obtain ⟨htypes, hreturn, -, hflags⟩ := makeContext_eq_some hmake
    have hequals : sig.equals s.arrays e.key = true := by
      rcases hkey with hkey | hequals
      · rw [hkey]
        exact equals_iff.mpr ⟨rfl, rfl, rfl, rfl, rfl⟩
      · exact hequals
    obtain ⟨hc', he', hf', hr', hps'⟩ := equals_iff.mp hequals
    refine ⟨?_, ?_, fun _ _ _ => ?_⟩
    · rw [hreturn, hr']
    · rw [hflags, hc, he, hf, hc', he', hf']
    · rw [← hps', htypes]

theorem arrays_getCallContext (s : CallContextCache T) :
    (getCallContext hash native req s).2.arrays = s.arrays := by
  rw [getCallContext]
  split <;> rfl

theorem sound_step (h : s.cache.Sound (Described hash s.arrays)) {a : Act T}
    (hkeeps : KeepsKeys hash a s) (hstep : step hash native a s = some s') :
    s'.cache.Sound (Described hash s'.arrays) := by
  cases a with
  | call c =>
    cases hstep
    rw [call]
    split
    case h_1 => exact h
    case h_2 req _ =>
      rw [arrays_getCallContext]
      exact sound_getCallContext h
  | write array index type =>
    cases hstep
    refine h.mono (fun _ he => he) rfl (fun _ _ hv => hv) fun e he ctx hreferent hdescribed => ?_
    refine ⟨hdescribed.returnType, hdescribed.flags, ?_⟩
    by_cases harray : e.key.parameterTypes = array
    · rw [Signature.calculateHashCode, harray]
      dsimp only
      rw [Function.update_self]
      exact hkeeps e he harray ctx hreferent
    · rw [Signature.calculateHashCode]
      dsimp only
      rw [Function.update_of_ne harray]
      exact hdescribed.parameterTypes
  | clear r =>
    cases hstep
    exact h.clear r
  | enqueue r =>
    obtain ⟨cache, hcache, rfl⟩ := Option.map_eq_some_iff.mp hstep
    exact h.enqueue hcache
  | transfer i =>
    cases hstep
    exact h.transfer i

/-- **Every context is what was asked for**, as long as requests that differ only in the number of
fixed parameters do not meet in the cache, and no key of the cache is given other contents with the
hash it was put under. -/
theorem getCallContext_asRequested (arrays : ℕ → List (Option T)) (acts : List (Act T))
    (h : Always (step hash native) (KeepsKeys hash) acts (initial arrays)) :
    Always (step hash native) (AsRequested hash native) acts (initial arrays) := by
  refine h.of_invariant (I := fun s => s.cache.Sound (Described hash s.arrays)) ?_ ?_
    (RefCache.sound_empty _)
  · intro a s hI hkeeps
    cases a with
    | call c =>
      intro req r ctx hreq hcall
      rw [call, hreq] at hcall
      exact getCallContext_isFor hI (fun sig p hsig hp => hkeeps req sig p hreq hsig hp) hcall
    | write | clear | enqueue | transfer => trivial
  · exact fun a s s' hI hkeeps hstep => sound_step hI hkeeps hstep

/-- Hash codes that tell nothing apart. -/
def constantHash : HashCodes NativeType := ⟨fun _ => 7, fun _ => 3⟩

/-- A function of two parameters, and a variadic one of which the first is fixed, with other
types. -/
theorem getCallContext_asRequested_variadic :
    Always (step constantHash fun _ => true) (AsRequested constantHash fun _ => true)
      [.call (.convention (some .sint32) (some 0) .default),
        .call (.variadicSaveErrno (some .sint32) 1 (some 1) .default true)]
      (initial fun array => [some .pointer, some (if array = 0 then .sint32 else .double)]) :=
  getCallContext_asRequested _ _
    ⟨fun _ _ _ _ _ _ e he => absurd he List.not_mem_nil, fun s hs => ⟨by
      cases hs
      intro req sig p hreq hsig hp e he hmatches
      cases hreq
      cases hsig
      cases hp
      obtain rfl := List.mem_singleton.mp he
      exact absurd hmatches (by decide), fun _ _ => trivial⟩⟩

/-- A variadic function of which the first parameter is fixed, and then a function of both. -/
theorem not_getCallContext_asRequested_fixed :
    ¬Always (step constantHash fun _ => true) (AsRequested constantHash fun _ => true)
      [.call (.variadicSaveErrno (some .sint32) 1 (some 0) .default true),
        .call (.convention (some .sint32) (some 0) .default)]
      (initial fun _ => [some .pointer, some .sint32]) := by
  intro h
  have hlast := (h.2 _ rfl).1 ⟨some .sint32, 2, some 0, .default, true, false⟩ 0
    ⟨.sint32, [.pointer, .sint32], 1, 0⟩ rfl rfl
  exact absurd hlast.fixedParamCount (by decide)

end CallContextCache

end Jffi
