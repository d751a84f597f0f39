import Mathlib.Tactic.Common

/-!
# The stub loader

`StubLoader.load` tries one location after another: the files on the boot path and on the library
path, and then the library that is packaged, which it extracts. It keeps the errors of the paths,
and the last one of the extraction, and throws them at the end when there are any.

The file system, the virtual machine and the properties are parameters. A temporary file is known by
the directory that it is made in.

## Main definitions

* `Throwable`, `StubSystem` — what can be thrown, and what a machine answers
* `StubSystem.loadFromBootPath`, `StubSystem.loadFromJar`, `StubSystem.load`
* `Loading` — the errors, and the calls of `System.load`
* `StubSystem.Masked` — an error of a path that hides a later success

## Main results

* `StubSystem.tryAll_spec` — what becomes of the files on the paths
* `StubSystem.returns_iff` — `load` returns exactly when a library has been loaded, unless that
  happens
-/

namespace Jffi

/-- The classes that are told apart. -/
inductive ThrowableClass
  | unsatisfiedLinkError | securityException | ioException | other
  deriving DecidableEq, Repr

inductive Throwable
  | mk (cls : ThrowableClass) (message : String) (cause : Option Throwable)

def Throwable.cls : Throwable → ThrowableClass
  | mk cls _ _ => cls

def Throwable.message : Throwable → String
  | mk _ message _ => message

/-- What a machine answers, and how it is set up. -/
structure StubSystem where
  /-- `getOS() == OS.DARWIN`. -/
  darwin : Bool
  platformName : String
  /-- `System.mapLibraryName(libName)`. -/
  soname : String
  /-- `File.separator`. -/
  separator : String
  /-- `getBootPath`, the directories of the path. -/
  bootPath : Option (List String)
  /-- `java.library.path`. -/
  libraryPath : Option (List String)
  extractDir : Option String
  extractName : Option String
  userDir : String
  tmpdir : String
  tmpdirEnv : String
  isFile : String → Bool
  getAbsolutePath : String → String
  /-- `System.load`: what it throws. -/
  systemLoad : String → Option Throwable
  getStubLibraryStream : Except Throwable Unit
  calculateExtractPath : Option String → Except Throwable String
  fileExists : String → Bool
  verifyExistingLibrary : String → Except Throwable Unit
  unpackLibrary : String → Except Throwable Unit
  printStackTrace : Throwable → String

/-- The list of errors, and the calls of `System.load` with what each has thrown. -/
structure Loading where
  errors : List Throwable
  loads : List (String × Option Throwable)

namespace Loading

def initial : Loading := ⟨[], []⟩

/-- A library has been loaded. -/
def Loaded (s : Loading) : Prop := ∃ call ∈ s.loads, call.2 = none

end Loading

/-- Whether a library has been loaded, and what has happened. -/
abbrev Attempt : Type := Except Throwable Bool × Loading

/-- Goes on when no library has been loaded, and nothing thrown. -/
def Attempt.orElse (a : Attempt) (next : Loading → Attempt) : Attempt :=
  match a.1 with
  | .ok false => next a.2
  | _ => a

namespace StubSystem

variable (sys : StubSystem)

/-- `System.load(path)`. -/
def callLoad (path : String) (s : Loading) : Option Throwable × Loading :=
  (sys.systemLoad path, { s with loads := s.loads ++ [(path, sys.systemLoad path)] })

/-- `new File(dir, name)`. -/
def file (dir name : String) : String := dir ++ sys.separator ++ name

/-- The path with a different end; on Darwin a library ends with one of the two. -/
def getAlternateLibraryPath (path : String) : String :=
  if path.endsWith "dylib" then (path.dropEnd 5).toString ++ "jnilib"
  else (path.dropEnd 6).toString ++ "dylib"

/-! ### The paths -/

/-- The file is loaded, and an `UnsatisfiedLinkError` is kept. -/
def tryLoad (path : String) (s : Loading) : Attempt :=
  match sys.callLoad path s with
  | (none, s) => (.ok true, s)
  | (some t, s) =>
    if t.cls = .unsatisfiedLinkError then (.ok false, { s with errors := s.errors ++ [t] })
    else (.error t, s)

/-- A round of the loop of `loadFromBootPath`. -/
def loadFromDir (dir : String) (s : Loading) : Attempt :=
  let stub := sys.file (sys.file dir sys.platformName) sys.soname
  let stub := if sys.isFile stub then stub else sys.file dir sys.soname
  let path := sys.getAbsolutePath stub
  Attempt.orElse (if sys.isFile stub then sys.tryLoad path s else (.ok false, s)) fun s =>
    let path := getAlternateLibraryPath path
    if sys.darwin && sys.isFile path then sys.tryLoad path s else (.ok false, s)

def loadFromBootPath : List String → Loading → Attempt
  | [], s => (.ok false, s)
  | dir :: dirs, s => (sys.loadFromDir dir s).orElse (loadFromBootPath dirs)

/-! ### The packaged library -/

def TMPDIR_RECOMMENDATION : String :=
  "Set \x60" ++ sys.tmpdirEnv ++
    "\x60 or Java property \x60java.io.tmpdir\x60 to a read/write path that is not mounted \"noexec\"."

def TMPDIR_WRITE_ERROR : String :=
  "Unable to write jffi binary stub to \x60" ++ sys.tmpdir ++ "\x60."

def TMPDIR_EXEC_ERROR : String :=
  "Unable to execute or load jffi binary stub from \x60" ++ sys.tmpdir ++ "\x60."

def tempReadonlyError (ioe : Throwable) : Throwable :=
  .mk .ioException (sys.TMPDIR_WRITE_ERROR ++ " " ++ sys.TMPDIR_RECOMMENDATION) (some ioe)

def tempLoadError (ule : Throwable) : Throwable :=
  .mk .unsatisfiedLinkError
    (sys.TMPDIR_EXEC_ERROR ++ " " ++ sys.TMPDIR_RECOMMENDATION ++ "\n" ++ ule.message) none

/-- The file that the library is in, once it has been extracted or found to be there. -/
def install (tmpDirFile : Option String) : Except Throwable String :=
  let installed : Except Throwable String := do
    sys.getStubLibraryStream
    let dstFile ← sys.calculateExtractPath tmpDirFile
    if sys.extractName.isSome && sys.fileExists dstFile then sys.verifyExistingLibrary dstFile
    else sys.unpackLibrary dstFile
    return dstFile
  match installed with
  | .ok dstFile => .ok dstFile
  | .error t => .error (if t.cls = .ioException then sys.tempReadonlyError t else t)

def loadFromJar (tmpDirFile : Option String) (s : Loading) : Except Throwable Unit × Loading :=
  match sys.install tmpDirFile with
  | .error t => (.error t, s)
  | .ok dstFile =>
    match sys.callLoad (sys.getAbsolutePath dstFile) s with
    | (none, s) => (.ok (), s)
    | (some t, s) =>
      (.error (if t.cls = .unsatisfiedLinkError then sys.tempLoadError t else t), s)

/-! ### `load` -/

/-- All the errors at once, the last one first. -/
def rethrow (s : Loading) : Except Throwable Unit × Loading :=
  if s.errors.isEmpty then (.ok (), s)
  else
    (.error (.mk .unsatisfiedLinkError
      (String.join (s.errors.reverse.map sys.printStackTrace)) none), s)

/-- `load`, when no file on the paths has been loaded. -/
def loadExtracted (s : Loading) : Except Throwable Unit × Loading :=
  match sys.extractDir with
  | some dir =>
    match sys.loadFromJar (some dir) s with
    | (.ok (), s) => (.ok (), s)
    | (.error t, s) =>
      if t.cls = .securityException then (.error t, s)
      else
        (.error (.mk .unsatisfiedLinkError ("could not load jffi library from " ++ dir) (some t)),
          s)
  | none =>
    match sys.loadFromJar none s with
    | (.ok (), s) => (.ok (), s)
    | (.error t, s) =>
      if t.cls = .securityException then (.error t, s)
      else
        match sys.loadFromJar (some sys.userDir) s with
        | (.ok (), s) => sys.rethrow s
        | (.error t1, s) =>
          if t1.cls = .securityException then (.error t1, s)
          else sys.rethrow { s with errors := s.errors ++ [t1] }

def load : Except Throwable Unit × Loading :=
  match (sys.loadFromBootPath (sys.bootPath.getD []) .initial).orElse
      (sys.loadFromBootPath (sys.libraryPath.getD [])) with
  | (.error t, s) => (.error t, s)
  | (.ok true, s) => (.ok (), s)
  | (.ok false, s) => sys.loadExtracted s

/-! ### The files on the paths -/

/-- The files of a directory, in the order in which they are tried. -/
def candidates (dir : String) : List String :=
  let stub := sys.file (sys.file dir sys.platformName) sys.soname
  let stub := if sys.isFile stub then stub else sys.file dir sys.soname
  let path := sys.getAbsolutePath stub
  let alternate := getAlternateLibraryPath path
  (if sys.isFile stub then [path] else []) ++
    if sys.darwin && sys.isFile alternate then [alternate] else []

/-- The files on the boot path and on the library path. -/
def pathCandidates : List String :=
  (sys.bootPath.getD []).flatMap sys.candidates ++ (sys.libraryPath.getD []).flatMap sys.candidates

/-- The files are tried one after another, until one of them is loaded or throws. -/
def tryAll : List String → Loading → Attempt
  | [], s => (.ok false, s)
  | path :: paths, s => (sys.tryLoad path s).orElse (tryAll paths)

theorem orElse_assoc (a : Attempt) (f g : Loading → Attempt) :
    (a.orElse f).orElse g = a.orElse fun s => (f s).orElse g := by
  obtain ⟨result, s⟩ := a
  rcases result with t | loaded
  · rfl
  · cases loaded <;> rfl

theorem orElse_ok_false (a : Attempt) : (a.orElse fun s => (.ok false, s)) = a := by
  obtain ⟨result, s⟩ := a
  rcases result with t | loaded
  · rfl
  · cases loaded <;> rfl

theorem tryAll_append (paths paths' : List String) (s : Loading) :
    sys.tryAll (paths ++ paths') s = (sys.tryAll paths s).orElse (sys.tryAll paths') := by
  induction paths generalizing s with
  | nil => rfl
  | cons path paths ih =>
    rw [List.cons_append, tryAll, tryAll, orElse_assoc]
    exact congrArg _ (funext ih)

/-- A path that is only there under a condition is tried if it holds, and is no path otherwise. -/
theorem tryAll_ite (c : Prop) [Decidable c] (path : String) (s : Loading) :
    sys.tryAll (if c then [path] else []) s = if c then sys.tryLoad path s else (.ok false, s) := by
  split
  · exact orElse_ok_false _
  · rfl

theorem loadFromDir_eq (dir : String) (s : Loading) :
    sys.loadFromDir dir s = sys.tryAll (sys.candidates dir) s := by
  rw [loadFromDir, candidates, tryAll_append, tryAll_ite]
  exact congrArg _ (funext fun s => (sys.tryAll_ite _ _ s).symm)

theorem loadFromBootPath_eq (dirs : List String) (s : Loading) :
    sys.loadFromBootPath dirs s = sys.tryAll (dirs.flatMap sys.candidates) s := by
  induction dirs generalizing s with
  | nil => rfl
  | cons dir dirs ih =>
    rw [loadFromBootPath, List.flatMap_cons, tryAll_append, loadFromDir_eq]
    exact congrArg _ (funext ih)

/-- The file is there, and cannot be loaded. -/
def Unloadable (path : String) : Prop :=
  ∃ t, sys.systemLoad path = some t ∧ t.cls = .unsatisfiedLinkError

variable {sys} {s : Loading}

theorem loaded_callLoad_iff (path : String) (s : Loading) :
    (sys.callLoad path s).2.Loaded ↔ s.Loaded ∨ sys.systemLoad path = none := by
  simp [callLoad, Loading.Loaded, or_and_right, exists_or]

/-- Either no file on the paths can be loaded, and an error is kept if there is one, or the library
is loaded or an exception is thrown. -/
theorem tryAll_spec (paths : List String) (hs : ¬s.Loaded) :
    (∀ path ∈ paths, sys.Unloadable path) ∧
        (∃ s', sys.tryAll paths s = (.ok false, s') ∧ ¬s'.Loaded ∧
          (s'.errors = [] ↔ s.errors = [] ∧ paths = [])) ∨
      ¬(∀ path ∈ paths, sys.Unloadable path) ∧
        ((∃ s', sys.tryAll paths s = (.ok true, s') ∧ s'.Loaded) ∨
          ∃ t s', sys.tryAll paths s = (.error t, s') ∧ ¬s'.Loaded) := by
  induction paths generalizing s with
  | nil => exact .inl ⟨by simp, s, rfl, hs, by simp⟩
  | cons path paths ih =>
    have hloaded := @loaded_callLoad_iff sys path s
    rw [tryAll, tryLoad]
    cases hload : sys.systemLoad path with
    | none =>
      rw [callLoad, hload] at hloaded ⊢
      refine .inr ⟨fun hall => ?_, .inl ⟨_, rfl, hloaded.mpr (.inr rfl)⟩⟩
      obtain ⟨t, ht, -⟩ := hall path List.mem_cons_self
      cases hload.symm.trans ht
    | some t =>
      rw [callLoad, hload] at hloaded ⊢
      have hnot : ¬Loading.Loaded { s with loads := s.loads ++ [(path, some t)] } := by
        rw [hloaded]
        rintro (h | h)
        · exact hs h
        · cases h
      dsimp only
      by_cases hcls : t.cls = .unsatisfiedLinkError
      · rw [if_pos hcls]
        have hpath : sys.Unloadable path := ⟨t, hload, hcls⟩
        have hcons : (∀ path' ∈ path :: paths, sys.Unloadable path') ↔
            ∀ path' ∈ paths, sys.Unloadable path' := by
          rw [List.forall_mem_cons]
          exact and_iff_right hpath
        rw [hcons]
        rcases @ih { s with loads := s.loads ++ [(path, some t)], errors := s.errors ++ [t] }
            hnot with
          ⟨hall, s', heq, hs', herrors⟩ | hstop
        · refine .inl ⟨hall, s', heq, hs', ?_⟩
          rw [herrors]
          simp
        · exact .inr hstop
      · rw [if_neg hcls]
        refine .inr ⟨fun hall => ?_, .inr ⟨t, _, rfl, hnot⟩⟩
        obtain ⟨t', ht', hcls'⟩ := hall path List.mem_cons_self
        cases hload.symm.trans ht'
        exact hcls hcls'

/-! ### The packaged library -/

/-- What is thrown when the packaged library is extracted there and loaded. -/
def jarFailure (sys : StubSystem) (tmpDirFile : Option String) : Option Throwable :=
  match sys.install tmpDirFile with
  | .error t => some t
  | .ok dstFile => sys.systemLoad (sys.getAbsolutePath dstFile)

/-- When nothing fails, the library from the jar file is extracted and loaded, and no error is
added. -/
theorem loadFromJar_of_none {tmpDirFile : Option String} (h : sys.jarFailure tmpDirFile = none)
    (s : Loading) :
    ∃ s', sys.loadFromJar tmpDirFile s = (.ok (), s') ∧ s'.Loaded ∧ s'.errors = s.errors := by
  rw [jarFailure] at h
  rw [loadFromJar]
  cases hinstall : sys.install tmpDirFile with
  | error t =>
    rw [hinstall] at h
    cases h
  | ok dstFile =>
    rw [hinstall] at h
    have hloaded := (@loaded_callLoad_iff sys (sys.getAbsolutePath dstFile) s).mpr (.inr h)
    dsimp only at h ⊢
    rw [callLoad, h] at hloaded ⊢
    exact ⟨_, rfl, hloaded, rfl⟩

/-- When the library from the jar file cannot be extracted or loaded, an exception of the same class
is thrown. -/
theorem loadFromJar_of_some {tmpDirFile : Option String} {t : Throwable}
    (h : sys.jarFailure tmpDirFile = some t) (hs : ¬s.Loaded) :
    ∃ t' s', sys.loadFromJar tmpDirFile s = (.error t', s') ∧ t'.cls = t.cls ∧ ¬s'.Loaded ∧
      s'.errors = s.errors := by
  rw [jarFailure] at h
  rw [loadFromJar]
  cases hinstall : sys.install tmpDirFile with
  | error t' =>
    rw [hinstall] at h
    cases h
    exact ⟨t, s, rfl, rfl, hs, rfl⟩
  | ok dstFile =>
    rw [hinstall] at h
    have hloaded := @loaded_callLoad_iff sys (sys.getAbsolutePath dstFile) s
    dsimp only at h ⊢
    rw [callLoad, h] at hloaded ⊢
    refine ⟨_, _, rfl, ?_, fun hl => ?_, rfl⟩
    · split
      case isTrue hcls => exact hcls.symm
      case isFalse => rfl
    · rcases hloaded.mp hl with hl | hnone
      · exact hs hl
      · cases hnone

/-! ### `load` -/

/-- `load` returns exactly when a library has been loaded. -/
def Returns (sys : StubSystem) : Prop := sys.load.1 = .ok () ↔ sys.load.2.Loaded

/-- There is an error of a path, and what hides behind it is a success: the library could not be
extracted to the temporary directory or loaded from there, but from the working directory. -/
structure Masked (sys : StubSystem) : Prop where
  extractDir : sys.extractDir = none
  unloadable : ∀ path ∈ sys.pathCandidates, sys.Unloadable path
  found : sys.pathCandidates ≠ []
  tmpdir : ∃ t, sys.jarFailure none = some t ∧ t.cls ≠ .securityException
  workingDir : sys.jarFailure (some sys.userDir) = none

theorem rethrow_eq (sys : StubSystem) (s : Loading) :
    (sys.rethrow s).2 = s ∧ ((sys.rethrow s).1 = .ok () ↔ s.errors = []) := by
  rw [rethrow]
  cases s.errors with
  | nil => simp
  | cons t errors => simp

/-- When it comes down to the packaged library, returning means having loaded it, unless an error
has been kept and only the second attempt, in the user's directory, goes well. -/
theorem loadExtracted_iff (hs : ¬s.Loaded) :
    ((sys.loadExtracted s).1 = .ok () ↔ (sys.loadExtracted s).2.Loaded) ↔
      ¬(sys.extractDir = none ∧ s.errors ≠ [] ∧
        (∃ t, sys.jarFailure none = some t ∧ t.cls ≠ .securityException) ∧
        sys.jarFailure (some sys.userDir) = none) := by
  rw [loadExtracted]
  cases hdir : sys.extractDir with
  | some dir =>
    refine iff_of_true ?_ (fun h => by cases h.1)
    dsimp only
    cases hjar : sys.jarFailure (some dir) with
    | none =>
      obtain ⟨s', heq, hloaded, -⟩ := loadFromJar_of_none hjar s
      rw [heq]
      exact iff_of_true rfl hloaded
    | some t =>
      obtain ⟨t', s', heq, -, hloaded, -⟩ := loadFromJar_of_some hjar hs
      rw [heq]
      dsimp only
      split
      · exact iff_of_false (fun h => by cases h) hloaded
      · exact iff_of_false (fun h => by cases h) hloaded
  | none =>
    dsimp only
    cases htmp : sys.jarFailure none with
    | none =>
      refine iff_of_true ?_ (fun h => ?_)
      · obtain ⟨s', heq, hloaded, -⟩ := loadFromJar_of_none htmp s
        rw [heq]
        exact iff_of_true rfl hloaded
      · obtain ⟨-, -, ⟨t, ht, -⟩, -⟩ := h
        cases ht
    | some t =>
      obtain ⟨t', s', heq, hcls, hs', herrors⟩ := loadFromJar_of_some htmp hs
      rw [heq]
      dsimp only
      by_cases hsecurity : t'.cls = .securityException
      · rw [if_pos hsecurity]
        refine iff_of_true (iff_of_false (fun h => by cases h) hs') (fun h => ?_)
        obtain ⟨-, -, ⟨t₁, ht₁, hcls₁⟩, -⟩ := h
        cases ht₁
        exact hcls₁ (hcls.symm.trans hsecurity)
      · rw [if_neg hsecurity]
        have htmpCls : t.cls ≠ .securityException := fun h => hsecurity (hcls.trans h)
        cases hworking : sys.jarFailure (some sys.userDir) with
        | none =>
          -- only the errors of the paths are left
          obtain ⟨s'', heq', hloaded, herrors'⟩ := loadFromJar_of_none hworking s'
          obtain ⟨hstate, hok⟩ := rethrow_eq sys s''
          rw [heq']
          dsimp only
          rw [hok, hstate, herrors', herrors, iff_true_right hloaded]
          constructor
          · intro hnil h
            exact h.2.1 hnil
          · intro h
            by_contra hne
            exact h ⟨rfl, hne, ⟨t, rfl, htmpCls⟩, rfl⟩
        | some t₁ =>
          obtain ⟨t₁', s'', heq', -, hloaded, -⟩ := loadFromJar_of_some hworking hs'
          rw [heq']
          refine iff_of_true ?_ (fun h => by cases h.2.2.2)
          dsimp only
          split
          · exact iff_of_false (fun h => by cases h) hloaded
          · obtain ⟨hstate, hok⟩ := rethrow_eq sys { s'' with errors := s''.errors ++ [t₁'] }
            rw [hok, hstate]
            refine iff_of_false (fun h => ?_) hloaded
            exact List.append_ne_nil_of_right_ne_nil _ (List.cons_ne_nil _ _) h

/-- **`load` returns exactly when a library has been loaded**, unless an error of a path hides
it. -/
theorem returns_iff (sys : StubSystem) : sys.Returns ↔ ¬sys.Masked := by
  have hpaths : (sys.loadFromBootPath (sys.bootPath.getD []) .initial).orElse
      (sys.loadFromBootPath (sys.libraryPath.getD [])) =
        sys.tryAll sys.pathCandidates .initial := by
    rw [pathCandidates, tryAll_append, loadFromBootPath_eq]
    exact congrArg _ (funext fun s => sys.loadFromBootPath_eq _ s)
  have hinitial : ¬Loading.initial.Loaded := by
    rintro ⟨call, hcall, -⟩
    cases hcall
  rw [Returns, load, hpaths]
  rcases tryAll_spec sys.pathCandidates hinitial with
    ⟨hall, s, heq, hs, herrors⟩ | ⟨hstop, ⟨s, heq, hs⟩ | ⟨t, s, heq, hs⟩⟩
  · rw [heq]
    dsimp only
    rw [loadExtracted_iff hs, not_iff_not]
    have hfound : s.errors ≠ [] ↔ sys.pathCandidates ≠ [] :=
      not_congr (herrors.trans (and_iff_right rfl))
    rw [hfound]
    constructor
    · rintro ⟨hdir, hne, htmp, hworking⟩
      exact ⟨hdir, hall, hne, htmp, hworking⟩
    · rintro ⟨hdir, -, hne, htmp, hworking⟩
      exact ⟨hdir, hne, htmp, hworking⟩
  · rw [heq]
    exact iff_of_true (iff_of_true rfl hs) fun h => hstop h.unloadable
  · rw [heq]
    exact iff_of_true (iff_of_false (fun h => by cases h) hs) fun h => hstop h.unloadable

/-- A machine with a broken library on the library path, and no way to write to the temporary
directory. -/
def readonlyTmp : StubSystem where
  darwin := false
  platformName := "x86_64-Linux"
  soname := "libjffi-1.2.so"
  separator := "/"
  bootPath := none
  libraryPath := some ["/usr/lib"]
  extractDir := none
  extractName := none
  userDir := "/home"
  tmpdir := "/tmp"
  tmpdirEnv := "TMPDIR"
  isFile path := path == "/usr/lib/libjffi-1.2.so"
  getAbsolutePath path := path
  systemLoad path :=
    if path = "/usr/lib/libjffi-1.2.so" then
      some (.mk .unsatisfiedLinkError "wrong ELF class" none)
    else none
  getStubLibraryStream := .ok ()
  calculateExtractPath
    | none => .error (.mk .ioException "Read-only file system" none)
    | some dir => .ok (dir ++ "/jffi.so")
  fileExists _ := false
  verifyExistingLibrary _ := .ok ()
  unpackLibrary _ := .ok ()
  printStackTrace t := t.message

theorem not_returns_readonlyTmp : ¬readonlyTmp.Returns := by
  intro h
  have hloaded : readonlyTmp.load.2.Loaded :=
    ⟨("/home/jffi.so", none), List.mem_cons_of_mem _ List.mem_cons_self, rfl⟩
  have hok := h.mpr hloaded
  cases hok

end StubSystem

end Jffi
