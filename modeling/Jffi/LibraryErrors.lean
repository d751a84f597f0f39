import Jffi.Lib.Bytes
import Jffi.Lib.Runs

/-!
# Errors of the dynamic linker

A failed `dlopen` or `dlsym` leaves a message for the thread, which `dlerror` returns once. The
native functions put it into the exception they throw. `Library.dlopen` keeps the message of the
exception for `getLastError`, but `getSymbolAddress` asks `dlerror` for it, a second time.

Texts are the bytes that strings are made from. What the linker answers is a parameter of each call,
and so is what other threads and the collector do to the libraries that are kept.

## Main definitions

* `Linker` — the answers of the dynamic linker
* `Foreign.dlopen`, `Foreign.dlsym`, `Foreign.dlerror` — the natives, with the message of the thread
* `LibraryThread`, `LibraryThread.Act`, `LibraryThread.step` — one thread, and what it may call

## Main results

* `LibraryThread.reports_iff` — `getLastError` has the text of the last failure exactly when that
  was an open, and the text was not cut
-/

namespace Jffi

/-- A C string, without its end. -/
abbrev Text : Type := List Byte

def Text.ofString (s : String) : Text := s.toList.map fun c => BitVec.ofNat 8 c.toNat

/-- What is there when `dlerror` returns `NULL`, and when nothing has failed. -/
def unknown : Text := Text.ofString "unknown"

/-- What `dlopen` returns for a library. -/
abbrev DlHandle : Type := { handle : ℕ // handle ≠ 0 }

/-- The answers of the dynamic linker, or the messages that it leaves for `dlerror`. -/
structure Linker where
  dlopen : Option Text → BitVec 32 → Except Text DlHandle
  /-- The address of a symbol may be 0. -/
  dlsym : DlHandle → Text → Except Text ℕ

/-! ### The natives -/

/-- `snprintf(buf, size, "%s", text)`. -/
def snprintf (size : ℕ) (text : Text) : Text := text.take (size - 1)

/-- `dl_error`: what it writes, and the message it leaves. -/
def dl_error (size : ℕ) (message : Option Text) : Text × Option Text :=
  (snprintf size (message.getD unknown), none)

/-- The message of the exception that is thrown for a text. -/
def thrownMessage (text : Text) : Text := snprintf 1023 text

namespace Foreign

def RTLD_LAZY : BitVec 32 := 0x1
def RTLD_LOCAL : BitVec 32 := 0x4
def RTLD_GLOBAL : BitVec 32 := 0x8

/-- A call that failed, and left a message or not: it throws an `UnsatisfiedLinkError`. -/
def throwUnsatisfiedLink {α : Type} (message : Option Text) : Except Text α × Option Text :=
  let (errbuf, message) := dl_error 1023 message
  (.error (thrownMessage errbuf), message)

/-- `dlopen`: what it returns or throws, and the message of the thread afterwards. -/
def dlopen (linker : Linker) (name : Option Text) (flags : BitVec 32) (message : Option Text) :
    Except Text DlHandle × Option Text :=
  match linker.dlopen name flags with
  | .ok handle => (.ok handle, message)
  | .error text => throwUnsatisfiedLink (some text)

def dlsym (linker : Linker) (handle : DlHandle) (name : Text) : Except Text ℕ × Option Text :=
  match linker.dlsym handle name with
  | .ok address =>
    -- any message has been cleared
    if address = 0 then throwUnsatisfiedLink none else (.ok address, none)
  | .error text => throwUnsatisfiedLink (some text)

def dlerror (message : Option Text) : Text × Option Text := dl_error 1023 message

end Foreign

/-! ### A thread -/

/-- The class `Library`. -/
structure Library where
  handle : DlHandle

namespace Library

def LAZY : BitVec 32 := Foreign.RTLD_LAZY
def LOCAL : BitVec 32 := Foreign.RTLD_LOCAL
def GLOBAL : BitVec 32 := Foreign.RTLD_GLOBAL

end Library

/-- A call of the linker that failed, with the message it left for the thread. -/
inductive DlFailure
  | dlopen (text : Text)
  | dlsym (text : Option Text)
  deriving DecidableEq, Repr

def DlFailure.text : DlFailure → Option Text
  | .dlopen text => some text
  | .dlsym text => text

/-- What a thread knows of libraries. -/
structure LibraryThread where
  /-- The message that `dlerror` would return. -/
  message : Option Text
  lastError : Option Text
  /-- The libraries that are cached, and have not been collected. -/
  cache : Text → Option Library
  /-- `DefaultLibrary.INSTANCE`, once it has been initialised. -/
  defaultLibrary : Option (Option Library)
  /-- The last call of the linker that failed. -/
  lastFailure : Option DlFailure

namespace LibraryThread

def initial : LibraryThread := ⟨none, none, fun _ => none, none, none⟩

/-- `Library.dlopen`. -/
def dlopen (linker : Linker) (name : Option Text) (flags : BitVec 32) (s : LibraryThread) :
    Option DlHandle × LibraryThread :=
  let lastFailure := match linker.dlopen name flags with
    | .ok _ => s.lastFailure
    | .error text => some (.dlopen text)
  match Foreign.dlopen linker name flags s.message with
  | (.ok handle, message) =>
    (some handle, { s with message := message, lastFailure := lastFailure })
  | (.error exMessage, message) =>
    (none, { s with
      message := message
      lastError := some exMessage
      lastFailure := lastFailure })

/-- `Library.openLibrary`. -/
def openLibrary (linker : Linker) (name : Option Text) (flags : BitVec 32) (s : LibraryThread) :
    Option Library × LibraryThread :=
  -- dlopen on some OS does not like flags=0
  let flags := if flags = 0 then Library.LAZY ||| Library.LOCAL else flags
  (s.dlopen linker name flags).map (Option.map Library.mk) id

/-- `Library.getDefault`. -/
def getDefault (linker : Linker) (s : LibraryThread) : Option Library × LibraryThread :=
  match s.defaultLibrary with
  | some lib => (lib, s)
  | none =>
    let (lib, s) := s.openLibrary linker none (Library.LAZY ||| Library.GLOBAL)
    (lib, { s with defaultLibrary := some lib })

/-- `Library.getCachedInstance`. -/
def getCachedInstance (linker : Linker) (name : Option Text) (flags : BitVec 32)
    (s : LibraryThread) : Option Library × LibraryThread :=
  match name with
  | none => s.getDefault linker
  | some name =>
    match s.cache name with
    | some lib => (some lib, s)
    | none =>
      match s.openLibrary linker (some name) flags with
      | (none, s) => (none, s)
      | (some lib, s) => (some lib, { s with cache := Function.update s.cache name (some lib) })

/-- `Library.getSymbolAddress`. -/
def getSymbolAddress (linker : Linker) (lib : Library) (name : Text) (s : LibraryThread) :
    ℕ × LibraryThread :=
  let lastFailure := match linker.dlsym lib.handle name with
    | .ok address => if address = 0 then some (.dlsym none) else s.lastFailure
    | .error text => some (.dlsym (some text))
  match Foreign.dlsym linker lib.handle name with
  | (.ok address, message) =>
    (address, { s with message := message, lastFailure := lastFailure })
  | (.error _, message) =>
    let (error, message) := Foreign.dlerror message
    (0, { s with message := message, lastError := some error, lastFailure := lastFailure })

/-- `Library.getLastError`. -/
def getLastError (s : LibraryThread) : Text := s.lastError.getD unknown

/-- What the thread calls, or others do meanwhile. -/
inductive Act
  | openLibrary (linker : Linker) (name : Option Text) (flags : BitVec 32)
  | getDefault (linker : Linker)
  | getCachedInstance (linker : Linker) (name : Option Text) (flags : BitVec 32)
  | getSymbolAddress (linker : Linker) (lib : Library) (name : Text)
  | getLastError
  /-- Other threads open libraries, and libraries are collected. -/
  | others (cache : Text → Option Library) (defaultLibrary : Option (Option Library))

def step (a : Act) (s : LibraryThread) : Option LibraryThread :=
  match a with
  | .openLibrary linker name flags => some (s.openLibrary linker name flags).2
  | .getDefault linker => some (s.getDefault linker).2
  | .getCachedInstance linker name flags => some (s.getCachedInstance linker name flags).2
  | .getSymbolAddress linker lib name => some (s.getSymbolAddress linker lib name).2
  | .getLastError => some s
  | .others cache defaultLibrary =>
    some { s with cache := cache, defaultLibrary := defaultLibrary }

/-- `getLastError` returns the message the linker left when it last failed. -/
def Reports : Act → LibraryThread → Prop
  | .getLastError, s => ∀ failure ∈ s.lastFailure, failure.text = some s.getLastError
  | _, _ => True

/-- It last failed to open a library, and its message fits the buffers. Or its message for a symbol
was the word that is used when there is none. -/
def ReportableWhenAsked : Act → LibraryThread → Prop
  | .getLastError, s =>
    ∀ failure ∈ s.lastFailure,
      match failure with
      | .dlopen text => text.length ≤ 1022
      | .dlsym text => text = some unknown
  | _, _ => True

/-! ### What is kept of a failure -/

/-- What `lastError` has to do with the last failure. -/
def Keeps (s : LibraryThread) : Prop :=
  ∀ failure ∈ s.lastFailure,
    match failure with
    | .dlopen text => s.lastError = some (text.take 1022)
    | .dlsym _ => s.lastError = some unknown

variable {s s' : LibraryThread} {linker : Linker} {name : Option Text} {flags : BitVec 32}

/-- The message for a text is the text, cut at the size of the buffer. -/
theorem throwUnsatisfiedLink_some {α : Type} (text : Text) :
    (Foreign.throwUnsatisfiedLink (some text) : Except Text α × Option Text) =
      (.error (text.take 1022), none) := by
  simp only [Foreign.throwUnsatisfiedLink, dl_error, thrownMessage, snprintf, Option.getD_some,
    List.take_take]
  rfl

theorem Keeps.dlopen (h : s.Keeps) : (s.dlopen linker name flags).2.Keeps := by
  rw [LibraryThread.dlopen, Foreign.dlopen]
  cases linker.dlopen name flags with
  | ok handle => exact h
  | error text =>
    dsimp only
    rw [throwUnsatisfiedLink_some]
    intro failure hfailure
    cases hfailure
    rfl

theorem Keeps.openLibrary (h : s.Keeps) : (s.openLibrary linker name flags).2.Keeps :=
  h.dlopen

theorem Keeps.getDefault (h : s.Keeps) : (s.getDefault linker).2.Keeps := by
  rw [LibraryThread.getDefault]
  split
  · exact h
  · exact h.openLibrary

theorem Keeps.getCachedInstance (h : s.Keeps) :
    (s.getCachedInstance linker name flags).2.Keeps := by
  simp only [LibraryThread.getCachedInstance]
  split
  case h_1 => exact h.getDefault
  case h_2 name =>
    have hopen : (s.openLibrary linker (some name) flags).2.Keeps := h.openLibrary
    split
    case h_1 => exact h
    case h_2 =>
      split
      case h_1 s' heq => rwa [heq] at hopen
      case h_2 lib s' heq => rwa [heq] at hopen

/-- A search for a symbol keeps what `getLastError` relies on, though `dlerror` has been read by
then and only says "unknown". -/
theorem Keeps.getSymbolAddress (h : s.Keeps) (lib : Library) (symbol : Text) :
    (s.getSymbolAddress linker lib symbol).2.Keeps := by
  rw [LibraryThread.getSymbolAddress, Foreign.dlsym]
  cases linker.dlsym lib.handle symbol with
  | ok address =>
    by_cases hzero : address = 0
    · dsimp only
      rw [if_pos hzero, if_pos hzero]
      intro failure hfailure
      cases hfailure
      rfl
    · dsimp only
      rw [if_neg hzero, if_neg hzero]
      exact h
  | error text =>
    intro failure hfailure
    cases hfailure
    rfl

theorem Keeps.step {a : Act} (h : s.Keeps) (hstep : step a s = some s') : s'.Keeps := by
  cases a with
  | openLibrary linker name flags => exact Option.some.inj hstep ▸ h.openLibrary
  | getDefault linker => exact Option.some.inj hstep ▸ h.getDefault
  | getCachedInstance linker name flags => exact Option.some.inj hstep ▸ h.getCachedInstance
  | getSymbolAddress linker lib name => exact Option.some.inj hstep ▸ h.getSymbolAddress lib name
  | getLastError => exact Option.some.inj hstep ▸ h
  | others cache defaultLibrary => exact Option.some.inj hstep ▸ h

/-- When the invariant holds, `getLastError` reports the last failure if and only if its message got
through both buffers and `dlerror` had not been read. -/
theorem Keeps.reportable_iff (h : s.Keeps) (a : Act) : Reports a s ↔ ReportableWhenAsked a s := by
  cases a with
  | getLastError =>
    refine forall_congr' fun failure => forall_congr' fun hfailure => ?_
    have hkept := h failure hfailure
    cases failure with
    | dlopen text =>
      rw [getLastError, hkept]
      change some text = some (text.take 1022) ↔ text.length ≤ 1022
      rw [Option.some_inj, eq_comm, List.take_eq_self_iff]
    | dlsym text =>
      rw [getLastError, hkept]
      rfl
  | openLibrary | getDefault | getCachedInstance | getSymbolAddress | others => exact Iff.rfl

/-- **`getLastError` has the text of the last failure** exactly when that was an open whose text
fits. -/
theorem reports_iff (acts : List Act) :
    Always step Reports acts initial ↔ Always step ReportableWhenAsked acts initial := by
  have hinitial : initial.Keeps := fun failure h => nomatch h
  constructor
  · exact Always.of_invariant (fun a s hI => (hI.reportable_iff a).mp)
      (fun a s s' hI _ hstep => hI.step hstep) hinitial
  · exact Always.of_invariant (fun a s hI => (hI.reportable_iff a).mpr)
      (fun a s s' hI _ hstep => hI.step hstep) hinitial

/-- A linker without the symbol that is looked for. -/
def withoutSymbol : Linker where
  dlopen _ _ := .ok ⟨1, by decide⟩
  dlsym _ _ := .error (Text.ofString "undefined symbol: f")

/-- The library is opened, and the symbol is not found in it: `getLastError` does not say so. -/
theorem not_reports_undefinedSymbol :
    ¬Always step Reports
      [.openLibrary withoutSymbol none 0,
        .getSymbolAddress withoutSymbol ⟨⟨1, by decide⟩⟩ (Text.ofString "f"), .getLastError]
      initial := by
  intro h
  have hlast := ((h.2 _ rfl).2 _ rfl).1 (.dlsym (some (Text.ofString "undefined symbol: f"))) rfl
  exact absurd hlast (by decide)

end LibraryThread

end Jffi
