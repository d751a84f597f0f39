import Mathlib.Data.List.Infix
import Mathlib.Logic.Function.Defs
import Mathlib.Tactic.Common

/-!
# The library that was extracted before

`StubLoader.verifyExistingLibrary` compares a file with the packaged library. It reads both in one
loop, as long as the packaged one has more to read, and digests what the two reads return.

A read returns as many bytes as the stream likes, but at least one, when there are any. The digest
is a parameter.

## Main definitions

* `InputStream`, `InputStream.read` — a stream, with the sizes of its reads
* `StubLoader.digestLoop`, `StubLoader.verifyExistingLibrary`
* `InputStream.readsToEnd` — how many reads it takes to read all of it

## Main results

* `InputStream.readBytes_eq_iff` — when all has been read
* `StubLoader.verifyExistingLibrary_eq_ok_iff` — which files are accepted
* `StubLoader.accepts_identical_iff` — whether that is right
-/

namespace Jffi

/-- An `InputStream`, at the place that has been reached. -/
structure InputStream where
  rest : List UInt8
  /-- The sizes that the next reads have, as far as they can. -/
  reads : ℕ → ℕ

namespace InputStream

def available (s : InputStream) : ℕ := s.rest.length

/-- How many bytes the next read returns. -/
def readSize (size : ℕ) (s : InputStream) : ℕ := min (max 1 (s.reads 0)) size

/-- `read(buf)`: the bytes that are put into the buffer; none at the end, where it returns -1. -/
def read (size : ℕ) (s : InputStream) : List UInt8 × InputStream :=
  (s.rest.take (s.readSize size), ⟨s.rest.drop (s.readSize size), fun i => s.reads (i + 1)⟩)

end InputStream

namespace StubLoader

/-- `buf.length`. -/
def BUF_LENGTH : ℕ := 8192

/-- The `while` loop, for at most so many rounds, with what has been digested of the two streams. -/
def digestLoop : ℕ → InputStream × List UInt8 → InputStream × List UInt8 → List UInt8 × List UInt8
  | 0, (_, sourceMD), (_, targetMD) => (sourceMD, targetMD)
  | rounds + 1, (source, sourceMD), (target, targetMD) =>
    if 0 < source.available then
      let (xs, source) := source.read BUF_LENGTH
      let (ys, target) := target.read BUF_LENGTH
      digestLoop rounds (source, sourceMD ++ xs) (target, targetMD ++ ys)
    else (sourceMD, targetMD)

/-- The `SecurityException`s that are thrown. -/
inductive Mismatch
  | size (sourceSize targetSize : ℕ)
  | digest
  deriving DecidableEq, Repr

def Mismatch.message (dstFile : String) : Mismatch → String
  | .size sourceSize targetSize =>
    "file size mismatch: " ++ dstFile ++ " (" ++ toString targetSize ++
      ") does not match packaged library (" ++ toString sourceSize ++ ")"
  | .digest => "digest mismatch: " ++ dstFile ++ " does not match packaged library"

variable {D : Type} [DecidableEq D]

/-- `verifyExistingLibrary`. Every round reads some of the source. -/
def verifyExistingLibrary (sha256 : List UInt8 → D) (target source : InputStream) :
    Except Mismatch Unit :=
  if target.available ≠ source.available then
    .error (.size source.available target.available)
  else
    let (sourceMD, targetMD) := digestLoop source.available (source, []) (target, [])
    if sha256 sourceMD ≠ sha256 targetMD then .error .digest else .ok ()

end StubLoader

/-! ### Reading one of the streams -/

namespace InputStream

/-- The bytes that so many reads return. -/
def readBytes (size : ℕ) : ℕ → InputStream → List UInt8
  | 0, _ => []
  | n + 1, s => (s.read size).1 ++ readBytes size n (s.read size).2

/-- How many reads it takes to read all, counted up to a limit. -/
def countReads (size : ℕ) : ℕ → InputStream → ℕ
  | 0, _ => 0
  | n + 1, s => if s.rest = [] then 0 else countReads size n (s.read size).2 + 1

/-- How many reads it takes to read all. -/
def readsToEnd (size : ℕ) (s : InputStream) : ℕ := countReads size s.available s

variable {size : ℕ} {s : InputStream}

theorem readSize_pos (hsize : 0 < size) (s : InputStream) : 0 < s.readSize size := by
  rw [readSize]
  omega

theorem read_append (size : ℕ) (s : InputStream) :
    (s.read size).1 ++ (s.read size).2.rest = s.rest :=
  List.take_append_drop _ _

/-- What any number of reads return is the beginning of what the stream has. -/
theorem readBytes_prefix (size n : ℕ) (s : InputStream) : readBytes size n s <+: s.rest := by
  induction n generalizing s with
  | zero => exact List.nil_prefix
  | succ n ih =>
    rw [readBytes]
    conv_rhs => rw [← read_append size s]
    exact (List.prefix_append_right_inj _).mpr (ih _)

theorem readBytes_of_nil (hrest : s.rest = []) (n : ℕ) : readBytes size n s = [] :=
  List.prefix_nil.mp (hrest ▸ readBytes_prefix size n s)

/-- A read from a stream that is not at its end takes at least one byte away. -/
theorem length_read_lt (hsize : 0 < size) (hrest : s.rest ≠ []) :
    (s.read size).2.rest.length < s.rest.length := by
  have hpos := readSize_pos hsize s
  have hlength := List.length_pos_of_ne_nil hrest
  change (s.rest.drop (s.readSize size)).length < _
  rw [List.length_drop]
  omega

/-- **So many reads return all of the stream** just when it takes no more than that to read it to
its end. -/
theorem readBytes_eq_iff (hsize : 0 < size) {limit : ℕ} (hlimit : s.rest.length ≤ limit) (n : ℕ) :
    readBytes size n s = s.rest ↔ countReads size limit s ≤ n := by
  induction limit generalizing s n with
  | zero =>
    have hrest : s.rest = [] := List.eq_nil_of_length_eq_zero (Nat.le_zero.mp hlimit)
    rw [readBytes_of_nil hrest, hrest]
    exact iff_of_true rfl (Nat.zero_le n)
  | succ limit ih =>
    rw [countReads]
    split
    case isTrue hrest =>
      rw [readBytes_of_nil hrest, hrest]
      exact iff_of_true rfl (Nat.zero_le n)
    case isFalse hrest =>
      cases n with
      | zero => exact iff_of_false (fun h => hrest h.symm) (Nat.not_succ_le_zero _)
      | succ n =>
        have hlt := length_read_lt hsize hrest
        rw [readBytes, Nat.succ_le_succ_iff, ← ih (by omega) n]
        conv_lhs => rw [← read_append size s]
        exact List.append_right_inj _

end InputStream

/-! ### Reading both -/

namespace StubLoader

theorem BUF_LENGTH_pos : 0 < BUF_LENGTH := by decide

/-- **What is digested**: all of the source, and of the target what as many reads return. -/
theorem digestLoop_eq {rounds : ℕ} {source : InputStream} (hrounds : source.rest.length ≤ rounds)
    (sourceMD : List UInt8) (target : InputStream) (targetMD : List UInt8) :
    digestLoop rounds (source, sourceMD) (target, targetMD) =
      (sourceMD ++ source.rest,
        targetMD ++ target.readBytes BUF_LENGTH (source.countReads BUF_LENGTH rounds)) := by
  induction rounds generalizing source sourceMD target targetMD with
  | zero =>
    have hrest : source.rest = [] := List.eq_nil_of_length_eq_zero (Nat.le_zero.mp hrounds)
    rw [digestLoop, hrest, InputStream.countReads, InputStream.readBytes, List.append_nil,
      List.append_nil]
  | succ rounds ih =>
    rw [digestLoop, InputStream.countReads]
    by_cases hrest : source.rest = []
    · have havailable : ¬0 < source.available := by
        rw [InputStream.available, hrest]
        exact Nat.lt_irrefl 0
      rw [if_neg havailable, if_pos hrest, hrest, InputStream.readBytes, List.append_nil,
        List.append_nil]
    · have hlt := InputStream.length_read_lt BUF_LENGTH_pos hrest
      have havailable : 0 < source.available := List.length_pos_of_ne_nil hrest
      rw [if_pos havailable, if_neg hrest]
      dsimp only
      rw [ih (by omega), InputStream.readBytes, List.append_assoc, List.append_assoc,
        InputStream.read_append]

variable {D : Type} [DecidableEq D] {sha256 : List UInt8 → D}

/-- **Which files are accepted**: those with the same bytes, when all of them are read. -/
theorem verifyExistingLibrary_eq_ok_iff (hsha256 : Function.Injective sha256)
    (target source : InputStream) :
    verifyExistingLibrary sha256 target source = .ok () ↔
      target.rest = source.rest ∧
        target.readsToEnd BUF_LENGTH ≤ source.readsToEnd BUF_LENGTH := by
  have hread : target.readBytes BUF_LENGTH (source.readsToEnd BUF_LENGTH) = target.rest ↔
      target.readsToEnd BUF_LENGTH ≤ source.readsToEnd BUF_LENGTH :=
    InputStream.readBytes_eq_iff BUF_LENGTH_pos (Nat.le_refl _) _
  have hloop := @digestLoop_eq source.available source (Nat.le_refl _) [] target []
  rw [List.nil_append, List.nil_append] at hloop
  rw [verifyExistingLibrary, hloop]
  change (if target.available ≠ source.available then _ else
    if sha256 source.rest ≠
      sha256 (target.readBytes BUF_LENGTH (source.readsToEnd BUF_LENGTH)) then _ else _) = _ ↔ _
  by_cases hsize : target.available = source.available
  · rw [if_neg (not_not_intro hsize)]
    by_cases hdigest : source.rest = target.readBytes BUF_LENGTH (source.readsToEnd BUF_LENGTH)
    · -- a beginning of the target that is as long as the target
      have hprefix := InputStream.readBytes_prefix BUF_LENGTH (source.readsToEnd BUF_LENGTH) target
      rw [← hdigest] at hprefix hread
      have hsame : source.rest = target.rest := hprefix.eq_of_length hsize.symm
      rw [← hdigest, if_neg (not_not_intro rfl)]
      exact iff_of_true rfl ⟨hsame.symm, hread.mp hsame⟩
    · rw [if_pos fun h => hdigest (hsha256 h)]
      refine iff_of_false (fun h => by cases h) ?_
      rintro ⟨hsame, hreads⟩
      exact hdigest (hsame.symm.trans (hread.mpr hreads).symm)
  · rw [if_pos hsize]
    refine iff_of_false (fun h => by cases h) ?_
    rintro ⟨hsame, -⟩
    exact hsize (congrArg List.length hsame)

/-- **Identical files are accepted, and no others**, unless the file takes more reads than the
packaged library. -/
theorem accepts_identical_iff (hsha256 : Function.Injective sha256)
    (target source : InputStream) :
    (verifyExistingLibrary sha256 target source = .ok () ↔ target.rest = source.rest) ↔
      (target.rest = source.rest →
        target.readsToEnd BUF_LENGTH ≤ source.readsToEnd BUF_LENGTH) := by
  rw [verifyExistingLibrary_eq_ok_iff hsha256]
  exact and_iff_left_iff_imp

/-- The packaged library is read at once, and the file one byte after another. -/
theorem not_accepts_identical_shortReads :
    ¬(verifyExistingLibrary id ⟨[1, 2], fun _ => 1⟩ ⟨[1, 2], fun _ => 2⟩ = .ok () ↔
      ([1, 2] : List UInt8) = [1, 2]) := by
  intro h
  have hok := h.mpr rfl
  exact absurd hok (by decide)

/-- A file that is read in three steps. -/
def fileInTwos : InputStream := ⟨[1, 2, 3, 4, 5], fun _ => 2⟩

/-- The packaged library with the same bytes, read in four steps. -/
def libraryInPieces : InputStream := ⟨[1, 2, 3, 4, 5], fun i => 2 - i⟩

/-- Both streams return less than they are asked for, the file in fewer reads than the library, and
the verification succeeds just because their bytes are the same. -/
theorem accepts_identical_bothShort :
    verifyExistingLibrary id fileInTwos libraryInPieces = .ok () ↔
      fileInTwos.rest = libraryInPieces.rest :=
  (accepts_identical_iff Function.injective_id fileInTwos libraryInPieces).mpr (by decide)

end StubLoader

end Jffi
