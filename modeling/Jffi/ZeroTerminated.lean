import Jffi.Regions

/-!
# Zero terminated byte arrays

`putZeroTerminatedByteArray` writes the elements of a region and a zero byte.
`getZeroTerminatedByteArray` looks for the zero byte, with or without a limit, and copies what comes
before. The limit is an `int`. An overload for a `long` narrows it, in `MemoryIO.java` and again in
`deprecated.c`.

Fault protection is compiled out on every platform, so that `PROT` only runs its statement.

## Main definitions

* `Foreign.putZeroTerminatedByteArray`, `Foreign.getZeroTerminatedByteArray`, … — the natives
* `MemoryIO` — the two sets of natives a Java program can choose from
* `cString` — what comes before the first zero byte
* `RoundTrip` — what was put is what is got

## Main results

* `memchr_eq` — where the zero byte is
* `roundTrip_iff` — which limits give back what was put
-/

namespace Jffi

variable (pf : Platform)

/-! ### The functions -/

/-- `memchr(str, 0, n)`, which reads one byte after another and stops at a zero. -/
def memchr (s : Native) (str : ℕ) : ℕ → Option (Option ℕ)
  | 0 => some none
  | n + 1 =>
    match s.load (.addr str) 1 with
    | some [.byte b] => if b = 0 then some (some str) else memchr s (str + 1) n
    | _ => none

/-- `strlen(str)`, which may read all that comes after. -/
def strlen (s : Native) (str : ℕ) : Option ℕ :=
  match memchr s str (256 ^ pf.ptrSize - str) with
  | some (some zp) => some (zp - str)
  | _ => none

/-- An `int` where a `size_t` is expected. -/
def sizeT (n : ℤ) : ℕ := (n % 256 ^ pf.ptrSize).toNat

/-- `NewByteArray`. For a negative length there is no array, and what follows is given `NULL`. -/
def newByteArray (len : ℤ) (s : Native) : Option (Obj × Native) :=
  if 0 ≤ len then
    some (.array s.arrays.length,
      { s with arrays := s.arrays ++ [⟨.byte, List.replicate len.toNat (.byte 0)⟩] })
  else none

namespace Foreign

/-- `getZeroTerminatedByteArray(long)`. -/
def getZeroTerminatedByteArray (address : BitVec 64) (s : Native) : Option (Obj × Native) := do
  let str := nativeAddress pf address
  let len := toJint (← strlen pf s str)
  let (bytes, s) ← newByteArray len s
  let s ← s.setArrayRegion .byte bytes 0 len (.addr str)
  return (bytes, s)

def getZeroTerminatedByteArrayChecked (address : BitVec 64) (s : Native) :
    Option (Obj × Native) := do
  let str := nativeAddress pf address
  let len := toJint (← strlen pf s str)
  let (bytes, s) ← newByteArray len s
  let s ← s.setArrayRegion .byte bytes 0 len (.addr str)
  return (bytes, s)

/-- `getZeroTerminatedByteArray(long, int)`. -/
def getZeroTerminatedByteArrayMax (address : BitVec 64) (maxlen : BitVec 32) (s : Native) :
    Option (Obj × Native) := do
  let str := nativeAddress pf address
  let len := match ← memchr s str (sizeT pf maxlen.toInt) with
    | some zp => toJint (zp - str)
    | none => maxlen.toInt
  let (bytes, s) ← newByteArray len s
  let s ← s.setArrayRegion .byte bytes 0 len (.addr str)
  return (bytes, s)

def getZeroTerminatedByteArrayMaxChecked (address : BitVec 64) (maxlen : BitVec 32) (s : Native) :
    Option (Obj × Native) := do
  let str := nativeAddress pf address
  let zp ← memchr s str (sizeT pf maxlen.toInt)
  let len := match zp with
    | some zp => toJint (zp - str)
    | none => maxlen.toInt
  let (bytes, s) ← newByteArray len s
  let s ← s.setArrayRegion .byte bytes 0 len (.addr str)
  return (bytes, s)

/-- `getZeroTerminatedByteArray(long, long)`, which only old Java code binds to. -/
def getZeroTerminatedByteArrayDeprecated (address maxlen : BitVec 64) (s : Native) :
    Option (Obj × Native) :=
  getZeroTerminatedByteArrayMax pf address (maxlen.setWidth 32) s

def putZeroTerminatedByteArray (address : BitVec 64) (data : Option Obj) (offset length : ℤ)
    (s : Native) : Option Native := do
  let s ← s.getArrayRegion .byte data offset length (.ofLong pf address)
  s.store ((Ptr.ofLong pf address).add pf length) [.byte 0]

/-- `putZeroTerminatedByteArrayChecked`, which writes the zero bytes first. -/
def putZeroTerminatedByteArrayChecked (address : BitVec 64) (data : Option Obj) (offset length : ℤ)
    (s : Native) : Option Native := do
  let cp := Ptr.ofLong pf address
  let s ← s.store cp [.byte 0]
  let s ← s.store (cp.add pf length) [.byte 0]
  s.getArrayRegion .byte data offset length (.ofLong pf address)

end Foreign

/-- The `MemoryIO` of the program. `UnsafeMemoryIO` calls the natives that `unchecked` calls. -/
inductive MemoryIO
  | unchecked | checked
  deriving DecidableEq, Repr

namespace MemoryIO

def getZeroTerminatedByteArray : MemoryIO → BitVec 64 → Native → Option (Obj × Native)
  | unchecked => Foreign.getZeroTerminatedByteArray pf
  | checked => Foreign.getZeroTerminatedByteArrayChecked pf

/-- `getZeroTerminatedByteArray(long, int)`. -/
def getZeroTerminatedByteArrayInt : MemoryIO → BitVec 64 → BitVec 32 → Native →
    Option (Obj × Native)
  | unchecked => Foreign.getZeroTerminatedByteArrayMax pf
  | checked => Foreign.getZeroTerminatedByteArrayMaxChecked pf

/-- `getZeroTerminatedByteArray(long, long)`: `(int) maxlen`. -/
def getZeroTerminatedByteArrayLong (io : MemoryIO) (address maxlen : BitVec 64) :
    Native → Option (Obj × Native) :=
  io.getZeroTerminatedByteArrayInt pf address (maxlen.setWidth 32)

def putZeroTerminatedByteArray : MemoryIO → BitVec 64 → Option Obj → ℤ → ℤ → Native → Option Native
  | unchecked => Foreign.putZeroTerminatedByteArray pf
  | checked => Foreign.putZeroTerminatedByteArrayChecked pf

end MemoryIO

/-! ### The round trip -/

/-- What comes before the first zero byte. -/
def cString (xs : List Byte) : List Byte := xs.takeWhile (· ≠ 0)

/-- The elements of the range that is put. -/
def region (data : List Byte) (offset length : ℤ) : List Byte :=
  (data.drop offset.toNat).take length.toNat

/-- The bytes are returned in a new array, and nothing else has changed. -/
def Gets (s : Native) (bytes : List Byte) (o : Option (Obj × Native)) : Prop :=
  ∃ s', o = some (.array s.arrays.length, s') ∧
    Native.KeepsHeap { s with arrays := s.arrays ++ [⟨.byte, bytes.map .byte⟩] } s'

/-- Whoever looks for the text gets it, or as much of it as the limit allows. -/
structure GetsBack (address maxlen : BitVec 64) (text : List Byte) (s : Native) : Prop where
  unlimited : ∀ io : MemoryIO, Gets s text (io.getZeroTerminatedByteArray pf address s)
  ofInt : ∀ (io : MemoryIO) (n : BitVec 32), n.signExtend 64 = maxlen →
    Gets s (text.take maxlen.toNat) (io.getZeroTerminatedByteArrayInt pf address n s)
  ofLong : ∀ io : MemoryIO,
    Gets s (text.take maxlen.toNat) (io.getZeroTerminatedByteArrayLong pf address maxlen s)
  deprecated : Gets s (text.take maxlen.toNat)
    (Foreign.getZeroTerminatedByteArrayDeprecated pf address maxlen s)

/-- The elements and one zero byte are written, and the text is found again. -/
def RoundTrip (address maxlen : BitVec 64) (data : List Byte) (offset length : ℤ) : Prop :=
  ∀ (io : MemoryIO) (s : Native) (r : ℕ), s.arrays[r]? = some ⟨.byte, data.map .byte⟩ →
    ∃ s', io.putZeroTerminatedByteArray pf address (some (.array r)) offset length s = some s' ∧
      Native.KeepsHeap { s with
        ext := overlay s.ext (nativeAddress pf address)
          ((region data offset length ++ [0]).map .byte) } s' ∧
      GetsBack pf address maxlen (cString (region data offset length)) s'

/-! ### Looking for the zero byte -/

/-- The text and a zero byte lie at the start of the bytes. -/
theorem append_zero_eq (xs : List Byte) : ∃ tail, xs ++ [0] = (cString xs ++ [0]) ++ tail := by
  induction xs with
  | nil => exact ⟨[], rfl⟩
  | cons x xs ih =>
    by_cases hx : x = 0
    · subst hx
      exact ⟨xs ++ [0], rfl⟩
    · obtain ⟨tail, htail⟩ := ih
      refine ⟨tail, ?_⟩
      rw [cString, List.takeWhile_cons_of_pos (by simpa using hx), List.cons_append, htail]
      rfl

theorem ne_zero_of_mem_cString {xs : List Byte} {x : Byte} (h : x ∈ cString xs) : x ≠ 0 := by
  have hall := List.all_eq_true.mp (List.all_takeWhile (p := fun b => decide (b ≠ 0))) x h
  exact of_decide_eq_true hall

theorem length_cString_le (xs : List Byte) : (cString xs).length ≤ xs.length :=
  (List.takeWhile_sublist _).length_le

theorem extCells_succ (ext : ℕ → Cell) (a n : ℕ) :
    extCells ext a (n + 1) = ext a :: extCells ext (a + 1) n := by
  rw [Nat.add_comm n 1, extCells_append]
  rfl

/-- The text lies at `str`, with a zero byte after it. -/
def HoldsString (s : Native) (str : ℕ) (text : List Byte) : Prop :=
  (∀ x ∈ text, x ≠ 0) ∧ extCells s.ext str (text.length + 1) = (text ++ [0]).map .byte

/-- `memchr` finds the zero byte of a string, if it is among the first `n` bytes. -/
theorem memchr_eq {s : Native} {str : ℕ} {text : List Byte} (h : HoldsString s str text)
    (hstr : str ≠ 0) (n : ℕ) :
    memchr s str n = some (if text.length < n then some (str + text.length) else none) := by
  induction text generalizing str n with
  | nil =>
    cases n with
    | zero => rfl
    | succ n =>
      have hload : s.load (.addr str) 1 = some [.byte 0] :=
        (Native.load_addr hstr 1).trans (congrArg some h.2)
      rw [memchr, hload]
      exact (congrArg some (if_pos (Nat.succ_pos n))).symm
  | cons x text ih =>
    obtain ⟨hne, hcells⟩ := h
    rw [List.length_cons, extCells_succ, List.cons_append, List.map_cons] at hcells
    obtain ⟨hx, htext⟩ := List.cons.inj hcells
    cases n with
    | zero => rfl
    | succ n =>
      have hload : s.load (.addr str) 1 = some [.byte x] :=
        (Native.load_addr hstr 1).trans (congrArg (fun c => some [c]) hx)
      have hnext := ih ⟨fun y hy => hne y (List.mem_cons_of_mem x hy), htext⟩
          (Nat.succ_ne_zero str) n
      rw [memchr, hload]
      dsimp only
      rw [if_neg (hne x List.mem_cons_self), hnext, List.length_cons]
      simp only [Nat.add_lt_add_iff_right, Nat.add_assoc, Nat.add_comm 1]

theorem HoldsString.extCells_take {s : Native} {str : ℕ} {text : List Byte}
    (h : HoldsString s str text) {n : ℕ} (hn : n ≤ text.length) :
    extCells s.ext str n = (text.take n).map .byte := by
  obtain ⟨m, hm⟩ := Nat.exists_eq_add_of_le (Nat.le_add_right_of_le (k := 1) hn)
  have hcells := h.2
  rw [hm, extCells_append] at hcells
  have htake := congrArg (List.take n) hcells
  rw [List.take_left' (length_extCells _ _ _), ← List.map_take, List.take_append_of_le_length hn]
    at htake
  exact htake

/-! ### Getting -/

section Get

variable {pf} {s : Native} {str : ℕ} {text : List Byte} {address : BitVec 64}

/-- The state with a new array in it. -/
def withByteArray (s : Native) (cells : List Cell) : Native :=
  { s with arrays := s.arrays ++ [⟨.byte, cells⟩] }

theorem newByteArray_natCast (n : ℕ) (s : Native) :
    newByteArray n s =
      some (.array s.arrays.length, withByteArray s (List.replicate n (.byte 0))) :=
  if_pos (Int.natCast_nonneg n)

/-- A new array is filled with the first bytes of the text. -/
theorem gets_of_newByteArray (h : HoldsString s str text) (hstr : str ≠ 0) {n : ℕ}
    (hn : n ≤ text.length) :
    Gets s (text.take n) (do
      let (bytes, s) ← newByteArray n s
      let s ← s.setArrayRegion .byte bytes 0 n (.addr str)
      return (bytes, s)) := by
  have hlen : ((text.take n).map Cell.byte).length = n := by
    rw [List.length_map, List.length_take, Nat.min_eq_left hn]
  have hget : (withByteArray s (List.replicate n (.byte 0))).arrays[s.arrays.length]? =
      some ⟨.byte, List.replicate n (.byte 0)⟩ := by
    rw [withByteArray, List.getElem?_append_right (Nat.le_refl _), Nat.sub_self]
    rfl
  have hrange : Native.inRange 0 n (JavaArray.length ⟨.byte, List.replicate n (.byte 0)⟩) := by
    refine ⟨Int.le_refl 0, Int.natCast_nonneg n, ?_⟩
    simp [JavaArray.length, ComponentType.size]
  have hload : ((withByteArray s (List.replicate n (.byte 0))).logged (.jni .setArrayRegion)).load
      (.addr str) (n * ComponentType.byte.size) = some ((text.take n).map .byte) := by
    rw [Native.load_addr hstr, show n * ComponentType.byte.size = n from Nat.mul_one n]
    exact congrArg some (h.extCells_take hn)
  have hfilled : splice (List.replicate n (Cell.byte 0)) 0 ((text.take n).map .byte) =
      some ((text.take n).map .byte) := by
    rw [splice_eq_some, hlen, List.length_replicate]
    refine ⟨by omega, ?_⟩
    rw [Nat.zero_add, List.drop_of_length_le (by simp)]
    simp
  rw [newByteArray_natCast, Option.bind_eq_bind, Option.bind_some]
  dsimp only
  rw [Native.setArrayRegion_of_inRange hget hrange hload hfilled]
  refine ⟨_, rfl, ?_, rfl, rfl, rfl, rfl⟩
  change (s.arrays ++ [_]).set s.arrays.length _ = s.arrays ++ [_]
  rw [List.set_append_right _ _ (Nat.le_refl _), Nat.sub_self]
  rfl

/-- What `jffi` asks for is at most the limit, taken for a number without a sign. -/
theorem sizeT_lt_iff (n : BitVec 32) {k : ℕ} (hk : k < 2 ^ 31) :
    k < sizeT pf n.toInt ↔ k < n.toNat := by
  have hsize : (2 : ℤ) ^ 32 ≤ 256 ^ pf.ptrSize := by
    rcases pf.ptrSize_eq with hp | hp
    · simp [hp]
    · simp [hp]
  have hlt := n.isLt
  rw [sizeT, BitVec.toInt_eq_toNat_cond]
  split
  case isTrue h =>
    rw [Int.emod_eq_of_lt (by omega) (by omega), Int.toNat_natCast]
  case isFalse h =>
    have hwrap : ((n.toNat : ℤ) - (2 ^ 32 : ℕ)) % 256 ^ pf.ptrSize =
        n.toNat - (2 ^ 32 : ℕ) + 256 ^ pf.ptrSize := by
      rw [← Int.add_emod_right]
      exact Int.emod_eq_of_lt (by omega) (by omega)
    rw [hwrap]
    omega

theorem toJint_natCast {k : ℕ} (hk : k < 2 ^ 31) : toJint k = k :=
  toJint_of_bounds (by omega) (by omega)

section HoldsString

variable (h : HoldsString s (nativeAddress pf address) text)
  (hroom : HasRoom pf address (text.length + 1)) (hint : text.length < 2 ^ 31)
include h hroom hint

theorem strlen_eq : strlen pf s (nativeAddress pf address) = some text.length := by
  have hfits := hroom.fits
  change nativeAddress pf address + _ ≤ _ at hfits
  rw [strlen, memchr_eq h hroom.pos, if_pos (by omega)]
  exact congrArg some (Nat.add_sub_cancel_left _ _)

/-- Without a limit, what is returned is the text before the zero byte. -/
theorem gets_unlimited (io : MemoryIO) :
    Gets s text (io.getZeroTerminatedByteArray pf address s) := by
  have hgets := gets_of_newByteArray h hroom.pos (Nat.le_refl text.length)
  rw [List.take_length] at hgets
  cases io
  · change Gets s text (Foreign.getZeroTerminatedByteArray pf address s)
    rw [Foreign.getZeroTerminatedByteArray,
      strlen_eq h hroom hint, Option.bind_eq_bind, Option.bind_some, toJint_natCast hint]
    exact hgets
  · change Gets s text (Foreign.getZeroTerminatedByteArrayChecked pf address s)
    rw [Foreign.getZeroTerminatedByteArrayChecked,
      strlen_eq h hroom hint, Option.bind_eq_bind, Option.bind_some, toJint_natCast hint]
    exact hgets

/-- With a limit, which counts without its sign, what is returned is the text cut at the limit. -/
theorem gets_max (io : MemoryIO) (n : BitVec 32) :
    Gets s (text.take n.toNat) (io.getZeroTerminatedByteArrayInt pf address n s) := by
  have hmemchr := memchr_eq h hroom.pos (sizeT pf n.toInt)
  rw [ite_cond_congr (propext (sizeT_lt_iff n hint))] at hmemchr
  by_cases hn : text.length < n.toNat
  · have hgets := gets_of_newByteArray h hroom.pos (Nat.le_refl text.length)
    have hlen : ((nativeAddress pf address + text.length : ℕ) : ℤ) - nativeAddress pf address =
        text.length := by omega
    rw [if_pos hn] at hmemchr
    rw [List.take_length] at hgets
    rw [List.take_of_length_le (Nat.le_of_lt hn)]
    cases io
    · change Gets s _ (Foreign.getZeroTerminatedByteArrayMax pf address n s)
      rw [Foreign.getZeroTerminatedByteArrayMax, hmemchr,
        Option.bind_eq_bind, Option.bind_some]
      dsimp only
      rw [hlen, toJint_natCast hint]
      exact hgets
    · change Gets s _ (Foreign.getZeroTerminatedByteArrayMaxChecked pf address n s)
      rw [Foreign.getZeroTerminatedByteArrayMaxChecked, hmemchr,
        Option.bind_eq_bind, Option.bind_some]
      dsimp only
      rw [hlen, toJint_natCast hint]
      exact hgets
  · -- the limit is an `int` that is not negative
    have hgets := gets_of_newByteArray h hroom.pos (Nat.le_of_not_lt hn)
    have hsign : n.toInt = n.toNat := by
      rw [BitVec.toInt_eq_toNat_cond, if_pos (by omega)]
    rw [if_neg hn] at hmemchr
    cases io
    · change Gets s _ (Foreign.getZeroTerminatedByteArrayMax pf address n s)
      rw [Foreign.getZeroTerminatedByteArrayMax, hmemchr,
        Option.bind_eq_bind, Option.bind_some, hsign]
      exact hgets
    · change Gets s _ (Foreign.getZeroTerminatedByteArrayMaxChecked pf address n s)
      rw [Foreign.getZeroTerminatedByteArrayMaxChecked, hmemchr,
        Option.bind_eq_bind, Option.bind_some, hsign]
      exact hgets

end HoldsString

end Get

/-! ### Putting -/

/-- Two zero bytes that are written first, and the elements later: what remains are the elements and
one zero byte. -/
theorem overlay_zeros {α : Type} (m : ℕ → α) (a : ℕ) (xs : List α) (z : α) :
    overlay (overlay (overlay m a [z]) (a + xs.length) [z]) a xs = overlay m a (xs ++ [z]) := by
  rw [← overlay_overlay]
  funext i
  rcases Nat.lt_or_ge i a with hlt | hge
  · rw [overlay_of_lt _ hlt, overlay_of_lt _ (by omega), overlay_of_lt _ hlt,
      overlay_of_lt _ (by omega), overlay_of_lt _ hlt]
  · obtain ⟨k, rfl⟩ := Nat.exists_eq_add_of_le hge
    rcases Nat.lt_trichotomy k xs.length with hk | rfl | hk
    · rw [overlay_of_mem hk, overlay_of_lt _ (by omega), overlay_of_mem hk]
    · have hlast : ∀ m : ℕ → α, overlay m (a + xs.length) [z] (a + xs.length) = z := by
        intro m
        simp [overlay]
      rw [overlay_of_ge (Nat.le_refl _), hlast, hlast]
    · have hout : ∀ b ≤ a + xs.length, b + [z].length ≤ a + k := fun b hb => by
        rw [List.length_singleton]
        omega
      rw [overlay_of_ge (by omega), overlay_of_ge (hout _ (Nat.le_refl _)),
        overlay_of_ge (hout _ (Nat.le_add_right a _)), overlay_of_ge (hout _ (Nat.le_refl _)),
        overlay_of_ge (by omega)]

section Put

variable {pf} {s : Native} {r : ℕ} {address : BitVec 64} {data : List Byte} {offset length : ℤ}

theorem length_bytes (data : List Byte) :
    JavaArray.length ⟨.byte, data.map .byte⟩ = data.length := by
  simp [JavaArray.length, ComponentType.size]

theorem length_region (h : Native.inRange offset length data.length) :
    (region data offset length).length = length.toNat := by
  obtain ⟨h0, h1, h2⟩ := h
  rw [region, List.length_take, List.length_drop]
  omega

theorem slice_region (h : Native.inRange offset length data.length) :
    slice (data.map Cell.byte) (offset.toNat * ComponentType.byte.size)
      (length.toNat * ComponentType.byte.size) = some ((region data offset length).map .byte) := by
  obtain ⟨h0, h1, h2⟩ := h
  rw [slice_map, show offset.toNat * ComponentType.byte.size = offset.toNat from Nat.mul_one _,
    show length.toNat * ComponentType.byte.size = length.toNat from Nat.mul_one _]
  exact congrArg (Option.map (List.map Cell.byte)) (slice_eq_some.mpr ⟨by omega, rfl⟩)

/-- The elements of the range and one zero byte behind them are written, and nothing else changes.
-/
theorem putZeroTerminatedByteArray_eq (io : MemoryIO)
    (ha : s.arrays[r]? = some ⟨.byte, data.map .byte⟩)
    (hrange : Native.inRange offset length data.length)
    (hroom : HasRoom pf address (length.toNat + 1)) :
    ∃ s', io.putZeroTerminatedByteArray pf address (some (.array r)) offset length s = some s' ∧
      Native.KeepsHeap { s with
        ext := overlay s.ext (nativeAddress pf address)
          ((region data offset length ++ [0]).map .byte) } s' := by
  have hxs := slice_region hrange
  have hlen := length_region hrange
  have hfits := hroom.fits
  change nativeAddress pf address + _ ≤ _ at hfits
  obtain ⟨m, rfl⟩ := Int.eq_ofNat_of_zero_le hrange.2.1
  rw [Int.toNat_natCast] at hxs hlen hfits
  generalize region data offset m = xs at hxs hlen ⊢
  rw [← length_bytes data] at hrange
  have hend : (Ptr.ofLong pf address).add pf m = .addr (nativeAddress pf address + m) := by
    have hlt : ((nativeAddress pf address : ℤ) + m) < 256 ^ pf.ptrSize := by
      have h := Int.ofNat_lt.mpr (show nativeAddress pf address + m < 256 ^ pf.ptrSize by omega)
      rwa [Int.natCast_add, Int.natCast_pow] at h
    rw [ofLong_eq, Ptr.add, Int.emod_eq_of_lt (by omega) hlt, ← Int.natCast_add, Int.toNat_natCast]
  have hne : nativeAddress pf address + m ≠ 0 := by
    have := hroom.pos
    omega
  cases io
  · have hget := Native.getArrayRegion_addr ha hrange hroom.pos hxs
    have hext : overlay (overlay s.ext (nativeAddress pf address) (xs.map .byte))
        (nativeAddress pf address + m) [.byte 0] =
          overlay s.ext (nativeAddress pf address) ((xs ++ [0]).map .byte) := by
      rw [List.map_append, ← overlay_overlay, List.length_map, hlen]
      rfl
    refine ⟨{ s.logged (.jni .getArrayRegion) with
      ext := overlay s.ext (nativeAddress pf address) ((xs ++ [0]).map .byte) }, ?_,
      rfl, rfl, rfl, rfl, rfl⟩
    change Foreign.putZeroTerminatedByteArray pf address _ _ _ s = _
    rw [Foreign.putZeroTerminatedByteArray, hend, ofLong_eq, hget, Option.bind_eq_bind,
      Option.bind_some, Native.store_addr hne, ← hext]
  · have hget := Native.getArrayRegion_addr (s := { s with
      ext := overlay (overlay s.ext (nativeAddress pf address) [.byte 0])
        (nativeAddress pf address + m) [.byte 0] }) ha hrange hroom.pos hxs
    have hext := overlay_zeros s.ext (nativeAddress pf address) (xs.map Cell.byte) (.byte 0)
    rw [List.length_map, hlen] at hext
    refine ⟨{ s.logged (.jni .getArrayRegion) with
      ext := overlay s.ext (nativeAddress pf address) ((xs ++ [0]).map .byte) }, ?_,
      rfl, rfl, rfl, rfl, rfl⟩
    change Foreign.putZeroTerminatedByteArrayChecked pf address _ _ _ s = _
    rw [Foreign.putZeroTerminatedByteArrayChecked, hend, ofLong_eq, Native.store_addr hroom.pos,
      Option.bind_eq_bind, Option.bind_some, Native.store_addr hne, Option.bind_some, hget, hext,
      List.map_append]
    rfl

end Put

/-! ### There and back -/

section RoundTrip

variable {pf} {address maxlen : BitVec 64} {data : List Byte} {offset length : ℤ}

/-- The start of what was written to memory can be read back. -/
theorem extCells_overlay (ext : ℕ → Cell) (a : ℕ) (xs ys : List Cell) :
    extCells (overlay ext a (xs ++ ys)) a xs.length = xs := by
  refine List.ext_getElem (length_extCells _ _ _) fun i h h' => ?_
  have hi : i < (xs ++ ys).length := by
    rw [List.length_append]
    omega
  simp only [extCells, List.getElem_map, List.getElem_range]
  rw [overlay_of_mem hi, List.getElem_append_left h']

theorem holdsString_of_put {s s' : Native} {a : ℕ} {xs : List Byte}
    (h : Native.KeepsHeap { s with ext := overlay s.ext a ((xs ++ [0]).map .byte) } s') :
    HoldsString s' a (cString xs) := by
  refine ⟨fun x hx => ne_zero_of_mem_cString hx, ?_⟩
  obtain ⟨tail, htail⟩ := append_zero_eq xs
  have hext := extCells_overlay s.ext a ((cString xs ++ [0]).map .byte) (tail.map .byte)
  rw [List.length_map, List.length_append, ← List.map_append, ← htail] at hext
  rw [h.ext_eq]
  exact hext

/-- Two different prefixes of a text cannot both be what was returned. -/
theorem Gets.unique {s : Native} {xs ys : List Byte} {o : Option (Obj × Native)}
    (hx : Gets s xs o) (hy : Gets s ys o) : xs = ys := by
  obtain ⟨s', rfl, hs'⟩ := hx
  obtain ⟨s'', heq, hs''⟩ := hy
  cases heq
  have harrays := hs'.arrays_eq.symm.trans hs''.arrays_eq
  have hbytes : xs.map Cell.byte = ys.map Cell.byte := by
    have hlast := List.append_cancel_left harrays
    injection hlast with h _
    injection h
  exact List.map_injective_iff.mpr (fun _ _ h => Cell.byte.inj h) hbytes

/-- **What was put is what is got**, for every limit that its lower 32 bits do not make shorter than
the text. -/
theorem roundTrip_iff (hint : data.length < 2 ^ 31)
    (hrange : Native.inRange offset length data.length)
    (hroom : HasRoom pf address (length.toNat + 1)) :
    RoundTrip pf address maxlen data offset length ↔
      maxlen.toNat < 2 ^ 32 ∨
        (cString (region data offset length)).length ≤ maxlen.toNat % 2 ^ 32 := by
  have htext : (cString (region data offset length)).length ≤ length.toNat := by
    have h := length_cString_le (region data offset length)
    rwa [length_region hrange] at h
  have hshort : length.toNat < 2 ^ 31 := by
    obtain ⟨h0, h1, h2⟩ := hrange
    omega
  have hroom' : HasRoom pf address ((cString (region data offset length)).length + 1) :=
    ⟨hroom.ne_null, by have := hroom.fits; omega⟩
  have hnarrow : (maxlen.setWidth 32).toNat = maxlen.toNat % 2 ^ 32 :=
    BitVec.toNat_setWidth 32 maxlen
  constructor
  · intro h
    -- the array and the memory do not matter
    obtain ⟨s', -, hkeep, hback⟩ :=
        h .unchecked ⟨⟨[⟨.byte, data.map .byte⟩], [], fun _ => .undef, ⟨0, 0⟩⟩,
      none, 0, 0, 0, []⟩ 0 rfl
    have hholds := holdsString_of_put hkeep
    have hlong := gets_max hholds hroom' (by omega) .unchecked (maxlen.setWidth 32)
    have heq := (hback.ofLong .unchecked).unique hlong
    rw [hnarrow] at heq
    have hlen := congrArg List.length heq
    rw [List.length_take, List.length_take] at hlen
    omega
  · intro h io s r ha
    obtain ⟨s', hput, hkeep⟩ := putZeroTerminatedByteArray_eq io ha hrange hroom
    refine ⟨s', hput, hkeep, ?_⟩
    have hholds := holdsString_of_put hkeep
    have hmax' := gets_max hholds hroom' (by omega)
    have hsame : ∀ io : MemoryIO, Gets s' ((cString (region data offset length)).take maxlen.toNat)
        (io.getZeroTerminatedByteArrayInt pf address (maxlen.setWidth 32) s') := by
      intro io
      have hgets := hmax' io (maxlen.setWidth 32)
      rw [hnarrow] at hgets
      rcases h with hsmall | hlarge
      · rwa [Nat.mod_eq_of_lt hsmall] at hgets
      · have hmod := Nat.mod_le maxlen.toNat (2 ^ 32)
        rw [List.take_of_length_le hlarge] at hgets
        rwa [List.take_of_length_le (by omega)]
    refine ⟨gets_unlimited hholds hroom' (by omega), ?_, hsame, hsame .unchecked⟩
    rintro io n rfl
    have hnarrowed : (n.signExtend 64).setWidth 32 = n := by
      ext i hi
      rw [BitVec.getElem_setWidth, BitVec.getLsbD_signExtend, if_pos hi, decide_eq_true (by omega),
        Bool.true_and, BitVec.getLsbD_eq_getElem]
    have hgets := hsame io
    rwa [hnarrowed] at hgets

end RoundTrip

/-- `"te\0t"` from the second byte on, with a limit of `2 ^ 32 + 2`. -/
theorem roundTrip_iff_embedded :
    RoundTrip .linuxX64 4096 4294967298 [33, 116, 101, 0, 116] 1 4 ↔
      (4294967298 : BitVec 64).toNat < 2 ^ 32 ∨
        (cString (region [33, 116, 101, 0, 116] 1 4)).length ≤
          (4294967298 : BitVec 64).toNat % 2 ^ 32 :=
  roundTrip_iff (by decide) (by decide) ⟨by decide, by decide⟩

/-- `"test"` with a limit of `2 ^ 32 + 2` comes back as `"te"`. -/
theorem not_roundTrip_test :
    ¬RoundTrip .linuxX64 4096 4294967298 [116, 101, 115, 116] 0 4 := by
  intro h
  obtain ⟨s', -, hkeep, hback⟩ := h .unchecked
    ⟨⟨[⟨.byte, [116, 101, 115, 116].map .byte⟩], [], fun _ => .undef, ⟨0, 0⟩⟩, none, 0, 0, 0, []⟩ 0
    rfl
  have hlong := gets_max (holdsString_of_put hkeep)
    ⟨by decide, by decide⟩ (by decide) .unchecked ((4294967298 : BitVec 64).setWidth 32)
  exact absurd ((hback.ofLong .unchecked).unique hlong) (by decide)

end Jffi
