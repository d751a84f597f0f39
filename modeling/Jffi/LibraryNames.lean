import Jffi.Lib.Bytes

/-!
# Names for the dynamic linker

`getMultibyteString` copies the units of a Java string into wide characters, one by one, and has
`wcstombs` put the multibyte characters into a buffer. Nobody looks at what `wcstombs` returns. The
locale is one of UTF-8, where half of a surrogate pair is not a character.

## Main definitions

* `utf8`, `encodeUtf16` — the encoding of a string
* `wcstombs`, `getMultibyteString` — what the buffer holds
* `Foreign.dlopenName`, `Foreign.dlsymName` — what the natives do with it
* `Intact` — the linker gets the whole name, or nothing

## Main results

* `wcstombs_spec` — a buffer without a `NUL`, or what comes before the first one
* `intact_iff` — which names are intact
-/

namespace Jffi

/-! ### The encoding -/

/-- A code point in UTF-8. -/
def utf8 (c : ℕ) : List Byte :=
  if c < 0x80 then [BitVec.ofNat 8 c]
  else if c < 0x800 then [BitVec.ofNat 8 (0xc0 + c / 64), BitVec.ofNat 8 (0x80 + c % 64)]
  else if c < 0x10000 then
    [BitVec.ofNat 8 (0xe0 + c / 4096), BitVec.ofNat 8 (0x80 + c / 64 % 64),
      BitVec.ofNat 8 (0x80 + c % 64)]
  else
    [BitVec.ofNat 8 (0xf0 + c / 262144), BitVec.ofNat 8 (0x80 + c / 4096 % 64),
      BitVec.ofNat 8 (0x80 + c / 64 % 64), BitVec.ofNat 8 (0x80 + c % 64)]

def IsHighSurrogate (u : ℕ) : Prop := 0xd800 ≤ u ∧ u < 0xdc00

def IsLowSurrogate (u : ℕ) : Prop := 0xdc00 ≤ u ∧ u < 0xe000

def IsSurrogate (u : ℕ) : Prop := 0xd800 ≤ u ∧ u < 0xe000

instance (u : ℕ) : Decidable (IsHighSurrogate u) := by unfold IsHighSurrogate; infer_instance

instance (u : ℕ) : Decidable (IsLowSurrogate u) := by unfold IsLowSurrogate; infer_instance

instance (u : ℕ) : Decidable (IsSurrogate u) := by unfold IsSurrogate; infer_instance

/-- The encoding of the code points of a Java string; there is none for half of a pair. -/
def encodeUtf16 : List (BitVec 16) → Option (List Byte)
  | [] => some []
  | u :: us =>
    if IsHighSurrogate u.toNat then
      match us with
      | v :: vs =>
        if IsLowSurrogate v.toNat then
          (encodeUtf16 vs).map
            (utf8 (0x10000 + (u.toNat - 0xd800) * 0x400 + (v.toNat - 0xdc00)) ++ ·)
        else none
      | [] => none
    else if IsLowSurrogate u.toNat then none
    else (encodeUtf16 us).map (utf8 u.toNat ++ ·)

/-! ### The functions -/

/-- The multibyte character of a wide character. -/
def wcrtomb (w : ℕ) : Option (List Byte) :=
  if IsSurrogate w ∨ 0x110000 ≤ w then none else some (utf8 w)

/-- `wcstombs`: the bytes that are stored, and whether all characters were valid. -/
def wcstombs : ℕ → List ℕ → List Byte × Bool
  | _, [] => ([], true)
  | n, w :: ws =>
    match wcrtomb w with
    | none => ([], false)
    | some bytes =>
      if n < bytes.length then ([], true)
      else if w = 0 then (bytes, true)
      else (bytes ++ (wcstombs (n - bytes.length) ws).1, (wcstombs (n - bytes.length) ws).2)

/-- `getMultibyteString`: the buffer, and what is returned. -/
def getMultibyteString (dst : List Byte) (src : List (BitVec 16)) : List Byte × ℤ :=
  let wstr := src.map BitVec.toNat ++ [0]
  let (bytes, valid) := wcstombs dst.length wstr
  let stored := if bytes.getLast? = some 0 then bytes.length - 1 else bytes.length
  (bytes ++ dst.drop bytes.length, if valid then stored else -1)

/-- What becomes of a name: an exception, or a buffer that the linker gets. -/
inductive NameUse
  | thrown
  | passed (buffer : List Byte)

namespace Foreign

/-- `dlopen`, up to the call of `dl_open`. -/
def dlopenName (path_ : List Byte) (jPath : List (BitVec 16)) : NameUse :=
  .passed (getMultibyteString path_ jPath).1

/-- `dlsym`, up to the call of `dl_sym`. -/
def dlsymName (sym : List Byte) (jstr : List (BitVec 16)) : NameUse :=
  .passed (getMultibyteString sym jstr).1

end Foreign

/-- An exception is thrown, or the linker gets the encoding of the whole name with a `NUL` after
it. -/
def Intact (name : List (BitVec 16)) : NameUse → Prop
  | .thrown => True
  | .passed buffer => ∃ text, encodeUtf16 name = some text ∧ text ++ [0] <+: buffer

/-- The names without a `NUL` and without surrogates, when the buffer has room for the `NUL` after
them. -/
def Simple (size : ℕ) (name : List (BitVec 16)) : Prop :=
  (∀ u ∈ name, u ≠ 0 ∧ ¬IsSurrogate u.toNat) ∧ (name.flatMap fun u => utf8 u.toNat).length < size

/-! ### Characters -/

theorem ofNat_ne_zero {b : ℕ} (hpos : 0 < b) (hlt : b < 256) : BitVec.ofNat 8 b ≠ 0 := by
  intro h
  have hnat := congrArg BitVec.toNat h
  rw [BitVec.toNat_ofNat, Nat.mod_eq_of_lt hlt] at hnat
  exact Nat.ne_of_gt hpos hnat

/-- Only the code point zero has a zero byte in its UTF-8, so that a name without it does not end
early. -/
theorem ne_zero_of_mem_utf8 {c : ℕ} (hc : c ≠ 0) (hlt : c < 0x110000) {b : Byte}
    (hb : b ∈ utf8 c) : b ≠ 0 := by
  rw [utf8] at hb
  split at hb
  · rw [List.mem_singleton.mp hb]
    exact ofNat_ne_zero (by omega) (by omega)
  split at hb
  · simp only [List.mem_cons, List.not_mem_nil, or_false] at hb
    rcases hb with rfl | rfl
    · exact ofNat_ne_zero (by omega) (by omega)
    · exact ofNat_ne_zero (by omega) (by omega)
  split at hb
  · simp only [List.mem_cons, List.not_mem_nil, or_false] at hb
    rcases hb with rfl | rfl | rfl
    · exact ofNat_ne_zero (by omega) (by omega)
    · exact ofNat_ne_zero (by omega) (by omega)
    · exact ofNat_ne_zero (by omega) (by omega)
  · simp only [List.mem_cons, List.not_mem_nil, or_false] at hb
    rcases hb with rfl | rfl | rfl | rfl
    · exact ofNat_ne_zero (by omega) (by omega)
    · exact ofNat_ne_zero (by omega) (by omega)
    · exact ofNat_ne_zero (by omega) (by omega)
    · exact ofNat_ne_zero (by omega) (by omega)

/-- A unit that is not part of a pair is a character. -/
theorem wcrtomb_toNat {u : BitVec 16} (hu : ¬IsSurrogate u.toNat) :
    wcrtomb u.toNat = some (utf8 u.toNat) := by
  have hlt := u.isLt
  refine if_neg ?_
  rintro (h | h)
  · exact hu h
  · omega

/-- Characters in front that are not surrogates are encoded one by one, whatever follows. -/
theorem encodeUtf16_append {name : List (BitVec 16)}
    (hname : ∀ u ∈ name, ¬IsSurrogate u.toNat) (rest : List (BitVec 16)) :
    encodeUtf16 (name ++ rest) =
      (encodeUtf16 rest).map ((name.flatMap fun u => utf8 u.toNat) ++ ·) := by
  induction name with
  | nil =>
    rw [List.nil_append]
    cases encodeUtf16 rest <;> rfl
  | cons u us ih =>
    have hu := hname u List.mem_cons_self
    have hhigh : ¬IsHighSurrogate u.toNat := fun h => hu ⟨h.1, by have := h.2; omega⟩
    have hlow : ¬IsLowSurrogate u.toNat := fun h => hu ⟨by have := h.1; omega, h.2⟩
    rw [List.cons_append, encodeUtf16.eq_def]
    dsimp only
    rw [if_neg hhigh, if_neg hlow, ih fun v hv => hname v (List.mem_cons_of_mem u hv),
      Option.map_map]
    refine congrArg (Option.map · (encodeUtf16 rest)) (funext fun text => ?_)
    rw [Function.comp_apply, List.flatMap_cons, List.append_assoc]

theorem encodeUtf16_zero_cons (us : List (BitVec 16)) :
    encodeUtf16 (0 :: us) = (encodeUtf16 us).map (0 :: ·) := by
  have hhigh : ¬IsHighSurrogate (0 : BitVec 16).toNat := by decide
  have hlow : ¬IsLowSurrogate (0 : BitVec 16).toNat := by decide
  rw [encodeUtf16.eq_def]
  dsimp only
  rw [if_neg hhigh, if_neg hlow]
  rfl

/-! ### The buffer -/

/-- The encoding, when there is room for the `NUL` after it. -/
theorem wcstombs_of_simple {size : ℕ} {name : List (BitVec 16)} (h : Simple size name)
    (rest : List ℕ) :
    (wcstombs size (name.map BitVec.toNat ++ 0 :: rest)).1 =
      (name.flatMap fun u => utf8 u.toNat) ++ [0] := by
  obtain ⟨hname, hsize⟩ := h
  induction name generalizing size with
  | nil =>
    have hroom : ¬size < 1 := by
      rw [List.flatMap_nil, List.length_nil] at hsize
      omega
    exact congrArg Prod.fst (if_neg hroom)
  | cons u us ih =>
    obtain ⟨hne, hu⟩ := hname u List.mem_cons_self
    have hnat : u.toNat ≠ 0 := fun h0 => hne (BitVec.eq_of_toNat_eq h0)
    rw [List.flatMap_cons, List.length_append] at hsize
    rw [List.map_cons, List.cons_append, wcstombs, wcrtomb_toNat hu]
    dsimp only
    rw [if_neg (by omega), if_neg hnat]
    dsimp only
    rw [ih (fun v hv => hname v (List.mem_cons_of_mem u hv)) (by omega), List.flatMap_cons,
      List.append_assoc]

/-- `wcstombs` leaves a buffer without a zero byte, or it has encoded a simple name: the whole one,
or what comes before its first zero. -/
theorem wcstombs_spec (size : ℕ) (name : List (BitVec 16)) :
    (∀ b ∈ (wcstombs size (name.map BitVec.toNat ++ [0])).1, b ≠ 0) ∨
      ∃ before after, Simple size before ∧ (name = before ∨ name = before ++ 0 :: after) := by
  induction name generalizing size with
  | nil =>
    by_cases hroom : size < 1
    · refine .inl fun b hb => ?_
      have hnil : wcstombs size [0] = ([], true) := if_pos hroom
      rw [List.map_nil, List.nil_append, hnil] at hb
      cases hb
    · refine .inr ⟨[], [], ⟨by simp, ?_⟩, .inl rfl⟩
      rw [List.flatMap_nil, List.length_nil]
      omega
  | cons u us ih =>
    rw [List.map_cons, List.cons_append, wcstombs]
    by_cases hu : IsSurrogate u.toNat
    · have hnone : wcrtomb u.toNat = none := if_pos (.inl hu)
      rw [hnone]
      exact .inl fun b hb => by cases hb
    · rw [wcrtomb_toNat hu]
      dsimp only
      by_cases hroom : size < (utf8 u.toNat).length
      · rw [if_pos hroom]
        exact .inl fun b hb => by cases hb
      rw [if_neg hroom]
      by_cases hnat : u.toNat = 0
      · -- the name ends here, as far as `wcstombs` is concerned
        have hzero : u = 0 := BitVec.eq_of_toNat_eq hnat
        refine .inr ⟨[], us, ⟨by simp, ?_⟩, .inr (by rw [hzero]; rfl)⟩
        rw [hnat] at hroom
        rw [List.flatMap_nil, List.length_nil]
        exact Nat.lt_of_lt_of_le (by decide) (Nat.le_of_not_lt hroom)
      · rw [if_neg hnat]
        rcases ih (size - (utf8 u.toNat).length) with hall |
          ⟨before, after, ⟨hbefore, hsize⟩, hname⟩
        · refine .inl fun b hb => ?_
          rcases List.mem_append.mp hb with hb | hb
          · exact ne_zero_of_mem_utf8 hnat (by have := u.isLt; omega) hb
          · exact hall b hb
        · refine .inr ⟨u :: before, after, ⟨fun v hv => ?_, ?_⟩, ?_⟩
          · rcases List.mem_cons.mp hv with rfl | hv
            · exact ⟨fun h0 => hnat (congrArg BitVec.toNat h0), hu⟩
            · exact hbefore v hv
          · rw [List.flatMap_cons, List.length_append]
            omega
          · rcases hname with rfl | rfl
            · exact .inl rfl
            · exact .inr rfl

/-- A buffer that nothing has been stored to. -/
def fresh (size : ℕ) : List Byte := List.replicate size 0xff

theorem zero_notMem_drop_fresh (size n : ℕ) : (0 : Byte) ∉ (fresh size).drop n := by
  intro h
  exact absurd (List.eq_of_mem_replicate (List.mem_of_mem_drop h)) (by decide)

/-- A name that is not simple is not intact in a fresh buffer. -/
theorem simple_of_intact {size : ℕ} {name : List (BitVec 16)}
    (h : Intact name (.passed (getMultibyteString (fresh size) name).1)) : Simple size name := by
  obtain ⟨text, htext, hprefix⟩ := h
  have hlength : (fresh size).length = size := List.length_replicate
  change text ++ [0] <+: (wcstombs (fresh size).length _).1 ++ (fresh size).drop _ at hprefix
  rw [hlength] at hprefix
  rcases wcstombs_spec size name with hall | ⟨before, after, hsimple, hname⟩
  · -- there is no `NUL` at all
    have hmem := hprefix.subset (List.mem_append_right text (List.mem_singleton_self 0))
    rcases List.mem_append.mp hmem with hmem | hmem
    · exact absurd rfl (hall 0 hmem)
    · exact absurd hmem (zero_notMem_drop_fresh _ _)
  · rcases hname with rfl | rfl
    · exact hsimple
    · -- what comes after the first `NUL` of the name is not in the buffer
      have hstored := wcstombs_of_simple hsimple (after.map BitVec.toNat ++ [0])
      rw [encodeUtf16_append fun u hu => (hsimple.1 u hu).2] at htext
      rw [encodeUtf16_zero_cons, Option.map_map] at htext
      obtain ⟨text₂, -, rfl⟩ := Option.map_eq_some_iff.mp htext
      have hunits : (before ++ 0 :: after).map BitVec.toNat ++ [0] =
          before.map BitVec.toNat ++ 0 :: (after.map BitVec.toNat ++ [0]) := by simp
      rw [hunits, Function.comp_apply] at hprefix
      rw [hstored, List.append_assoc, List.append_assoc,
        List.prefix_append_right_inj, List.cons_append, List.cons_append,
        List.prefix_cons_inj] at hprefix
      have hmem := hprefix.subset (List.mem_append_right text₂ (List.mem_singleton_self 0))
      exact absurd hmem (zero_notMem_drop_fresh _ _)

/-- A name without zeros and surrogates that is short enough for the buffer arrives as it is. -/
theorem intact_of_simple {dst : List Byte} {name : List (BitVec 16)}
    (h : Simple dst.length name) : Intact name (.passed (getMultibyteString dst name).1) := by
  have hencode := encodeUtf16_append (fun u hu => (h.1 u hu).2) []
  rw [List.append_nil] at hencode
  refine ⟨_, hencode.trans (by rw [encodeUtf16]; rfl), ?_⟩
  change _ <+: (wcstombs dst.length _).1 ++ _
  rw [wcstombs_of_simple h []]
  dsimp only
  rw [List.append_nil]
  exact List.prefix_append _ _

/-- **Which names are intact**: the simple ones, without zeros and surrogates, that are short
enough, whatever the buffer holds to begin with. -/
theorem intact_iff (size : ℕ) (name : List (BitVec 16)) :
    (∀ buffer : List Byte, buffer.length = size →
        Intact name (Foreign.dlopenName buffer name) ∧
          Intact name (Foreign.dlsymName buffer name)) ↔
      Simple size name := by
  constructor
  · intro h
    exact simple_of_intact (h (fresh size) List.length_replicate).1
  · rintro h buffer rfl
    exact ⟨intact_of_simple h, intact_of_simple h⟩

/-- A letter outside of the Basic Multilingual Plane, after `"lib"`, does not arrive as it should.
-/
theorem not_intact_surrogatePair :
    ¬∀ buffer : List Byte, buffer.length = 1024 →
      Intact [0x6c, 0x69, 0x62, 0xd83d, 0xde00]
        (Foreign.dlsymName buffer [0x6c, 0x69, 0x62, 0xd83d, 0xde00]) := by
  intro h
  have hsimple := simple_of_intact (h (fresh 1024) List.length_replicate)
  exact (hsimple.1 0xd83d (by decide)).2 (by decide)

end Jffi
