import Mathlib

/-!
# Characters of input streams

`GetCode`, `utf8_GetCode`, `unGetC` and the code tables, `XSB/emu/token_xsb.c:250–458, 515–620`,
with `strgetc` of `XSB/emu/token_xsb.h:32`.
-/

namespace XSBEngine.Reading

/-- The character sets of a stream, `XSB/emu/token_defs_xsb.h`. -/
inductive Charset where
  | latin1
  | utf8
  | cp1252
deriving DecidableEq

/-- Where characters come from, either a `FILE` or a `STRFILE`. A character that has been read can
be put back, and `size` bounds how many are left. -/
structure CharSource (σ : Type) where
  getC : σ → Int × σ
  unGetC : Int → σ → σ
  size : σ → Nat
  getC_range (st : σ) : -1 ≤ (getC st).1 ∧ (getC st).1 ≤ 255
  size_getC (st : σ) : 0 ≤ (getC st).1 → size (getC st).2 < size st
  size_le (st : σ) : size (getC st).2 ≤ size st
  size_back (st : σ) (d : Int) : ((getC st).1 < 0 → d = -1) → size (unGetC d (getC st).2) ≤ size st
  size_unGetC (st : σ) (d : Int) : size (unGetC d st) ≤ size st + 1

/-- The byte that a `char` variable keeps of an `int`. -/
def toByte (d : Int) : UInt8 := UInt8.ofNat (d % 256).toNat

/-- A cast to `char`, where `char` is signed. -/
def toChar (d : Int) : Int := if 128 ≤ d then d - 256 else d

/-- Reading a `FILE`: the bytes still to be read, those that were put back first. -/
def fileGetC : List UInt8 → Int × List UInt8
  | [] => (-1, [])
  | b :: rest => (b.toNat, rest)

/-- `ungetc`. The end of the file is not put back. -/
def fileUnGetC (d : Int) (rest : List UInt8) : List UInt8 :=
  if d = -1 then rest else toByte d :: rest

/-- A `FILE`. -/
def fileSource : CharSource (List UInt8) where
  getC := fileGetC
  unGetC := fileUnGetC
  size := List.length
  getC_range st := by
    cases st with
    | nil => decide
    | cons b rest =>
      have := b.toNat_lt
      simp only [fileGetC]
      omega
  size_getC st h := by
    cases st with
    | nil => simp [fileGetC] at h
    | cons b rest => simp [fileGetC]
  size_le st := by cases st <;> simp [fileGetC]
  size_back st d h := by
    cases st with
    | nil =>
      rw [h (by decide)]
      exact Nat.le_refl _
    | cons b rest =>
      simp only [fileUnGetC, fileGetC]
      split <;> simp
  size_unGetC st d := by
    simp only [fileUnGetC]
    split <;> simp

/-- A `STRFILE`. -/
structure StrFile where
  strbase : List UInt8
  strptr : Int
  strcnt : Int

/-- `strgetc`. -/
def strgetc (p : StrFile) : Int × StrFile :=
  if 0 ≤ p.strcnt - 1 then
    ((p.strbase.getD p.strptr.toNat 0).toNat,
      { p with strptr := p.strptr + 1, strcnt := p.strcnt - 1 })
  else (-1, { p with strcnt := p.strcnt - 1 })

/-- `unGetC` of a `STRFILE`, which goes back whatever the character is. -/
def strUnGetC (_ : Int) (p : StrFile) : StrFile :=
  { p with strptr := p.strptr - 1, strcnt := p.strcnt + 1 }

/-- A string that is read like a stream. -/
def strSource : CharSource StrFile where
  getC := strgetc
  unGetC := strUnGetC
  size p := p.strcnt.toNat
  getC_range p := by
    have := (p.strbase.getD p.strptr.toNat 0).toNat_lt
    simp only [strgetc]
    split <;> simp only <;> omega
  size_getC p h := by
    simp only [strgetc] at h ⊢
    split
    · simp only
      omega
    · next hend =>
      rw [if_neg hend] at h
      simp at h
  size_le p := by
    simp only [strgetc]
    split <;> simp only <;> omega
  size_back p d h := by
    simp only [strUnGetC, strgetc]
    split <;> simp only <;> omega
  size_unGetC p d := by
    simp only [strUnGetC]
    omega

variable {σ : Type}

/-- The bits of a byte that a mask selects. -/
def bits (c : Int) (mask : Nat) : Nat := (c % 256).toNat &&& mask

/-- A byte `10xxxxxx`. -/
def continues (c : Int) : Bool := bits c 0xc0 = 0x80

/-- `unGetC((char)b)`, if `b` is neither the end nor the character 0. -/
def CharSource.putBack (src : CharSource σ) (b : Int) (st : σ) : σ :=
  if 0 < b then src.unGetC (toChar b) st else st

/-- `utf8_GetCode`: the code point whose leading byte `c` has been read. -/
def utf8GetCode (src : CharSource σ) (c : Int) (st : σ) : Int × σ :=
  if c < 0x80 then (c, st)
  else if bits c 0xe0 = 0xc0 then
    let (b2, st2) := src.getC st
    if continues b2 then ((bits c 0x1f <<< 6 ||| bits b2 0x3f : Nat), st2)
    else (c, src.putBack b2 st2)
  else if bits c 0xf0 = 0xe0 then
    let (b2, st2) := src.getC st
    if continues b2 then
      let (b3, st3) := src.getC st2
      if continues b3 then
        ((bits c 0xf <<< 12 ||| bits b2 0x3f <<< 6 ||| bits b3 0x3f : Nat), st3)
      else (c, src.unGetC (toChar b2) (src.putBack b3 st3))
    else (c, src.putBack b2 st2)
  else if bits c 0xf8 = 0xf0 then
    let (b2, st2) := src.getC st
    if continues b2 then
      let (b3, st3) := src.getC st2
      if continues b3 then
        let (b4, st4) := src.getC st3
        if continues b4 then
          ((bits c 0xf <<< 18 ||| bits b2 0x3f <<< 12 ||| bits b3 0x3f <<< 6 ||| bits b4 0x3f :
            Nat),
            st4)
        else
          -- the test is on b2, so that also the end of the input is put back
          let st4 := if 0 < b2 then src.unGetC (toChar b4) st4 else st4
          (c, src.unGetC (toChar b2) (src.unGetC (toChar b3) st4))
      else (c, src.unGetC (toChar b2) (src.putBack b3 st3))
    else (c, src.putBack b2 st2)
  else (c, st)

/-- The entries of `code_page_1252` from 0x80 on that are not the code itself. -/
def codePage1252High : List Int :=
  [0x20AC, 0x0081, 0x201A, 0x0192, 0x201E, 0x2026, 0x2020, 0x2021,
   0x02C6, 0x2030, 0x0160, 0x2039, 0x0152, 0x008D, 0x017D, 0x008F,
   0x0090, 0x2018, 0x2019, 0x201C, 0x201D, 0x2022, 0x2013, 0x2014,
   0x02DC, 0x2122, 0x0161, 0x203A, 0x0153, 0x009D, 0x017E, 0x0178]

/-- `code_page_1252`. -/
def codePage1252 (c : Int) : Int :=
  if 0x80 ≤ c ∧ c < 0xA0 then codePage1252High.getD (c - 0x80).toNat 0 else c

/-- `GetCode`. -/
def getCode (src : CharSource σ) (charset : Charset) (st : σ) : Int × σ :=
  let c := src.getC st
  if c.1 = -1 then c
  else
    match charset with
    | .latin1 => c
    | .utf8 => utf8GetCode src c.1 c.2
    | .cp1252 => (codePage1252 c.1, c.2)

/-- `utf8_codepoint_to_str`: the bytes that it writes. -/
def utf8CodepointToStr (code : Int) : List UInt8 :=
  if code < 0x80 then [toByte code]
  else if code < 0x800 then [toByte (192 + code / 64), toByte (128 + code % 64)]
  else if code < 0x10000 then
    [toByte (224 + code / 4096), toByte (128 + code / 64 % 64), toByte (128 + code % 64)]
  else
    [toByte (240 + code / 262144), toByte (128 + code / 4096 % 64),
      toByte (128 + code / 64 % 64), toByte (128 + code % 64)]

namespace CharSource

variable (src : CharSource σ) (st : σ)

theorem size_putBack : src.size (src.putBack (src.getC st).1 (src.getC st).2) ≤ src.size st := by
  rw [putBack]
  split
  · next h => exact src.size_back st _ (by omega)
  · exact src.size_le st

/-- A continuation byte is not the end. -/
theorem size_of_continues (h : continues (src.getC st).1) :
    src.size (src.getC st).2 < src.size st := by
  apply src.size_getC
  have hrange := src.getC_range st
  by_contra hneg
  have heq : (src.getC st).1 = -1 := by omega
  rw [heq] at h
  exact absurd h (by decide)

end CharSource

section

variable (src : CharSource σ)
include src

/-- What a cast to `char` puts back of what has been read. -/
theorem size_unGetC_toChar (st : σ) :
    src.size (src.unGetC (toChar (src.getC st).1) (src.getC st).2) ≤ src.size st := by
  apply src.size_back
  intro h
  have hrange := (src.getC_range st).1
  rw [show (src.getC st).1 = -1 by omega]
  rfl

/-- The bytes after the first one are read and put back. -/
theorem size_utf8GetCode (c : Int) (st : σ) :
    src.size (utf8GetCode src c st).2 ≤ src.size st := by
  have h2 := src.size_of_continues st
  have hback2 := src.size_putBack st
  have hle2 := src.size_le st
  rcases hr2 : src.getC st with ⟨b2, st2⟩
  have h3 := src.size_of_continues st2
  have hback3 := src.size_putBack st2
  rcases hr3 : src.getC st2 with ⟨b3, st3⟩
  have h4 := src.size_le st3
  have hback4 := size_unGetC_toChar src st3
  rcases hr4 : src.getC st3 with ⟨b4, st4⟩
  rw [hr2] at h2 hback2 hle2
  rw [hr3] at h3 hback3
  rw [hr4] at h4 hback4
  have hlast : src.size (if 0 < b2 then src.unGetC (toChar b4) st4 else st4) ≤ src.size st3 := by
    split
    · exact hback4
    · exact h4
  have hput2 := src.size_unGetC (src.putBack b3 st3) (toChar b2)
  simp only [utf8GetCode, hr2, hr3, hr4]
  generalize (if 0 < b2 then src.unGetC (toChar b4) st4 else st4) = last at *
  have hput3 := src.size_unGetC last (toChar b3)
  have hput4 := src.size_unGetC (src.unGetC (toChar b3) last) (toChar b2)
  simp only at h2 h3 h4 hback2 hback3 hle2
  split
  · exact Nat.le_refl _
  · split
    · split
      · exact hle2
      · exact hback2
    · split
      · split
        · next hb2 =>
          have := h2 hb2
          split
          · next hb3 =>
            have := h3 hb3
            show src.size st3 ≤ src.size st
            omega
          · show src.size (src.unGetC (toChar b2) (src.putBack b3 st3)) ≤ src.size st
            omega
        · exact hback2
      · split
        · split
          · next hb2 =>
            have := h2 hb2
            split
            · next hb3 =>
              have := h3 hb3
              split
              · show src.size st4 ≤ src.size st
                omega
              · show src.size (src.unGetC (toChar b2) (src.unGetC (toChar b3) last)) ≤ src.size st
                omega
            · show src.size (src.unGetC (toChar b2) (src.putBack b3 st3)) ≤ src.size st
              omega
          · exact hback2
        · exact Nat.le_refl _

/-- Each code that is not the end makes the rest of the input shorter. -/
theorem size_getCode (charset : Charset) (st : σ)
    (h : 0 ≤ (getCode src charset st).1) :
    src.size (getCode src charset st).2 < src.size st := by
  have hrange := src.getC_range st
  have hsize := src.size_getC st
  have hutf := size_utf8GetCode src (src.getC st).1 (src.getC st).2
  simp only [getCode] at h ⊢
  generalize src.getC st = r at *
  split
  · next heof =>
    rw [if_pos heof] at h
    omega
  · have := hsize (by omega)
    cases charset with
    | latin1 => exact this
    | utf8 => exact Nat.lt_of_le_of_lt hutf this
    | cp1252 => exact this

theorem size_getCode_le (charset : Charset) (st : σ) :
    src.size (getCode src charset st).2 ≤ src.size st := by
  have hle := src.size_le st
  have hutf := size_utf8GetCode src (src.getC st).1 (src.getC st).2
  simp only [getCode]
  generalize src.getC st = r at *
  split
  · exact hle
  · cases charset with
    | latin1 => exact hle
    | utf8 => exact Nat.le_trans hutf hle
    | cp1252 => exact hle

theorem utf8GetCode_nonneg {c : Int} (h : 0 ≤ c) (st : σ) :
    0 ≤ (utf8GetCode src c st).1 := by
  simp only [utf8GetCode]
  repeat' split
  all_goals first | exact h | exact Int.natCast_nonneg _

end

theorem codePage1252_nonneg {c : Int} (h : 0 ≤ c) : 0 ≤ codePage1252 c := by
  rw [codePage1252]
  split
  · next hc =>
    have hall : ∀ k < 32, 0 ≤ codePage1252High.getD k 0 := by decide
    exact hall _ (by omega)
  · exact h

/-- A code is the end of the input or a code point. -/
theorem getCode_range (src : CharSource σ) (charset : Charset) (st : σ) :
    -1 ≤ (getCode src charset st).1 := by
  have hrange := src.getC_range st
  have hutf := utf8GetCode_nonneg src (c := (src.getC st).1)
  have hpage := codePage1252_nonneg (c := (src.getC st).1)
  simp only [getCode]
  generalize src.getC st = r at *
  split
  · exact hrange.1
  · cases charset with
    | latin1 => exact hrange.1
    | utf8 =>
      have := hutf (by omega) r.2
      simp only
      omega
    | cp1252 =>
      have := hpage (by omega)
      simp only
      omega

end XSBEngine.Reading
