import XSBEngine.Reading.Canonical
import XSBEngine.Reading.Utf8

/-!
# Code points in strings

`codepoint_to_str` with the inverse cache of code page 1252, and `char_to_codepoint` after it,
`XSB/emu/token_xsb.c:355–458, 461–512`.
-/

namespace XSBEngine.Reading

open List

/-- `code_page_1252_hash`. Only bytes are ever written into it. -/
structure InverseCache where
  entries : List UInt8
  length_eq : entries.length = 256

namespace InverseCache

/-- `code_page_1252_hash[hc] = i`. -/
def set (cache : InverseCache) (hc : Nat) (i : UInt8) : InverseCache where
  entries := cache.entries.set hc i
  length_eq := by rw [length_set, cache.length_eq]

/-- The cache when the program starts. -/
def empty : InverseCache where
  entries := List.replicate 256 0
  length_eq := length_replicate

end InverseCache

/-- `w1252_codepoint_to_str`: the byte that it writes. A code that is not found is written
as 255. -/
def w1252CodepointToStr (cache : InverseCache) (codepoint : Int) : UInt8 × InverseCache :=
  if codepoint ≤ 0xff ∧ codePage1252 codepoint = codepoint then (toByte codepoint, cache)
  else
    let hc := (codepoint % 255).toNat
    let hind := cache.entries.getD hc 0
    if codePage1252 hind.toNat = codepoint then (hind, cache)
    else
      match (List.range' 0x80 0x20).find? (fun i : Nat => codePage1252 i = codepoint) with
      | some i => (UInt8.ofNat i, cache.set hc (UInt8.ofNat i))
      | none => (255, cache)

/-- `codepoint_to_str`: the bytes that it writes. -/
def codepointToStr (charset : Charset) (cache : InverseCache) (code : Int) :
    List UInt8 × InverseCache :=
  match charset with
  | .latin1 => ([toByte code], cache)
  | .utf8 => (utf8CodepointToStr code, cache)
  | .cp1252 =>
    let r := w1252CodepointToStr cache code
    ([r.1], r.2)

/-- The bytes that repeated calls of `codepoint_to_str` write one after the other. -/
def codepointsToStr (charset : Charset) : InverseCache → List Int → List UInt8 × InverseCache
  | cache, [] => ([], cache)
  | cache, code :: codes =>
    let r := codepointToStr charset cache code
    let rs := codepointsToStr charset r.2 codes
    (r.1 ++ rs.1, rs.2)

/-- The codes that a number of calls of `char_to_codepoint` give, and what follows the last one. -/
def charsToCodepoints (charset : Charset) : Nat → List UInt8 → List Int × List UInt8
  | 0, string => ([], string)
  | k + 1, string =>
    let r := charToCodepoint charset string
    let rs := charsToCodepoints charset k r.2
    (r.1 :: rs.1, rs.2)

/-- The code points of a character set. -/
def Representable (charset : Charset) (code : Int) : Prop :=
  match charset with
  | .latin1 => 0 ≤ code ∧ code ≤ 255
  | .utf8 => 0 ≤ code ∧ code ≤ 0x1fffff
  | .cp1252 => ∃ b : UInt8, codePage1252 b.toNat = code

section Utf8

variable {c : Int}

theorem bits_ascii (h : 0 ≤ c) (hlt : c < 128) : bits c 0x80 = 0 := by
  have hall : ∀ k < 128, bits (k : Nat) 0x80 = 0 := by decide
  have hk := hall c.toNat (by omega)
  rwa [Int.toNat_of_nonneg h] at hk

theorem bits_high (h : 128 ≤ c) (hlt : c < 256) : bits c 0x80 ≠ 0 := by
  have hall : ∀ k < 128, bits (128 + k : Nat) 0x80 ≠ 0 := by decide
  have hk := hall (c - 128).toNat (by omega)
  rwa [show ((128 + (c - 128).toNat : Nat) : Int) = c by omega] at hk

/-- The code point of a buffer whose first byte is given. -/
theorem utf8CharToCodepoint_cons {d : Int} (h : 0 ≤ d) (hlt : d < 256) (rest : List UInt8) :
    utf8CharToCodepoint (toByte d :: rest) =
      let b2 : Int := (rest.getD 0 0).toNat
      let b3 : Int := (rest.getD 1 0).toNat
      let b4 : Int := (rest.getD 2 0).toNat
      if bits d 0x80 = 0 then (d, rest)
      else if bits d 0xe0 = 0xc0 then
        if continues b2 then ((bits d 0x1f <<< 6 ||| bits b2 0x3f : Nat), rest.drop 1)
        else (d, rest)
      else if bits d 0xf0 = 0xe0 then
        if continues b2 ∧ continues b3 then
          ((bits d 0xf <<< 12 ||| bits b2 0x3f <<< 6 ||| bits b3 0x3f : Nat), rest.drop 2)
        else (d, rest)
      else if bits d 0xf8 = 0xf0 then
        if continues b2 ∧ continues b3 ∧ continues b4 then
          ((bits d 0xf <<< 18 ||| bits b2 0x3f <<< 12 ||| bits b3 0x3f <<< 6 |||
            bits b4 0x3f : Nat), rest.drop 3)
        else (d, rest)
      else (d, rest) := by
  rw [utf8CharToCodepoint, toNat_toByte h hlt]

/-- The bytes of a code point are read back as this code point. -/
theorem utf8CharToCodepoint_utf8CodepointToStr (h : 0 ≤ c) (hlt : c < 0x200000)
    (rest : List UInt8) : utf8CharToCodepoint (utf8CodepointToStr c ++ rest) = (c, rest) := by
  rw [utf8CodepointToStr]
  split
  · next hone =>
    rw [singleton_append, utf8CharToCodepoint_cons h (by omega)]
    exact if_pos (bits_ascii h hone)
  · next hone =>
    split
    · next htwo =>
      obtain ⟨hlead, hhigh⟩ := lead_two (k := c / 64) (by omega) (by omega)
      obtain ⟨hcont, hlow⟩ := tail_bits (k := c % 64) (by omega) (by omega)
      rw [cons_append, utf8CharToCodepoint_cons (by omega) (by omega)]
      simp only [singleton_append, getD_cons_zero,
        toNat_toByte (d := 128 + c % 64) (by omega) (by omega)]
      rw [if_neg (bits_high (by omega) (by omega)), if_pos hlead, if_pos hcont, hhigh, hlow,
        shiftLeft_or (by omega)]
      congr 1
      omega
    · next htwo =>
      split
      · next hthree =>
        obtain ⟨hnot2, hlead, hhigh⟩ := lead_three (k := c / 4096) (by omega) (by omega)
        obtain ⟨hcont2, hmid⟩ := tail_bits (k := c / 64 % 64) (by omega) (by omega)
        obtain ⟨hcont3, hlow⟩ := tail_bits (k := c % 64) (by omega) (by omega)
        rw [cons_append, utf8CharToCodepoint_cons (by omega) (by omega)]
        simp only [cons_append, nil_append, getD_cons_zero, getD_cons_succ,
          toNat_toByte (d := 128 + c / 64 % 64) (by omega) (by omega),
          toNat_toByte (d := 128 + c % 64) (by omega) (by omega)]
        rw [if_neg (bits_high (by omega) (by omega)), if_neg hnot2, if_pos hlead,
          if_pos ⟨hcont2, hcont3⟩, hhigh, hmid, hlow, shiftLeft_or_three (by omega) (by omega)]
        congr 1
        omega
      · next hthree =>
        obtain ⟨hnot2, hnot3, hlead, hhigh⟩ := lead_four (k := c / 262144) (by omega) (by omega)
        obtain ⟨hcont2, hmid⟩ := tail_bits (k := c / 4096 % 64) (by omega) (by omega)
        obtain ⟨hcont3, hmid'⟩ := tail_bits (k := c / 64 % 64) (by omega) (by omega)
        obtain ⟨hcont4, hlow⟩ := tail_bits (k := c % 64) (by omega) (by omega)
        rw [cons_append, utf8CharToCodepoint_cons (by omega) (by omega)]
        simp only [cons_append, nil_append, getD_cons_zero, getD_cons_succ,
          toNat_toByte (d := 128 + c / 4096 % 64) (by omega) (by omega),
          toNat_toByte (d := 128 + c / 64 % 64) (by omega) (by omega),
          toNat_toByte (d := 128 + c % 64) (by omega) (by omega)]
        rw [if_neg (bits_high (by omega) (by omega)), if_neg hnot2, if_neg hnot3, if_pos hlead,
          if_pos ⟨hcont2, hcont3, hcont4⟩, hhigh, hmid, hmid', hlow,
          shiftLeft_or_four (by omega) (by omega) (by omega)]
        congr 1
        omega

end Utf8

section CodePage

variable {cache : InverseCache} {code : Int}

/-- Whatever the cache holds, the byte that is written is one of the code. -/
theorem codePage1252_w1252CodepointToStr (h : Representable .cp1252 code) :
    codePage1252 (w1252CodepointToStr cache code).1.toNat = code := by
  obtain ⟨b, hb⟩ := h
  have hnonneg : 0 ≤ code := by
    rw [← hb]
    exact codePage1252_nonneg (Int.natCast_nonneg _)
  rw [w1252CodepointToStr]
  split
  · next hself => rw [toNat_toByte hnonneg (by omega), hself.2]
  · next hself =>
    simp only
    split
    · next hcached => exact hcached
    · split
      · next i hfind =>
        have hi := mem_range'_1.mp (mem_of_find?_eq_some hfind)
        have hcode : codePage1252 i = code := by simpa using List.find?_some hfind
        simp only
        rw [UInt8.toNat_ofNat_of_lt']
        · exact hcode
        · rw [UInt8.size]
          omega
      · next hnone =>
        -- the entries that are not the code itself are those from 0x80 to 0x9f
        have hrange : b.toNat < 0x80 ∨ 0xa0 ≤ b.toNat := by
          by_contra hin
          have hmem : b.toNat ∈ List.range' 0x80 0x20 := mem_range'_1.mpr (by omega)
          have := List.find?_eq_none.mp hnone b.toNat hmem
          simp [hb] at this
        have hfix : codePage1252 b.toNat = b.toNat := by
          rw [codePage1252, if_neg (by omega)]
        have hlt := b.toNat_lt
        exact absurd ⟨by omega, by rw [← hb, hfix, hfix]⟩ hself

end CodePage

/-- One code point is read back, and its bytes are consumed. -/
theorem charToCodepoint_codepointToStr {charset : Charset} (hcharset : charset ≠ .latin1)
    (cache : InverseCache) {code : Int} (h : Representable charset code) (rest : List UInt8) :
    charToCodepoint charset ((codepointToStr charset cache code).1 ++ rest) = (code, rest) := by
  cases charset with
  | latin1 => exact absurd rfl hcharset
  | utf8 => exact utf8CharToCodepoint_utf8CodepointToStr h.1 (by have := h.2; omega) rest
  | cp1252 =>
    rw [codepointToStr, charToCodepoint]
    simp only [singleton_append, headD_cons, tail_cons,
      codePage1252_w1252CodepointToStr h]

/-- `LATIN_1` strings stay where they are. -/
theorem charsToCodepoints_latin1 (k : Nat) (string : List UInt8) :
    (charsToCodepoints .latin1 k string).2 = string := by
  induction k with
  | zero => rfl
  | succ k ih => exact ih

theorem length_codepointsToStr_latin1 (cache : InverseCache) (codes : List Int) :
    (codepointsToStr .latin1 cache codes).1.length = codes.length := by
  induction codes generalizing cache with
  | nil => rfl
  | cons code codes ih =>
    rw [codepointsToStr, codepointToStr]
    simp [ih]

/-- What repeated calls of `codepoint_to_str` write is read back by as many calls of
`char_to_codepoint`, which consume exactly these bytes, unless the character set is `LATIN_1` and
there is something to read. -/
theorem charsToCodepoints_codepointsToStr_iff (charset : Charset) (cache : InverseCache)
    (codes : List Int) (h : ∀ c ∈ codes, Representable charset c) (rest : List UInt8) :
    charsToCodepoints charset codes.length ((codepointsToStr charset cache codes).1 ++ rest) =
        (codes, rest) ↔
      charset ≠ .latin1 ∨ codes = [] := by
  constructor
  · intro heq
    by_contra hcontra
    obtain ⟨hlatin, hcodes⟩ := not_or.mp hcontra
    rw [ne_eq, not_not] at hlatin
    subst hlatin
    have hrest := congrArg (fun r : List Int × List UInt8 => r.2.length) heq
    simp only [charsToCodepoints_latin1, length_append,
      length_codepointsToStr_latin1] at hrest
    have := length_pos_iff.mpr hcodes
    omega
  · intro hcase
    induction codes generalizing cache with
    | nil => rfl
    | cons code codes ih =>
      have hcharset : charset ≠ .latin1 := hcase.resolve_right nofun
      have hcode := h code mem_cons_self
      have hcodes := ih (codepointToStr charset cache code).2
        (fun c hc => h c (mem_cons_of_mem _ hc)) (Or.inl hcharset)
      rw [length_cons, codepointsToStr, charsToCodepoints]
      simp only [append_assoc, charToCodepoint_codepointToStr hcharset cache hcode, hcodes]

theorem charsToCodepoints_codepointsToStr_euro :
    charsToCodepoints .cp1252 2 ((codepointsToStr .cp1252 .empty [0x20ac, 65]).1 ++ [0]) =
        ([0x20ac, 65], [0]) ↔
      Charset.cp1252 ≠ .latin1 ∨ [0x20ac, 65] = ([] : List Int) :=
  charsToCodepoints_codepointsToStr_iff .cp1252 .empty [0x20ac, 65]
    (forall_mem_cons.mpr ⟨⟨0x80, rfl⟩, forall_mem_singleton.mpr ⟨65, rfl⟩⟩) [0]

/-- The two letters of `ab` are read as twice the first one. -/
theorem latin1_letters_not_read_back :
    charsToCodepoints .latin1 2 ((codepointsToStr .latin1 .empty [97, 98]).1 ++ [0]) ≠
      ([97, 98], [0]) := by
  decide

end XSBEngine.Reading
