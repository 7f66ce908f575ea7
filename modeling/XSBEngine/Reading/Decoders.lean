import XSBEngine.Reading.Codepoints

/-!
# Three decoders of UTF-8

`GetCode` on a string stream, `utf8_char_to_codepoint` and `utf8_nchars` on strings of any bytes,
`XSB/emu/token_xsb.c:461–606, 642–694`.
-/

namespace XSBEngine.Reading

open List

section Decoders

/-- The codes that repeated calls of `utf8_char_to_codepoint` give, up to the byte that ends the
string. -/
def codesFrom : Nat → List UInt8 → List Int
  | 0, _ => []
  | fuel + 1, string =>
    if string.headD 0 = 0 then []
    else
      let r := utf8CharToCodepoint string
      r.1 :: codesFrom fuel r.2

/-- All codes of a string. -/
def codesOf (string : List UInt8) : List Int := codesFrom string.length string

/-- What `utf8_nchars` skips behind a byte. -/
def utf8Behind (b : UInt8) (rest : List UInt8) : List UInt8 :=
  let c : Int := b.toNat
  let b2 : Int := (rest.getD 0 0).toNat
  let b3 : Int := (rest.getD 1 0).toNat
  let b4 : Int := (rest.getD 2 0).toNat
  if bits c 0x80 = 0 then rest
  else if bits c 0xe0 = 0xc0 then if continues b2 then rest.drop 1 else rest
  else if bits c 0xf0 = 0xe0 then if continues b2 ∧ continues b3 then rest.drop 2 else rest
  else if bits c 0xf8 = 0xf0 then
    if continues b2 ∧ continues b3 ∧ continues b4 then rest.drop 3 else rest
  else rest

/-- The loop of `utf8_nchars`. -/
def ncharsFrom : Nat → List UInt8 → Nat
  | _, [] => 0
  | 0, _ => 0
  | fuel + 1, b :: rest => if b = 0 then 0 else ncharsFrom fuel (utf8Behind b rest) + 1

/-- `utf8_nchars`. -/
def utf8Nchars (string : List UInt8) : Nat := ncharsFrom string.length string

/-- A stream over the string. -/
def StrFile.open (string : List UInt8) : StrFile := ⟨string, 0, string.length⟩

/-- The pointer is at a byte of the string or at its end. -/
def StrFile.inside (p : StrFile) : Bool := 0 ≤ p.strptr ∧ p.strptr ≤ p.strbase.length

/-- A string stream together with a record of whether its pointer has always been inside. -/
def watchedSource : CharSource (StrFile × Bool) where
  getC st :=
    let r := strgetc st.1
    (r.1, (r.2, st.2 && r.2.inside))
  unGetC d st :=
    let p := strUnGetC d st.1
    (p, st.2 && p.inside)
  size st := strSource.size st.1
  getC_range st := strSource.getC_range st.1
  size_getC st := strSource.size_getC st.1
  size_le st := strSource.size_le st.1
  size_back st := strSource.size_back st.1
  size_unGetC st := strSource.size_unGetC st.1

/-- Repeated calls of `GetCode` give the codes and then the end of the file. -/
inductive Reads {σ : Type} (src : CharSource σ) : σ → List Int → σ → Prop where
  | eof {st : σ} : (getCode src .utf8 st).1 = -1 → Reads src st [] (getCode src .utf8 st).2
  | code {st st' : σ} {codes : List Int} : (getCode src .utf8 st).1 ≠ -1 →
      Reads src (getCode src .utf8 st).2 codes st' →
        Reads src st ((getCode src .utf8 st).1 :: codes) st'

/-- The string ends in the middle of a character, behind its second or third byte. -/
def Truncated (string : List UInt8) : Prop :=
  ∃ front lead tail, string = front ++ lead :: tail ∧ tail ≠ [] ∧
    (∀ b ∈ tail, continues (b.toNat : Int)) ∧
    (bits (lead.toNat : Int) 0xf0 = 0xe0 ∧ tail.length < 2 ∨
      bits (lead.toNat : Int) 0xf8 = 0xf0 ∧ tail.length < 3)

/-- The whole string is such a character. -/
def CutShort (lead : UInt8) (tail : List UInt8) : Prop :=
  tail ≠ [] ∧ (∀ b ∈ tail, continues (b.toNat : Int)) ∧
    (bits (lead.toNat : Int) 0xf0 = 0xe0 ∧ tail.length < 2 ∨
      bits (lead.toNat : Int) 0xf8 = 0xf0 ∧ tail.length < 3)

end Decoders

section Streams

variable {string rest : List UInt8} {b c : UInt8} {st : StrFile × Bool}

/-- The stream is in front of the rest of the string. -/
structure Stands (string rest : List UInt8) (st : StrFile × Bool) : Prop where
  base : st.1.strbase = string
  suffix : rest <:+ string
  ptr : st.1.strptr + rest.length = string.length
  cnt : st.1.strcnt = rest.length
  inside : st.2 = true

/-- The stream is at the end of the string, which may have been read. -/
structure Ended (string : List UInt8) (st : StrFile × Bool) : Prop where
  base : st.1.strbase = string
  ptr : st.1.strptr = string.length
  cnt : st.1.strcnt ≤ 0
  inside : st.2 = true

theorem Stands.ended (h : Stands string [] st) : Ended string st :=
  ⟨h.base, by simpa using h.ptr, by rw [h.cnt]; exact Int.le_refl _, h.inside⟩

theorem Stands.getC (h : Stands string (b :: rest) st) :
    ∃ st', watchedSource.getC st = ((b.toNat : Int), st') ∧ Stands string rest st' := by
  obtain ⟨front, hfront⟩ := h.suffix
  have hptr := h.ptr
  have hcnt := h.cnt
  rw [length_cons] at hptr hcnt
  have hlength : string.length = front.length + (rest.length + 1) := by
    rw [← hfront, length_append, length_cons]
  have hbyte : string.getD st.1.strptr.toNat 0 = b := by
    rw [← hfront, show st.1.strptr.toNat = front.length by omega, getD_append_right _ _ _ _
      (Nat.le_refl _), Nat.sub_self]
    rfl
  have hget : strgetc st.1 =
      ((b.toNat : Int), { st.1 with strptr := st.1.strptr + 1, strcnt := st.1.strcnt - 1 }) := by
    rw [← h.base] at hbyte
    rw [strgetc, if_pos (by omega), hbyte]
  refine ⟨_, congrArg (fun r : Int × StrFile => (r.1, (r.2, st.2 && r.2.inside))) hget,
    h.base, ⟨front ++ [b], by rw [← hfront]; simp⟩, ?_, ?_, ?_⟩
  · show st.1.strptr + 1 + _ = _
    omega
  · show st.1.strcnt - 1 = _
    omega
  · simp only [h.inside, StrFile.inside, h.base, Bool.true_and, decide_eq_true_eq]
    omega

/-- The end of the file. -/
theorem getC_empty (h : st.1.strcnt ≤ 0) :
    ∃ st', watchedSource.getC st = (-1, st') ∧
      st' = ({ st.1 with strcnt := st.1.strcnt - 1 },
        st.2 && StrFile.inside { st.1 with strcnt := st.1.strcnt - 1 }) := by
  refine ⟨_, ?_, rfl⟩
  simp only [watchedSource, strgetc]
  rw [if_neg (by omega)]

theorem Ended.getC (h : Ended string st) :
    ∃ st', watchedSource.getC st = (-1, st') ∧ Ended string st' ∧
      st'.1 = { st.1 with strcnt := st.1.strcnt - 1 } := by
  obtain ⟨st', hget, rfl⟩ := getC_empty h.cnt
  have hptr := h.ptr
  have hcnt := h.cnt
  refine ⟨_, hget, ⟨h.base, h.ptr, ?_, ?_⟩, rfl⟩
  · show st.1.strcnt - 1 ≤ 0
    omega
  · simp only [h.inside, StrFile.inside, h.base, Bool.true_and, decide_eq_true_eq]
    omega

/-- A byte that has been read is put back. -/
theorem Stands.unGetC (h : Stands string rest st) (hsuffix : (b :: rest) <:+ string) (d : Int) :
    Stands string (b :: rest) (watchedSource.unGetC d st) := by
  have hptr := h.ptr
  have hcnt := h.cnt
  have hle := hsuffix.length_le
  rw [length_cons] at hle
  refine ⟨h.base, hsuffix, ?_, ?_, ?_⟩
  · show st.1.strptr - 1 + (b :: rest).length = _
    rw [length_cons]
    omega
  · show st.1.strcnt + 1 = ((b :: rest).length : Int)
    rw [length_cons]
    omega
  · simp only [watchedSource, strUnGetC, h.inside, StrFile.inside, h.base, Bool.true_and,
      decide_eq_true_eq]
    omega

theorem Stands.putBack (h : Stands string rest st) (hsuffix : (b :: rest) <:+ string)
    (hb : b ≠ 0) : Stands string (b :: rest) (watchedSource.putBack b.toNat st) := by
  have hpos : (0 : Int) < b.toNat := by
    have : b.toNat ≠ 0 := fun h0 => hb (UInt8.toNat_inj.mp h0)
    omega
  rw [CharSource.putBack, if_pos hpos]
  exact h.unGetC hsuffix _

theorem putBack_eof (st : StrFile × Bool) : watchedSource.putBack (-1) st = st :=
  if_neg (by decide)

/-- Where a character ends. -/
def Behind (string rest : List UInt8) (st : StrFile × Bool) : Prop :=
  Stands string rest st ∨ rest = [] ∧ Ended string st

end Streams

section Characters

variable {string tail : List UInt8} {c : UInt8} {st : StrFile × Bool}

/-- The first byte of a character. -/
theorem getCode_watched {st' : StrFile × Bool}
    (h : watchedSource.getC st = ((c.toNat : Int), st')) :
    getCode watchedSource .utf8 st = utf8GetCode watchedSource c.toNat st' := by
  simp only [getCode, h]
  rw [if_neg (by omega)]

theorem bits_high_iff : (c.toNat : Int) < 0x80 ↔ bits (c.toNat : Int) 0x80 = 0 := by
  have hlt := c.toNat_lt
  constructor
  · intro h
    exact bits_ascii (Int.natCast_nonneg _) h
  · intro h
    by_contra hge
    exact bits_high (by omega) (by omega) h

theorem continues_eof : continues (-1) = false := by decide

/-- `GetCode` gives the next code of the string, unless the string ends within it. -/
theorem getCode_stands (h : Stands string (c :: tail) st) (hzero : ∀ b ∈ tail, b ≠ 0)
    (hcut : ¬ CutShort c tail) :
    ∃ st', getCode watchedSource .utf8 st = ((utf8CharToCodepoint (c :: tail)).1, st') ∧
      Behind string (utf8CharToCodepoint (c :: tail)).2 st' := by
  obtain ⟨st1, hget1, hst1⟩ := h.getC
  have hsuffix := h.suffix
  rw [getCode_watched hget1, utf8GetCode, utf8CharToCodepoint]
  simp only [bits_high_iff]
  by_cases hascii : bits (c.toNat : Int) 0x80 = 0
  · rw [if_pos hascii, if_pos hascii]
    exact ⟨st1, rfl, Or.inl hst1⟩
  rw [if_neg hascii, if_neg hascii]
  by_cases htwo : bits (c.toNat : Int) 0xe0 = 0xc0
  · rw [if_pos htwo, if_pos htwo]
    cases tail with
    | nil =>
      obtain ⟨st2, hget2, hst2, -⟩ := hst1.ended.getC
      simp only [hget2, continues_eof, getD_nil]
      rw [putBack_eof]
      exact ⟨st2, rfl, Or.inr ⟨rfl, hst2⟩⟩
    | cons b2 tail =>
      obtain ⟨st2, hget2, hst2⟩ := hst1.getC
      simp only [hget2, getD_cons_zero]
      split
      · exact ⟨st2, rfl, Or.inl hst2⟩
      · exact ⟨_, rfl, Or.inl (hst2.putBack hst1.suffix (hzero b2 mem_cons_self))⟩
  rw [if_neg htwo, if_neg htwo]
  by_cases hthree : bits (c.toNat : Int) 0xf0 = 0xe0
  · rw [if_pos hthree, if_pos hthree]
    cases tail with
    | nil =>
      obtain ⟨st2, hget2, hst2, -⟩ := hst1.ended.getC
      simp only [hget2, continues_eof, getD_nil]
      rw [putBack_eof]
      exact ⟨st2, rfl, Or.inr ⟨rfl, hst2⟩⟩
    | cons b2 tail =>
      obtain ⟨st2, hget2, hst2⟩ := hst1.getC
      simp only [hget2, getD_cons_zero, getD_cons_succ]
      by_cases hb2 : continues b2.toNat
      · cases tail with
        | nil =>
          refine absurd ⟨by rintro ⟨⟩, forall_mem_singleton.mpr hb2, Or.inl ⟨hthree, ?_⟩⟩ hcut
          exact Nat.lt_succ_self 1
        | cons b3 tail =>
          obtain ⟨st3, hget3, hst3⟩ := hst2.getC
          simp only [hget3, hb2, true_and, if_true, getD_cons_zero]
          split
          · exact ⟨st3, rfl, Or.inl hst3⟩
          · have hback := hst3.putBack hst2.suffix (hzero b3 (by simp))
            exact ⟨_, rfl, Or.inl (hback.unGetC hst1.suffix _)⟩
      · simp only [hb2]
        exact ⟨_, rfl, Or.inl (hst2.putBack hst1.suffix (hzero b2 mem_cons_self))⟩
  rw [if_neg hthree, if_neg hthree]
  by_cases hfour : bits (c.toNat : Int) 0xf8 = 0xf0
  · rw [if_pos hfour, if_pos hfour]
    cases tail with
    | nil =>
      obtain ⟨st2, hget2, hst2, -⟩ := hst1.ended.getC
      simp only [hget2, continues_eof, getD_nil]
      rw [putBack_eof]
      exact ⟨st2, rfl, Or.inr ⟨rfl, hst2⟩⟩
    | cons b2 tail =>
      obtain ⟨st2, hget2, hst2⟩ := hst1.getC
      simp only [hget2, getD_cons_zero, getD_cons_succ]
      by_cases hb2 : continues b2.toNat
      · cases tail with
        | nil =>
          refine absurd ⟨by rintro ⟨⟩, forall_mem_singleton.mpr hb2, Or.inr ⟨hfour, ?_⟩⟩ hcut
          exact Nat.lt_of_succ_lt (Nat.lt_succ_self 2)
        | cons b3 tail =>
          obtain ⟨st3, hget3, hst3⟩ := hst2.getC
          simp only [hget3, hb2, true_and, if_true, getD_cons_zero, getD_cons_succ]
          by_cases hb3 : continues b3.toNat
          · cases tail with
            | nil =>
              refine absurd ⟨by rintro ⟨⟩, ?_, Or.inr ⟨hfour, Nat.lt_succ_self 2⟩⟩ hcut
              exact forall_mem_cons.mpr ⟨hb2, forall_mem_singleton.mpr hb3⟩
            | cons b4 tail =>
              obtain ⟨st4, hget4, hst4⟩ := hst3.getC
              have hpos : (0 : Int) < b2.toNat := by
                have : b2.toNat ≠ 0 := fun h0 =>
                  hzero b2 mem_cons_self (UInt8.toNat_inj.mp h0)
                omega
              simp only [hget4, hb3, true_and, if_true, getD_cons_zero, hpos]
              split
              · exact ⟨st4, rfl, Or.inl hst4⟩
              · have hback := hst4.unGetC (d := toChar b4.toNat) hst3.suffix
                have hback := hback.unGetC (d := toChar b3.toNat) hst2.suffix
                exact ⟨_, rfl, Or.inl (hback.unGetC hst1.suffix _)⟩
          · simp only [hb3]
            have hback := hst3.putBack hst2.suffix (hzero b3 (by simp))
            exact ⟨_, rfl, Or.inl (hback.unGetC hst1.suffix _)⟩
      · simp only [hb2]
        exact ⟨_, rfl, Or.inl (hst2.putBack hst1.suffix (hzero b2 mem_cons_self))⟩
  rw [if_neg hfour, if_neg hfour]
  exact ⟨st1, rfl, Or.inl hst1⟩

end Characters

section Sequences

variable {c b b3 : UInt8} {tail string : List UInt8}

/-- `utf8_nchars` and `utf8_char_to_codepoint` go on behind the same byte. -/
theorem utf8CharToCodepoint_behind (c : UInt8) (tail : List UInt8) :
    (utf8CharToCodepoint (c :: tail)).2 = utf8Behind c tail := by
  simp only [utf8CharToCodepoint, utf8Behind]
  repeat' split
  all_goals rfl

/-- Only bytes that continue a character are skipped. -/
theorem utf8Behind_drop (c : UInt8) (tail : List UInt8) :
    ∃ k, utf8Behind c tail = tail.drop k ∧ ∀ b ∈ tail.take k, continues (b.toNat : Int) := by
  have hnone : ∃ k, tail = tail.drop k ∧ ∀ b ∈ tail.take k, continues (b.toNat : Int) :=
    ⟨0, rfl, by simp⟩
  simp only [utf8Behind]
  split
  · exact hnone
  · split
    · split
      · next hb2 =>
        refine ⟨1, rfl, ?_⟩
        match tail, hb2 with
        | [], _ => simp
        | b2 :: _, hb2 => simpa using hb2
      · exact hnone
    · split
      · split
        · next hb =>
          refine ⟨2, rfl, ?_⟩
          match tail, hb with
          | [], _ => simp
          | [b2], hb => simpa using hb.1
          | b2 :: b3 :: _, hb => simpa using hb
        · exact hnone
      · split
        · split
          · next hb =>
            refine ⟨3, rfl, ?_⟩
            match tail, hb with
            | [], _ => simp
            | [b2], hb => simpa using hb.1
            | [b2, b3], hb => simpa using ⟨hb.1, hb.2.1⟩
            | b2 :: b3 :: b4 :: _, hb => simpa using hb
          · exact hnone
        · exact hnone

theorem codesFrom_succ (h : c ≠ 0) (fuel : Nat) (tail : List UInt8) :
    codesFrom (fuel + 1) (c :: tail) =
      (utf8CharToCodepoint (c :: tail)).1 :: codesFrom fuel (utf8Behind c tail) := by
  rw [codesFrom, headD_cons, if_neg h]
  simp only [utf8CharToCodepoint_behind]

theorem length_utf8Behind_le (c : UInt8) (tail : List UInt8) :
    (utf8Behind c tail).length ≤ tail.length := by
  obtain ⟨k, hk, -⟩ := utf8Behind_drop c tail
  rw [hk, length_drop]
  exact Nat.sub_le _ _

/-- More turns than bytes change nothing. -/
theorem codesFrom_eq {fuel fuel' : Nat} (h : string.length ≤ fuel) (h' : string.length ≤ fuel') :
    codesFrom fuel string = codesFrom fuel' string := by
  induction fuel generalizing string fuel' with
  | zero =>
    obtain rfl := length_eq_zero_iff.mp (Nat.le_zero.mp h)
    cases fuel' <;> rfl
  | succ fuel ih =>
    cases string with
    | nil => cases fuel' <;> rfl
    | cons c tail =>
      cases fuel' with
      | zero => exact absurd h' (by simp)
      | succ fuel' =>
        rw [length_cons] at h h'
        have hle := length_utf8Behind_le c tail
        by_cases hc : c = 0
        · simp [codesFrom, hc]
        · have hrest : codesFrom fuel (utf8Behind c tail) = codesFrom fuel' (utf8Behind c tail) :=
            ih (by omega) (by omega)
          rw [codesFrom_succ hc, codesFrom_succ hc, hrest]

theorem codesOf_cons (h : c ≠ 0) (tail : List UInt8) :
    codesOf (c :: tail) =
      (utf8CharToCodepoint (c :: tail)).1 :: codesOf (utf8Behind c tail) := by
  rw [codesOf, length_cons, codesFrom_succ h, codesOf,
    codesFrom_eq (length_utf8Behind_le c tail) (Nat.le_refl _)]

/-- `utf8_nchars` counts the codes of any string. -/
theorem utf8Nchars_eq (string : List UInt8) : utf8Nchars string = (codesOf string).length := by
  rw [utf8Nchars, codesOf]
  generalize string.length = fuel
  induction fuel generalizing string with
  | zero => cases string <;> rfl
  | succ fuel ih =>
    cases string with
    | nil => rfl
    | cons c tail =>
      by_cases hc : c = 0
      · simp [ncharsFrom, codesFrom, hc]
      · rw [ncharsFrom, if_neg hc, codesFrom_succ hc, length_cons, ih]

theorem continues_lead (h : continues (c.toNat : Int)) :
    bits (c.toNat : Int) 0x80 ≠ 0 ∧ bits (c.toNat : Int) 0xe0 ≠ 0xc0 ∧
      bits (c.toNat : Int) 0xf0 ≠ 0xe0 ∧ bits (c.toNat : Int) 0xf8 ≠ 0xf0 := by
  have hall : ∀ k < 256, continues (k : Nat) → bits (k : Nat) 0x80 ≠ 0 ∧
      bits (k : Nat) 0xe0 ≠ 0xc0 ∧ bits (k : Nat) 0xf0 ≠ 0xe0 ∧ bits (k : Nat) 0xf8 ≠ 0xf0 := by
    decide +kernel
  exact hall c.toNat c.toNat_lt h

theorem utf8Behind_continues (h : continues (c.toNat : Int)) (tail : List UInt8) :
    utf8Behind c tail = tail := by
  obtain ⟨hascii, htwo, hthree, hfour⟩ := continues_lead h
  simp only [utf8Behind]
  rw [if_neg hascii, if_neg htwo, if_neg hthree, if_neg hfour]

theorem ne_zero_of_continues (h : continues (c.toNat : Int)) : c ≠ 0 := by
  rintro rfl
  exact absurd h (by decide)

/-- Bytes that continue no character are codes of their own. -/
theorem length_codesOf_continues (h : ∀ b ∈ tail, continues (b.toNat : Int)) :
    (codesOf tail).length = tail.length := by
  induction tail with
  | nil => rfl
  | cons b tail ih =>
    obtain ⟨hb, htail⟩ := forall_mem_cons.mp h
    rw [codesOf_cons (ne_zero_of_continues hb), utf8Behind_continues hb, length_cons,
      length_cons, ih htail]

theorem truncated_cons : Truncated (c :: tail) ↔ CutShort c tail ∨ Truncated tail := by
  constructor
  · rintro ⟨front, lead, rest, heq, hcut⟩
    cases front with
    | nil =>
      obtain ⟨rfl, rfl⟩ := List.cons.inj heq
      exact Or.inl hcut
    | cons a front =>
      obtain ⟨-, rfl⟩ := List.cons.inj heq
      exact Or.inr ⟨front, lead, rest, rfl, hcut⟩
  · rintro (hcut | ⟨front, lead, rest, rfl, hcut⟩)
    · exact ⟨[], c, tail, rfl, hcut⟩
    · exact ⟨c :: front, lead, rest, rfl, hcut⟩

theorem not_truncated_nil : ¬ Truncated [] := by
  rintro ⟨front, lead, rest, heq, -⟩
  simp at heq

/-- Where a string ends is not changed by bytes that continue a character. -/
theorem truncated_drop {k : Nat} (h : ∀ b ∈ tail.take k, continues (b.toNat : Int)) :
    Truncated (tail.drop k) ↔ Truncated tail := by
  induction k generalizing tail with
  | zero => rfl
  | succ k ih =>
    cases tail with
    | nil => rfl
    | cons b tail =>
      rw [take_succ_cons] at h
      obtain ⟨hb, htail⟩ := forall_mem_cons.mp h
      obtain ⟨-, -, hthree, hfour⟩ := continues_lead hb
      rw [drop_succ_cons, ih htail, truncated_cons]
      refine (or_iff_right ?_).symm
      rintro ⟨-, -, hlead⟩
      exact hlead.elim (fun h => hthree h.1) fun h => hfour h.1

theorem truncated_behind (c : UInt8) (tail : List UInt8) :
    Truncated (c :: tail) ↔ CutShort c tail ∨ Truncated (utf8Behind c tail) := by
  obtain ⟨k, hk, htake⟩ := utf8Behind_drop c tail
  rw [hk, truncated_drop htake, truncated_cons]

end Sequences

section Runs

variable {σ : Type} {src : CharSource σ} {c b b3 : UInt8} {string rest : List UInt8}
  {st st' : StrFile × Bool} {codes : List Int}

theorem Reads.eof_inv {st st' st1 : σ} (h : Reads src st codes st')
    (hget : getCode src .utf8 st = (-1, st1)) : codes = [] := by
  cases h with
  | eof _ => rfl
  | code hne _ => exact absurd (congrArg Prod.fst hget) hne

theorem Reads.code_inv {st st' st1 : σ} {d : Int} (h : Reads src st codes st')
    (hget : getCode src .utf8 st = (d, st1)) (hd : d ≠ -1) :
    ∃ codes', codes = d :: codes' ∧ Reads src st1 codes' st' := by
  cases h with
  | eof heof => exact absurd ((congrArg Prod.fst hget).symm.trans heof) hd
  | code _ hrest =>
    rw [hget] at hrest
    exact ⟨_, by rw [hget], hrest⟩

theorem Reads.of_code {st st' st1 : σ} {d : Int} (hget : getCode src .utf8 st = (d, st1))
    (hd : d ≠ -1) (h : Reads src st1 codes st') : Reads src st (d :: codes) st' := by
  have hne : (getCode src .utf8 st).1 ≠ -1 := by
    rw [hget]
    exact hd
  have hrest : Reads src (getCode src .utf8 st).2 codes st' := by
    rw [hget]
    exact h
  have hcode := Reads.code hne hrest
  rw [hget] at hcode
  exact hcode

/-- Nothing is read where nothing is left. -/
theorem getCode_empty (h : st.1.strcnt ≤ 0) :
    ∃ st', getCode watchedSource .utf8 st = (-1, st') := by
  obtain ⟨st', hget, -⟩ := getC_empty h
  exact ⟨st', by simp only [getCode, hget, if_true]⟩

/-- A byte is read wherever something is left. -/
theorem getC_left {front : List UInt8} (hbase : st.1.strbase = front ++ b :: rest)
    (hptr : st.1.strptr = front.length) (hcnt : 0 < st.1.strcnt) :
    ∃ st', watchedSource.getC st = ((b.toNat : Int), st') ∧
      st'.1 = { st.1 with strptr := st.1.strptr + 1, strcnt := st.1.strcnt - 1 } := by
  have hbyte : st.1.strbase.getD st.1.strptr.toNat 0 = b := by
    rw [hbase, hptr, Int.toNat_natCast, getD_append_right _ _ _ _ (Nat.le_refl _),
      Nat.sub_self]
    rfl
  refine ⟨({ st.1 with strptr := st.1.strptr + 1, strcnt := st.1.strcnt - 1 },
    st.2 && StrFile.inside { st.1 with strptr := st.1.strptr + 1, strcnt := st.1.strcnt - 1 }),
    ?_, rfl⟩
  simp only [watchedSource, strgetc]
  rw [if_pos (by omega), hbyte]

theorem utf8GetCode_continued {st1 st2 st3 : StrFile × Bool} {d : Int}
    (hthree : bits (c.toNat : Int) 0xf0 = 0xe0 ∨ bits (c.toNat : Int) 0xf8 = 0xf0)
    (hget2 : watchedSource.getC st1 = ((b.toNat : Int), st2)) (hb : continues (b.toNat : Int))
    (hget3 : watchedSource.getC st2 = (d, st3)) (hd : d = -1) :
    utf8GetCode watchedSource c.toNat st1 =
      ((c.toNat : Int), watchedSource.unGetC (toChar b.toNat) st3) := by
  have hhigh : ¬ (c.toNat : Int) < 0x80 ∧ bits (c.toNat : Int) 0xe0 ≠ 0xc0 ∧
      (bits (c.toNat : Int) 0xf8 = 0xf0 → bits (c.toNat : Int) 0xf0 ≠ 0xe0) := by
    have hall : ∀ k < 256, bits (k : Nat) 0xf0 = 0xe0 ∨ bits (k : Nat) 0xf8 = 0xf0 →
        ¬ (k : Nat) < 0x80 ∧ bits (k : Nat) 0xe0 ≠ 0xc0 ∧
          (bits (k : Nat) 0xf8 = 0xf0 → bits (k : Nat) 0xf0 ≠ 0xe0) := by
      decide +kernel
    obtain ⟨hge, hrest⟩ := hall c.toNat c.toNat_lt hthree
    exact ⟨by omega, hrest⟩
  rw [utf8GetCode, if_neg hhigh.1, if_neg hhigh.2.1]
  subst hd
  by_cases h : bits (c.toNat : Int) 0xf0 = 0xe0
  · rw [if_pos h]
    simp only [hget2, hb, if_true, hget3, continues_eof, Bool.false_eq_true, if_false,
      putBack_eof]
  · rw [if_neg h, if_pos (hthree.resolve_left h)]
    simp only [hget2, hb, if_true, hget3, continues_eof, Bool.false_eq_true, if_false,
      putBack_eof]

/-- The end of the string behind the second byte of a character. -/
theorem getCode_second (h : Stands string [c, b] st)
    (hlead : bits (c.toNat : Int) 0xf0 = 0xe0 ∨ bits (c.toNat : Int) 0xf8 = 0xf0)
    (hb : continues (b.toNat : Int)) :
    ∃ st', getCode watchedSource .utf8 st = ((c.toNat : Int), st') ∧ st'.1.strcnt ≤ 0 := by
  obtain ⟨st1, hget1, hst1⟩ := h.getC
  obtain ⟨st2, hget2, hst2⟩ := hst1.getC
  obtain ⟨st3, hget3, -, hst3⟩ := hst2.ended.getC
  refine ⟨watchedSource.unGetC (toChar b.toNat) st3, ?_, ?_⟩
  · rw [getCode_watched hget1, utf8GetCode_continued hlead hget2 hb hget3 rfl]
  · have hcnt := hst2.cnt
    simp only [watchedSource, strUnGetC, hst3]
    rw [length_nil] at hcnt
    omega

/-- The end of the string behind the third byte of a character: its first byte is read twice. -/
theorem getCode_third (h : Stands string [c, b, b3] st)
    (hlead : bits (c.toNat : Int) 0xf8 = 0xf0) (hb : continues (b.toNat : Int))
    (hb3 : continues (b3.toNat : Int)) :
    ∃ st' st'', getCode watchedSource .utf8 st = ((c.toNat : Int), st') ∧
      getCode watchedSource .utf8 st' = ((c.toNat : Int), st'') ∧ st''.1.strcnt ≤ 0 := by
  obtain ⟨st1, hget1, hst1⟩ := h.getC
  obtain ⟨st2, hget2, hst2⟩ := hst1.getC
  obtain ⟨st3, hget3, hst3⟩ := hst2.getC
  obtain ⟨st4, hget4, -, hst4⟩ := hst3.ended.getC
  have hhigh : ¬ (c.toNat : Int) < 0x80 ∧ bits (c.toNat : Int) 0xe0 ≠ 0xc0 ∧
      bits (c.toNat : Int) 0xf0 ≠ 0xe0 := by
    have hall : ∀ k < 256, bits (k : Nat) 0xf8 = 0xf0 →
        ¬ (k : Nat) < 0x80 ∧ bits (k : Nat) 0xe0 ≠ 0xc0 ∧ bits (k : Nat) 0xf0 ≠ 0xe0 := by
      decide +kernel
    obtain ⟨hge, hrest⟩ := hall c.toNat c.toNat_lt hlead
    exact ⟨by omega, hrest⟩
  have hpos : (0 : Int) < b.toNat := by
    have : b.toNat ≠ 0 := fun h0 => ne_zero_of_continues hb (UInt8.toNat_inj.mp h0)
    omega
  have hfirst : getCode watchedSource .utf8 st = ((c.toNat : Int),
      watchedSource.unGetC (toChar b.toNat) (watchedSource.unGetC (toChar b3.toNat)
        (watchedSource.unGetC (toChar (-1)) st4))) := by
    rw [getCode_watched hget1, utf8GetCode, if_neg hhigh.1, if_neg hhigh.2.1, if_neg hhigh.2.2,
      if_pos hlead]
    simp only [hget2, hb, if_true, hget3, hb3, hget4, continues_eof, Bool.false_eq_true, if_false,
      hpos]
  generalize hst' : watchedSource.unGetC (toChar b.toNat) (watchedSource.unGetC (toChar b3.toNat)
    (watchedSource.unGetC (toChar (-1)) st4)) = st' at hfirst
  obtain ⟨front, hfront⟩ := h.suffix
  have hlength : string.length = front.length + 3 := by
    rw [← hfront, length_append]
    rfl
  have hptr3 := hst3.ptr
  have hcnt3 := hst3.cnt
  rw [length_nil] at hptr3 hcnt3
  have hbase' : st'.1.strbase = front ++ c :: [b, b3] := by
    rw [hfront, ← hst3.base, ← hst']
    simp only [watchedSource, strUnGetC, hst4]
  have hptr' : st'.1.strptr = front.length := by
    rw [← hst']
    simp only [watchedSource, strUnGetC, hst4]
    omega
  have hcnt' : st'.1.strcnt = 2 := by
    rw [← hst']
    simp only [watchedSource, strUnGetC, hst4]
    omega
  -- one byte less than there are is left
  obtain ⟨t1, hread1, ht1⟩ := getC_left hbase' hptr' (by omega)
  have hbase1 : t1.1.strbase = (front ++ [c]) ++ b :: [b3] := by
    rw [ht1, hbase', append_assoc]
    rfl
  have hptr1 : t1.1.strptr = (front ++ [c]).length := by
    rw [ht1, length_append, length_singleton]
    show st'.1.strptr + 1 = _
    omega
  have hcnt1 : t1.1.strcnt = 1 := by
    rw [ht1]
    show st'.1.strcnt - 1 = 1
    omega
  obtain ⟨t2, hread2, ht2⟩ := getC_left hbase1 hptr1 (by omega)
  have hcnt2 : t2.1.strcnt = 0 := by
    rw [ht2]
    show t1.1.strcnt - 1 = 0
    omega
  obtain ⟨t3, hread3, ht3⟩ := getC_empty (Int.le_of_eq hcnt2)
  refine ⟨st', watchedSource.unGetC (toChar b.toNat) t3, hfirst, ?_, ?_⟩
  · rw [getCode_watched hread1, utf8GetCode_continued (Or.inr hlead) hread2 hb hread3 rfl]
  · simp only [watchedSource, strUnGetC, ht3]
    omega

theorem utf8CharToCodepoint_nonneg (c : UInt8) (tail : List UInt8) :
    (utf8CharToCodepoint (c :: tail)).1 ≠ -1 := by
  have hnonneg : 0 ≤ (utf8CharToCodepoint (c :: tail)).1 := by
    simp only [utf8CharToCodepoint]
    repeat' split
    all_goals exact Int.natCast_nonneg _
  omega

/-- The end of the string within a character loses codes. -/
theorem CutShort.reads_shorter {tail : List UInt8} (hcut : CutShort c tail)
    (h : Stands string (c :: tail) st) (hc : c ≠ 0) (hreads : Reads watchedSource st codes st') :
    codes.length < (codesOf (c :: tail)).length := by
  obtain ⟨hne, htail, hlead⟩ := hcut
  have hpos : (c.toNat : Int) ≠ -1 := by omega
  have hlong : tail.length + 1 ≤ (codesOf (c :: tail)).length := by
    have hbehind : utf8Behind c tail = tail := by
      have hall : ∀ k < 256, bits (k : Nat) 0xf0 = 0xe0 ∨ bits (k : Nat) 0xf8 = 0xf0 →
          bits (k : Nat) 0xe0 ≠ 0xc0 ∧
            (bits (k : Nat) 0xf8 = 0xf0 → bits (k : Nat) 0xf0 ≠ 0xe0) := by
        decide +kernel
      obtain ⟨htwo, hexcl⟩ := hall c.toNat c.toNat_lt
        (hlead.elim (fun h => Or.inl h.1) fun h => Or.inr h.1)
      simp only [utf8Behind]
      rw [if_neg htwo]
      split
      · rfl
      · rcases hlead with ⟨hthree, hlen⟩ | ⟨hfour, hlen⟩
        · have hlast : tail.getD 1 0 = 0 := getD_eq_default _ _ (by omega)
          rw [if_pos hthree, hlast, if_neg]
          rintro ⟨-, h⟩
          exact absurd h (by decide)
        · have hlast : tail.getD 2 0 = 0 := getD_eq_default _ _ (by omega)
          rw [if_neg (hexcl hfour), if_pos hfour, hlast, if_neg]
          rintro ⟨-, -, h⟩
          exact absurd h (by decide)
    rw [codesOf_cons hc, hbehind, length_cons, length_codesOf_continues htail]
  match tail, hne with
  | [b], _ =>
    have hb : continues (b.toNat : Int) := htail b mem_cons_self
    obtain ⟨st1, hget, hcnt⟩ := getCode_second h
      (hlead.elim (fun h => Or.inl h.1) fun h => Or.inr h.1) hb
    obtain ⟨codes', rfl, hrest⟩ := hreads.code_inv hget hpos
    obtain ⟨st2, hget2⟩ := getCode_empty hcnt
    obtain rfl := hrest.eof_inv hget2
    exact hlong
  | [b, b3], _ =>
    obtain ⟨hb, hb3⟩ := forall_mem_cons.mp htail
    have hfour : bits (c.toNat : Int) 0xf8 = 0xf0 := by
      rcases hlead with h | h
      · exact absurd h.2 (by simp)
      · exact h.1
    obtain ⟨st1, st2, hget, hget2, hcnt⟩ := getCode_third h hfour hb (hb3 b3 mem_cons_self)
    obtain ⟨codes', rfl, hrest⟩ := hreads.code_inv hget hpos
    obtain ⟨codes'', rfl, hrest'⟩ := hrest.code_inv hget2 hpos
    obtain ⟨st3, hget3⟩ := getCode_empty hcnt
    obtain rfl := hrest'.eof_inv hget3
    exact hlong
  | b :: b3 :: b4 :: rest, _ =>
    rcases hlead with h | h
    · exact absurd h.2 (by simp)
    · exact absurd h.2 (by simp)

/-- All codes of a string that does not end within a character are read. -/
theorem reads_codesOf {n : Nat} (hn : rest.length ≤ n) (h : Behind string rest st)
    (hzero : ∀ b ∈ rest, b ≠ 0) (hwhole : ¬ Truncated rest) :
    ∃ st', Reads watchedSource st (codesOf rest) st' ∧ st'.2 = true := by
  induction n generalizing rest st with
  | zero =>
    obtain rfl := length_eq_zero_iff.mp (Nat.le_zero.mp hn)
    have hended : Ended string st := h.elim Stands.ended fun h => h.2
    obtain ⟨st', hget, hst', -⟩ := hended.getC
    have hcode : getCode watchedSource .utf8 st = (-1, st') := by
      simp only [getCode, hget, if_true]
    refine ⟨st', ?_, hst'.inside⟩
    have hend : (getCode watchedSource .utf8 st).1 = -1 := by rw [hcode]
    have heof := Reads.eof hend
    rw [hcode] at heof
    exact heof
  | succ n ih =>
    cases rest with
    | nil => exact ih (Nat.zero_le n) h hzero hwhole
    | cons c tail =>
      have hstands : Stands string (c :: tail) st := h.resolve_right (by rintro ⟨⟨⟩, -⟩)
      obtain ⟨hc, htail⟩ := forall_mem_cons.mp hzero
      rw [truncated_behind, not_or] at hwhole
      obtain ⟨st1, hget, hst1⟩ := getCode_stands hstands htail hwhole.1
      rw [utf8CharToCodepoint_behind] at hst1
      have hle := length_utf8Behind_le c tail
      rw [length_cons] at hn
      have hbehind : ∀ b ∈ utf8Behind c tail, b ≠ 0 := by
        obtain ⟨k, hk, -⟩ := utf8Behind_drop c tail
        rw [hk]
        exact fun b hb => htail b (mem_of_mem_drop hb)
      obtain ⟨st', hreads, hst'⟩ := ih (by omega) hst1 hbehind hwhole.2
      refine ⟨st', ?_, hst'⟩
      rw [codesOf_cons hc]
      exact hreads.of_code hget (utf8CharToCodepoint_nonneg c tail)

/-- In a string that ends within a character fewer codes are read. -/
theorem reads_truncated {n : Nat} (hn : rest.length ≤ n) (h : Behind string rest st)
    (hzero : ∀ b ∈ rest, b ≠ 0) (htruncated : Truncated rest)
    (hreads : Reads watchedSource st codes st') : codes.length < (codesOf rest).length := by
  induction n generalizing rest st codes with
  | zero =>
    obtain rfl := length_eq_zero_iff.mp (Nat.le_zero.mp hn)
    exact absurd htruncated not_truncated_nil
  | succ n ih =>
    cases rest with
    | nil => exact absurd htruncated not_truncated_nil
    | cons c tail =>
      have hstands : Stands string (c :: tail) st := h.resolve_right nofun
      obtain ⟨hc, htail⟩ := forall_mem_cons.mp hzero
      by_cases hcut : CutShort c tail
      · exact hcut.reads_shorter hstands hc hreads
      · obtain ⟨st1, hget, hst1⟩ := getCode_stands hstands htail hcut
        rw [utf8CharToCodepoint_behind] at hst1
        have hle := length_utf8Behind_le c tail
        rw [length_cons] at hn
        have hbehind : ∀ b ∈ utf8Behind c tail, b ≠ 0 := by
          obtain ⟨k, hk, -⟩ := utf8Behind_drop c tail
          rw [hk]
          exact fun b hb => htail b (mem_of_mem_drop hb)
        obtain ⟨codes', rfl, hrest⟩ := hreads.code_inv hget (utf8CharToCodepoint_nonneg c tail)
        have hlt := ih (by omega) hst1 hbehind
          (((truncated_behind c tail).mp htruncated).resolve_left hcut) hrest
        rw [codesOf_cons hc, length_cons, length_cons]
        omega

end Runs

/-- For a string without NUL the codes that `GetCode` reads up to the end of the file are those of
`utf8_char_to_codepoint`, as many as `utf8_nchars` counts, with the pointer always inside the
string, exactly if the string does not end behind the second or third byte of a longer
character. -/
theorem decoders_agree_iff (string : List UInt8) (h : ∀ b ∈ string, b ≠ 0) :
    (∃ st', Reads watchedSource (.open string, true) (codesOf string) st' ∧
        utf8Nchars string = (codesOf string).length ∧ st'.2 = true) ↔
      ¬ Truncated string := by
  have hstart : Behind string string (.open string, true) :=
    Or.inl ⟨rfl, suffix_rfl, Int.zero_add _, rfl, rfl⟩
  constructor
  · rintro ⟨st', hreads, -, -⟩ htruncated
    exact absurd (reads_truncated (Nat.le_refl _) hstart h htruncated hreads) (Nat.lt_irrefl _)
  · intro hwhole
    obtain ⟨st', hreads, hst'⟩ := reads_codesOf (Nat.le_refl _) hstart h hwhole
    exact ⟨st', hreads, utf8Nchars_eq string, hst'⟩

theorem decoders_agree_iff_letter :
    (∃ st', Reads watchedSource (.open [97], true) (codesOf [97]) st' ∧
        utf8Nchars [97] = (codesOf [97]).length ∧ st'.2 = true) ↔ ¬ Truncated [97] :=
  decoders_agree_iff [97] (by simp)

/-- Of the bytes E2 82 only the first one is read. -/
theorem half_euro_sign_lost :
    ¬ ∃ st', Reads watchedSource (.open [0xe2, 0x82], true) (codesOf [0xe2, 0x82]) st' := by
  rintro ⟨st', hreads⟩
  obtain ⟨codes', hcodes, hrest⟩ := hreads.code_inv rfl (by decide)
  have hnil : codes' = [] := hrest.eof_inv rfl
  rw [hnil] at hcodes
  exact absurd hcodes (by decide)

end XSBEngine.Reading
