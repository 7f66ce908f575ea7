import XSBEngine.Reading.TokenBounds
import XSBEngine.Reading.TokenProgress

/-!
# The values of integers

When the token of a number has the value of its digits: plain decimals, and digits behind a radix,
`XSB/emu/token_xsb.c:1087–1236`.
-/

namespace XSBEngine.Reading

open Library List

variable {σ F : Type}

/-- The value of digits behind those of the value `v`, for the radix `d`. -/
def digitsValue (d v : Int) (ds : List Int) : Int := ds.foldl (fun v c => v * d + digitOf c) v

/-- With one digit more the value modulo 2^64 is smaller than before. -/
def Detected (d v : Int) (ds : List Int) : Prop :=
  ∃ i < ds.length, wrap64 (digitsValue d v (ds.take (i + 1))) < wrap64 (digitsValue d v (ds.take i))

/-- A number without point and exponent: decimal digits, or digits for a radix. Underscores are left
out. -/
inductive Numeral where
  | decimal (digits : List Int)
  | based (radix : Int) (digits : List Int)
deriving DecidableEq

/-- The value of the digits. -/
def Numeral.value : Numeral → Int
  | decimal ds => digitsValue 10 0 ds
  | based radix ds => digitsValue radix 0 ds

section Spelling

variable (src : CharSource σ) (charset : Charset)

/-- The digits of a number and of a radix, from the code `c` on. -/
def leadingDigits (c : Int) (st : σ) : Span σ :=
  span src charset (upTo .BREAK) (src.size st + 1) c st

/-- The number that begins with the digit `c`, if it is an integer and its radix is a possible one:
`Radix'digits`, `0b`, `0o` and `0x` with digits, or decimal digits. -/
def numeral (c : Int) (st : σ) : Option Numeral :=
  let s := leadingDigits src charset c st
  let v := digitsValue 10 0 (kept s.codes)
  let d := getCode src charset s.rest
  let based (radix : Int) := Numeral.based radix
    (kept (span src charset (digitBelow radix) (src.size s.rest + 1) d.1 d.2).codes)
  if s.stop = code '\'' then if 2 ≤ v ∧ v ≤ 36 then some (based v) else none
  else if s.stop = code '.' ∧ Known d.1 ∧ classOf d.1 = .DIGIT then none
  else if (s.stop = code 'b' ∨ s.stop = code 'o' ∨ s.stop = code 'x') ∧ v = 0 then
    some (based (if s.stop = code 'b' then 2 else if s.stop = code 'o' then 8 else 16))
  else some (.decimal (kept s.codes))

/-- Layout characters in front of the code `d`. -/
inductive Skips : Int → σ → Int → σ → Prop where
  | refl (c : Int) (st : σ) : Skips c st c st
  | layout {c d : Int} {st st' : σ} : Known c → classOf c = .SPACE ∨ classOf c = .EOLN →
      Skips (getCode src charset st).1 (getCode src charset st).2 d st' → Skips c st d st'

end Spelling

section Denoting

/-- The token is the given integer. -/
def Token.IsInteger (t : Token F) (i : Int) : Prop :=
  (t.type = .INT ∨ t.type = .INTFUNC) ∧ t.value = .integer i

/-- The token is a float. -/
def Token.IsReal (t : Token F) : Prop := t.type = .REAL ∨ t.type = .REALFUNC

/-- The token of a number. A decimal ends in front of the code `stop`. -/
def Numeral.Denotes (n : Numeral) (s : Span σ) (l : Lexed σ F) : Prop :=
  match n with
  | .decimal _ => l.token.IsInteger (min n.value maxInt) ∧ l.token.nextch = s.stop ∧
      (s.stop ≠ code '.' → l.stream = s.rest)
  | .based _ _ => if n.value ≤ maxInt then l.token.IsInteger n.value else l.token.IsReal

/-- The arithmetic of the tokenizer gives the value, or sees that it is too large: decimals in
front of `b`, `o` and `x` are an `int`, and behind a radix the value becomes smaller modulo 2^64
with one of the digits. -/
def Numeral.Safe (n : Numeral) (stop : Int) : Prop :=
  match n with
  | .decimal _ => stop = code 'b' ∨ stop = code 'o' ∨ stop = code 'x' → n.value < 2 ^ 31
  | .based radix ds => n.value ≤ maxInt ∨ Detected radix 0 ds

end Denoting

section Arithmetic

variable {d v x : Int} {c : Int} {ds : List Int}

theorem wrap64_step : wrap64 (wrap64 v * d + x) = wrap64 (v * d + x) := by
  rw [wrap64, wrap64, wrap64, ← Int.bmod_add_bmod, Int.bmod_mul_bmod, Int.bmod_add_bmod]

theorem wrap32_step : wrap32 (wrap32 v * d + x) = wrap32 (v * d + x) := by
  rw [wrap32, wrap32, wrap32, ← Int.bmod_add_bmod, Int.bmod_mul_bmod, Int.bmod_add_bmod]

theorem wrap64_le (v : Int) : wrap64 v ≤ maxInt := by
  have := Int.bmod_lt (x := v) (m := 2 ^ 64) (by decide)
  rw [wrap64, maxInt]
  omega

theorem wrap64_of_le (h : 0 ≤ v) (hle : v ≤ maxInt) : wrap64 v = v := by
  rw [maxInt] at hle
  exact Int.bmod_eq_of_le (by omega) (by omega)

theorem wrap32_of_lt (h : 0 ≤ v) (hlt : v < 2 ^ 31) : wrap32 v = v :=
  Int.bmod_eq_of_le (by omega) (by omega)

theorem wrap32_lt (v : Int) : wrap32 v < 2 ^ 31 := by
  have := Int.bmod_lt (x := v) (m := 2 ^ 32) (by decide)
  rw [wrap32]
  omega

@[simp] theorem digitsValue_nil : digitsValue d v [] = v := rfl

@[simp] theorem digitsValue_cons :
    digitsValue d v (c :: ds) = digitsValue d (v * d + digitOf c) ds := rfl

theorem le_mul_radix (hv : 0 ≤ v) (hd : 1 ≤ d) : v ≤ v * d := by
  have := Int.mul_le_mul_of_nonneg_left hd hv
  omega

theorem le_digitsValue (hd : 1 ≤ d) (hv : 0 ≤ v) (ds : List Int) : v ≤ digitsValue d v ds := by
  induction ds generalizing v with
  | nil => exact Int.le_refl v
  | cons c ds ih =>
    have hle := le_mul_radix hv hd
    have hstep : v ≤ v * d + digitOf c := by omega
    exact Int.le_trans hstep (ih (Int.le_trans hv hstep))

theorem not_detected_nil : ¬ Detected d v [] := by
  rintro ⟨i, hi, -⟩
  exact absurd hi (Nat.not_lt_zero i)

/-- The first digit or a later one makes the value smaller. -/
theorem detected_cons :
    Detected d v (c :: ds) ↔
      wrap64 (v * d + digitOf c) < wrap64 v ∨ Detected d (v * d + digitOf c) ds := by
  constructor
  · rintro ⟨i, hi, hlt⟩
    cases i with
    | zero => exact Or.inl hlt
    | succ i => exact Or.inr ⟨i, Nat.lt_of_succ_lt_succ hi, hlt⟩
  · rintro (hlt | ⟨i, hi, hlt⟩)
    · exact ⟨0, Nat.succ_pos _, hlt⟩
    · exact ⟨i + 1, Nat.succ_lt_succ hi, hlt⟩

/-- Nothing is wrapped on the way to a value that is small enough. -/
theorem not_detected (hd : 1 ≤ d) (hv : 0 ≤ v) (hle : digitsValue d v ds ≤ maxInt) :
    ¬ Detected d v ds := by
  induction ds generalizing v with
  | nil => exact not_detected_nil
  | cons c ds ih =>
    rw [digitsValue_cons] at hle
    have hmul := le_mul_radix hv hd
    have hnonneg : 0 ≤ v * d + digitOf c := by omega
    have hrest := le_digitsValue hd hnonneg ds
    rw [detected_cons, not_or]
    refine ⟨?_, ih hnonneg hle⟩
    rw [wrap64_of_le hnonneg (by omega), wrap64_of_le hv (by omega)]
    omega

end Arithmetic

section Loops

variable {src : CharSource σ} {charset : Charset} {fl : Doubles F}

theorem kept_cons_of_ne {c : Int} (h : c ≠ code '_') (codes : List Int) :
    kept (c :: codes) = c :: kept codes := by
  simp [kept, h]

theorem kept_underscore (codes : List Int) : kept (code '_' :: codes) = kept codes := by
  simp [kept]

theorem ite_either {p : Prop} [Decidable p] (a a' : TokenType) :
    (if p then a else a') = a' ∨ (if p then a else a') = a := by
  split
  · exact Or.inr rfl
  · exact Or.inl rfl

variable (fl) in
/-- The digits of the float are read up to a known code. -/
theorem radixReal_ok (d : Int) {fuel : Nat} (x : F) (st : σ) (hfuel : src.size st < fuel)
    (hknown : Known (span src charset (digitBelow 99) (fuel + 1) (getCode src charset st).1
      (getCode src charset st).2).stop) :
    ∃ r, radixReal src charset fl d fuel x st = .ok r := by
  induction fuel generalizing x st with
  | zero => omega
  | succ fuel ih =>
    have hsize := size_getCode src charset st
    rw [radixReal]
    generalize getCode src charset st = c at *
    by_cases hc : Known c.1
    · rw [digVal_known hc]
      simp only [bind, Except.bind]
      by_cases hdigit : digitBelow 99 c.1
      · rw [span_succ hdigit] at hknown
        have hlt := hsize (nonneg_of_digitBelow (by decide) hdigit)
        have hdigit' := (digitBelow_known hc).mp hdigit
        rw [if_pos (by omega)]
        exact ih _ _ (by omega) hknown
      · rw [if_neg (fun h => hdigit ((digitBelow_known hc).mpr (by omega)))]
        exact ⟨_, rfl⟩
    · have hdigit : ¬ digitBelow 99 c.1 := by
        intro h
        simp only [digitBelow, decide_eq_true_eq] at h
        exact hc h.1
      rw [span_of_neg hdigit] at hknown
      exact absurd hknown hc

variable (fl) in
/-- The digits behind a radix, where those before have the value `v`. -/
theorem nonzeroRadix_spec (b : StrBuff) (lastc : Int) {d v : Int} (hle : d ≤ 99) {fuel : Nat}
    (st : σ) (hfuel : src.size st < fuel)
    (hknown : RadixKnown src charset d fuel (wrap64 v) st) :
    let c := getCode src charset st
    let ds := kept (span src charset (digitBelow d) fuel c.1 c.2).codes
    ∃ l, nonzeroRadix src charset fl d b lastc fuel (wrap64 v) st = .ok l ∧
      (Detected d v ds → l.token.IsReal) ∧
      (¬ Detected d v ds → l.token.IsInteger (wrap64 (digitsValue d v ds))) := by
  induction fuel generalizing v st with
  | zero => omega
  | succ fuel ih =>
    have hsize := size_getCode src charset st
    rw [RadixKnown] at hknown
    simp only
    rw [nonzeroRadix]
    generalize getCode src charset st = c at *
    obtain ⟨hc, hrest⟩ := hknown
    rw [digVal_known hc]
    simp only [bind, Except.bind]
    by_cases hdigit : (digitOf c.1 : Int) < d
    · have hbelow : digitBelow d c.1 := (digitBelow_known hc).mpr hdigit
      have hlt := hsize (nonneg_of_digitBelow hle hbelow)
      rw [if_pos hdigit, span_succ hbelow]
      have hrest := hrest hdigit
      by_cases hund : c.1 = code '_'
      · rw [if_pos hund] at hrest
        simp only [hund, kept_underscore, ne_eq, not_true_eq_false, if_false]
        exact ih c.2 (by omega) hrest
      · rw [if_neg hund] at hrest
        rw [if_pos hund, kept_cons_of_ne hund]
        simp only [wrap64_step] at hrest ⊢
        have hmax : ¬ maxInt < wrap64 (v * d + digitOf c.1) := Int.not_lt.mpr (wrap64_le _)
        by_cases hless : wrap64 (v * d + digitOf c.1) < wrap64 v
        · rw [if_pos (Or.inl hless)] at hrest ⊢
          obtain ⟨r, hr⟩ := radixReal_ok fl d
            (fl.shift (fl.ofInteger (wrap64 v)) d (digitOf c.1)) c.2 (Nat.lt_succ_self _) hrest
          rw [hr]
          refine ⟨_, rfl, fun _ => ?_, fun hnot => absurd (detected_cons.mpr (Or.inl hless)) hnot⟩
          exact ite_either _ _
        · rw [if_neg (fun h => h.elim hless hmax)] at hrest ⊢
          obtain ⟨l, hl, hreal, hinteger⟩ := ih c.2 (by omega) hrest
          refine ⟨l, hl, fun h => ?_, fun h => ?_⟩
          · exact hreal ((detected_cons.mp h).resolve_left hless)
          · exact hinteger fun h' => h (detected_cons.mpr (Or.inr h'))
    · have hbelow : ¬ digitBelow d c.1 := fun h => hdigit ((digitBelow_known hc).mp h)
      rw [if_neg hdigit, span_of_neg hbelow]
      exact ⟨_, rfl, fun h => absurd h not_detected_nil, fun _ => ⟨ite_either _ _, rfl⟩⟩

end Loops

section Decimals

variable {c : Int} {codes : List Int}

/-- The characters of a decimal number. -/
theorem decimalDigit (h : upTo .BREAK c) (hund : c ≠ code '_') :
    48 ≤ c ∧ c ≤ 57 ∧ (digitOf c : Int) = c - 48 ∧ ((toByte c).toNat : Int) = c := by
  have hall : ∀ k < 256, upTo .BREAK (k : Nat) → (k : Nat) ≠ 95 →
      48 ≤ k ∧ k ≤ 57 ∧ digitOf (k : Nat) + 48 = k ∧ (toByte (k : Nat)).toNat = k := by
    decide +kernel
  have hnonneg := nonneg_of_upTo (upTo_mono h)
  have hknown : Known c := by
    simp only [upTo, decide_eq_true_eq] at h
    exact h.1
  obtain ⟨n, rfl⟩ := Int.eq_ofNat_of_zero_le hnonneg
  have hlt := hknown.2
  obtain ⟨h1, h2, h3, h4⟩ := hall n (by omega) h fun heq => hund (by rw [heq]; rfl)
  exact ⟨by omega, by omega, by omega, by omega⟩

theorem kept_upTo (h : ∀ c ∈ codes, upTo .BREAK c) :
    ∀ c ∈ kept codes, upTo .BREAK c ∧ c ≠ code '_' := by
  intro c hc
  have hmem := mem_filter.mp hc
  exact ⟨h c hmem.1, by simpa using hmem.2⟩

/-- Decimal digits as an `int`. -/
theorem foldl_intValue {ds : List Int} (h : ∀ c ∈ ds, upTo .BREAK c ∧ c ≠ code '_') (v : Int) :
    (ds.map toByte).foldl (fun d c => wrap32 (d * 10 - 48 + c.toNat)) (wrap32 v) =
      wrap32 (digitsValue 10 v ds) := by
  induction ds generalizing v with
  | nil => rfl
  | cons c ds ih =>
    obtain ⟨hc, hds⟩ := forall_mem_cons.mp h
    obtain ⟨-, -, hdigit, hbyte⟩ := decimalDigit hc.1 hc.2
    rw [map_cons, foldl_cons, digitsValue_cons, ← ih hds, hbyte]
    have harg : wrap32 v * 10 - 48 + c = wrap32 v * 10 + digitOf c := by omega
    rw [harg, wrap32_step]

theorem intValue_kept (h : ∀ c ∈ codes, upTo .BREAK c) :
    intValue ((kept codes).map toByte) = wrap32 (digitsValue 10 0 (kept codes)) :=
  foldl_intValue (kept_upTo h) 0

/-- Decimal digits as an `Integer`. -/
theorem integerValue_digits {ds : List Int} (h : ∀ c ∈ ds, upTo .BREAK c ∧ c ≠ code '_') {v : Int}
    (hv : 0 ≤ v) (hle : v ≤ maxInt) :
    ∃ last, integerValue v (ds.map toByte) = (min (digitsValue 10 v ds) maxInt, last) ∧
      last ≠ code '(' := by
  induction ds generalizing v with
  | nil =>
    refine ⟨0, ?_, nofun⟩
    rw [map_nil, integerValue, digitsValue_nil, Int.min_eq_left hle]
  | cons c ds ih =>
    obtain ⟨hc, hds⟩ := forall_mem_cons.mp h
    obtain ⟨hlow, hhigh, hdigit, hbyte⟩ := decimalDigit hc.1 hc.2
    rw [map_cons, integerValue, digitsValue_cons, hbyte]
    have hnext : v * 10 - 48 + c = v * 10 + digitOf c := by omega
    split
    · next hroom =>
      rw [hnext]
      have hle' : v * 10 + digitOf c ≤ maxInt := by
        rw [maxInt] at hroom ⊢
        omega
      exact ih hds (by omega) hle'
    · next hroom =>
      refine ⟨c, ?_, ?_⟩
      · have hlarge : maxInt ≤ v * 10 + digitOf c := by
          rw [maxInt] at hroom ⊢
          omega
        have hrest := le_digitsValue (d := 10) (by decide) (v := v * 10 + digitOf c) (by omega) ds
        rw [Int.min_eq_right (Int.le_trans hlarge hrest)]
      · show c ≠ 40
        omega

end Decimals

section Numbers

variable {src : CharSource σ} {charset : Charset} {fl : Doubles F} {b : StrBuff} {lastc : Int}
  {st : σ} {c d : Int}

theorem not_isReal_of_isInteger {t : Token F} {i : Int} (h : t.IsInteger i) : ¬ t.IsReal := by
  rcases h.1 with htype | htype <;> simp [Token.IsReal, htype]

/-- A number behind a radix. -/
theorem based_spec (hd : 1 ≤ d) (hle : d ≤ 99) (s : Span σ)
    (hknown : RadixKnown src charset d (src.size s.rest + 1) 0 s.rest) :
    let r := getCode src charset s.rest
    let n := Numeral.based d
      (kept (span src charset (digitBelow d) (src.size s.rest + 1) r.1 r.2).codes)
    ∃ l, nonzeroRadix src charset fl d b lastc (src.size s.rest + 1) 0 s.rest = .ok l ∧
      (n.Denotes s l ↔ n.Safe s.stop) := by
  obtain ⟨l, hl, hreal, hinteger⟩ :=
    nonzeroRadix_spec fl b lastc (d := d) (v := 0) hle s.rest (Nat.lt_succ_self _) hknown
  simp only
  generalize kept (span src charset (digitBelow d) (src.size s.rest + 1)
    (getCode src charset s.rest).1 (getCode src charset s.rest).2).codes = ds at *
  refine ⟨l, hl, ?_⟩
  show (if digitsValue d 0 ds ≤ maxInt then l.token.IsInteger (digitsValue d 0 ds)
    else l.token.IsReal) ↔ digitsValue d 0 ds ≤ maxInt ∨ Detected d 0 ds
  by_cases hsmall : digitsValue d 0 ds ≤ maxInt
  · rw [if_pos hsmall]
    have hnot := not_detected hd (Int.le_refl 0) hsmall
    have htoken := hinteger hnot
    rw [wrap64_of_le (le_digitsValue hd (Int.le_refl 0) ds) hsmall] at htoken
    exact iff_of_true htoken (Or.inl hsmall)
  · rw [if_neg hsmall]
    constructor
    · intro hr
      by_contra hnot
      exact not_isReal_of_isInteger (hinteger fun h => hnot (Or.inr h)) hr
    · rintro (hsmall' | hdet)
      · exact absurd hsmall' hsmall
      · exact hreal hdet

/-- A decimal number. -/
theorem decimal_spec {ds : List Int} (h : ∀ c ∈ ds, upTo .BREAK c ∧ c ≠ code '_')
    (hstring : b.string = ds.map toByte) (hroom : b.text.length < b.len) :
    ∃ l, (integer c st b lastc : Except Stop (Lexed σ F)) = .ok l ∧
      l.token.IsInteger (min (digitsValue 10 0 ds) maxInt) ∧ l.token.nextch = c ∧
        l.stream = st := by
  obtain ⟨last, hvalue, hlast⟩ := integerValue_digits h (v := 0) (Int.le_refl 0) (by decide)
  rw [integer, StrBuff.terminate, if_pos hroom]
  simp only [bind, Except.bind, hstring, hvalue]
  refine ⟨_, rfl, ⟨?_, rfl⟩, rfl, rfl⟩
  exact Or.inl (if_neg hlast)

/-- A token that is read behind the letter does not end in front of it. -/
theorem not_ends_before {l : Lexed σ F} {n : Nat} {fuel : Nat} (hd : d ≤ 99)
    (hfuel : src.size st < fuel)
    (hl : nonzeroRadix src charset fl d b lastc fuel n st = .ok l) (hend : ¬ l.token.isEnd)
    (hc : 0 ≤ l.token.nextch) : l.stream ≠ st := by
  intro heq
  have hleaves := (finds_nonzeroRadix d n hd hfuel).of_ok hl
  have hleft := hleaves.left_le hend
  rw [left, heq, if_neg (by omega)] at hleft
  omega

/-- A decimal number in front of `b`, `o` or `x`. -/
theorem letter_spec {s : Span σ} (hcodes : ∀ c ∈ s.codes, upTo .BREAK c)
    (htext : b.text = (kept s.codes).map toByte) (hroom : b.text.length < b.len)
    (hletter : s.stop = code 'b' ∨ s.stop = code 'o' ∨ s.stop = code 'x')
    (hvalue : digitsValue 10 0 (kept s.codes) ≠ 0)
    (hknown : intValue ((kept s.codes).map toByte) = 0 → RadixKnown src charset
      (if s.stop = code 'b' then 2 else if s.stop = code 'o' then 8 else 16)
      (src.size s.rest + 1) 0 s.rest) :
    ∃ l, radixLetter src charset fl s.stop s.rest b lastc = .ok l ∧
      ((Numeral.decimal (kept s.codes)).Denotes s l ↔
        (Numeral.decimal (kept s.codes)).Safe s.stop) := by
  have hnonneg := le_digitsValue (d := 10) (by decide) (Int.le_refl 0) (kept s.codes)
  have hsafe : (Numeral.decimal (kept s.codes)).Safe s.stop ↔
      digitsValue 10 0 (kept s.codes) < 2 ^ 31 :=
    ⟨fun h => h hletter, fun h _ => h⟩
  have hstop : 0 ≤ s.stop := by
    rcases hletter with h | h | h <;> rw [h] <;> decide
  rw [hsafe, radixLetter, StrBuff.terminate, if_pos hroom, string_digits hcodes htext]
  simp only [bind, Except.bind]
  rw [intValue_kept hcodes] at hknown ⊢
  by_cases hzero : wrap32 (digitsValue 10 0 (kept s.codes)) = 0
  · rw [if_pos hzero]
    have hlarge : ¬ digitsValue 10 0 (kept s.codes) < 2 ^ 31 := by
      intro hlt
      rw [wrap32_of_lt hnonneg hlt] at hzero
      exact hvalue hzero
    have hradix : (if s.stop = code 'b' then 2 else if s.stop = code 'o' then 8 else 16 : Int) ≤
        99 := by
      split
      · decide
      · split <;> decide
    obtain ⟨l, hl, hreal, hinteger⟩ := nonzeroRadix_spec fl b lastc (v := 0) hradix s.rest
      (Nat.lt_succ_self _) (hknown hzero)
    refine ⟨l, hl, iff_of_false ?_ hlarge⟩
    rintro ⟨htoken, hnext, hstream⟩
    refine not_ends_before (n := 0) hradix (Nat.lt_succ_self _) hl ?_ (by rw [hnext]; exact hstop)
      (hstream ?_)
    · rcases htoken.1 with h | h <;> simp [Token.isEnd, h]
    · rcases hletter with h | h | h <;> rw [h] <;> decide
  · rw [if_neg hzero]
    refine ⟨_, rfl, ?_⟩
    have htoken : (Numeral.decimal (kept s.codes)).Denotes s (⟨⟨.INT,
        .integer (wrap32 (digitsValue 10 0 (kept s.codes))), s.stop⟩, s.rest, b, lastc⟩ :
          Lexed σ F) ↔
        wrap32 (digitsValue 10 0 (kept s.codes)) =
          min (digitsValue 10 0 (kept s.codes)) maxInt :=
      ⟨fun h => TokenValue.integer.inj h.1.2,
        fun h => ⟨⟨Or.inl rfl, congrArg TokenValue.integer h⟩, rfl, fun _ => rfl⟩⟩
    have hwrap := wrap32_lt (digitsValue 10 0 (kept s.codes))
    have hsmall := wrap32_of_lt hnonneg
    rw [htoken]
    constructor
    · intro heq
      rw [heq, maxInt] at hwrap
      omega
    · intro hlt
      rw [hsmall hlt, maxInt]
      omega

variable (fl) in
/-- A number that is an integer, where the tables and the buffer have room for it. -/
theorem number_spec {n : Numeral} (lastc : Int) (hc : upTo .BREAK c) (htext : b.text = [])
    (hfits : NumberFits src charset b.len c st) (hn : numeral src charset c st = some n) :
    ∃ l, number src charset fl c st b lastc = .ok l ∧
      (n.Denotes (leadingDigits src charset c st) l ↔
        n.Safe (leadingDigits src charset c st).stop) := by
  have hcodes := span_codes src charset (upTo .BREAK) (src.size st + 1) c st
  rw [number, digits_eq hc (Nat.lt_succ_self _) (by simp [htext])]
  rw [numeral, leadingDigits] at hn
  rw [NumberFits] at hfits
  rw [leadingDigits]
  generalize span src charset (upTo .BREAK) (src.size st + 1) c st = s at *
  have hnonneg := le_digitsValue (d := 10) (by decide) (Int.le_refl 0) (kept s.codes)
  have hint := intValue_kept hcodes
  obtain ⟨hstop, hfits⟩ := hfits
  simp only at hn hfits
  have hlength : ((kept s.codes).map toByte).length = (kept s.codes).length := length_map _
  have hstring := @string_digits s.codes { b with text := (kept s.codes).map toByte } hcodes rfl
  have hroom : (kept s.codes).length < b.len := by
    split at hfits
    · exact hfits.1
    · split at hfits
      · have hfits := hfits.2
        split at hfits
        · have := hfits.2.1
          omega
        · exact hfits
      · split at hfits
        · exact hfits.1
        · exact hfits
  rw [if_pos ⟨hstop, by simpa [htext] using Nat.le_of_lt hroom⟩]
  simp only [htext, nil_append, bind, Except.bind]
  have hdecimal : ∀ st' : σ, ∃ l, (integer s.stop st'
      ({ b with text := (kept s.codes).map toByte } : StrBuff) lastc :
        Except Stop (Lexed σ F)) = .ok l ∧
      l.token.IsInteger (min (digitsValue 10 0 (kept s.codes)) maxInt) ∧
      l.token.nextch = s.stop ∧ l.stream = st' := fun st' =>
    decimal_spec (kept_upTo hcodes) hstring (by rw [hlength]; exact hroom)
  by_cases hquote : s.stop = code '\''
  · rw [if_pos hquote] at hn hfits ⊢
    split at hn
    · next hradix =>
      obtain rfl := Option.some.inj hn
      have hwrap : wrap32 (digitsValue 10 0 (kept s.codes)) = digitsValue 10 0 (kept s.codes) :=
        wrap32_of_lt hnonneg (by omega)
      rw [hint, hwrap] at hfits
      have hknown := hfits.2 (by omega) hradix.2
      rw [if_neg (by omega)] at hknown
      rw [radix, StrBuff.terminate, if_pos (by rw [hlength]; exact hroom)]
      simp only [bind, Except.bind]
      rw [hstring, hint, hwrap, if_neg (by omega), if_neg (by omega)]
      exact based_spec (by omega) (by omega) s hknown
    · cases hn
  · rw [if_neg hquote] at hn hfits ⊢
    by_cases hpoint : s.stop = code '.'
    · rw [if_pos hpoint] at hfits ⊢
      have hd := hfits.1
      split at hn
      · cases hn
      · next hfloat =>
        have hclass : classOf (getCode src charset s.rest).1 ≠ .DIGIT := fun h =>
          hfloat ⟨hpoint, hd, h⟩
        have hletter : ¬ (s.stop = code 'b' ∨ s.stop = code 'o' ∨ s.stop = code 'x') := by
          rw [hpoint]
          decide
        rw [if_neg (fun h => hletter h.1)] at hn
        obtain rfl := Option.some.inj hn
        rw [inType_known hd]
        simp only [hclass, if_false]
        obtain ⟨l, hl, htoken, hnext, -⟩ := hdecimal
          (src.unGetC (getCode src charset s.rest).1 (getCode src charset s.rest).2)
        refine ⟨l, hl, iff_of_true ⟨htoken, hnext, fun h => absurd hpoint h⟩ fun h => ?_⟩
        exact absurd h hletter
    · rw [if_neg hpoint] at hfits ⊢
      rw [if_neg (fun h => hpoint h.1)] at hn
      by_cases hletter : s.stop = code 'b' ∨ s.stop = code 'o' ∨ s.stop = code 'x'
      · rw [if_pos hletter] at hfits ⊢
        by_cases hzero : digitsValue 10 0 (kept s.codes) = 0
        · rw [if_pos ⟨hletter, hzero⟩] at hn
          obtain rfl := Option.some.inj hn
          rw [hzero] at hint
          have hint' : intValue ((kept s.codes).map toByte) = 0 := hint
          have hknown := hfits.2 hint'
          rw [radixLetter, StrBuff.terminate, if_pos (by rw [hlength]; exact hroom)]
          simp only [bind, Except.bind]
          rw [hstring, hint', if_pos rfl]
          refine based_spec ?_ ?_ s hknown
          · split
            · decide
            · split <;> decide
          · split
            · decide
            · split <;> decide
        · rw [if_neg (fun h => hzero h.2)] at hn
          obtain rfl := Option.some.inj hn
          exact letter_spec hcodes rfl (by rw [hlength]; exact hroom) hletter hzero hfits.2
      · rw [if_neg hletter]
        rw [if_neg (fun h => hletter h.1)] at hn
        obtain rfl := Option.some.inj hn
        obtain ⟨l, hl, htoken, hnext, hstream⟩ := hdecimal s.rest
        exact ⟨l, hl, iff_of_true ⟨htoken, hnext, fun _ => hstream⟩ fun h => absurd h hletter⟩

end Numbers

section Tokens

variable {src : CharSource σ} {charset : Charset} {fl : Doubles F} {c d : Int} {st st' : σ}

/-- Layout in front of a number is skipped. -/
theorem start_number (b : StrBuff) (lastc : Int) (h : Skips src charset c st d st') (hd : Known d)
    (hdigit : classOf d = .DIGIT) {fuel : Nat} (hfuel : left src c st < fuel) :
    start src charset fl b lastc fuel c st = number src charset fl d st' b lastc := by
  induction h generalizing fuel with
  | refl c st =>
    obtain ⟨fuel, rfl⟩ := Nat.exists_eq_succ_of_ne_zero (Nat.ne_of_gt (Nat.zero_lt_of_lt hfuel))
    rw [start, inType_known hd]
    simp only [bind, Except.bind, hdigit]
  | @layout c d st st' hc hspace _ ih =>
    obtain ⟨fuel, rfl⟩ := Nat.exists_eq_succ_of_ne_zero (Nat.ne_of_gt (Nat.zero_lt_of_lt hfuel))
    have hnonneg : 0 ≤ c := by
      rcases Int.lt_or_le c 0 with hneg | hneg
      · have heq : c = -1 := by
          have := hc.1
          omega
        subst heq
        rcases hspace with h | h <;> exact absurd h (by decide)
      · exact hneg
    have hread := (took_getCode src charset st).left_le
    have hlt : left src (getCode src charset st).1 (getCode src charset st).2 < fuel := by
      rw [left, if_neg (by omega)] at hfuel
      omega
    rw [start, inType_known hc, ← ih hd hdigit hlt]
    rcases hspace with h | h <;> simp only [bind, Except.bind, h]

/-- The token of a number behind layout, if it is an integer for one of the radixes, is the integer
itself, or for a value that is too large `MY_MAXINT` or a float, exactly if the tables and the
buffer have room for its characters and the arithmetic sees that the value is too large. -/
theorem getToken_numeral_iff (src : CharSource σ) (charset : Charset) (fl : Doubles F)
    {prevch c : Int} {st st' : σ} {n : Numeral} (b : StrBuff) (lastc : Int)
    (hskips : Skips src charset prevch st c st') (hc : Known c) (hdigit : classOf c = .DIGIT)
    (hn : numeral src charset c st' = some n) :
    (∃ l, getToken src charset fl prevch st b lastc = .ok l ∧
        n.Denotes (leadingDigits src charset c st') l) ↔
      NumberFits src charset b.len c st' ∧ n.Safe (leadingDigits src charset c st').stop := by
  have hup := upTo_of_digit hc hdigit
  have hfuel : left src prevch st < src.size st + 2 := by
    rw [left]
    split <;> omega
  rw [getToken, start_number _ lastc hskips hc hdigit hfuel]
  have hinside := inside_number src charset fl (b := { b with text := [] }) st' lastc hup rfl
  constructor
  · rintro ⟨l, hl, hdenotes⟩
    have hfits : NumberFits src charset b.len c st' := by
      apply hinside.mp
      rw [hl]
      exact inside_ok l
    obtain ⟨l', hl', hiff⟩ := number_spec fl (b := { b with text := [] }) lastc hup rfl hfits hn
    obtain rfl := Except.ok.inj (hl.symm.trans hl')
    exact ⟨hfits, hiff.mp hdenotes⟩
  · rintro ⟨hfits, hsafe⟩
    obtain ⟨l, hl, hiff⟩ := number_spec fl (b := { b with text := [] }) lastc hup rfl hfits hn
    exact ⟨l, hl, hiff.mpr hsafe⟩

theorem getToken_numeral_iff_seven :
    (∃ l, getToken fileSource .utf8 (⟨fun _ => 0, id, fun x _ _ => x, Int.neg⟩ : Doubles Int) 10
        [55, 46, 10] ⟨[], 10000, by decide⟩ 32 = .ok l ∧
        (Numeral.decimal [55]).Denotes (leadingDigits fileSource .utf8 55 [46, 10]) l) ↔
      NumberFits fileSource .utf8 10000 55 [46, 10] ∧
        (Numeral.decimal [55]).Safe (leadingDigits fileSource .utf8 55 [46, 10]).stop :=
  getToken_numeral_iff fileSource .utf8 (⟨fun _ => 0, id, fun x _ _ => x, Int.neg⟩ : Doubles Int)
    ⟨[], 10000, by decide⟩ 32 (.layout (by decide) (by decide) (.refl 55 [46, 10])) (by decide)
    (by decide) (by decide)

/-- Seventeen hexadecimal ones are read as sixteen of them. -/
theorem seventeen_ones_wrapped :
    numeral fileSource .utf8 48 (120 :: List.replicate 17 49 ++ [10]) =
        some (.based 16 (List.replicate 17 49)) ∧
      ¬ ∃ l, getToken fileSource .utf8 (⟨fun _ => 0, id, fun x _ _ => x, Int.neg⟩ : Doubles Int) 48
          (120 :: List.replicate 17 49 ++ [10]) ⟨[], 10000, by decide⟩ 32 = .ok l ∧
        (Numeral.based 16 (List.replicate 17 49)).Denotes
          (leadingDigits fileSource .utf8 48 (120 :: List.replicate 17 49 ++ [10])) l := by
  refine ⟨by decide +kernel, ?_⟩
  rintro ⟨l, hl, hdenotes⟩
  have htype : ((getToken fileSource .utf8
      (⟨fun _ => 0, id, fun x _ _ => x, Int.neg⟩ : Doubles Int) 48
      (120 :: List.replicate 17 49 ++ [10]) ⟨[], 10000, by decide⟩ 32).toOption.map
        fun l => l.token.type) = some .INT := by
    decide +kernel
  rw [hl] at htype
  have hint : l.token.type = .INT := Option.some.inj htype
  have hlarge : ¬ (Numeral.based 16 (List.replicate 17 49)).value ≤ maxInt := by decide +kernel
  rw [Numeral.Denotes, if_neg hlarge, Token.IsReal, hint] at hdenotes
  rcases hdenotes with h | h <;> cases h

end Tokens

end XSBEngine.Reading
