import XSBEngine.Library.Yields
import XSBEngine.Reading.Canonical
import XSBEngine.Reading.Lookups
import XSBEngine.Reading.Utf8

/-!
# Tokens are found

`GetToken` comes to an end for every input, and each token but the last takes characters from it,
`XSB/emu/token_xsb.c:780–1463`.
-/

namespace XSBEngine.Reading

open Library

variable {σ F : Type} {src : CharSource σ} {charset : Charset} {c : Int} {st st' : σ} {n m : Nat}

/-- The input that is left with the code `c` in front of it. -/
def left (src : CharSource σ) (c : Int) (st : σ) : Nat := src.size st + if c < 0 then 0 else 1

/-- The code `c` has been read, and whether it is put back or not at most `n` is left. -/
structure Took (src : CharSource σ) (n : Nat) (c : Int) (st : σ) : Prop where
  left_le : left src c st ≤ n
  back_le : src.size (src.unGetC c st) ≤ n

/-- The computation comes to an end, and its results satisfy `P`. -/
abbrev Finds {α : Type} (x : Except Stop α) (P : α → Prop) : Prop :=
  Yields x P fun e => e ≠ .unfinished

theorem Took.size_le (h : Took src n c st) : src.size st ≤ n := by
  have := h.left_le
  simp only [left] at this
  omega

theorem Took.size_lt (h : Took src n c st) (hc : 0 ≤ c) : src.size st < n := by
  have := h.left_le
  simp only [left, if_neg (show ¬ c < 0 by omega)] at this
  omega

theorem Took.mono (h : Took src n c st) (hle : n ≤ m) : Took src m c st :=
  ⟨Nat.le_trans h.left_le hle, Nat.le_trans h.back_le hle⟩

/-- Reading a code. -/
theorem took_getCode (src : CharSource σ) (charset : Charset) (st : σ) :
    Took src (src.size st) (getCode src charset st).1 (getCode src charset st).2 := by
  have hsize := size_getCode src charset st
  have hle := size_getCode_le src charset st
  have hrange := getCode_range src charset st
  refine ⟨?_, ?_⟩
  · simp only [left]
    split <;> omega
  · by_cases hc : 0 ≤ (getCode src charset st).1
    · have := src.size_unGetC (getCode src charset st).2 (getCode src charset st).1
      have := hsize hc
      omega
    · have hend : (src.getC st).1 = -1 := by
        by_contra hne
        have := src.getC_range st
        have := utf8GetCode_nonneg src (c := (src.getC st).1) (by omega) (src.getC st).2
        have := codePage1252_nonneg (c := (src.getC st).1) (by omega)
        apply hc
        simp only [getCode, if_neg hne]
        cases charset <;> simp only <;> omega
      have heq : getCode src charset st = src.getC st := by
        simp only [getCode]
        rw [if_pos hend]
      rw [heq]
      exact src.size_back st _ (fun _ => hend)

theorem took_getCode_le (h : src.size st ≤ n) :
    Took src n (getCode src charset st).1 (getCode src charset st).2 :=
  (took_getCode src charset st).mono h

/-- A lookup of a class or a digit gives a value or is outside of the table. -/
theorem finds_inType (c : Int) : Finds (inType c) fun k => Known c ∧ k = classOf c := by
  by_cases h : Known c
  · rw [inType_known h]
    exact ⟨h, rfl⟩
  · rw [inType_unknown h]
    exact nofun

theorem finds_digVal (c : Int) : Finds (digVal c) fun v => Known c ∧ v = digitOf c := by
  by_cases h : Known c
  · rw [digVal_known h]
    exact ⟨h, rfl⟩
  · rw [digVal_unknown h]
    exact nofun

/-- A digit is not the end. -/
theorem nonneg_of_digitOf (h : Known c) (hlt : digitOf c < 99) : 0 ≤ c := by
  rcases Int.lt_or_le c 0 with hneg | hneg
  · have heq : c = -1 := by
      have := h.1
      omega
    rw [heq] at hlt
    exact absurd hlt (by decide)
  · exact hneg

section Characters

variable {q lastc : Int} {fuel : Nat}

theorem finds_hexDigits (hfuel : left src c st < fuel) (htook : Took src n c st) (v : Int) :
    Finds (hexDigits src charset fuel v c st) fun r => Took src n r.2.1 r.2.2 := by
  induction fuel generalizing c st v with
  | zero => omega
  | succ fuel ih =>
    rw [hexDigits]
    refine (finds_digVal c).bind fun k hvalue => ?_
    obtain ⟨hknown, hk⟩ := hvalue
    split
    · next hlt =>
      have hc := nonneg_of_digitOf hknown (by omega)
      have hsize := htook.size_lt hc
      have hread := took_getCode src charset st
      apply ih
      · have := hread.left_le
        simp only [left, if_neg (show ¬ c < 0 by omega)] at hfuel
        omega
      · exact hread.mono (by omega)
    · exact htook

theorem finds_octalDigits (hfuel : src.size st < fuel) (v : Int) :
    Finds (octalDigits src charset fuel v c st) fun r => Took src (src.size st) r.2.1 r.2.2 := by
  induction fuel generalizing c st v with
  | zero => omega
  | succ fuel ih =>
    have hread := took_getCode src charset st
    rw [octalDigits]
    refine (finds_digVal c).bind fun k _ => ?_
    refine (finds_digVal _).bind fun k hvalue => ?_
    obtain ⟨hknown, hk⟩ := hvalue
    split
    · next hlt =>
      have hsize := hread.size_lt (nonneg_of_digitOf hknown (by omega))
      exact (ih (by omega) _).mono fun r hr => hr.mono (by omega)
    · exact hread

theorem finds_unicodeDigits (k : Nat) (v : Int) :
    Finds (unicodeDigits src charset k v st) fun r => src.size r.2.2 ≤ src.size st := by
  induction k generalizing st v with
  | zero => exact Nat.le_refl _
  | succ k ih =>
    have hread := took_getCode src charset st
    rw [unicodeDigits]
    refine (finds_digVal _).bind fun k _ => ?_
    apply Yields.ite
    · exact fun _ => (ih _).mono fun r hr => Nat.le_trans hr hread.size_le
    · intro _
      apply Yields.ite
      · exact fun _ => hread.back_le
      · exact fun _ => hread.size_le

theorem finds_unicodeEscape :
    Finds (unicodeEscape src charset st) fun r => src.size r.2 ≤ src.size st := by
  rw [unicodeEscape]
  refine (finds_unicodeDigits 4 0).bind fun r hsize => ?_
  obtain ⟨v, complete, st'⟩ := r
  have hread := took_getCode src charset st'
  apply Yields.ite
  · intro _
    refine (finds_digVal _).bind fun k _ => ?_
    apply Yields.ite
    · intro _
      refine (finds_unicodeDigits 3 _).bind fun r hr => ?_
      exact Nat.le_trans hr (Nat.le_trans hread.size_le hsize)
    · intro _
      apply Yields.ite
      · exact fun _ => Nat.le_trans hread.back_le hsize
      · exact fun _ => Nat.le_trans hread.size_le hsize
  · exact fun _ => hsize

/-- An escape, of which the first code has been read. -/
theorem finds_readEscape (htook : Took src n c st) :
    Finds (readEscape src charset q lastc c st) fun r => src.size r.2.2 ≤ n := by
  have hle := htook.size_le
  rw [readEscape]
  repeat' apply Yields.ite <;> intro _
  all_goals try exact hle
  · rintro ⟨⟩
  · have hread := took_getCode src charset st
    refine (finds_hexDigits (n := src.size st) ?_ hread 0).bind fun r hr => ?_
    · simp only [left]
      split <;> omega
    · apply Yields.ite
      · rintro - ⟨⟩
      · intro _
        refine Yields.ok (Nat.le_trans ?_ hle)
        simp only
        split
        · exact hr.back_le
        · exact hr.size_le
  · exact finds_unicodeEscape.bind fun r hr => Nat.le_trans hr hle
  · refine (finds_octalDigits (Nat.lt_succ_self _) 0).bind fun r hr => ?_
    refine Yields.ok (Nat.le_trans ?_ hle)
    simp only
    split
    · exact hr.back_le
    · exact hr.size_le
  · exact htook.back_le

theorem finds_readBack (hfuel : src.size st < fuel) :
    Finds (readBack src charset q lastc fuel c st) fun r => src.size r.2.2 ≤ src.size st := by
  induction fuel generalizing c st with
  | zero => omega
  | succ fuel ih =>
    have hread := took_getCode src charset st
    rw [readBack]
    apply Yields.ite
    · rintro - ⟨⟩
    · intro _
      simp only
      apply Yields.ite
      · intro _
        apply Yields.ite
        · exact fun _ => hread.size_le
        · exact fun _ => hread.size_le
      · intro _
        apply Yields.ite
        · exact fun _ => Nat.le_refl _
        · intro _
          generalize getCode src charset st = r at *
          have hread2 := took_getCode src charset r.2
          have hread3 := took_getCode src charset (getCode src charset r.2).2
          have hle2 := hread2.size_le
          have hle3 := hread3.size_le
          apply Yields.ite
          · intro hnl
            have hsize := hread.size_lt (by rw [hnl]; decide)
            exact (ih (by omega)).mono fun a ha => by omega
          · intro _
            apply Yields.ite
            · intro hcr
              have hsize := hread.size_lt (by rw [hcr]; decide)
              split
              · exact (ih (by omega)).mono fun a ha => by omega
              · exact (ih (by omega)).mono fun a ha => by omega
            · exact fun _ => finds_readEscape hread

/-- Each character of a constant is behind at least one code. -/
theorem finds_readCharacter :
    Finds (readCharacter src charset q lastc st) fun r => src.size r.2.2 < src.size st := by
  have hread := took_getCode src charset st
  have hrange := getCode_range src charset st
  rw [readCharacter]
  by_cases hend : (getCode src charset st).1 = -1
  · simp only [readBack, hend, if_true]
    rintro ⟨⟩
  · have hsize := hread.size_lt (by omega)
    exact (finds_readBack (Nat.lt_succ_self _)).mono fun r hr => Nat.lt_of_le_of_lt hr hsize

theorem finds_com0plain (hfuel : src.size st < fuel) :
    Finds (com0plain src fuel st) fun r => left src r.1 r.2 ≤ src.size st := by
  induction fuel generalizing st with
  | zero => omega
  | succ fuel ih =>
    have hsize := src.size_getC st
    have hle := src.size_le st
    have hsize' := src.size_getC (src.getC st).2
    have hle' := src.size_le (src.getC st).2
    simp only [com0plain]
    apply Yields.ite
    · intro h
      have := hsize h.1
      exact (ih (by omega)).mono fun r hr => by omega
    · intro _
      apply Yields.ite
      · intro h
        refine Yields.ok ?_
        simp only [left]
        split <;> omega
      · intro h
        refine Yields.ok ?_
        simp only [left]
        split <;> omega

theorem finds_com2plain (astcom endcom : Int) (state : Bool) (hfuel : src.size st < fuel) :
    Finds (com2plain src astcom endcom fuel state st) fun r => src.size r.2 ≤ src.size st := by
  induction fuel generalizing st state with
  | zero => omega
  | succ fuel ih =>
    have hsize := src.size_getC st
    have hle := src.size_le st
    simp only [com2plain]
    apply Yields.ite
    · exact fun _ => hle
    · intro hc
      have := hsize (by omega)
      apply Yields.ite
      · exact fun _ => hle
      · exact fun _ => (ih _ (by omega)).mono fun r hr => by omega

end Characters

section Buffer

variable {b : StrBuff}

theorem finds_put (d : Int) : Finds (b.put d) fun _ => True := by
  rw [StrBuff.put]
  exact Yields.ite (fun _ => trivial) fun _ => nofun

theorem finds_terminate : Finds b.terminate fun _ => True := by
  rw [StrBuff.terminate]
  exact Yields.ite (fun _ => trivial) (by rintro - ⟨⟩)

theorem finds_putDigit (d : Int) : Finds (b.putDigit d) fun _ => True := by
  rw [StrBuff.putDigit]
  exact Yields.ite (fun _ => finds_put d) fun _ => trivial

theorem finds_putAll (bytes : List UInt8) :
    Finds (bytes.foldlM (fun b c => b.put c.toNat) b) fun _ => True := by
  induction bytes generalizing b with
  | nil => trivial
  | cons x bytes ih =>
    rw [List.foldlM_cons]
    exact (finds_put _).bind fun _ _ => ih

theorem finds_codepointToUtf8Str (k d : Int) :
    Finds (b.codepointToUtf8Str k d) fun _ => True := by
  rw [StrBuff.codepointToUtf8Str]
  apply Yields.ite
  · intro _
    exact (finds_put d).bind fun _ _ => trivial
  · intro _
    exact (finds_putAll _).bind fun _ _ => trivial

end Buffer

section Numbers

variable {fl : Doubles F} {b : StrBuff} {lastc : Int} {fuel : Nat}

/-- What a token leaves of the input, unless it ends a clause or the input. The bracket of an empty
list is not a token. -/
structure Leaves (src : CharSource σ) (n : Nat) (l : Lexed σ F) : Prop where
  left_le : ¬ l.token.isEnd → left src l.token.nextch l.stream ≤ n
  bracket : l.token.type = .PUNC → l.token.mark = 91 → l.token.nextch ≠ 93

theorem Leaves.mono {l : Lexed σ F} (h : Leaves src n l) (hle : n ≤ m) : Leaves src m l :=
  ⟨fun hl => Nat.le_trans (h.left_le hl) hle, h.bracket⟩

/-- A token that is no punctuation mark. -/
theorem Leaves.of_type {l : Lexed σ F} (h : left src l.token.nextch l.stream ≤ n)
    (htype : l.token.type ≠ .PUNC) : Leaves src n l :=
  ⟨fun _ => h, fun heq => absurd heq htype⟩

theorem ite_ne {p : Prop} [Decidable p] {a a' type : TokenType} (ha : a ≠ type) (ha' : a' ≠ type) :
    (if p then a else a') ≠ type := by
  split
  · exact ha
  · exact ha'

theorem finds_digits (hfuel : src.size st < fuel) :
    Finds (digits src charset fuel c st b) fun r => Took src (src.size st) r.1 r.2.1 := by
  induction fuel generalizing c st b with
  | zero => omega
  | succ fuel ih =>
    have hread := took_getCode src charset st
    rw [digits]
    refine (finds_putDigit c).bind fun b _ => ?_
    refine (finds_inType _).bind fun k hvalue => ?_
    obtain ⟨hknown, hk⟩ := hvalue
    apply Yields.ite
    · intro hle
      rw [hk] at hle
      have hmore : upTo .BREAK _ := (upTo_known hknown).mpr hle
      have hsize := hread.size_lt (nonneg_of_upTo (upTo_mono hmore))
      exact (ih (by omega)).mono fun r hr => hr.mono (by omega)
    · exact fun _ => hread

theorem finds_integer (h : left src c st ≤ n) :
    Finds (integer c st b lastc : Except Stop (Lexed σ F)) (Leaves src n) := by
  rw [integer]
  exact finds_terminate.bind fun _ _ => Leaves.of_type h (ite_ne nofun nofun)

theorem finds_radixReal (d : Int) (x : F) (hfuel : src.size st < fuel) :
    Finds (radixReal src charset fl d fuel x st) fun r => left src r.2.1 r.2.2 ≤ src.size st := by
  induction fuel generalizing st x with
  | zero => omega
  | succ fuel ih =>
    have hread := took_getCode src charset st
    rw [radixReal]
    refine (finds_digVal _).bind fun k ⟨hknown, hk⟩ => ?_
    apply Yields.ite
    · intro hlt
      have hsize := hread.size_lt (nonneg_of_digitOf hknown (by omega))
      exact (ih _ (by omega)).mono fun r hr => by omega
    · exact fun _ => hread.left_le

/-- A code behind a quote, which is skipped. -/
theorem left_quote_le (h : left src c st ≤ n) :
    let r := if c = code '\'' then getCode src charset st else (c, st)
    left src r.1 r.2 ≤ n := by
  have hread := took_getCode src charset st
  have hle := hread.left_le
  simp only
  split
  · simp only [left] at h ⊢
    simp only [left] at hle
    omega
  · exact h

theorem finds_nonzeroRadix (d newv : Int) (hd : d ≤ 99) (hfuel : src.size st < fuel) :
    Finds (nonzeroRadix src charset fl d b lastc fuel newv st) (Leaves src (src.size st)) := by
  induction fuel generalizing st newv with
  | zero => omega
  | succ fuel ih =>
    have hread := took_getCode src charset st
    rw [nonzeroRadix]
    refine (finds_digVal _).bind fun k ⟨hknown, hk⟩ => ?_
    apply Yields.ite
    · intro hlt
      have hsize := hread.size_lt (nonneg_of_digitOf hknown (by omega))
      apply Yields.ite
      · intro _
        simp only
        apply Yields.ite
        · intro _
          refine (finds_radixReal d _ (Nat.lt_succ_self _)).bind fun r hr => ?_
          exact Leaves.of_type (left_quote_le (Nat.le_trans hr (Nat.le_of_lt hsize)))
            (ite_ne nofun nofun)
        · exact fun _ => (ih _ (by omega)).mono fun l hl => hl.mono (by omega)
      · exact fun _ => (ih _ (by omega)).mono fun l hl => hl.mono (by omega)
    · exact fun _ => Leaves.of_type (left_quote_le hread.left_le) (ite_ne nofun nofun)

theorem finds_exponentSign :
    Finds (exponentSign src charset st b) fun r => Took src (src.size st) r.1 r.2.1 := by
  have hread := took_getCode src charset st
  rw [exponentSign]
  simp only
  apply Yields.ite
  · intro _
    refine (finds_put _).bind fun b _ => ?_
    exact took_getCode_le hread.size_le
  · intro _
    apply Yields.ite
    · exact fun _ => took_getCode_le hread.size_le
    · exact fun _ => hread

theorem finds_exponent (h : Took src n c st) :
    Finds (exponent src charset c st b) fun r => Took src n r.1 r.2.1 := by
  rw [exponent]
  apply Yields.ite
  · intro _
    refine (finds_put _).bind fun b _ => ?_
    refine finds_exponentSign.bind fun ⟨d, st', b⟩ hr => ?_
    refine (finds_inType _).bind fun k _ => ?_
    apply Yields.ite
    · exact fun _ => nofun
    · intro _
      exact (finds_digits (Nat.lt_succ_self _)).mono
        fun r hr' => hr'.mono (Nat.le_trans hr.size_le h.size_le)
  · exact fun _ => h

theorem finds_decimal :
    Finds (decimal src charset fl c st b lastc) (Leaves src (src.size st)) := by
  rw [decimal]
  refine (finds_put _).bind fun b _ => ?_
  refine (finds_digits (Nat.lt_succ_self _)).bind fun ⟨d, st', b⟩ hr => ?_
  refine (finds_exponent hr).bind fun ⟨d, st', b⟩ hr => ?_
  exact finds_terminate.bind fun _ _ => Leaves.of_type hr.left_le (ite_ne nofun nofun)

theorem finds_radix :
    Finds (radix src charset fl st b lastc) (Leaves src (src.size st)) := by
  rw [radix]
  refine finds_terminate.bind fun _ _ => ?_
  simp only
  apply Yields.ite
  · exact fun _ => nofun
  · intro hd
    apply Yields.ite
    · intro _
      refine finds_readCharacter.bind fun ⟨v, lastc, st'⟩ hr => ?_
      refine Leaves.of_type (left_quote_le ?_) nofun
      exact Nat.le_trans (took_getCode src charset st').left_le (Nat.le_of_lt hr)
    · exact fun _ => finds_nonzeroRadix _ 0 (by omega) (Nat.lt_succ_self _)

theorem finds_radixLetter (h : left src c st ≤ n) :
    Finds (radixLetter src charset fl c st b lastc) (Leaves src n) := by
  have hle : src.size st ≤ n := by
    simp only [left] at h
    omega
  rw [radixLetter]
  refine finds_terminate.bind fun _ _ => ?_
  apply Yields.ite
  · intro _
    refine (finds_nonzeroRadix _ 0 ?_ (Nat.lt_succ_self _)).mono fun l hl => hl.mono hle
    split
    · decide
    · split <;> decide
  · exact fun _ => Leaves.of_type h nofun

theorem finds_number :
    Finds (number src charset fl c st b lastc) (Leaves src (src.size st)) := by
  rw [number]
  refine (finds_digits (Nat.lt_succ_self _)).bind fun ⟨c, st', b⟩ hr => ?_
  have hle := hr.size_le
  have hread := took_getCode src charset st'
  apply Yields.ite
  · exact fun _ => finds_radix.mono fun l hl => hl.mono hle
  · intro _
    apply Yields.ite
    · intro hpoint
      refine (finds_inType _).bind fun k _ => ?_
      apply Yields.ite
      · exact fun _ => finds_decimal.mono fun l hl => hl.mono (Nat.le_trans hread.size_le hle)
      · intro _
        apply finds_integer
        have hleft := hr.left_le
        have hback := hread.back_le
        simp only [left] at hleft ⊢
        omega
    · intro _
      apply Yields.ite
      · exact fun _ => finds_radixLetter hr.left_le
      · exact fun _ => finds_integer hr.left_le

end Numbers

section Names

variable {fl : Doubles F} {b : StrBuff} {lastc q : Int} {fuel : Nat}

theorem finds_nameChars (k : Int) (hfuel : src.size st < fuel) :
    Finds (nameChars src charset fuel c st k b) fun r => Took src (src.size st) r.1 r.2.1 := by
  induction fuel generalizing c st k b with
  | zero => omega
  | succ fuel ih =>
    have hread := took_getCode src charset st
    rw [nameChars]
    refine (finds_put _).bind fun b _ => ?_
    refine (finds_inType _).bind fun k hvalue => ?_
    obtain ⟨hknown, hk⟩ := hvalue
    apply Yields.ite
    · intro hle
      rw [hk] at hle
      have hmore : upTo .LOWER _ := (upTo_known hknown).mpr hle
      have hsize := hread.size_lt (nonneg_of_upTo hmore)
      exact (ih _ (by omega)).mono fun r hr => hr.mono (by omega)
    · exact fun _ => hread

theorem finds_signChars (k : Int) (hfuel : left src c st < fuel) (h : Took src n c st) :
    Finds (signChars src charset fuel c st k b) fun r => Took src n r.1 r.2.1 := by
  induction fuel generalizing c st k b with
  | zero => omega
  | succ fuel ih =>
    have hread := took_getCode src charset st
    rw [signChars]
    refine (finds_inType _).bind fun k hvalue => ?_
    obtain ⟨hknown, hk⟩ := hvalue
    apply Yields.ite
    · intro hsign
      have hc := @nonneg_of_isSign c (by simpa [isSign, hknown] using hk.symm.trans hsign)
      refine (finds_put _).bind fun b _ => ?_
      have hleft := hread.left_le
      have hsize := h.size_lt hc
      simp only [left, if_neg (show ¬ c < 0 by omega)] at hfuel
      exact ih _ (by omega) (hread.mono (by omega))
    · exact fun _ => h

theorem finds_quotedChars (k : Int) (hfuel : src.size st < fuel) :
    Finds (quotedChars src charset q fuel st k b lastc) fun r => src.size r.1 < src.size st := by
  induction fuel generalizing st k b lastc with
  | zero => omega
  | succ fuel ih =>
    rw [quotedChars]
    refine finds_readCharacter.bind fun ⟨d, lastc, st'⟩ hr => ?_
    apply Yields.ite
    · exact fun _ => hr
    · intro _
      refine (finds_codepointToUtf8Str _ _).bind fun ⟨b, k⟩ _ => ?_
      simp only at hr
      exact (ih _ (by omega)).mono fun r hr' => by omega

theorem finds_name (type funcType : TokenType) (htype : type ≠ .PUNC)
    (hfunc : funcType ≠ .PUNC) :
    Finds (name src charset type funcType c st b lastc : Except Stop (Lexed σ F))
      (Leaves src (src.size st)) := by
  rw [name]
  refine (finds_nameChars _ (Nat.lt_succ_self _)).bind fun ⟨c, st', b⟩ hr => ?_
  exact finds_terminate.bind fun _ _ => Leaves.of_type hr.left_le (ite_ne hfunc htype)

theorem finds_signs (d : Int) (h : Took src n d st) :
    Finds (signs src charset c d st b lastc : Except Stop (Lexed σ F)) (Leaves src n) := by
  rw [signs]
  refine (finds_put _).bind fun b _ => ?_
  refine (finds_signChars _ ?_ h).bind fun ⟨d, st', b⟩ hr => ?_
  · simp only [left]
    split <;> omega
  · refine finds_terminate.bind fun _ _ => ?_
    refine (finds_inType _).bind fun k _ => ?_
    apply Yields.ite
    · exact fun _ => ⟨fun hend => absurd rfl hend, nofun⟩
    · exact fun _ => Leaves.of_type hr.left_le (ite_ne nofun nofun)

theorem finds_quoted :
    Finds (quoted src charset q st b lastc) fun r => src.size r.1 < src.size st := by
  rw [quoted]
  refine (finds_quotedChars _ (Nat.lt_succ_self _)).bind fun ⟨st', b, lastc⟩ hr => ?_
  exact finds_terminate.bind fun _ _ => hr

/-- What is left when `START` goes on, or behind a token. -/
def GoesOn (src : CharSource σ) (n : Nat) : (Int × σ) ⊕ Lexed σ F → Prop
  | .inl r => left src r.1 r.2 ≤ n
  | .inr l => Leaves src n l

theorem finds_signCase :
    Finds (signCase src charset fl c st b lastc) (GoesOn src (src.size st)) := by
  have hread := took_getCode src charset st
  have hle := hread.size_le
  rw [signCase]
  refine (finds_put _).bind fun _ _ => ?_
  simp only
  apply Yields.ite
  · intro _
    refine (finds_com2plain _ _ _ (Nat.lt_succ_self _)).bind fun ⟨closed, st'⟩ hr => ?_
    apply Yields.ite
    · exact fun _ => Nat.le_trans (took_getCode src charset st').left_le (Nat.le_trans hr hle)
    · exact fun _ => nofun
  · intro _
    apply Yields.ite
    · intro _
      refine (finds_inType _).bind fun k _ => ?_
      apply Yields.ite
      · intro _
        refine (finds_put _).bind fun b _ => ?_
        exact Yields.map (finds_decimal.mono fun l hl => hl.mono hle)
      · exact fun _ => Yields.map (finds_signs _ hread)
    · exact fun _ => Yields.map (finds_signs _ hread)

theorem finds_nobleCase :
    Finds (nobleCase src charset c st b lastc : Except Stop (Lexed σ F))
      (Leaves src (src.size st)) := by
  rw [nobleCase]
  refine (finds_put _).bind fun b _ => ?_
  exact finds_terminate.bind fun _ _ =>
    Leaves.of_type (took_getCode src charset st).left_le (ite_ne nofun nofun)

theorem finds_punctuation (d : Int) (h : Took src n d st) (hc : Known c) (hpos : 0 ≤ c)
    (htext : b.text = []) :
    Finds (punctuation src charset c d st b lastc : Except Stop (Lexed σ F)) (Leaves src n) := by
  rw [punctuation]
  apply Yields.ite
  · intro _
    refine (finds_put _).bind fun b _ => ?_
    refine (finds_put _).bind fun b _ => ?_
    refine finds_terminate.bind fun _ _ => Leaves.of_type ?_ (ite_ne nofun nofun)
    exact Nat.le_trans (took_getCode src charset st).left_le h.size_le
  · intro hpair
    have hput := StrBuff.put_eq (b := b)
      (by rw [htext]; exact Nat.lt_of_lt_of_le (by decide) b.four_le) c
    rw [hput, htext, List.nil_append]
    refine finds_terminate.bind fun _ _ => ⟨fun _ => h.left_le, fun _ hmark hd => ?_⟩
    apply hpair
    have hbyte : toByte c = 91 := by
      simp only [Token.mark, Token.text, StrBuff.string, List.takeWhile_cons] at hmark
      split at hmark
      · exact hmark
      · cases hmark
    have hc91 : c = 91 := by
      have hnat := toNat_toByte hpos (show c < 256 by have := hc.2; omega)
      rw [hbyte] at hnat
      exact hnat.symm
    exact Or.inr ⟨hc91, hd⟩

theorem finds_punctCase (hc : Known c) (hpos : 0 ≤ c) (htext : b.text = []) :
    Finds (punctCase src charset c st b lastc : Except Stop ((Int × σ) ⊕ Lexed σ F))
      (GoesOn src (src.size st)) := by
  rw [punctCase]
  apply Yields.ite
  · exact fun _ => Yields.map (finds_com0plain (Nat.lt_succ_self _))
  · intro _
    exact Yields.map (finds_punctuation _ (took_getCode src charset st) hc hpos htext)

/-- The last code of a quoted text may be one that was read before. -/
theorem left_le_of_size_lt (h : src.size st < n) (c : Int) : left src c st ≤ n := by
  simp only [left]
  split <;> omega

theorem classOf_neg (h : Known c) (hc : c < 0) : classOf c = .EOFCH := by
  have heq : c = -1 := by
    have := h.1
    omega
  rw [heq]
  rfl

/-- What a token that takes the code in front of it leaves of the input. -/
structure Shortens (src : CharSource σ) (n : Nat) (l : Lexed σ F) : Prop where
  left_lt : ¬ l.token.isEnd → left src l.token.nextch l.stream < n
  bracket : l.token.type = .PUNC → l.token.mark = 91 → l.token.nextch ≠ 93

theorem Leaves.shortens {l : Lexed σ F} (h : Leaves src n l) (hlt : n < m) : Shortens src m l :=
  ⟨fun hend => Nat.lt_of_le_of_lt (h.left_le hend) hlt, h.bracket⟩

theorem Shortens.mono {l : Lexed σ F} (h : Shortens src n l) (hle : n ≤ m) : Shortens src m l :=
  ⟨fun hend => Nat.lt_of_lt_of_le (h.left_lt hend) hle, h.bracket⟩

/-- `START` comes to an end, behind a token that takes the code in front of it. -/
theorem finds_start (hfuel : left src c st < fuel) (htext : b.text = []) :
    Finds (start src charset fl b lastc fuel c st) (Shortens src (left src c st)) := by
  induction fuel generalizing c st with
  | zero => omega
  | succ fuel ih =>
    rw [start]
    refine (finds_inType c).bind fun k ⟨hknown, hk⟩ => ?_
    by_cases hc : c < 0
    · rw [hk, classOf_neg hknown hc]
      exact ⟨fun hend => absurd rfl hend, nofun⟩
    · have hleft : left src c st = src.size st + 1 := by
        rw [left, if_neg hc]
      rw [hleft] at hfuel ⊢
      have hdone : ∀ l : Lexed σ F, Leaves src (src.size st) l → Shortens src (src.size st + 1) l :=
        fun l hl => hl.shortens (Nat.lt_succ_self _)
      have hagain : ∀ r : Int × σ, left src r.1 r.2 ≤ src.size st →
          Finds (start src charset fl b lastc fuel r.1 r.2) (Shortens src (src.size st + 1)) :=
        fun r hr => (ih (by omega)).mono fun l hl => hl.mono (by omega)
      have hquoted : ∀ (type : TokenType) (text : List UInt8) (r : σ × StrBuff × Int),
          src.size r.1 < src.size st → type ≠ .PUNC →
          Shortens src (src.size st + 1) (⟨⟨type, .text text, r.2.2⟩, r.1, r.2.1, r.2.2⟩ :
            Lexed σ F) :=
        fun type text r hr htype => hdone _ (Leaves.of_type (left_le_of_size_lt hr _) htype)
      cases k with
      | DIGIT => exact finds_number.mono hdone
      | BREAK => exact (finds_name .VVAR .VVARFUNC nofun nofun).mono hdone
      | UPPER => exact (finds_name .VAR .VARFUNC nofun nofun).mono hdone
      | LOWER => exact (finds_name .ATOM .FUNC nofun nofun).mono hdone
      | SIGN =>
        refine finds_signCase.bind fun r hr => ?_
        cases r with
        | inl r => exact hagain r hr
        | inr l => exact hdone l hr
      | NOBLE => exact finds_nobleCase.mono hdone
      | PUNCT =>
        refine (finds_punctCase hknown (by omega) htext).bind fun r hr => ?_
        cases r with
        | inl r => exact hagain r hr
        | inr l => exact hdone l hr
      | ATMQT => exact finds_quoted.bind fun r hr => hquoted _ _ r hr (ite_ne nofun nofun)
      | LISQT => exact finds_quoted.bind fun r hr => hquoted _ _ r hr nofun
      | SPACE => exact hagain _ (took_getCode src charset st).left_le
      | EOLN => exact hagain _ (took_getCode src charset st).left_le
      | EOFCH => exact ⟨fun hend => absurd rfl hend, nofun⟩

end Names

section Source

variable (src charset) (fl : Doubles F) (st : σ) (b : StrBuff) (lastc : Int)

/-- A parenthesis that has been read is a token of its own. -/
theorem getToken_paren (hc : c = 40 ∨ c = 41) :
    let d := getCode src charset st
    getToken src charset fl c st b lastc =
      .ok ⟨⟨if c = 41 ∧ d.1 = 40 then .HPUNC else .PUNC, .text [toByte c], d.1⟩, d.2,
        { b with text := [toByte c] }, lastc⟩ := by
  have hfour := b.four_le
  have hclass : inType c = .ok .PUNCT := by
    rcases hc with rfl | rfl <;> rfl
  have hput : StrBuff.put { b with text := [] } c = .ok { b with text := [toByte c] } :=
    @StrBuff.put_eq { b with text := [] } (show 0 < b.len by omega) c
  have hstring : (⟨[toByte c], b.len, b.four_le⟩ : StrBuff).string = [toByte c] := by
    rcases hc with rfl | rfl <;> rfl
  have hends : (⟨[toByte c], b.len, b.four_le⟩ : StrBuff).terminate = .ok () :=
    if_pos (show 1 < b.len by omega)
  have hcomment : c ≠ code '%' := by
    rcases hc with rfl | rfl <;> decide
  have hpair : ¬ (c = code '{' ∧ (getCode src charset st).1 = code '}' ∨
      c = code '[' ∧ (getCode src charset st).1 = code ']') := by
    rcases hc with rfl | rfl <;> rintro (⟨h, -⟩ | ⟨h, -⟩) <;> cases h
  simp only [getToken, start, hclass, bind, Except.bind, punctCase, if_neg hcomment, punctuation,
    if_neg hpair, hput, hends, hstring]
  rfl

/-- The tokens of a stream. Besides the stream, `GetToken` leaves the buffer and `lastc`. -/
def tokens : TokenSource (σ × StrBuff × Int) F where
  getToken c st := (fun l => (l.token, l.stream, l.strbuff, l.lastc)) <$>
    getToken src charset fl c st.1 st.2.1 st.2.2
  size c st := left src c st.1
  finishes c st h := by
    have hfinds := @finds_start σ F src charset c st.1 fl ⟨[], st.2.1.len, st.2.1.four_le⟩ st.2.2
      (src.size st.1 + 2) (by simp only [left]; split <;> omega) rfl
    cases heq : getToken src charset fl c st.1 st.2.1 st.2.2 with
    | error e =>
      rw [heq] at h
      apply hfinds.of_error heq
      exact Except.error.inj h
    | ok l =>
      rw [heq] at h
      cases h
  shorter {c st st' t} h hend := by
    have hfinds := @finds_start σ F src charset c st.1 fl ⟨[], st.2.1.len, st.2.1.four_le⟩ st.2.2
      (src.size st.1 + 2) (by simp only [left]; split <;> omega) rfl
    cases heq : getToken src charset fl c st.1 st.2.1 st.2.2 with
    | error e =>
      rw [heq] at h
      cases h
    | ok l =>
      rw [heq] at h
      obtain ⟨rfl, rfl⟩ := Prod.mk.inj (Except.ok.inj h)
      exact (hfinds.of_ok heq).left_lt hend
  bracket {c st st' t} h := by
    have hfinds := @finds_start σ F src charset c st.1 fl ⟨[], st.2.1.len, st.2.1.four_le⟩ st.2.2
      (src.size st.1 + 2) (by simp only [left]; split <;> omega) rfl
    cases heq : getToken src charset fl c st.1 st.2.1 st.2.2 with
    | error e =>
      rw [heq] at h
      cases h
    | ok l =>
      rw [heq] at h
      obtain ⟨rfl, -⟩ := Prod.mk.inj (Except.ok.inj h)
      exact (hfinds.of_ok heq).bracket
  openParen {st st' t} h := by
    rw [getToken_paren src charset fl st.1 st.2.1 st.2.2 (Or.inl rfl)] at h
    obtain ⟨rfl, -⟩ := Prod.mk.inj (Except.ok.inj h)
    exact ⟨rfl, rfl⟩
  closeParen {st st' t} h := by
    rw [getToken_paren src charset fl st.1 st.2.1 st.2.2 (Or.inr rfl)] at h
    obtain ⟨rfl, -⟩ := Prod.mk.inj (Except.ok.inj h)
    refine ⟨?_, rfl⟩
    by_cases hd : (getCode src charset st.1).1 = 40
    · exact Or.inr (by simp [hd])
    · exact Or.inl (by simp [hd])

end Source

end XSBEngine.Reading
