import Mathlib
import XSBEngine.Reading.Lookups

/-!
# The tokenizer stays inside its tables and its buffer

For which characters `GetToken` looks up classes and digits only within the tables and writes only
within `strbuff`, `XSB/emu/token_xsb.c:394–410, 780–941, 1026–1463`.
-/

namespace XSBEngine.Reading

open Library List

variable {σ F : Type}

section Quoted

theorem length_utf8CodepointToStr_le (c : Int) : (utf8CodepointToStr c).length ≤ 4 := by
  rw [utf8CodepointToStr]
  split
  · simp
  · split
    · simp
    · split <;> simp

theorem toByte_toNat (c : UInt8) : toByte (c.toNat : Int) = c := by
  have := c.toNat_lt
  rw [toByte, Int.emod_eq_of_lt (by omega) (by omega), Int.toNat_natCast]
  exact UInt8.ofNat_toNat

/-- Bytes that the buffer has room for. -/
theorem putAll_eq (bytes : List UInt8) {b : StrBuff}
    (h : b.text.length + bytes.length ≤ b.len) :
    bytes.foldlM (fun b c => StrBuff.put b (c.toNat : Int)) b =
      .ok { b with text := b.text ++ bytes } := by
  induction bytes generalizing b with
  | nil =>
    simp
    rfl
  | cons c bytes ih =>
    have hlt : b.text.length < b.len := by
      simp only [length_cons] at h
      omega
    rw [foldlM_cons, StrBuff.put_eq hlt, toByte_toNat]
    simp only [bind, Except.bind]
    rw [ih (by simp only [length_cons, length_append, length_nil] at h ⊢; omega)]
    simp

/-- A character of a quoted text, where the buffer grows when it has not enough room. -/
theorem StrBuff.codepointToUtf8Str_spec {b : StrBuff} {n : Int} {first need : Nat}
    (hroom : Doubled first need b.len) (hle : b.text.length ≤ need)
    (hn : n = b.len - b.text.length) (c : Int) :
    ∃ b' : StrBuff, b.codepointToUtf8Str n c = .ok (b', b'.len - b'.text.length) ∧
      b'.text = b.text ++ encode c ∧
      Doubled first (max need (if c ≤ 127 then b.text.length + 1 else b.text.length + 4))
        b'.len := by
  have hneed := hroom.need_le
  have hfour := b.four_le
  rw [codepointToUtf8Str, encode]
  by_cases hc : c ≤ 127
  · simp only [hc, if_true]
    by_cases hfull : n - 1 < 0
    · simp only [hfull, if_true, bind, Except.bind]
      rw [put_eq (by show b.text.length < b.len * 2; omega)]
      refine ⟨{ b.realloc with text := b.text ++ [toByte c] }, ?_, rfl, ?_⟩
      · simp [realloc, pure, Except.pure]
        omega
      · exact hroom.double (by omega) (by omega)
    · simp only [hfull, if_false, bind, Except.bind]
      rw [put_eq (by omega)]
      refine ⟨{ b with text := b.text ++ [toByte c] }, ?_, rfl, ?_⟩
      · simp [pure, Except.pure]
        omega
      · exact hroom.mono (by omega) (by show _ ≤ b.len; omega)
  · have hbytes := length_utf8CodepointToStr_le c
    simp only [hc, if_false]
    by_cases hfull : n < 4
    · simp only [hfull, if_true, bind, Except.bind]
      rw [putAll_eq _ (by show b.text.length + _ ≤ b.len * 2; omega)]
      refine ⟨{ b.realloc with text := b.text ++ utf8CodepointToStr c }, ?_, rfl, ?_⟩
      · simp [realloc, pure, Except.pure]
        omega
      · exact hroom.double (by omega) (by omega)
    · simp only [hfull, if_false, bind, Except.bind]
      rw [putAll_eq _ (by omega)]
      refine ⟨{ b with text := b.text ++ utf8CodepointToStr c }, ?_, rfl, ?_⟩
      · simp [pure, Except.pure]
        omega
      · exact hroom.mono (by omega) (by show _ ≤ b.len; omega)

/-- The bytes of a character need no more room than the buffer has been given for them. -/
theorem length_append_encode_le (text : List UInt8) (need : Nat) (c : Int) :
    (text ++ encode c).length ≤
      max need (if c ≤ 127 then text.length + 1 else text.length + 4) := by
  have hbytes := length_utf8CodepointToStr_le c
  rw [length_append, encode]
  split
  · rw [length_singleton]
    exact Nat.le_max_right _ _
  · exact Nat.le_trans (Nat.add_le_add_left hbytes _) (Nat.le_max_right _ _)

end Quoted

section QuotedLoop

variable (src : CharSource σ) (charset : Charset) {first need : Nat}

/-- The loop over the characters in quotes. -/
theorem inside_quotedChars (q : Int) (fuel : Nat) (st : σ) (n : Int) (b : StrBuff) (lastc : Int)
    (hroom : Doubled first need b.len) (hle : b.text.length ≤ need)
    (hn : n = b.len - b.text.length) :
    Inside (quotedChars src charset q fuel st n b lastc) ↔
      QuotedKnown src charset q fuel lastc st := by
  induction fuel generalizing st n b lastc need with
  | zero => simp [quotedChars, QuotedKnown]
  | succ fuel ih =>
    rw [quotedChars, QuotedKnown, inside_bind, inside_readCharacter]
    refine and_congr_right fun _ => ?_
    constructor
    · intro h d lastc' st' heq hd
      have hrest := h _ heq
      obtain ⟨b', hput, htext, hroom'⟩ := StrBuff.codepointToUtf8Str_spec hroom hle hn d
      simp only [hd, if_false, hput, bind, Except.bind] at hrest
      refine (ih _ _ _ _ hroom' ?_ rfl).mp hrest
      rw [htext]
      exact length_append_encode_le b.text need d
    · rintro h ⟨d, lastc', st'⟩ heq
      simp only
      by_cases hd : d = -1
      · rw [if_pos hd]
        exact inside_pure _
      · obtain ⟨b', hput, htext, hroom'⟩ := StrBuff.codepointToUtf8Str_spec hroom hle hn d
        simp only [hd, if_false, hput, bind, Except.bind]
        refine (ih _ _ _ _ hroom' ?_ rfl).mpr (h d lastc' st' heq hd)
        rw [htext]
        exact length_append_encode_le b.text need d

/-- What the loop over the characters in quotes leaves in the buffer. -/
theorem quotedChars_spec (q : Int) (fuel : Nat) (st : σ) (n : Int) (b : StrBuff) (lastc : Int)
    (hroom : Doubled first need b.len) (hle : b.text.length ≤ need)
    (hn : n = b.len - b.text.length) :
    match quotedCodes src charset q fuel lastc st with
    | none => ∀ r, quotedChars src charset q fuel st n b lastc ≠ .ok r
    | some codes => ∃ st' b' lastc', quotedChars src charset q fuel st n b lastc =
          .ok (st', b', lastc') ∧
        b'.text = b.text ++ encoded codes ∧
        Doubled first (max need (roomNeeded b.text.length codes)) b'.len := by
  induction fuel generalizing st n b lastc need with
  | zero =>
    intro r
    exact nofun
  | succ fuel ih =>
    rw [quotedChars, quotedCodes]
    rcases hread : readCharacter src charset q lastc st with e | ⟨d, lastc', st'⟩
    · exact fun r => nofun
    · simp only [bind, Except.bind]
      by_cases hd : d = -1
      · simp only [hd, if_true]
        refine ⟨st', b, lastc', rfl, by simp [encoded], ?_⟩
        rw [roomNeeded, max_eq_left hle]
        exact hroom
      · obtain ⟨b', hput, htext, hroom'⟩ := StrBuff.codepointToUtf8Str_spec hroom hle hn d
        have hle' : b'.text.length ≤
            max need (if d ≤ 127 then b.text.length + 1 else b.text.length + 4) := by
          rw [htext]
          exact length_append_encode_le b.text need d
        have hrest := ih st' _ b' lastc' hroom' hle' rfl
        simp only [hd, if_false, hput]
        cases hcodes : quotedCodes src charset q fuel lastc' st' with
        | none =>
          rw [hcodes] at hrest
          exact hrest
        | some codes =>
          rw [hcodes] at hrest
          obtain ⟨st'', b'', lastc'', heq, htext', hroom''⟩ := hrest
          refine ⟨st'', b'', lastc'', heq, ?_, ?_⟩
          · rw [htext', htext, append_assoc]
            rfl
          · rw [roomNeeded, ← max_assoc, ← length_append, ← htext]
            exact hroom''

theorem length_encoded_le (o : Nat) (codes : List Int) :
    o + (encoded codes).length ≤ roomNeeded o codes := by
  induction codes generalizing o with
  | nil => simp [encoded, roomNeeded]
  | cons c codes ih =>
    have := ih (o + (encode c).length)
    rw [roomNeeded, encoded, flatMap_cons, length_append]
    rw [encoded] at this
    omega

/-- A quoted atom or a double-quoted string. -/
theorem inside_quoted (q : Int) (st : σ) (b : StrBuff) (lastc : Int) (htext : b.text = []) :
    Inside (quoted src charset q st b lastc) ↔ QuotedFits src charset b.len q lastc st := by
  have hroom : Doubled b.len 0 b.len := .start (Nat.zero_le _)
  have hn : (b.len : Int) = b.len - b.text.length := by simp [htext]
  have hspec := quotedChars_spec src charset q (src.size st + 1) st b.len b lastc hroom
    (by simp [htext]) hn
  rw [quoted, QuotedFits, inside_bind,
    inside_quotedChars src charset q _ st b.len b lastc hroom (by simp [htext]) hn]
  refine and_congr_right fun _ => ?_
  cases hcodes : quotedCodes src charset q (src.size st + 1) lastc st with
  | none =>
    rw [hcodes] at hspec
    exact ⟨fun _ _ => nofun, fun _ r heq => absurd heq (hspec r)⟩
  | some codes =>
    rw [hcodes] at hspec
    obtain ⟨st', b', lastc', heq, htext', hroom'⟩ := hspec
    rw [htext, nil_append] at htext'
    rw [htext, length_nil, Nat.zero_max] at hroom'
    have hle := length_encoded_le 0 codes
    have hfull := @Doubled.full_iff _ _ _ b'.text.length hroom' (by rw [htext']; omega)
    have hlen := hroom'.need_le
    have hends : Inside (b'.terminate >>= fun _ => pure (st', b', lastc') :
        Except Stop (σ × StrBuff × Int)) ↔ ¬ QuotedFills b.len codes := by
      rw [inside_bind, StrBuff.inside_terminate, QuotedFills, ← htext', ← hfull]
      constructor
      · intro h
        have := h.1
        omega
      · intro h
        refine ⟨?_, fun _ _ => inside_pure _⟩
        rw [← htext'] at hle
        omega
    constructor
    · rintro h _ ⟨⟩
      exact hends.mp (h _ heq)
    · rintro h r hr
      rw [heq] at hr
      obtain rfl := Except.ok.inj hr
      exact hends.mpr (h codes rfl)

end QuotedLoop

section Names

variable (src : CharSource σ) (charset : Charset)

/-- Text of one-byte characters ends at the end of the buffer only if it fills one of the
lengths. -/
theorem not_fills_iff {b : StrBuff} {first : Nat}
    (hroom : Doubled first b.text.length b.len) :
    b.text.length < b.len ↔ ¬ Fills first b.text.length := by
  have hfull := hroom.full_iff (Nat.le_refl _)
  have hle := hroom.need_le
  rw [Fills]
  constructor
  · rintro hlt ⟨k, heq⟩
    have := hfull.mpr ⟨k, heq, Nat.le_of_eq heq⟩
    omega
  · intro h
    apply Nat.lt_of_le_of_ne hle
    intro heq
    obtain ⟨k, heq, -⟩ := hfull.mp heq
    exact h ⟨k, heq⟩

/-- A variable or an atom without quotes. -/
theorem inside_name {F : Type} (type funcType : TokenType) {c : Int} (st : σ) (b : StrBuff)
    (lastc : Int) (hc : upTo .LOWER c) (htext : b.text = []) :
    Inside (name src charset type funcType c st b lastc : Except Stop (Lexed σ F)) ↔
      NameFits src charset b.len c st := by
  have hspec := @nameChars_spec σ src charset (src.size st + 1) c st b.len b b.len hc
    (Nat.lt_succ_self _) (by rw [htext]; exact .start (Nat.zero_le _)) (by simp [htext])
  rw [name, NameFits]
  split at hspec
  · next hstop =>
    obtain ⟨b', heq, htext', hroom⟩ := hspec
    rw [htext, nil_append] at htext'
    have hlen : b'.text.length =
        (span src charset (upTo .LOWER) (src.size st + 1) c st).codes.length := by
      rw [htext', length_map]
    rw [heq]
    simp only [bind, Except.bind]
    rw [← hlen, ← not_fills_iff hroom]
    simp only [hstop, true_and]
    rw [← StrBuff.inside_terminate]
    cases b'.terminate with
    | error e => exact ⟨fun h heq => h (by cases heq; rfl), fun h heq => h (by cases heq; rfl)⟩
    | ok _ => exact ⟨fun _ => nofun, fun _ => nofun⟩
  · next hstop =>
    rw [hspec]
    simp [bind, Except.bind, hstop]

/-- A symbol atom or the end of a clause. -/
theorem inside_signs {F : Type} (c d : Int) (st : σ) (b : StrBuff) (lastc : Int)
    (htext : b.text = []) :
    Inside (signs src charset c d st b lastc : Except Stop (Lexed σ F)) ↔
      SignsFit src charset b.len d st := by
  have hfour := b.four_le
  have hspec := @signChars_spec σ src charset (src.size st + 2) d st b.len
    { b with text := [toByte c] } b.len (by omega) (fun _ => by omega)
    (.start (by show 1 ≤ b.len; omega)) (by simp)
  rw [signs, SignsFit, StrBuff.put_eq (by rw [htext]; show 0 < b.len; omega)]
  simp only [htext, nil_append, bind, Except.bind]
  split at hspec
  · next hstop =>
    obtain ⟨b', heq, htext', hroom⟩ := hspec
    have hlen : b'.text.length =
        (span src charset isSign (src.size st + 2) d st).codes.length + 1 := by
      rw [htext']
      simp
    rw [heq]
    simp only
    rw [← hlen, ← not_fills_iff hroom]
    simp only [hstop, true_and]
    rw [← StrBuff.inside_terminate, inType_known hstop]
    cases b'.terminate with
    | error e => exact ⟨fun h heq => h (by cases heq; rfl), fun h heq => h (by cases heq; rfl)⟩
    | ok _ =>
      simp only [inside_ok, iff_true]
      split <;> exact inside_pure _
  · next hstop =>
    rw [hspec]
    simp [hstop]

end Names

section Numbers

variable (src : CharSource σ) (charset : Charset) (fl : Doubles F)

/-- The loop over the digits behind a radix once the number is a float. -/
theorem inside_radixReal (d : Int) {fuel : Nat} (x : F) (st : σ) (hfuel : src.size st < fuel) :
    Inside (radixReal src charset fl d fuel x st) ↔
      Known (span src charset (digitBelow 99) (fuel + 1) (getCode src charset st).1
        (getCode src charset st).2).stop := by
  induction fuel generalizing x st with
  | zero => omega
  | succ fuel ih =>
    have hshorter : digitBelow 99 (getCode src charset st).1 →
        src.size (getCode src charset st).2 < fuel := by
      intro h
      have := size_getCode src charset st (nonneg_of_digitBelow (by decide) h)
      omega
    rw [radixReal]
    generalize getCode src charset st = c at *
    by_cases hc : Known c.1
    · rw [digVal_known hc]
      simp only [bind, Except.bind]
      by_cases hdigit : digitBelow 99 c.1
      · rw [if_pos (by have := (digitBelow_known hc).mp hdigit; omega), span_succ hdigit]
        exact ih _ _ (hshorter hdigit)
      · rw [if_neg (fun h => hdigit ((digitBelow_known hc).mpr (by omega))), span_of_neg hdigit]
        simpa using hc
    · have hdigit : ¬ digitBelow 99 c.1 := by
        intro h
        simp only [digitBelow, decide_eq_true_eq] at h
        exact hc h.1
      rw [digVal_unknown hc, span_of_neg hdigit]
      simpa [bind, Except.bind] using hc

/-- The digits behind a radix. -/
theorem inside_nonzeroRadix (d : Int) (b : StrBuff) (lastc : Int) (fuel : Nat) (newv : Int)
    (st : σ) :
    Inside (nonzeroRadix src charset fl d b lastc fuel newv st) ↔
      RadixKnown src charset d fuel newv st := by
  induction fuel generalizing newv st with
  | zero => simp [nonzeroRadix, RadixKnown]
  | succ fuel ih =>
    rw [nonzeroRadix, RadixKnown]
    generalize getCode src charset st = c at *
    by_cases hc : Known c.1
    · rw [digVal_known hc]
      simp only [bind, Except.bind, hc, true_and]
      by_cases hdigit : (digitOf c.1 : Int) < d
      · simp only [hdigit, if_true, forall_const]
        by_cases hund : c.1 = code '_'
        · simp only [hund, ne_eq, not_true_eq_false, if_false, if_true]
          exact ih _ _
        · simp only [hund, ne_eq, not_false_eq_true, if_true, if_false]
          split
          · have hreal := inside_radixReal src charset fl d
              (fl.shift (fl.ofInteger newv) d (digitOf c.1)) c.2 (Nat.lt_succ_self _)
            rw [← hreal]
            cases radixReal src charset fl d (src.size c.2).succ
                (fl.shift (fl.ofInteger newv) d (digitOf c.1)) c.2 with
            | error e => exact ⟨fun h heq ↦ h (by cases heq; rfl), fun h heq ↦
              h (by cases heq; rfl)⟩
            | ok r => exact ⟨fun _ => nofun, fun _ => nofun⟩
          · exact ih _ _
      · simp [hdigit]
    · rw [digVal_unknown hc]
      simp [bind, Except.bind, hc]

/-- No access outside, and room for the byte that ends the text. -/
def Ready (x : Except Stop (Int × σ × StrBuff)) : Prop :=
  Inside x ∧ ∀ r, x = .ok r → r.2.2.text.length < r.2.2.len

@[simp] theorem ready_ok (r : Int × σ × StrBuff) :
    Ready (.ok r : Except Stop _) ↔ r.2.2.text.length < r.2.2.len := by
  constructor
  · intro h
    exact h.2 r rfl
  · intro h
    refine ⟨inside_ok r, ?_⟩
    rintro _ ⟨⟩
    exact h

@[simp] theorem not_ready_outside :
    ¬ Ready (.error .outside : Except Stop (Int × σ × StrBuff)) := fun h => h.1 rfl

@[simp] theorem ready_syntaxError (e : SyntaxError) :
    Ready (.error (.syntaxError e) : Except Stop (Int × σ × StrBuff)) :=
  ⟨inside_syntaxError e, fun _ => nofun⟩

/-- The text is ended and the token taken from it. -/
theorem inside_finish {α : Type} (x : Except Stop (Int × σ × StrBuff))
    (f : Int × σ × StrBuff → α) :
    Inside (x >>= fun r => r.2.2.terminate >>= fun _ => pure (f r)) ↔ Ready x := by
  rw [inside_bind, Ready]
  refine and_congr_right fun _ => forall_congr' fun r => forall_congr' fun _ => ?_
  rw [inside_bind, StrBuff.inside_terminate]
  exact and_iff_left fun _ _ => inside_pure _

theorem ready_digits {c : Int} {st : σ} {b : StrBuff} (hc : upTo .BREAK c)
    (hlen : b.text.length ≤ b.len) :
    Ready (digits src charset (src.size st + 1) c st b) ↔
      Known (span src charset (upTo .BREAK) (src.size st + 1) c st).stop ∧
        b.text.length +
          (kept (span src charset (upTo .BREAK) (src.size st + 1) c st).codes).length < b.len := by
  rw [digits_eq hc (Nat.lt_succ_self _) hlen]
  split
  · next h => simp [h.1]
  · next h =>
    refine iff_of_false not_ready_outside ?_
    rintro ⟨hstop, hlt⟩
    exact h ⟨hstop, Nat.le_of_lt hlt⟩

theorem upTo_BREAK_iff {c : Int} (h : Known c) :
    upTo .BREAK c ↔ ¬ CharClass.BREAK.toNat < (classOf c).toNat := by
  rw [upTo_known h]
  omega

/-- The digits of an exponent. -/
theorem ready_exponentDigits (d : Int) (st : σ) {b : StrBuff} (hlen : b.text.length ≤ b.len) :
    Ready (inType d >>= fun k => if CharClass.BREAK.toNat < k.toNat then
        .error (.syntaxError .badExpt) else digits src charset (src.size st + 1) d st b) ↔
      Known d ∧ (upTo .BREAK d →
        Known (span src charset (upTo .BREAK) (src.size st + 1) d st).stop ∧
          b.text.length +
            (kept (span src charset (upTo .BREAK) (src.size st + 1) d st).codes).length <
              b.len) := by
  by_cases hd : Known d
  · rw [inType_known hd]
    simp only [Except.bind, bind, hd, true_and]
    by_cases hdigit : upTo .BREAK d
    · rw [if_neg ((upTo_BREAK_iff hd).mp hdigit), ready_digits src charset hdigit hlen]
      simp [hdigit]
    · rw [if_pos (by have := mt (upTo_BREAK_iff hd).mpr hdigit; omega)]
      simp [hdigit]
  · rw [inType_unknown hd]
    simp [bind, Except.bind, hd]

theorem ready_exponent (d : Int) (st : σ) {b : StrBuff} (hlen : b.text.length ≤ b.len) :
    Ready (exponent src charset d st b) ↔
      ExponentFits src charset b.len b.text.length d st := by
  rw [exponent, ExponentFits]
  split
  · by_cases hroom : b.text.length < b.len
    · rw [StrBuff.put_eq hroom]
      simp only [bind, Except.bind]
      rw [exponentSign]
      have hdigits := fun d st (b : StrBuff) h => @ready_exponentDigits σ src charset d st b h
      simp only [bind, Except.bind] at hdigits
      generalize getCode src charset st = r at *
      by_cases hminus : r.1 = code '-'
      · simp only [hminus, if_true, true_or, bind, Except.bind]
        by_cases hroom' : b.text.length + 1 < b.len
        · rw [StrBuff.put_eq (by simpa using hroom')]
          simp only [pure, Except.pure]
          rw [hdigits _ _ _ (by simp; omega)]
          simp [show b.text.length + 2 ≤ b.len from hroom', Nat.add_assoc]
        · rw [StrBuff.put_full (by simpa using hroom')]
          refine iff_of_false (by simp) ?_
          rintro ⟨-, hle, -⟩
          omega
      · by_cases hplus : r.1 = code '+'
        · rw [if_neg hminus, if_pos hplus, if_neg hminus, if_pos (Or.inr hplus)]
          simp only
          rw [hdigits _ _ _ (by simp; omega)]
          simp [show b.text.length + 1 ≤ b.len from hroom]
        · rw [if_neg hminus, if_neg hplus, if_neg hminus, if_neg (by simp [hminus, hplus])]
          simp only
          rw [hdigits _ _ _ (by simp; omega)]
          simp [show b.text.length + 1 ≤ b.len from hroom]
    · rw [StrBuff.put_full hroom]
      refine iff_of_false (by simp [bind, Except.bind]) ?_
      rintro ⟨-, hle, -⟩
      split at hle <;> omega
  · simp

/-- A number with a point. -/
theorem inside_decimal {d : Int} (st : σ) {b : StrBuff} (lastc : Int) (hd : upTo .BREAK d)
    (hlen : b.text.length ≤ b.len) :
    Inside (decimal src charset fl d st b lastc) ↔
      DecimalFits src charset b.len b.text.length d st := by
  rw [decimal, DecimalFits]
  by_cases hroom : b.text.length < b.len
  · rw [StrBuff.put_eq hroom]
    simp only [bind, Except.bind]
    rw [digits_eq hd (Nat.lt_succ_self _) (by simp; omega)]
    generalize span src charset (upTo .BREAK) (src.size st + 1) d st = s at *
    by_cases hstop : Known s.stop
    · by_cases hfits : b.text.length + 1 + (kept s.codes).length ≤ b.len
      · rw [if_pos ⟨hstop, by simpa using hfits⟩]
        simp only
        have hfinish := inside_finish (exponent src charset s.stop s.rest
          { b with text := b.text ++ [toByte (code '.')] ++ (kept s.codes).map toByte })
          fun r => (⟨⟨if r.1 = code '(' then .REALFUNC else .REAL, .real (fl.sscanf r.2.2.string),
            r.1⟩, r.2.1, r.2.2, lastc⟩ : Lexed σ F)
        simp only [bind, Except.bind] at hfinish
        have hlength : (b.text ++ [toByte (code '.')] ++ (kept s.codes).map toByte).length =
            b.text.length + 1 + (kept s.codes).length := by
          simp only [length_append, length_map, length_singleton]
        rw [hfinish, ready_exponent src charset _ _ (by rw [hlength]; exact hfits)]
        simp only [hlength, hstop, hfits, true_and]
      · rw [if_neg (fun h => hfits (by simpa using h.2))]
        simp [hfits]
    · rw [if_neg (fun h => hstop h.1)]
      simp [hstop]
  · rw [StrBuff.put_full hroom]
    refine iff_of_false (by simp [bind, Except.bind]) ?_
    rintro ⟨-, hle, -⟩
    omega

theorem inside_integer {F : Type} (c : Int) (st : σ) (b : StrBuff) (lastc : Int) :
    Inside (integer c st b lastc : Except Stop (Lexed σ F)) ↔ b.text.length < b.len :=  by
  rw [integer, inside_bind, StrBuff.inside_terminate]
  exact and_iff_left fun _ _ => inside_pure _

theorem upTo_of_digit {c : Int} (h : Known c) (hclass : classOf c = .DIGIT) : upTo .BREAK c := by
  rw [upTo_known h, hclass]
  decide

theorem toByte_ne_zero {c : Int} (h : upTo .BREAK c) : toByte c ≠ 0 := by
  have hall : ∀ k < 256, upTo .BREAK (k : Nat) → toByte (k : Nat) ≠ 0 := by decide +kernel
  have hnonneg := nonneg_of_upTo (upTo_mono h)
  have hknown : Known c := by
    simp only [upTo, decide_eq_true_eq] at h
    exact h.1
  have hk := hall c.toNat (by have := hknown.2; omega)
  rw [Int.toNat_of_nonneg hnonneg] at hk
  exact hk h

theorem span_codes (p : Int → Bool) (k : Nat) (c : Int) (st : σ) :
    ∀ d ∈ (span src charset p k c st).codes, p d := by
  induction k generalizing c st with
  | zero => simp [span]
  | succ k ih =>
    by_cases hp : p c
    · rw [span_succ hp]
      intro d hd
      rcases mem_cons.mp hd with rfl | hd
      · exact hp
      · exact ih _ _ d hd
    · rw [span_of_neg hp]
      simp

/-- The digits of a number are no 0 bytes. -/
theorem string_digits {codes : List Int} {b : StrBuff} (h : ∀ c ∈ codes, upTo .BREAK c)
    (htext : b.text = (kept codes).map toByte) : b.string = (kept codes).map toByte := by
  rw [StrBuff.string, htext, takeWhile_eq_self_iff]
  intro byte hbyte
  obtain ⟨c, hc, rfl⟩ := mem_map.mp hbyte
  simpa using toByte_ne_zero (h c (mem_filter.mp hc |>.1))

theorem inside_terminate_bind {α : Type} (b : StrBuff) (x : Except Stop α) :
    Inside (b.terminate >>= fun _ => x) ↔ b.text.length < b.len ∧ Inside x := by
  rw [inside_bind, StrBuff.inside_terminate]
  refine and_congr_right fun h => ⟨fun hall => hall () (if_pos h), fun hx _ _ => hx⟩

theorem inside_radix (st : σ) (b : StrBuff) (lastc : Int) :
    Inside (radix src charset fl st b lastc) ↔
      b.text.length < b.len ∧ (intValue b.string ≠ 1 → intValue b.string ≤ 36 →
        if intValue b.string = 0 then CharacterKnown src charset (-1) st
        else RadixKnown src charset (intValue b.string) (src.size st + 1) 0 st) := by
  rw [radix, inside_terminate_bind]
  refine and_congr_right fun _ => ?_
  simp only
  by_cases hbad : intValue b.string = 1 ∨ 36 < intValue b.string
  · rw [if_pos hbad]
    refine iff_of_true (inside_syntaxError _) fun hone hle => ?_
    omega
  · rw [if_neg hbad]
    simp only [not_or, Int.not_lt] at hbad
    simp only [ne_eq, hbad, not_false_eq_true, forall_const]
    split
    · rw [inside_bind, inside_readCharacter]
      exact and_iff_left fun _ _ => inside_pure _
    · exact inside_nonzeroRadix src charset fl _ b lastc _ 0 st

theorem inside_radixLetter (c : Int) (st : σ) (b : StrBuff) (lastc : Int) :
    Inside (radixLetter src charset fl c st b lastc) ↔
      b.text.length < b.len ∧ (intValue b.string = 0 →
        RadixKnown src charset (if c = code 'b' then 2 else if c = code 'o' then 8 else 16)
          (src.size st + 1) 0 st) := by
  rw [radixLetter, inside_terminate_bind]
  refine and_congr_right fun _ => ?_
  simp only
  by_cases hzero : intValue b.string = 0
  · simp only [hzero, if_true, forall_const]
    exact inside_nonzeroRadix src charset fl _ b lastc _ 0 st
  · simp [hzero]

/-- A number. -/
theorem inside_number {c : Int} (st : σ) {b : StrBuff} (lastc : Int) (hc : upTo .BREAK c)
    (htext : b.text = []) :
    Inside (number src charset fl c st b lastc) ↔ NumberFits src charset b.len c st := by
  have hcodes := span_codes src charset (upTo .BREAK) (src.size st + 1) c st
  rw [number, NumberFits, digits_eq hc (Nat.lt_succ_self _) (by simp [htext])]
  generalize span src charset (upTo .BREAK) (src.size st + 1) c st = s at *
  simp only [htext, length_nil, Nat.zero_add, nil_append]
  by_cases hstop : Known s.stop
  · by_cases hfits : (kept s.codes).length ≤ b.len
    · rw [if_pos ⟨hstop, hfits⟩]
      simp only [bind, Except.bind, hstop, true_and]
      have hstring := @string_digits s.codes { b with text := (kept s.codes).map toByte } hcodes rfl
      have hlength : ((kept s.codes).map toByte).length = (kept s.codes).length := by simp
      split
      · have hradix := inside_radix src charset fl s.rest
          { b with text := (kept s.codes).map toByte } lastc
        rw [hstring, hlength] at hradix
        exact hradix
      · split
        · by_cases hd : Known (getCode src charset s.rest).1
          · rw [inType_known hd]
            simp only [hd, true_and]
            split
            · next hdigit =>
              have hdecimal := inside_decimal src charset fl (getCode src charset s.rest).2 lastc
                (upTo_of_digit hd hdigit) (show ({ b with
                  text := (kept s.codes).map toByte } : StrBuff).text.length ≤ b.len by
                    rw [hlength]; exact hfits)
              rw [hlength] at hdecimal
              exact hdecimal
            · rw [inside_integer, hlength]
          · rw [inType_unknown hd]
            simp [hd]
        · split
          · have hletter := inside_radixLetter src charset fl s.stop s.rest
              { b with text := (kept s.codes).map toByte } lastc
            rw [hstring, hlength] at hletter
            exact hletter
          · rw [inside_integer, hlength]
    · rw [if_neg (fun h => hfits h.2)]
      refine iff_of_false (by simp [bind, Except.bind]) ?_
      rintro ⟨-, h⟩
      split at h
      · have := h.1
        omega
      · split at h
        · have h := h.2
          split at h
          · have := h.2.1
            omega
          · omega
        · split at h
          · have := h.1
            omega
          · omega
  · rw [if_neg (fun h => hstop h.1)]
    simp [bind, Except.bind, hstop]

end Numbers

section Start

variable (src : CharSource σ) (charset : Charset) (fl : Doubles F)

/-- Comments are read without the tables. -/
theorem inside_com0plain (fuel : Nat) (st : σ) : Inside (com0plain src fuel st) := by
  induction fuel generalizing st with
  | zero => exact nofun
  | succ fuel ih =>
    simp only [com0plain]
    split
    · exact ih _
    · split <;> exact nofun

theorem inside_com2plain (astcom endcom : Int) (fuel : Nat) (state : Bool) (st : σ) :
    Inside (com2plain src astcom endcom fuel state st) := by
  induction fuel generalizing state st with
  | zero => exact nofun
  | succ fuel ih =>
    simp only [com2plain]
    split
    · exact nofun
    · split
      · exact nofun
      · exact ih _ _

theorem not_signsFit {len : Nat} {d : Int} {st : σ} (hd : ¬ Known d) :
    ¬ SignsFit src charset len d st := by
  have hsign : ¬ isSign d := by
    intro h
    simp only [isSign, decide_eq_true_eq] at h
    exact hd h.1
  rw [SignsFit, span_of_neg hsign]
  exact fun h => hd h.1

/-- A signed character, where `START` may go on. -/
theorem inside_signCase {α : Type} {c : Int} (st : σ) {b : StrBuff} (lastc : Int)
    (htext : b.text = []) (f : (Int × σ) ⊕ Lexed σ F → Except Stop α)
    (hf : ∀ l, Inside (f (.inr l))) :
    Inside (signCase src charset fl c st b lastc >>= f) ↔
      let d := getCode src charset st
      if c = code '/' ∧ d.1 = code '*' then
        ∀ st', com2plain src d.1 (code '/') (src.size d.2 + 1) false d.2 = .ok (true, st') →
          Inside (f (.inl (getCode src charset st')))
      else if c = code '.' ∧ Known d.1 ∧ classOf d.1 = .DIGIT then
        DecimalFits src charset b.len 1 d.1 d.2
      else SignsFit src charset b.len d.1 d.2 := by
  have hempty : b.text.length < b.len := by
    rw [htext]
    exact Nat.lt_of_lt_of_le (by decide) b.four_le
  have hinr : ∀ x : Except Stop (Lexed σ F), Inside ((.inr <$> x) >>= f) ↔ Inside x :=
    fun x => inside_map_bind _ x hf
  rw [signCase, StrBuff.put_eq hempty]
  simp only [bind, Except.bind] at hinr ⊢
  generalize getCode src charset st = d at *
  by_cases hcomment : c = code '/' ∧ d.1 = code '*'
  · rw [if_pos hcomment, if_pos hcomment]
    have hinside := inside_com2plain src d.1 (code '/') (src.size d.2 + 1) false d.2
    rcases hread : com2plain src d.1 (code '/') (src.size d.2 + 1) false d.2 with
      e | ⟨closed, st'⟩
    · rw [hread] at hinside
      exact iff_of_true (fun heq => hinside (by cases heq; rfl)) fun _ => nofun
    · cases closed with
      | false => exact iff_of_true (inside_syntaxError _) fun _ => nofun
      | true => simp [pure, Except.pure]
  · rw [if_neg hcomment, if_neg hcomment]
    by_cases hpoint : c = code '.'
    · rw [if_pos hpoint]
      by_cases hd : Known d.1
      · rw [inType_known hd]
        simp only [hd, hpoint, true_and]
        by_cases hdigit : classOf d.1 = .DIGIT
        · rw [if_pos hdigit, if_pos hdigit, StrBuff.put_eq hempty]
          have hdecimal := inside_decimal src charset fl d.2 lastc (upTo_of_digit hd hdigit)
            (show ({ b with text := b.text ++ [toByte (code '0')] } : StrBuff).text.length ≤
              b.len by simp; omega)
          simp only [htext, nil_append, length_singleton] at hdecimal ⊢
          rw [← hdecimal, ← hinr]
        · rw [if_neg hdigit, if_neg hdigit,
            ← inside_signs src charset (code '.') d.1 d.2 b lastc htext, ← hinr]
      · rw [inType_unknown hd]
        refine iff_of_false not_inside_outside ?_
        rw [if_neg (fun h => hd h.2.1)]
        exact not_signsFit src charset hd
    · rw [if_neg hpoint, if_neg (fun h => hpoint h.1),
        ← inside_signs src charset c d.1 d.2 b lastc htext, ← hinr]

theorem inside_nobleCase (c : Int) (st : σ) {b : StrBuff} (lastc : Int) (htext : b.text = []) :
    Inside (nobleCase src charset c st b lastc : Except Stop (Lexed σ F)) := by
  have hfour := b.four_le
  rw [nobleCase, StrBuff.put_eq (by simp [htext]; omega)]
  simp only [bind, Except.bind, StrBuff.terminate, htext]
  rw [if_pos (by simp; omega)]
  exact inside_pure _

theorem inside_punctuation (c d : Int) (st : σ) {b : StrBuff} (lastc : Int)
    (htext : b.text = []) :
    Inside (punctuation src charset c d st b lastc : Except Stop (Lexed σ F)) := by
  have hfour := b.four_le
  rw [punctuation]
  split
  · rw [StrBuff.put_eq (by simp [htext]; omega)]
    simp only [bind, Except.bind]
    rw [StrBuff.put_eq (by simp [htext]; omega)]
    simp only [StrBuff.terminate, htext]
    rw [if_pos (by simp; omega)]
    exact inside_pure _
  · rw [StrBuff.put_eq (by simp [htext]; omega)]
    simp only [bind, Except.bind, StrBuff.terminate, htext]
    rw [if_pos (by simp; omega)]
    exact inside_pure _

/-- A punctuation mark, where `START` may go on behind a comment. -/
theorem inside_punctCase {α : Type} (c : Int) (st : σ) {b : StrBuff} (lastc : Int)
    (htext : b.text = []) (f : (Int × σ) ⊕ Lexed σ F → Except Stop α)
    (hf : ∀ l, Inside (f (.inr l))) :
    Inside (punctCase src charset c st b lastc >>= f) ↔
      (c = code '%' → ∀ r, com0plain src (src.size st + 1) st = .ok r → Inside (f (.inl r))) := by
  rw [punctCase]
  by_cases hc : c = code '%'
  · rw [if_pos hc, inside_bind, inside_map]
    simp only [hc, forall_const, inside_com0plain, true_and]
    constructor
    · intro h r hr
      exact h _ (by rw [hr]; rfl)
    · intro h a ha
      rcases hr : com0plain src (src.size st + 1) st with e | r
      · rw [hr] at ha
        cases ha
      · rw [hr] at ha
        obtain rfl := Except.ok.inj ha
        exact h r hr
  · rw [if_neg hc]
    refine iff_of_true ?_ fun h => absurd h hc
    exact (inside_map_bind _ _ hf).mpr (inside_punctuation src charset c _ _ lastc htext)

/-- `GetToken` from `START` on. -/
theorem inside_start (b : StrBuff) (lastc : Int) (fuel : Nat) (c : Int) (st : σ)
    (htext : b.text = []) :
    Inside (start src charset fl b lastc fuel c st) ↔
      TokenFits src charset b.len lastc fuel c st := by
  have hquoted := fun q st => inside_quoted src charset q st b lastc htext
  induction fuel generalizing c st with
  | zero => simp [start, TokenFits]
  | succ fuel ih =>
    rw [start, TokenFits, inside_bind]
    by_cases hc : Known c
    · rw [inType_known hc]
      simp only [inside_ok, Except.ok.injEq, forall_eq', hc, true_and]
      cases hclass : classOf c with
      | DIGIT => exact inside_number src charset fl st lastc (upTo_of_digit hc hclass) htext
      | BREAK =>
        exact inside_name src charset _ _ st b lastc
          ((upTo_known hc).mpr (by simp [hclass, CharClass.toNat])) htext
      | UPPER =>
        exact inside_name src charset _ _ st b lastc
          ((upTo_known hc).mpr (by simp [hclass, CharClass.toNat])) htext
      | LOWER =>
        exact inside_name src charset _ _ st b lastc
          ((upTo_known hc).mpr (by simp [hclass, CharClass.toNat])) htext
      | SIGN =>
        simp only
        refine (inside_signCase src charset fl st lastc htext _ ?_).trans ?_
        · exact fun _ => inside_pure _
        · simp only [ih]
      | NOBLE => exact iff_of_true (inside_nobleCase src charset c st lastc htext) trivial
      | PUNCT =>
        simp only
        refine (inside_punctCase src charset c st lastc htext _ ?_).trans ?_
        · exact fun _ => inside_pure _
        · simp only [ih]
      | ATMQT =>
        simp only
        rw [atomCase, inside_bind, hquoted]
        exact and_iff_left fun _ _ => inside_pure _
      | LISQT =>
        simp only
        rw [listCase, inside_bind, hquoted]
        exact and_iff_left fun _ _ => inside_pure _
      | SPACE => exact ih _ _
      | EOLN => exact ih _ _
      | EOFCH => simp
    · rw [inType_unknown hc]
      simp [hc]

end Start

/-- A call looks up classes and digits only within the tables, and writes only within the token
buffer, exactly if the characters are of known codes where these are looked up and the text of the
token does not fill the buffer. -/
theorem getToken_inside_iff (src : CharSource σ) (charset : Charset) (fl : Doubles F)
    (prevch : Int) (st : σ) (b : StrBuff) (lastc : Int) :
    Inside (getToken src charset fl prevch st b lastc) ↔
      TokenFits src charset b.len lastc (src.size st + 2) prevch st :=
  inside_start src charset fl { b with text := [] } lastc _ prevch st rfl

/-- The class of a euro sign outside quotes is looked up far behind the end of the table. -/
theorem euro_sign_outside :
    ¬ Inside (getToken fileSource .utf8 (⟨fun _ => 0, id, fun x _ _ => x, Int.neg⟩ : Doubles Int)
      (code '\n') [0xE2, 0x82, 0xAC, 0x2E, 0x0A] ⟨[], 10000, by decide⟩ (code ' ')) :=
  fun h => h rfl

end XSBEngine.Reading
