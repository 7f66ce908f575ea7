import XSBEngine.Library.Doubling
import XSBEngine.Reading.Spelling

/-!
# Table lookups and buffer writes of the tokenizer's loops

What the loops of `GetToken` over names, numbers and symbol atoms and the escapes of
`read_character` look up and write, `XSB/emu/token_xsb.c:780–941, 1026–1290`.
-/

namespace XSBEngine.Reading

open Library List

variable {σ F α β : Type}

/-- No access outside the tables and the buffer. -/
def Inside (x : Except Stop α) : Prop := x ≠ .error .outside

@[simp] theorem inside_ok (a : α) : Inside (.ok a : Except Stop α) := nofun

@[simp] theorem inside_pure (a : α) : Inside (pure a : Except Stop α) := nofun

@[simp] theorem not_inside_outside : ¬ Inside (.error .outside : Except Stop α) := fun h => h rfl

@[simp] theorem inside_syntaxError (e : SyntaxError) :
    Inside (.error (.syntaxError e) : Except Stop α) := nofun

@[simp] theorem inside_unfinished : Inside (.error .unfinished : Except Stop α) := nofun

theorem inside_bind (x : Except Stop α) (f : α → Except Stop β) :
    Inside (x >>= f) ↔ Inside x ∧ ∀ a, x = .ok a → Inside (f a) := by
  cases x with
  | error e =>
    constructor
    · intro h
      exact ⟨fun heq => h (by cases heq; rfl), nofun⟩
    · rintro ⟨h, -⟩ heq
      exact h (by cases heq; rfl)
  | ok a =>
    constructor
    · intro h
      refine ⟨nofun, ?_⟩
      rintro _ ⟨⟩
      exact h
    · rintro ⟨-, h⟩
      exact h a rfl

theorem inside_map (f : α → β) (x : Except Stop α) : Inside (f <$> x) ↔ Inside x := by
  cases x with
  | error e =>
    constructor
    · intro h heq
      exact h (by cases heq; rfl)
    · intro h heq
      exact h (by cases heq; rfl)
  | ok a => exact ⟨fun _ => nofun, fun _ => nofun⟩

/-- What is done with a result under a constructor makes no access outside. -/
theorem inside_map_bind {γ : Type} (g : α → β) (x : Except Stop α) {f : β → Except Stop γ}
    (hf : ∀ a, Inside (f (g a))) : Inside ((g <$> x) >>= f) ↔ Inside x := by
  rw [inside_bind, inside_map]
  refine and_iff_left ?_
  intro b hb
  cases x with
  | error e => cases hb
  | ok a =>
    obtain rfl := Except.ok.inj hb
    exact hf a

section Lookups

variable {c : Int}

theorem inType_known (h : Known c) : inType c = .ok (classOf c) := if_pos h

theorem inType_unknown (h : ¬ Known c) : inType c = .error .outside := if_neg h

theorem digVal_known (h : Known c) : digVal c = .ok (digitOf c) := if_pos h

theorem digVal_unknown (h : ¬ Known c) : digVal c = .error .outside := if_neg h

theorem upTo_known {bound : CharClass} (h : Known c) :
    upTo bound c ↔ (classOf c).toNat ≤ bound.toNat := by
  simp [upTo, h]

theorem digitBelow_known {d : Int} (h : Known c) : digitBelow d c ↔ digitOf c < d := by
  simp [digitBelow, h]

/-- Characters of names and numbers are not the end of the input. -/
theorem nonneg_of_upTo (h : upTo .LOWER c) : 0 ≤ c := by
  simp only [upTo, decide_eq_true_eq] at h
  rcases Int.lt_or_le c 0 with hneg | hneg
  · have heq : c = -1 := by
      have := h.1.1
      omega
    rw [heq] at h
    exact absurd h.2 (by decide)
  · exact hneg

theorem upTo_mono (h : upTo .BREAK c) : upTo .LOWER c := by
  simp only [upTo, decide_eq_true_eq] at h ⊢
  exact ⟨h.1, Nat.le_trans h.2 (by decide)⟩

theorem nonneg_of_isSign (h : isSign c) : 0 ≤ c := by
  simp only [isSign, decide_eq_true_eq] at h
  rcases Int.lt_or_le c 0 with hneg | hneg
  · have heq : c = -1 := by
      have := h.1.1
      omega
    rw [heq] at h
    exact absurd h.2 (by decide)
  · exact hneg

theorem nonneg_of_digitBelow {d : Int} (hd : d ≤ 99) (h : digitBelow d c) : 0 ≤ c := by
  simp only [digitBelow, decide_eq_true_eq] at h
  rcases Int.lt_or_le c 0 with hneg | hneg
  · have heq : c = -1 := by
      have := h.1.1
      omega
    rw [heq] at h
    have : digitOf (-1) = 99 := by decide
    omega
  · exact hneg

end Lookups

section Spans

variable {src : CharSource σ} {charset : Charset} {p : Int → Bool} {k : Nat} {c : Int} {st : σ}

theorem span_of_neg (h : ¬ p c) (k : Nat) : span src charset p k c st = ⟨[], c, st⟩ := by
  cases k with
  | zero => rfl
  | succ k => rw [span, if_neg h]

theorem span_succ (h : p c) :
    span src charset p (k + 1) c st =
      ⟨c :: (span src charset p k (getCode src charset st).1 (getCode src charset st).2).codes,
        (span src charset p k (getCode src charset st).1 (getCode src charset st).2).stop,
        (span src charset p k (getCode src charset st).1 (getCode src charset st).2).rest⟩ := by
  rw [span, if_pos h]

end Spans

section Buffers

theorem StrBuff.put_eq {b : StrBuff} (h : b.text.length < b.len) (c : Int) :
    b.put c = .ok { b with text := b.text ++ [toByte c] } := if_pos h

theorem StrBuff.put_full {b : StrBuff} (h : ¬ b.text.length < b.len) (c : Int) :
    b.put c = .error .outside := if_neg h

theorem StrBuff.inside_terminate (b : StrBuff) : Inside b.terminate ↔ b.text.length < b.len := by
  rw [StrBuff.terminate]
  split <;> simp_all

end Buffers

section Loops

variable {src : CharSource σ} {charset : Charset} {fl : Doubles F}

@[simp] theorem kept_nil : kept [] = [] := rfl

theorem kept_cons (c : Int) (codes : List Int) : kept (c :: codes) = kept [c] ++ kept codes := by
  rw [kept, kept, kept, ← filter_append]
  rfl

/-- One turn of the loop over the digits. -/
theorem StrBuff.putDigit_eq (c : Int) {b : StrBuff} (hlen : b.text.length ≤ b.len) :
    b.putDigit c =
      if b.text.length + (kept [c]).length ≤ b.len then
        .ok { b with text := b.text ++ (kept [c]).map toByte }
      else .error .outside := by
  rw [putDigit]
  by_cases hc : c = code '_'
  · have hkept : kept [c] = [] := by simp [kept, hc]
    rw [if_neg (not_not.mpr hc), hkept, if_pos (by simpa using hlen)]
    simp
  · have hkept : kept [c] = [c] := by simp [kept, hc]
    rw [if_pos hc, hkept]
    by_cases hroom : b.text.length < b.len
    · rw [put_eq hroom, if_pos (show b.text.length + [c].length ≤ b.len from hroom)]
      rfl
    · rw [put_full hroom, if_neg (show ¬ b.text.length + [c].length ≤ b.len from hroom)]

/-- The loop over the digits of a number. -/
theorem digits_eq {fuel : Nat} {c : Int} {st : σ} {b : StrBuff} (hc : upTo .BREAK c)
    (hfuel : src.size st < fuel) (hlen : b.text.length ≤ b.len) :
    digits src charset fuel c st b =
      if Known (span src charset (upTo .BREAK) fuel c st).stop ∧ b.text.length +
          (kept (span src charset (upTo .BREAK) fuel c st).codes).length ≤ b.len then
        .ok ((span src charset (upTo .BREAK) fuel c st).stop,
          (span src charset (upTo .BREAK) fuel c st).rest,
          { b with text :=
              b.text ++ (kept (span src charset (upTo .BREAK) fuel c st).codes).map toByte })
      else .error .outside := by
  induction fuel generalizing c st b with
  | zero => omega
  | succ fuel ih =>
    have hsize : upTo .BREAK (getCode src charset st).1 →
        src.size (getCode src charset st).2 < fuel := by
      intro h
      have := size_getCode src charset st (nonneg_of_upTo (upTo_mono h))
      omega
    rw [span_succ hc, digits, StrBuff.putDigit_eq c hlen]
    generalize getCode src charset st = r at *
    simp only
    rw [kept_cons c (span src charset (upTo .BREAK) fuel r.1 r.2).codes]
    by_cases hroom : b.text.length + (kept [c]).length ≤ b.len
    · rw [if_pos hroom]
      simp only [bind, Except.bind]
      by_cases hr : Known r.1
      · rw [inType_known hr]
        simp only
        by_cases hdigit : upTo .BREAK r.1
        · rw [if_pos ((upTo_known hr).mp hdigit), ih hdigit (hsize hdigit) (by simpa using hroom)]
          simp [Nat.add_assoc]
        · rw [if_neg (fun h => hdigit ((upTo_known hr).mpr h)), span_of_neg hdigit]
          simp [hr, hroom, pure, Except.pure]
      · have hdigit : ¬ upTo .BREAK r.1 := by
          intro h
          simp only [upTo, decide_eq_true_eq] at h
          exact hr h.1
        rw [inType_unknown hr, span_of_neg hdigit, if_neg (fun h => hr h.1)]
    · rw [if_neg hroom, if_neg]
      · rfl
      · rintro ⟨-, h⟩
        simp only [length_append] at h
        omega

theorem StrBuff.length_put (b : StrBuff) (c : Int) :
    ({ b with text := b.text ++ [toByte c] } : StrBuff).text.length = b.text.length + 1 := by
  simp

/-- A turn of the loops over names and symbol atoms, where the buffer grows when it is full. -/
theorem StrBuff.put_grown {b : StrBuff} {first : Nat} (hroom : Doubled first b.text.length b.len)
    (c : Int) :
    ∃ b' : StrBuff, (if b.text.length = b.len then b.realloc else b).put c = .ok b' ∧
      b'.text = b.text ++ [toByte c] ∧ Doubled first b'.text.length b'.len ∧
      b'.len = if b.text.length = b.len then b.len + b.len else b.len := by
  have hle := hroom.need_le
  have hfour := b.four_le
  by_cases hfull : b.text.length = b.len
  · rw [if_pos hfull, if_pos hfull]
    refine ⟨_, put_eq (by simp only [realloc]; omega) c, rfl, ?_, by simp only [realloc]; omega⟩
    rw [length_put]
    exact hroom.double (by show b.len < b.text.length + 1; omega)
      (by show b.text.length + 1 ≤ b.len * 2; omega)
  · rw [if_neg hfull, if_neg hfull]
    refine ⟨_, put_eq (by omega) c, rfl, ?_, rfl⟩
    rw [length_put]
    exact hroom.mono (by omega) (by show b.text.length + 1 ≤ b.len; omega)

/-- The loop over the characters of a name. -/
theorem nameChars_spec {fuel : Nat} {c : Int} {st : σ} {n : Int} {b : StrBuff} {first : Nat}
    (hc : upTo .LOWER c) (hfuel : src.size st < fuel)
    (hroom : Doubled first b.text.length b.len) (hn : n = b.len - b.text.length) :
    if Known (span src charset (upTo .LOWER) fuel c st).stop then
      ∃ b' : StrBuff, nameChars src charset fuel c st n b =
          .ok ((span src charset (upTo .LOWER) fuel c st).stop,
            (span src charset (upTo .LOWER) fuel c st).rest, b') ∧
        b'.text = b.text ++ (span src charset (upTo .LOWER) fuel c st).codes.map toByte ∧
        Doubled first b'.text.length b'.len
    else nameChars src charset fuel c st n b = .error .outside := by
  induction fuel generalizing c st n b with
  | zero => omega
  | succ fuel ih =>
    have hsize : upTo .LOWER (getCode src charset st).1 →
        src.size (getCode src charset st).2 < fuel := by
      intro h
      have := size_getCode src charset st (nonneg_of_upTo h)
      omega
    obtain ⟨b', hput, htext, hroom', hlen⟩ := StrBuff.put_grown hroom c
    have hgrow : (if n - 1 < 0 then (b.realloc, n - 1 + b.len) else (b, n - 1)) =
        (if b.text.length = b.len then b.realloc else b, (b'.len : Int) - b'.text.length) := by
      have hle := hroom.need_le
      rw [htext, hlen]
      by_cases hfull : b.text.length = b.len
      · rw [if_pos (by omega), if_pos hfull, if_pos hfull]
        simp
        omega
      · rw [if_neg (by omega), if_neg hfull, if_neg hfull]
        simp
        omega
    rw [span_succ hc, nameChars, hgrow]
    simp only [hput, bind, Except.bind]
    generalize getCode src charset st = r at *
    by_cases hr : Known r.1
    · rw [inType_known hr]
      simp only
      by_cases hmore : upTo .LOWER r.1
      · have hrest := ih (b := b') hmore (hsize hmore) hroom' rfl
        rw [if_pos ((upTo_known hr).mp hmore)]
        split
        · next hstop =>
          rw [if_pos hstop] at hrest
          obtain ⟨b'', heq, htext', hroom''⟩ := hrest
          exact ⟨b'', heq, by rw [htext', htext]; simp, hroom''⟩
        · next hstop =>
          rw [if_neg hstop] at hrest
          exact hrest
      · rw [if_neg (fun h => hmore ((upTo_known hr).mpr h)), span_of_neg hmore, if_pos hr]
        exact ⟨b', rfl, by simpa using htext, hroom'⟩
    · have hmore : ¬ upTo .LOWER r.1 := by
        intro h
        simp only [upTo, decide_eq_true_eq] at h
        exact hr h.1
      rw [inType_unknown hr, span_of_neg hmore, if_neg hr]

/-- The loop over the further characters of a symbol atom. -/
theorem signChars_spec {fuel : Nat} {d : Int} {st : σ} {n : Int} {b : StrBuff} {first : Nat}
    (hfuel : 0 < fuel) (hsize : isSign d → src.size st + 1 < fuel)
    (hroom : Doubled first b.text.length b.len) (hn : n = b.len - b.text.length + 1) :
    if Known (span src charset isSign fuel d st).stop then
      ∃ b' : StrBuff, signChars src charset fuel d st n b =
          .ok ((span src charset isSign fuel d st).stop,
            (span src charset isSign fuel d st).rest, b') ∧
        b'.text = b.text ++ (span src charset isSign fuel d st).codes.map toByte ∧
        Doubled first b'.text.length b'.len
    else signChars src charset fuel d st n b = .error .outside := by
  induction fuel generalizing d st n b with
  | zero => omega
  | succ fuel ih =>
    rw [signChars]
    by_cases hd : Known d
    · rw [inType_known hd]
      simp only [bind, Except.bind]
      by_cases hsign : isSign d
      · obtain ⟨b', hput, htext, hroom', hlen⟩ := StrBuff.put_grown hroom d
        have hgrow : (if n - 1 = 0 then (b.realloc, n - 1 + b.len) else (b, n - 1)) =
            (if b.text.length = b.len then b.realloc else b,
              (b'.len : Int) - b'.text.length + 1) := by
          have hle := hroom.need_le
          rw [htext, hlen]
          by_cases hfull : b.text.length = b.len
          · rw [if_pos (by omega), if_pos hfull, if_pos hfull]
            simp
            omega
          · rw [if_neg (by omega), if_neg hfull, if_neg hfull]
            simp
            omega
        have hclass : classOf d = .SIGN := by
          simp only [isSign, decide_eq_true_eq] at hsign
          exact hsign.2
        have hlong := hsize hsign
        have hshorter : isSign (getCode src charset st).1 →
            src.size (getCode src charset st).2 + 1 < fuel := by
          intro h
          have := size_getCode src charset st (nonneg_of_isSign h)
          omega
        have hrest := ih (b := b') (by omega) hshorter hroom' rfl
        rw [if_pos hclass, span_succ hsign, hgrow]
        simp only [hput]
        split
        · next hstop =>
          rw [if_pos hstop] at hrest
          obtain ⟨b'', heq, htext', hroom''⟩ := hrest
          exact ⟨b'', heq, by rw [htext', htext]; simp, hroom''⟩
        · next hstop =>
          rw [if_neg hstop] at hrest
          exact hrest
      · have hclass : ¬ classOf d = .SIGN := by
          intro h
          exact hsign (by simp [isSign, hd, h])
        rw [if_neg hclass, span_of_neg hsign, if_pos hd]
        exact ⟨b, rfl, by simp, hroom⟩
    · have hsign : ¬ isSign d := by
        intro h
        simp only [isSign, decide_eq_true_eq] at h
        exact hd h.1
      rw [inType_unknown hd, span_of_neg hsign, if_neg hd]
      rfl

end Loops

section Escapes

variable (src : CharSource σ) (charset : Charset) {fuel : Nat} {c : Int} (st : σ)

/-- The loop of a `\x` escape. -/
theorem inside_hexDigits (n : Int) (hfuel : 0 < fuel)
    (hsize : digitBelow 16 c → src.size st + 1 < fuel) :
    Inside (hexDigits src charset fuel n c st) ↔
      Known (span src charset (digitBelow 16) fuel c st).stop := by
  induction fuel generalizing c st n with
  | zero => omega
  | succ fuel ih =>
    rw [hexDigits]
    by_cases hc : Known c
    · rw [digVal_known hc]
      simp only [bind, Except.bind]
      by_cases hdigit : digitBelow 16 c
      · have hlong := hsize hdigit
        rw [if_pos (by have := (digitBelow_known hc).mp hdigit; omega), span_succ hdigit]
        apply ih _ _ (by omega)
        intro h
        have := size_getCode src charset st (nonneg_of_digitBelow (by decide) h)
        omega
      · rw [if_neg (fun h => hdigit ((digitBelow_known hc).mpr (by omega))), span_of_neg hdigit]
        simpa using hc
    · have hdigit : ¬ digitBelow 16 c := by
        intro h
        simp only [digitBelow, decide_eq_true_eq] at h
        exact hc h.1
      rw [digVal_unknown hc, span_of_neg hdigit]
      simp [bind, Except.bind, hc]

/-- The loop of an octal escape. -/
theorem inside_octalDigits (n : Int) (hc : digitBelow 8 c) (hsize : src.size st < fuel) :
    Inside (octalDigits src charset fuel n c st) ↔
      Known (span src charset (digitBelow 8) (fuel + 1) c st).stop := by
  induction fuel generalizing c st n with
  | zero => omega
  | succ fuel ih =>
    have hknown : Known c := by
      simp only [digitBelow, decide_eq_true_eq] at hc
      exact hc.1
    have hshorter : digitBelow 8 (getCode src charset st).1 →
        src.size (getCode src charset st).2 < fuel := by
      intro h
      have := size_getCode src charset st (nonneg_of_digitBelow (by decide) h)
      omega
    rw [octalDigits, digVal_known hknown, span_succ hc]
    simp only [bind, Except.bind]
    generalize getCode src charset st = r at *
    by_cases hr : Known r.1
    · rw [digVal_known hr]
      simp only
      by_cases hdigit : digitBelow 8 r.1
      · rw [if_pos (by have := (digitBelow_known hr).mp hdigit; omega)]
        exact ih _ _ hdigit (hshorter hdigit)
      · rw [if_neg (fun h => hdigit ((digitBelow_known hr).mpr (by omega))), span_of_neg hdigit]
        simpa using hr
    · have hdigit : ¬ digitBelow 8 r.1 := by
        intro h
        simp only [digitBelow, decide_eq_true_eq] at h
        exact hr h.1
      rw [digVal_unknown hr, span_of_neg hdigit]
      simpa using hr

theorem unicodeDigit_known (h : Known c) : unicodeDigit c ↔ digitOf c ≤ 15 ∧ c ≠ code '_' := by
  simp only [unicodeDigit, decide_eq_true_eq, digitBelow_known h]
  constructor <;> rintro ⟨hdigit, hund⟩ <;> exact ⟨by omega, hund⟩

theorem known_of_unicodeDigit (h : unicodeDigit c) : Known c := by
  simp only [unicodeDigit, digitBelow, decide_eq_true_eq] at h
  exact h.1.1

/-- Some digits of a unicode escape. The code behind the last of them is not read. -/
theorem unicodeDigits_spec (k : Nat) (n : Int) :
    let d := getCode src charset st
    let s := span src charset unicodeDigit k d.1 d.2
    if s.codes.length = k then
      ∃ n' st', unicodeDigits src charset k n st = .ok (n', true, st') ∧
        getCode src charset st' = (s.stop, s.rest)
    else if Known s.stop then
      ∃ n' st', unicodeDigits src charset k n st = .ok (n', false, st')
    else unicodeDigits src charset k n st = .error .outside := by
  induction k generalizing n st with
  | zero =>
    simp only [span, length_nil, if_true]
    exact ⟨n, st, rfl, rfl⟩
  | succ k ih =>
    simp only [unicodeDigits]
    by_cases hc : Known (getCode src charset st).1
    · rw [digVal_known hc]
      simp only [bind, Except.bind]
      by_cases hdigit : unicodeDigit (getCode src charset st).1
      · rw [if_pos ((unicodeDigit_known hc).mp hdigit), span_succ hdigit]
        simp only [length_cons, Nat.add_right_cancel_iff]
        exact ih _ _
      · rw [if_neg (fun h => hdigit ((unicodeDigit_known hc).mpr h)), span_of_neg hdigit]
        simp only [length_nil, hc, if_true]
        rw [if_neg (by omega)]
        split
        · exact ⟨n, _, rfl⟩
        · exact ⟨n, _, rfl⟩
    · have hdigit : ¬ unicodeDigit (getCode src charset st).1 := fun h =>
        hc (known_of_unicodeDigit h)
      rw [digVal_unknown hc, span_of_neg hdigit]
      simp only [length_nil, hc, if_false]
      rw [if_neg (by omega)]
      rfl

/-- A run of codes in two parts. -/
theorem span_add (p : Int → Bool) (k m : Nat) (c : Int) :
    span src charset p (k + m) c st =
      let first := span src charset p k c st
      if first.codes.length = k then
        let second := span src charset p m first.stop first.rest
        ⟨first.codes ++ second.codes, second.stop, second.rest⟩
      else first := by
  induction k generalizing c st with
  | zero => simp [span]
  | succ k ih =>
    rw [Nat.add_right_comm]
    by_cases hp : p c
    · rw [span_succ hp, span_succ hp, ih]
      simp only [length_cons, Nat.add_right_cancel_iff]
      split <;> rfl
    · rw [span_of_neg hp, span_of_neg hp]
      simp

theorem length_span_le (p : Int → Bool) (k : Nat) (c : Int) :
    (span src charset p k c st).codes.length ≤ k := by
  induction k generalizing c st with
  | zero => simp [span]
  | succ k ih =>
    by_cases hp : p c
    · rw [span_succ hp]
      simpa using ih _ _
    · rw [span_of_neg hp]
      simp

/-- A `\u` escape. -/
theorem inside_unicodeEscape :
    Inside (unicodeEscape src charset st) ↔
      let d := getCode src charset st
      let s := span src charset unicodeDigit 8 d.1 d.2
      s.codes.length = 8 ∨ Known s.stop := by
  have hfirst := unicodeDigits_spec src charset st 4 0
  simp only at hfirst ⊢
  rw [show 8 = 4 + 4 from rfl, span_add]
  generalize getCode src charset st = d at *
  have hle := length_span_le src charset d.2 unicodeDigit 4 d.1
  generalize span src charset unicodeDigit 4 d.1 d.2 = first at *
  rw [unicodeEscape]
  by_cases hfour : first.codes.length = 4
  · rw [if_pos hfour] at hfirst
    obtain ⟨n', st', heq, hget⟩ := hfirst
    rw [heq]
    simp only [bind, Except.bind, if_true, hget, hfour]
    by_cases hc : Known first.stop
    · rw [digVal_known hc]
      simp only
      by_cases hdigit : unicodeDigit first.stop
      · have hsecond := unicodeDigits_spec src charset first.rest 3
          (wrap32 (n' * 16 + digitOf first.stop))
        rw [if_pos ((unicodeDigit_known hc).mp hdigit), span_succ hdigit]
        simp only [length_append, length_cons, hfour] at hsecond ⊢
        generalize span src charset unicodeDigit 3 (getCode src charset first.rest).1
          (getCode src charset first.rest).2 = second at *
        split at hsecond
        · next hthree =>
          obtain ⟨n'', st'', heq', -⟩ := hsecond
          rw [heq']
          simp [hthree]
        · next hthree =>
          split at hsecond
          · next hknown =>
            obtain ⟨n'', st'', heq'⟩ := hsecond
            rw [heq']
            simp [hknown]
          · next hknown =>
            rw [hsecond]
            simp [hknown]
            omega
      · rw [if_neg (fun h => hdigit ((unicodeDigit_known hc).mpr h)), span_of_neg hdigit]
        simp only [hc, or_true, iff_true]
        split <;> exact nofun
    · have hdigit : ¬ unicodeDigit first.stop := fun h => hc (known_of_unicodeDigit h)
      rw [digVal_unknown hc, span_of_neg hdigit]
      simp [hc, hfour]
  · rw [if_neg hfour] at hfirst ⊢
    split at hfirst
    · next hknown =>
      obtain ⟨n', st', heq⟩ := hfirst
      rw [heq]
      simp [bind, Except.bind, hknown]
    · next hknown =>
      rw [hfirst]
      simp only [bind, Except.bind, hknown, or_false]
      constructor
      · exact fun h => absurd rfl h
      · omega

theorem digitBelow_octal (h : 48 ≤ c ∧ c ≤ 55) : digitBelow 8 c := by
  have hall : ∀ k < 8, digitBelow 8 (48 + k : Nat) := by decide
  have hk := hall (c - 48).toNat (by omega)
  rwa [show ((48 + (c - 48).toNat : Nat) : Int) = c by omega] at hk

theorem inside_readError (q : Int) : Inside (.error (readError q) : Except Stop α) := nofun

/-- An escape, from its second character on. -/
theorem inside_readEscape (q lastc c : Int) (st : σ) :
    Inside (readEscape src charset q lastc c st) ↔ EscapeKnown src charset (c, st) := by
  rw [readEscape, EscapeKnown]
  simp only [code]
  by_cases hx : c = 120
  · subst hx
    have hhex := @inside_hexDigits _ src charset (src.size (getCode src charset st).2 + 2)
      (getCode src charset st).1 (getCode src charset st).2 0 (by omega) (fun _ => by omega)
    simp [inside_bind, hhex]
    intro _ n c st' _
    split
    · exact inside_readError q
    · exact inside_pure _
  · by_cases hu : c = 117 ∨ c = 85
    · have hunicode := inside_unicodeEscape src charset st
      rcases hu with rfl | rfl
      · simpa [inside_map] using hunicode
      · simpa [inside_map] using hunicode
    · by_cases hoctal : 48 ≤ c ∧ c ≤ 55
      · have hdigits := @inside_octalDigits _ src charset (src.size st + 1) c st 0
          (digitBelow_octal hoctal) (by omega)
        have hcases : c = 48 ∨ c = 49 ∨ c = 50 ∨ c = 51 ∨ c = 52 ∨ c = 53 ∨ c = 54 ∨ c = 55 := by
          omega
        rcases hcases with rfl | rfl | rfl | rfl | rfl | rfl | rfl | rfl <;>
          simpa [inside_map] using hdigits
      · simp [hx, hu, hoctal]
        repeat' split
        all_goals first | exact inside_ok _ | exact inside_readError q

/-- `read_character`, from `BACK` on. -/
theorem inside_readBack (q lastc : Int) (hc : -1 ≤ c) (fuel : Nat) :
    Inside (readBack src charset q lastc fuel c st) ↔ BackKnown src charset q fuel c st := by
  induction fuel generalizing c st with
  | zero => simp [readBack, BackKnown]
  | succ fuel ih =>
    have hrange := getCode_range src charset
    rw [readBack, BackKnown]
    by_cases heof : c = -1
    · simp [heof, inside_readError]
    · have hcode : (if c < 0 then c % 256 else c) = c := if_neg (by omega)
      simp only [heof, if_false, hcode, false_or]
      by_cases hq : c = q
      · simp only [hq, if_true, true_or, iff_true]
        split <;> exact inside_ok _
      · by_cases hescape : c = code '\\'
        · subst hescape
          simp only [hq, ne_eq, not_true_eq_false, if_false, or_self]
          split
          · exact ih _ (hrange _)
          · split
            · split
              · exact ih _ (hrange _)
              · exact ih _ (hrange _)
            · exact inside_readEscape src charset q lastc _ _
        · simp [hq, hescape]

theorem inside_readCharacter (q lastc : Int) :
    Inside (readCharacter src charset q lastc st) ↔ CharacterKnown src charset q st :=
  inside_readBack src charset _ q lastc (getCode_range src charset st) _

end Escapes

end XSBEngine.Reading
