import XSBEngine.Reading.QuotedNames

/-!
# Names are read back

What `write_quotedname` writes is read by `GetToken` as one atom, the name that was written,
`XSB/emu/io_builtins_xsb.c:1679–1804` and `XSB/emu/token_xsb.c:780–941, 1278–1414`.
-/

namespace XSBEngine.Reading

open Library List

variable {σ F : Type} {src : CharSource σ} {st st' : σ} {layout : Int}

section Layout

variable {c : Int}

theorem IsLayout.range (h : IsLayout c) : 0 ≤ c ∧ c < 0x200000 := by
  obtain ⟨hknown, hclass⟩ := h
  have hle := hknown.2
  refine ⟨?_, by omega⟩
  rcases Int.lt_or_le c 0 with hneg | hneg
  · have heq : c = -1 := by
      have := hknown.1
      omega
    rw [heq] at hclass
    exact absurd hclass (by decide)
  · exact hneg

/-- Layout characters are neither letters nor symbols. -/
theorem IsLayout.not_upTo (h : IsLayout c) : ¬ upTo .LOWER c := by
  rw [upTo_known h.1]
  rcases h.2 with hclass | hclass <;> rw [hclass] <;> decide

theorem IsLayout.not_isSign (h : IsLayout c) : ¬ isSign c := by
  simp only [isSign, decide_eq_true_eq, not_and]
  rcases h.2 with hclass | hclass <;> rw [hclass] <;> rintro - ⟨⟩

theorem IsLayout.ne {d : Int} (h : IsLayout c) (hd : classOf d ≠ .SPACE ∧ classOf d ≠ .EOLN) :
    c ≠ d := by
  rintro rfl
  rcases h.2 with hclass | hclass
  · exact hd.1 hclass
  · exact hd.2 hclass

end Layout

/-- Bytes of ASCII characters that satisfy `p`, in front of a layout character. -/
theorem span_feeds {p : Int → Bool} {bytes : List UInt8}
    (h : Feeds src st (bytes ++ utf8CodepointToStr layout) st') (hlayout : IsLayout layout)
    (hp : ∀ b ∈ bytes, b.toNat < 128 ∧ p b.toNat) (hstop : ¬ p layout) {k : Nat}
    (hk : bytes.length ≤ k) :
    span src .utf8 p k (getCode src .utf8 st).1 (getCode src .utf8 st).2 =
      ⟨bytes.map fun b => (b.toNat : Int), layout, st'⟩ := by
  induction bytes generalizing st k with
  | nil =>
    rw [getCode_utf8CodepointToStr h hlayout.range.1 hlayout.range.2, span_of_neg hstop]
    rfl
  | cons b bytes ih =>
    obtain ⟨hlt, hb⟩ := hp b (mem_cons_self ..)
    obtain ⟨mid, h1, h2⟩ := Feeds.split (a := [b]) h
    rw [← toByte_toNat b] at h1
    rw [getCode_ascii h1 (Int.natCast_nonneg _) (by omega)]
    cases k with
    | zero => simp at hk
    | succ k =>
      rw [span_succ hb, ih h2 (fun x hx => hp x (mem_cons_of_mem _ hx)) (by simpa using hk)]
      rfl

theorem map_toByte (bytes : List UInt8) :
    (bytes.map fun b => (b.toNat : Int)).map toByte = bytes := by
  rw [map_map]
  conv_rhs => rw [← map_id bytes]
  apply map_congr_left
  intro b _
  exact toByte_toNat b

theorem string_eq {b : StrBuff} (h : ∀ x ∈ b.text, x ≠ 0) : b.string = b.text := by
  rw [StrBuff.string, takeWhile_eq_self_iff]
  simpa using h

section Names

variable {b : StrBuff} {lastc : Int} {first : UInt8} {rest : List UInt8}

/-- A name without quotes, of letters, digits and underscores. -/
theorem name_feeds (type funcType : TokenType)
    (h : Feeds src st (rest ++ utf8CodepointToStr layout) st') (hlayout : IsLayout layout)
    (hfirst : upTo .LOWER first.toNat) (hrest : ∀ x ∈ rest, x.toNat < 128 ∧ upTo .LOWER x.toNat)
    (htext : b.text = []) :
    ∃ b' : StrBuff, b'.text = first :: rest ∧
      (b'.text.length < b'.len ↔ ¬ Fills b.len (first :: rest).length) ∧
      (name src .utf8 type funcType first.toNat st b lastc : Except Stop (Lexed σ F)) =
        b'.terminate >>= fun _ => .ok (named type funcType layout st' b' lastc) := by
  have hspec := @nameChars_spec σ src .utf8 (src.size st + 1) first.toNat st b.len b b.len hfirst
    (Nat.lt_succ_self _) (by rw [htext]; exact .start (Nat.zero_le _)) (by simp [htext])
  have hsize := h.size_le
  simp only [length_append] at hsize
  rw [span_succ hfirst, span_feeds h hlayout hrest hlayout.not_upTo (by omega),
    if_pos hlayout.1] at hspec
  obtain ⟨b', heq, htext', hroom⟩ := hspec
  rw [htext, map_cons, map_toByte, toByte_toNat, nil_append] at htext'
  refine ⟨b', htext', ?_, ?_⟩
  · rw [← htext']
    exact not_fills_iff hroom
  · rw [name, heq]
    rfl

/-- A symbol atom. -/
theorem signs_feeds (h : Feeds src st (rest ++ utf8CodepointToStr layout) st')
    (hlayout : IsLayout layout) (hrest : ∀ x ∈ rest, x.toNat < 128 ∧ isSign x.toNat)
    (hpoint : first = 46 → rest ≠ []) (hzero : ∀ x ∈ rest, x ≠ 0) (htext : b.text = []) :
    ∃ b' : StrBuff, b'.text = first :: rest ∧
      (b'.text.length < b'.len ↔ ¬ Fills b.len (first :: rest).length) ∧
      (signs src .utf8 first.toNat (getCode src .utf8 st).1 (getCode src .utf8 st).2 b lastc :
        Except Stop (Lexed σ F)) =
        b'.terminate >>= fun _ => .ok (symbol layout st' b' lastc) := by
  have hfour := b.four_le
  have hlen : rest.length ≤ src.size (getCode src .utf8 st).2 + 2 := by
    cases rest with
    | nil => simp
    | cons x rest =>
      obtain ⟨mid, h1, h2⟩ := Feeds.split (a := [x]) h
      have hsize : src.size st' + (rest ++ utf8CodepointToStr layout).length ≤ src.size mid :=
        h2.size_le
      obtain ⟨hlt, -⟩ := hrest x (mem_cons_self ..)
      rw [← toByte_toNat x] at h1
      rw [getCode_ascii h1 (Int.natCast_nonneg _) (by omega)]
      simp only [length_append, length_cons] at hsize ⊢
      omega
  have hspec := @signChars_spec σ src .utf8 (src.size (getCode src .utf8 st).2 + 2)
    (getCode src .utf8 st).1 (getCode src .utf8 st).2 b.len { b with text := [first] } b.len
    (by omega) (fun _ => by omega) (.start (by show 1 ≤ b.len; omega)) (by simp)
  rw [span_feeds h hlayout hrest hlayout.not_isSign hlen, if_pos hlayout.1] at hspec
  obtain ⟨b', heq, htext', hroom⟩ := hspec
  rw [map_toByte] at htext'
  refine ⟨b', htext', ?_, ?_⟩
  · rw [not_fills_iff hroom, htext']
    rfl
  · rw [signs, StrBuff.put_eq (by rw [htext]; exact Nat.lt_of_lt_of_le (by decide) hfour)]
    simp only [htext, nil_append, toByte_toNat, bind, Except.bind]
    rw [heq]
    simp only
    cases hend : b'.terminate with
    | error e => rfl
    | ok _ =>
      simp only
      rw [inType_known hlayout.1]
      simp only
      rw [if_neg]
      · rfl
      · rintro ⟨-, hfirst, hsecond⟩
        have hdot : first = 46 := by
          rw [← toByte_toNat first, hfirst]
          rfl
        cases rest with
        | nil => exact hpoint hdot rfl
        | cons x rest =>
          rw [htext'] at hsecond
          exact hzero x (mem_cons_self ..) hsecond

end Names

/-- Names that are written without quotes. -/
inductive Plain : List UInt8 → Prop where
  | brackets : Plain [91, 93]
  | cut : Plain [33]
  | letters {first : UInt8} {rest : List UInt8} : first.toNat < 128 →
      classOf first.toNat = .LOWER → (∀ x ∈ rest, x.toNat < 128 ∧ upTo .LOWER x.toNat) →
      Plain (first :: rest)
  | signs {first : UInt8} {rest : List UInt8} : first.toNat < 128 → classOf first.toNat = .SIGN →
      (∀ x ∈ rest, x.toNat < 128 ∧ isSign x.toNat) → (first = 46 → rest ≠ []) →
      (first = 47 → rest.head? ≠ some 42) → Plain (first :: rest)

theorem upTo_of_alphanumeric {x : UInt8} (h : notAlphanumeric x = false) :
    x.toNat < 128 ∧ upTo .LOWER x.toNat := by
  have hall : ∀ k < 256, notAlphanumeric (UInt8.ofNat k) = false →
      k < 128 ∧ upTo .LOWER (k : Int) := by decide +kernel
  exact hall x.toNat x.toNat_lt (by rwa [UInt8.ofNat_toNat])

theorem isSign_of_symbolic {x : UInt8} (h : notSymbolic x = false) :
    x.toNat < 128 ∧ classOf x.toNat = .SIGN ∧ isSign x.toNat := by
  have hall : ∀ k < 256, notSymbolic (UInt8.ofNat k) = false →
      k < 128 ∧ classOf (k : Int) = .SIGN ∧ isSign (k : Int) := by decide +kernel
  exact hall x.toNat x.toNat_lt (by rwa [UInt8.ofNat_toNat])

theorem classOf_letter {x : UInt8} (h : 97 ≤ toChar x.toNat ∧ toChar x.toNat ≤ 122) :
    x.toNat < 128 ∧ classOf x.toNat = .LOWER := by
  have hall : ∀ k < 256, 97 ≤ toChar ((UInt8.ofNat k).toNat) ∧
    toChar ((UInt8.ofNat k).toNat) ≤ 122 →
      k < 128 ∧ classOf (k : Int) = .LOWER := by decide +kernel
  exact hall x.toNat x.toNat_lt (by rwa [UInt8.ofNat_toNat])

theorem eq_of_toChar {x : UInt8} {k : Nat} (hk : k < 128) (h : toChar x.toNat = k) :
    x = UInt8.ofNat k := by
  have hlt := x.toNat_lt
  have heq : x.toNat = k := by
    simp only [toChar] at h
    omega
  rw [← heq, UInt8.ofNat_toNat]

/-- What `quotes_are_needed` lets pass. -/
theorem plain_of_quotesAreNeeded {string : List UInt8} (h : quotesAreNeeded string = false) :
    Plain string := by
  cases string with
  | nil => cases h
  | cons first rest =>
    simp only [quotesAreNeeded] at h
    split at h
    · next hbrackets =>
      rw [hbrackets]
      exact .brackets
    · split at h
      · cases h
      · next hcomment =>
        have hcomment' : first = 47 → rest.head? ≠ some 42 := fun hf hr => hcomment ⟨hf, hr⟩
        split at h
        · next hletters =>
          obtain ⟨hletter, hall⟩ := hletters
          simp only [hletter, true_and, and_self, decide_eq_true_eq] at hall
          obtain ⟨hlt, hclass⟩ := classOf_letter hletter
          refine .letters hlt hclass fun x hx => upTo_of_alphanumeric ?_
          rw [Bool.eq_false_iff]
          exact fun hx' => hall (any_eq_true.mpr ⟨x, mem_cons_of_mem _ hx, hx'⟩)
        · split at h
          · next hcut =>
            obtain ⟨rfl, hcut⟩ := hcut
            rw [eq_of_toChar (k := 33) (by decide) hcut]
            exact .cut
          · split at h
            · cases h
            · next hpoint =>
              rw [Bool.or_eq_false_iff] at h
              have hsymbolic : ∀ x ∈ first :: rest, notSymbolic x = false := by
                simpa using h.2
              obtain ⟨hlt, hclass, -⟩ := isSign_of_symbolic (hsymbolic first (mem_cons_self ..))
              refine .signs hlt hclass ?_ ?_ hcomment'
              · intro x hx
                obtain ⟨hlt, -, hsign⟩ :=
                  isSign_of_symbolic (hsymbolic x (mem_cons_of_mem _ hx))
                exact ⟨hlt, hsign⟩
              · rintro rfl hrest
                exact hpoint ⟨hrest, by decide⟩

/-- The call gives an atom, and everything up to the layout character behind it has been read. -/
def GivesAtom (x : Except Stop (Lexed σ F)) (bytes : List UInt8) (layout : Int) (st' : σ) : Prop :=
  ∃ b' lastc', x = .ok ⟨⟨.ATOM, .text bytes, layout⟩, st', b', lastc'⟩

section Atoms

variable {b b' : StrBuff} {lastc : Int} {bytes : List UInt8}

/-- The buffer holds the name with the byte that ends it. -/
theorem givesAtom_terminate (hlayout : IsLayout layout) (htext : b'.text = bytes)
    (hzero : ∀ x ∈ bytes, x ≠ 0) :
    GivesAtom (b'.terminate >>= fun _ => .ok (symbol layout st' b' lastc) :
      Except Stop (Lexed σ F)) bytes layout st' ↔ b'.text.length < b'.len := by
  have hparen : layout ≠ code '(' := hlayout.ne ⟨by decide, by decide⟩
  have hstring : b'.string = bytes := by
    rw [string_eq (by rw [htext]; exact hzero), htext]
  rw [GivesAtom, StrBuff.terminate]
  split
  · next hlt =>
    refine iff_of_true ⟨b', lastc, ?_⟩ hlt
    simp [symbol, named, hparen, hstring, bind, Except.bind]
  · next hlt =>
    refine iff_of_false ?_ hlt
    rintro ⟨_, _, ⟨⟩⟩

theorem not_fills_of_lt {len n : Nat} (hlt : n < len) : ¬ Fills len n := by
  rintro ⟨k, heq⟩
  have := Nat.le_mul_of_pos_right len (Nat.two_pow_pos k)
  omega

theorem classOf_known {x : UInt8} : Known (x.toNat : Int) := by
  have := x.toNat_lt
  exact ⟨by omega, by omega⟩

end Atoms

section Plain

variable (fl : Doubles F) {b : StrBuff} {lastc : Int} {first : UInt8} {rest bytes : List UInt8}

theorem start_brackets (hlayout : IsLayout layout)
    (h : Feeds src st ([91, 93] ++ utf8CodepointToStr layout) st') (htext : b.text = [])
    (fuel : Nat) :
    let r := getCode src .utf8 st
    GivesAtom (start src .utf8 fl b lastc (fuel + 1) r.1 r.2) [91, 93] layout st' := by
  have hfour := b.four_le
  obtain ⟨mid, h1, h⟩ := Feeds.split (a := [91]) (b := 93 :: utf8CodepointToStr layout) h
  obtain ⟨mid', h2, h3⟩ := Feeds.split (a := [93]) (b := utf8CodepointToStr layout) h
  have hget := getCode_ascii (c := 91) h1 (by decide) (by decide)
  have hget' := getCode_ascii (c := 93) h2 (by decide) (by decide)
  have hlast := getCode_utf8CodepointToStr h3 hlayout.range.1 hlayout.range.2
  have hclass : inType 91 = .ok .PUNCT := rfl
  have hgives := (@givesAtom_terminate σ F st' layout { b with text := [91, 93] } lastc [91, 93]
    hlayout rfl (by simp)).mpr (show 2 < b.len by omega)
  have hatom : (punctuation src .utf8 91 93 mid' b lastc : Except Stop (Lexed σ F)) =
      (⟨[91, 93], b.len, b.four_le⟩ : StrBuff).terminate >>= fun _ => .ok (symbol layout st'
        ⟨[91, 93], b.len, b.four_le⟩ lastc) := by
    rw [punctuation, if_pos (by decide), StrBuff.put_eq (by rw [htext]; show 0 < b.len; omega)]
    simp only [htext, nil_append, bind, Except.bind]
    rw [StrBuff.put_eq (by show 1 < b.len; omega)]
    simp only [hlast]
    rfl
  rw [← hatom] at hgives
  simp only [start, hget, hclass, punctCase, hget']
  rw [if_neg (by decide)]
  obtain ⟨b', lastc', heq⟩ := hgives
  refine ⟨b', lastc', ?_⟩
  rw [heq]
  rfl

theorem start_cut (hlayout : IsLayout layout)
    (h : Feeds src st ([33] ++ utf8CodepointToStr layout) st') (htext : b.text = [])
    (fuel : Nat) :
    let r := getCode src .utf8 st
    GivesAtom (start src .utf8 fl b lastc (fuel + 1) r.1 r.2) [33] layout st' := by
  have hfour := b.four_le
  obtain ⟨mid, h1, h2⟩ := h.split
  have hget := getCode_ascii (c := 33) h1 (by decide) (by decide)
  have hlast := getCode_utf8CodepointToStr h2 hlayout.range.1 hlayout.range.2
  have hclass : inType 33 = .ok .NOBLE := rfl
  have hgives := (@givesAtom_terminate σ F st' layout { b with text := [33] } lastc [33]
    hlayout rfl (by simp)).mpr (show 1 < b.len by omega)
  simp only [start, hget, hclass, nobleCase, hlast, bind, Except.bind]
  rw [StrBuff.put_eq (by rw [htext]; show 0 < b.len; omega), htext]
  exact hgives

theorem start_letters (hlt : first.toNat < 128) (hclass : classOf first.toNat = .LOWER)
    (hrest : ∀ x ∈ rest, x.toNat < 128 ∧ upTo .LOWER x.toNat)
    (hzero : ∀ x ∈ first :: rest, x ≠ 0) (hlayout : IsLayout layout)
    (h : Feeds src st (first :: rest ++ utf8CodepointToStr layout) st') (htext : b.text = [])
    (fuel : Nat) :
    let r := getCode src .utf8 st
    GivesAtom (start src .utf8 fl b lastc (fuel + 1) r.1 r.2) (first :: rest) layout st' ↔
      ¬ Fills b.len (first :: rest).length := by
  obtain ⟨mid, h1, h2⟩ := Feeds.split (a := [first]) (b := rest ++ utf8CodepointToStr layout) h
  rw [← toByte_toNat first] at h1
  have hget := getCode_ascii h1 (Int.natCast_nonneg _) (by omega)
  have hfirst : upTo .LOWER first.toNat := by
    rw [upTo_known classOf_known, hclass]
  obtain ⟨b', htext', hfills, hname⟩ := @name_feeds σ F src mid st' layout b lastc first rest
    .ATOM .FUNC h2 hlayout hfirst hrest htext
  simp only [start, hget, inType_known classOf_known, hclass, bind, Except.bind]
  rw [hname, ← hfills]
  exact givesAtom_terminate hlayout htext' hzero

/-- The code behind the first character of a symbol atom. -/
theorem getCode_signs (h : Feeds src st (rest ++ utf8CodepointToStr layout) st')
    (hlayout : IsLayout layout) (hrest : ∀ x ∈ rest, x.toNat < 128 ∧ isSign x.toNat) :
    let d := (getCode src .utf8 st).1
    inType d = .ok (classOf d) ∧ classOf d ≠ .DIGIT ∧ (d = 42 → rest.head? = some 42) := by
  cases rest with
  | nil =>
    rw [getCode_utf8CodepointToStr h hlayout.range.1 hlayout.range.2]
    refine ⟨inType_known hlayout.1, ?_, fun heq => ?_⟩
    · rcases hlayout.2 with hclass | hclass <;> simp [hclass]
    · exact absurd heq (hlayout.ne ⟨by decide, by decide⟩)
  | cons x rest =>
    obtain ⟨hlt, hsign⟩ := hrest x (mem_cons_self ..)
    obtain ⟨mid, h1, -⟩ := Feeds.split (a := [x]) h
    rw [← toByte_toNat x] at h1
    rw [getCode_ascii h1 (Int.natCast_nonneg _) (by omega)]
    simp only [isSign, decide_eq_true_eq] at hsign
    refine ⟨inType_known hsign.1, by simp [hsign.2], fun heq => ?_⟩
    have hx : x = 42 := by
      rw [← toByte_toNat x, show (x.toNat : Int) = 42 from heq]
      rfl
    rw [hx]
    rfl

/-- A symbol character that begins neither a comment nor a number. -/
theorem signCase_eq {c : Int} (h : ¬ (c = code '/' ∧ (getCode src .utf8 st).1 = code '*'))
    (hd : inType (getCode src .utf8 st).1 = .ok (classOf (getCode src .utf8 st).1))
    (hdigit : classOf (getCode src .utf8 st).1 ≠ .DIGIT) (htext : b.text = []) :
    signCase src .utf8 fl c st b lastc = Sum.inr <$>
      signs src .utf8 c (getCode src .utf8 st).1 (getCode src .utf8 st).2 b lastc := by
  have hfour := b.four_le
  rw [signCase, StrBuff.put_eq (by rw [htext]; show 0 < b.len; omega)]
  simp only [bind, Except.bind, h, if_false, hd, hdigit]
  split <;> rfl

theorem start_signs (hlt : first.toNat < 128) (hclass : classOf first.toNat = .SIGN)
    (hrest : ∀ x ∈ rest, x.toNat < 128 ∧ isSign x.toNat) (hpoint : first = 46 → rest ≠ [])
    (hcomment : first = 47 → rest.head? ≠ some 42)
    (hzero : ∀ x ∈ first :: rest, x ≠ 0) (hlayout : IsLayout layout)
    (h : Feeds src st (first :: rest ++ utf8CodepointToStr layout) st') (htext : b.text = [])
    (fuel : Nat) :
    let r := getCode src .utf8 st
    GivesAtom (start src .utf8 fl b lastc (fuel + 1) r.1 r.2) (first :: rest) layout st' ↔
      ¬ Fills b.len (first :: rest).length := by
  obtain ⟨mid, h1, h2⟩ := Feeds.split (a := [first]) (b := rest ++ utf8CodepointToStr layout) h
  rw [← toByte_toNat first] at h1
  have hget := getCode_ascii h1 (Int.natCast_nonneg _) (by omega)
  obtain ⟨b', htext', hfills, hsigns⟩ := @signs_feeds σ F src mid st' layout b lastc first rest
    h2 hlayout hrest hpoint (fun x hx => hzero x (mem_cons_of_mem _ hx)) htext
  obtain ⟨hd, hdigit, hstar⟩ := getCode_signs h2 hlayout hrest
  have hnot : ¬ ((first.toNat : Int) = code '/' ∧ (getCode src .utf8 mid).1 = code '*') := by
    rintro ⟨hslash, hd⟩
    apply hcomment _ (hstar hd)
    rw [← toByte_toNat first, hslash]
    rfl
  rw [← hfills, ← givesAtom_terminate (F := F) hlayout htext' hzero]
  simp only [start, hget, inType_known classOf_known, hclass]
  rw [signCase_eq fl hnot hd hdigit htext, hsigns]
  cases b'.terminate <;> rfl

/-- `START` at the first character of a name without quotes. -/
theorem start_plain {bytes : List UInt8} (hplain : Plain bytes) (hzero : ∀ x ∈ bytes, x ≠ 0)
    (hlayout : IsLayout layout) (h : Feeds src st (bytes ++ utf8CodepointToStr layout) st')
    (htext : b.text = []) (fuel : Nat) :
    let r := getCode src .utf8 st
    GivesAtom (start src .utf8 fl b lastc (fuel + 1) r.1 r.2) bytes layout st' ↔
      ¬ Fills b.len bytes.length := by
  have hfour := b.four_le
  cases hplain with
  | brackets =>
    exact iff_of_true (start_brackets fl hlayout h htext fuel)
      (not_fills_of_lt (by show 2 < b.len; omega))
  | cut =>
    exact iff_of_true (start_cut fl hlayout h htext fuel)
      (not_fills_of_lt (by show 1 < b.len; omega))
  | letters hlt hclass hrest => exact start_letters fl hlt hclass hrest hzero hlayout h htext fuel
  | signs hlt hclass hrest hpoint hcomment =>
    exact start_signs fl hlt hclass hrest hpoint hcomment hzero hlayout h htext fuel

end Plain

section Quoted

variable (fl : Doubles F) {b : StrBuff} {lastc : Int}

/-- `START` at the quote in front of a name. -/
theorem start_quoted {name : List Char} (hzero : ∀ x ∈ nameBytes name, x ≠ 0)
    (hlayout : IsLayout layout)
    (h : Feeds src st (39 :: doubleQuotes (nameBytes name) ++ [39] ++ utf8CodepointToStr layout)
      st') (htext : b.text = []) (fuel : Nat) :
    let r := getCode src .utf8 st
    GivesAtom (start src .utf8 fl b lastc (fuel + 1) r.1 r.2) (nameBytes name) layout st' ↔
      ¬ QuotedFills b.len (name.map code) := by
  have hquote : layout ≠ 39 := hlayout.ne ⟨by decide, by decide⟩
  rw [append_assoc, singleton_append, cons_append] at h
  obtain ⟨mid, h1, h2⟩ := Feeds.split (a := [39]) h
  have hget := getCode_ascii (c := 39) h1 (by decide) (by decide)
  have hclass : inType 39 = .ok .ATMQT := rfl
  obtain ⟨b', heq, htext', hroom⟩ := @quotedChars_name σ src mid st' lastc layout hlayout.range.1
    hlayout.range.2 hquote name (src.size mid + 1) b.len b b.len 0 h2 (Nat.lt_succ_self _)
    (.start (Nat.zero_le _)) (by simp [htext]) (by simp [htext])
  rw [htext, nil_append] at htext'
  rw [htext, length_nil, Nat.zero_max] at hroom
  have hle := length_encoded_le 0 (name.map code)
  rw [encoded_name, ← htext'] at hle
  have hfull := @Library.Doubled.full_iff _ _ _ b'.text.length hroom (by omega)
  have hlen := hroom.need_le
  have hfills : b'.text.length < b'.len ↔ ¬ QuotedFills b.len (name.map code) := by
    rw [QuotedFills, encoded_name, ← htext', ← hfull]
    omega
  rw [← hfills,
    ← @givesAtom_terminate σ F st' layout b' layout (nameBytes name) hlayout htext' hzero]
  simp only [start, hget, hclass, atomCase, quoted, heq, bind, Except.bind]
  cases b'.terminate <;> rfl

end Quoted

section Written

/-- The text of the written name leaves the last byte of the token buffer free: it does not fill
one of the lengths of the buffer. -/
def NameRoom (len : Nat) (name : List Char) : Prop :=
  if quotesAreNeeded (nameBytes name) then ¬ QuotedFills len (name.map code)
  else ¬ Fills len (nameBytes name).length

/-- `GetToken` skips a layout character. -/
theorem getToken_layout (fl : Doubles F) {prevch : Int} (hprevch : IsLayout prevch) (b : StrBuff)
    (lastc : Int) :
    getToken src .utf8 fl prevch st b lastc =
      start src .utf8 fl { b with text := [] } lastc (src.size st + 1) (getCode src .utf8 st).1
        (getCode src .utf8 st).2 := by
  rw [getToken, start, inType_known hprevch.1]
  rcases hprevch.2 with hclass | hclass <;> rw [hclass] <;> rfl

/-- From a layout character on `GetToken` reads the name that was written, and a layout character
behind it, exactly if the name leaves the last byte of the token buffer free. -/
theorem getToken_writeQuotedname_iff (fl : Doubles F) {name : List Char} {prevch : Int}
    (hzero : Char.ofNat 0 ∉ name) (hprevch : IsLayout prevch) (hlayout : IsLayout layout)
    (h : Feeds src st (writeQuotedname (nameBytes name) ++ utf8CodepointToStr layout) st')
    (b : StrBuff) (lastc : Int) :
    GivesAtom (getToken src .utf8 fl prevch st b lastc) (nameBytes name) layout st' ↔
      NameRoom b.len name := by
  have hzero' := ne_zero_of_mem_nameBytes hzero
  rw [getToken_layout fl hprevch, NameRoom]
  split
  · next hneeded =>
    apply start_quoted fl hzero' hlayout
    · rw [writeQuotedname] at h
      split at h
      · next hempty =>
        rw [hempty]
        exact h
      · exact h
    · rfl
  · next hneeded =>
    rw [Bool.not_eq_true] at hneeded
    apply start_plain fl (plain_of_quotesAreNeeded hneeded) hzero' hlayout
    · rw [writeQuotedname, if_neg, if_pos (by simp [hneeded])] at h
      · exact h
      · intro hempty
        rw [hempty] at hneeded
        cases hneeded
    · rfl

/-- The name `x`, which is written without quotes. -/
theorem getToken_writeQuotedname_letter :
    GivesAtom (getToken fileSource .utf8 (⟨fun _ => 0, id, fun x _ _ => x, Int.neg⟩ : Doubles Int)
        10 (writeQuotedname (nameBytes ['x']) ++ utf8CodepointToStr 32) ⟨[], 10000, by decide⟩ 32)
      (nameBytes ['x']) 32 [] ↔ NameRoom 10000 ['x'] :=
  getToken_writeQuotedname_iff _ (by decide) ⟨by decide, by decide⟩ ⟨by decide, by decide⟩
    (append_nil (writeQuotedname (nameBytes ['x']) ++ utf8CodepointToStr 32) ▸
      Feeds.file _ []) _ _

theorem nameBytes_replicate (k : Nat) : nameBytes (List.replicate k 'a') = List.replicate k 97 := by
  induction k with
  | zero => rfl
  | succ k ih =>
    rw [replicate_succ, nameBytes, flatMap_cons, ← nameBytes, ih]
    rfl

theorem writeQuotedname_letters (k : Nat) :
    writeQuotedname (List.replicate (k + 1) 97) = List.replicate (k + 1) 97 := by
  have hneeded : quotesAreNeeded (List.replicate (k + 1) 97) = false := by
    have hletter : notAlphanumeric 97 = false := by decide
    have hchar : toChar 97 = 97 := rfl
    simp [replicate_succ, quotesAreNeeded, hletter, hchar]
  rw [writeQuotedname, if_neg (by simp), if_pos (by simp [hneeded])]

/-- The byte that ends a name of 10000 letters is written behind the first token buffer. -/
theorem long_name_not_read_back :
    ¬ GivesAtom (getToken fileSource .utf8
        (⟨fun _ => 0, id, fun x _ _ => x, Int.neg⟩ : Doubles Int) 10
        (writeQuotedname (nameBytes (List.replicate 10000 'a')) ++ utf8CodepointToStr 32)
        ⟨[], 10000, by decide⟩ 32)
      (nameBytes (List.replicate 10000 'a')) 32 [] := by
  rw [nameBytes_replicate, writeQuotedname_letters 9999,
    getToken_layout _ ⟨by decide, by decide⟩, replicate_succ]
  have hletter : ∀ x ∈ List.replicate 9999 (97 : UInt8), x = 97 :=
    fun x hx => eq_of_mem_replicate hx
  have hfeeds := Feeds.file (97 :: List.replicate 9999 97 ++ utf8CodepointToStr 32) []
  rw [append_nil] at hfeeds
  intro h
  refine (start_letters _ (by decide) (by decide) ?_ ?_ ⟨by decide, by decide⟩ hfeeds rfl _).mp h
    ⟨0, ?_⟩
  · intro x hx
    rw [hletter x hx]
    decide
  · intro x hx
    rcases mem_cons.mp hx with rfl | hx
    · decide
    · rw [hletter x hx]
      decide
  · rw [length_cons, length_replicate]
    decide

end Written

end XSBEngine.Reading
