import XSBEngine.Reading.TokenBounds
import XSBEngine.Reading.Utf8

/-!
# Names that are written with quotes

`quotes_are_needed`, `double_quotes` and `write_quotedname`,
`XSB/emu/io_builtins_xsb.c:1679–1725, 1755–1804`, for a stream whose character set is UTF-8, where
`write_string_code` prints the bytes themselves.
-/

namespace XSBEngine.Reading

open Library List

/-- A character that ends the first scan of `quotes_are_needed`. -/
def notAlphanumeric (b : UInt8) : Bool :=
  let c := toChar b.toNat
  c < 48 ∨ 57 < c ∧ c < 65 ∨ 90 < c ∧ c < 97 ∧ c ≠ 95 ∨ 122 < c

/-- The characters that the second scan lets pass. -/
def symbolChars : List Int :=
  [35, 36, 38, 42, 43, 45, 46, 47, 58, 60, 61, 62, 63, 64, 92, 94, 96, 126]

/-- A character that ends the second scan of `quotes_are_needed`. -/
def notSymbolic (b : UInt8) : Bool := toChar b.toNat ∉ symbolChars

/-- `quotes_are_needed`. -/
def quotesAreNeeded : List UInt8 → Bool
  | [] => true
  | first :: rest =>
    let string := first :: rest
    let c := toChar first.toNat
    if string = [91, 93] then false
    else if first = 47 ∧ rest.head? = some 42 then true
    else
      let letter := 97 ≤ c ∧ c ≤ 122
      let flag : Bool := letter ∧ string.any notAlphanumeric
      if letter ∧ ¬ flag then false
      else if rest = [] ∧ c = 33 then false
      else if rest = [] ∧ c = 46 then true
      else flag || string.any notSymbolic

/-- `double_quotes`. -/
def doubleQuotes : List UInt8 → List UInt8
  | [] => []
  | b :: rest => if b = 39 ∨ b = 92 then b :: b :: doubleQuotes rest else b :: doubleQuotes rest

/-- `write_quotedname`: the bytes it writes. -/
def writeQuotedname (string : List UInt8) : List UInt8 :=
  if string = [] then [39, 39]
  else if ¬ quotesAreNeeded string then string
  else 39 :: doubleQuotes string ++ [39]

/-- The bytes of a name. -/
def nameBytes (name : List Char) : List UInt8 := name.flatMap String.utf8EncodeChar

/-- A character that `GetToken` skips. -/
def IsLayout (c : Int) : Prop := Known c ∧ (classOf c = .SPACE ∨ classOf c = .EOLN)

section Bytes

theorem toNat_char_lt (c : Char) : c.toNat < 0x110000 := by
  have h := c.valid
  simp only [UInt32.isValidChar, Nat.isValidChar] at h
  show c.val.toNat < _
  omega

theorem toByte_eq {d : Int} {k : Nat} (h : d = k) (hlt : k < 256) : toByte d = UInt8.ofNat k := by
  rw [toByte, h, Int.emod_eq_of_lt (by omega) (by omega), Int.toNat_natCast]

/-- The encoder of the source is that of UTF-8. -/
theorem utf8CodepointToStr_char (c : Char) :
    utf8CodepointToStr c.toNat = String.utf8EncodeChar c := by
  have hlt := toNat_char_lt c
  rw [utf8CodepointToStr, String.utf8EncodeChar]
  simp only [show c.val.toNat = c.toNat from rfl]
  generalize c.toNat = v at *
  split
  · rw [if_pos (by omega), toByte_eq rfl (by omega)]
  · split
    · rw [if_neg (by omega), if_pos (by omega),
        toByte_eq (k := v / 64 % 32 + 192) (by omega) (by omega),
        toByte_eq (k := v % 64 + 128) (by omega) (by omega)]
    · split
      · rw [if_neg (by omega), if_neg (by omega), if_pos (by omega),
          toByte_eq (k := v / 4096 % 16 + 224) (by omega) (by omega),
          toByte_eq (k := v / 64 % 64 + 128) (by omega) (by omega),
          toByte_eq (k := v % 64 + 128) (by omega) (by omega)]
      · rw [if_neg (by omega), if_neg (by omega), if_neg (by omega),
          toByte_eq (k := v / 262144 % 8 + 240) (by omega) (by omega),
          toByte_eq (k := v / 4096 % 64 + 128) (by omega) (by omega),
          toByte_eq (k := v / 64 % 64 + 128) (by omega) (by omega),
          toByte_eq (k := v % 64 + 128) (by omega) (by omega)]

theorem encode_char (c : Char) : encode (code c) = String.utf8EncodeChar c := by
  rw [← utf8CodepointToStr_char, encode]
  simp only [code]
  split
  · rw [utf8CodepointToStr, if_pos (by omega)]
  · rfl

theorem encoded_name (name : List Char) : encoded (name.map code) = nameBytes name := by
  rw [encoded, nameBytes, flatMap_map]
  congr 1
  funext c
  exact encode_char c

theorem toNat_ofNat {k : Nat} (h : k < 256) : (UInt8.ofNat k).toNat = k := by
  rw [UInt8.toNat_ofNat', Nat.mod_eq_of_lt h]

/-- The bytes of a character are its code or are no ASCII. -/
theorem mem_utf8EncodeChar {c : Char} {b : UInt8} (h : b ∈ String.utf8EncodeChar c) :
    c.toNat < 128 ∧ b.toNat = c.toNat ∨ 128 ≤ c.toNat ∧ 128 ≤ b.toNat := by
  have hlt := toNat_char_lt c
  rw [String.utf8EncodeChar] at h
  simp only [show c.val.toNat = c.toNat from rfl] at h
  generalize c.toNat = v at *
  split at h
  · obtain rfl := mem_singleton.mp h
    exact Or.inl ⟨by omega, toNat_ofNat (by omega)⟩
  · right
    refine ⟨by omega, ?_⟩
    split at h
    · simp only [mem_cons, not_mem_nil, or_false] at h
      rcases h with rfl | rfl <;> rw [toNat_ofNat (by omega)] <;> omega
    · split at h
      · simp only [mem_cons, not_mem_nil, or_false] at h
        rcases h with rfl | rfl | rfl <;> rw [toNat_ofNat (by omega)] <;> omega
      · simp only [mem_cons, not_mem_nil, or_false] at h
        rcases h with rfl | rfl | rfl | rfl <;> rw [toNat_ofNat (by omega)] <;> omega

/-- Only the character 0 has the byte 0. -/
theorem ne_zero_of_mem_nameBytes {name : List Char} (h : Char.ofNat 0 ∉ name) :
    ∀ b ∈ nameBytes name, b ≠ 0 := by
  rintro b hb rfl
  obtain ⟨c, hc, hb⟩ := mem_flatMap.mp hb
  rcases mem_utf8EncodeChar hb with ⟨-, heq⟩ | ⟨-, hle⟩
  · apply h
    have hzero : c.toNat = 0 := heq.symm
    rwa [← hzero, Char.ofNat_toNat]
  · exact absurd hle (by decide)

end Bytes

section Quotes

variable {σ : Type} {src : CharSource σ} {st st' : σ} {lastc : Int}

/-- A code that begins what is read. -/
theorem readCharacter_eq {q c : Int} {rest : σ} (h : getCode src .utf8 st = (c, rest)) :
    readCharacter src .utf8 q lastc st = readBack src .utf8 q lastc (src.size rest + 1) c rest := by
  simp only [readCharacter, h]

theorem readCharacter_plain {c : Int} (h : Feeds src st (utf8CodepointToStr c) st') (hc : 0 ≤ c)
    (hlt : c < 0x200000) (hquote : c ≠ 39) (hescape : c ≠ 92) :
    readCharacter src .utf8 39 lastc st = .ok (c, lastc, st') := by
  rw [readCharacter_eq (getCode_utf8CodepointToStr h hc hlt), readBack, if_neg (by omega)]
  simp only [if_neg (show ¬ c < 0 by omega)]
  rw [if_neg hquote, if_pos (show c ≠ code '\\' from hescape)]

theorem readCharacter_quote (h : Feeds src st [39, 39] st') :
    readCharacter src .utf8 39 lastc st = .ok (39, lastc, st') := by
  obtain ⟨mid, h1, h2⟩ := Feeds.split (a := [39]) (b := [39]) h
  have hget := getCode_ascii (c := 39) h1 (by decide) (by decide)
  have hget' := getCode_ascii (c := 39) h2 (by decide) (by decide)
  rw [readCharacter_eq hget, readBack]
  simp [hget']

theorem readCharacter_backslash (h : Feeds src st [92, 92] st') :
    readCharacter src .utf8 39 lastc st = .ok (92, lastc, st') := by
  obtain ⟨mid, h1, h2⟩ := Feeds.split (a := [92]) (b := [92]) h
  have hget := getCode_ascii (c := 92) h1 (by decide) (by decide)
  have hget' := getCode_ascii (c := 92) h2 (by decide) (by decide)
  rw [readCharacter_eq hget, readBack]
  simp [hget', readEscape, code]

theorem readCharacter_end {c : Int} (h : Feeds src st (39 :: utf8CodepointToStr c) st')
    (hc : 0 ≤ c) (hlt : c < 0x200000) (hquote : c ≠ 39) :
    readCharacter src .utf8 39 lastc st = .ok (-1, c, st') := by
  obtain ⟨mid, h1, h2⟩ := Feeds.split (a := [39]) h
  have hget := getCode_ascii (c := 39) h1 (by decide) (by decide)
  have hget' := getCode_utf8CodepointToStr h2 hc hlt
  rw [readCharacter_eq hget, readBack]
  simp [hget', hquote]

theorem doubleQuotes_append {a b : List UInt8} (h : ∀ x ∈ a, x ≠ 39 ∧ x ≠ 92) :
    doubleQuotes (a ++ b) = a ++ doubleQuotes b := by
  induction a with
  | nil => rfl
  | cons x a ih =>
    have hx := h x (mem_cons_self ..)
    rw [cons_append, doubleQuotes, if_neg (by simp [hx]),
      ih fun y hy => h y (mem_cons_of_mem _ hy), cons_append]

/-- A character of a name, as it is written in quotes. -/
theorem doubleQuotes_char (c : Char) (rest : List UInt8) :
    doubleQuotes (String.utf8EncodeChar c ++ rest) =
      (if code c = 39 ∨ code c = 92 then [toByte (code c), toByte (code c)]
        else utf8CodepointToStr (code c)) ++ doubleQuotes rest := by
  split
  · next h =>
    have hlt : c.toNat ≤ 127 := by
      simp only [code] at h
      omega
    have hbyte : String.utf8EncodeChar c = [toByte (code c)] := by
      rw [← encode_char, encode, if_pos (by simp only [code]; omega)]
    rw [hbyte]
    rcases h with h | h
    · rw [h]
      rfl
    · rw [h]
      rfl
  · next h =>
    rw [utf8CodepointToStr_char]
    apply doubleQuotes_append
    intro x hx
    simp only [code, not_or] at h
    rcases mem_utf8EncodeChar hx with ⟨-, heq⟩ | ⟨-, hle⟩
    · constructor
      · rintro rfl
        exact h.1 (by rw [← heq]; rfl)
      · rintro rfl
        exact h.2 (by rw [← heq]; rfl)
    · constructor
      · rintro rfl
        exact absurd hle (by decide)
      · rintro rfl
        exact absurd hle (by decide)

/-- A character of a name is read from what is written for it in quotes. -/
theorem readCharacter_char {c : Char} {bytes : List UInt8}
    (h : Feeds src st ((if code c = 39 ∨ code c = 92 then [toByte (code c), toByte (code c)]
      else utf8CodepointToStr (code c)) ++ bytes) st') :
    ∃ mid, readCharacter src .utf8 39 lastc st = .ok (code c, lastc, mid) ∧
      Feeds src mid bytes st' ∧ src.size mid < src.size st := by
  obtain ⟨mid, h1, h2⟩ := h.split
  have hlt := toNat_char_lt c
  have hsize := h1.size_le
  refine ⟨mid, ?_, h2, ?_⟩
  · split at h1
    · next hquote =>
      rcases hquote with hquote | hquote
      · rw [hquote] at h1 ⊢
        exact readCharacter_quote h1
      · rw [hquote] at h1 ⊢
        exact readCharacter_backslash h1
    · next hquote =>
      exact readCharacter_plain h1 (Int.natCast_nonneg _) (by simp only [code]; omega)
        (fun h => hquote (Or.inl h)) fun h => hquote (Or.inr h)
  · have hpos : 0 < (if code c = 39 ∨ code c = 92 then [toByte (code c), toByte (code c)]
        else utf8CodepointToStr (code c)).length := by
      split
      · simp
      · rw [utf8CodepointToStr_char, String.length_utf8EncodeChar]
        exact Char.utf8Size_pos c
    omega

/-- The loop over the characters in quotes reads a name that was written so. -/
theorem quotedChars_name {layout : Int} (hlayout : 0 ≤ layout) (hlt : layout < 0x200000)
    (hquote : layout ≠ 39) {name : List Char} {fuel : Nat} {n : Int} {b : StrBuff}
    {first need : Nat}
    (h : Feeds src st (doubleQuotes (nameBytes name) ++ 39 :: utf8CodepointToStr layout) st')
    (hfuel : src.size st < fuel) (hroom : Doubled first need b.len) (hle : b.text.length ≤ need)
    (hn : n = b.len - b.text.length) :
    ∃ b', quotedChars src .utf8 39 fuel st n b lastc = .ok (st', b', layout) ∧
      b'.text = b.text ++ nameBytes name ∧
      Doubled first (max need (roomNeeded b.text.length (name.map code))) b'.len := by
  induction fuel generalizing name st n b need with
  | zero => omega
  | succ fuel ih =>
    rw [quotedChars]
    cases name with
    | nil =>
      rw [readCharacter_end h hlayout hlt hquote]
      refine ⟨b, rfl, by simp [nameBytes], ?_⟩
      rw [map_nil, roomNeeded, max_eq_left hle]
      exact hroom
    | cons c name =>
      rw [nameBytes, flatMap_cons, doubleQuotes_char, append_assoc] at h
      obtain ⟨mid, hread, hrest, hsize⟩ := @readCharacter_char _ src _ _ lastc _ _ h
      obtain ⟨b', hput, htext, hroom'⟩ := StrBuff.codepointToUtf8Str_spec hroom hle hn (code c)
      have hle' : b'.text.length ≤
          max need (if code c ≤ 127 then b.text.length + 1 else b.text.length + 4) := by
        rw [htext]
        exact length_append_encode_le b.text need (code c)
      obtain ⟨b'', heq, htext', hroom''⟩ := ih hrest (by omega) hroom' hle' rfl
      have hpos : code c ≠ -1 := by
        simp only [code]
        omega
      refine ⟨b'', ?_, ?_, ?_⟩
      · rw [hread]
        simp only [bind, Except.bind, hpos, if_false, hput]
        exact heq
      · rw [htext', htext, append_assoc, encode_char]
        rfl
      · rw [map_cons, roomNeeded, ← max_assoc, ← length_append, ← htext]
        exact hroom''

end Quotes

end XSBEngine.Reading
