import XSBEngine.Reading.Tokens

/-!
# What the characters of a token have to be

The characters whose class the tokenizer needs, and the room that the text of a token takes, told
from the characters alone.
-/

namespace XSBEngine.Reading

variable {σ : Type}

/-- A code that the tables have an entry for. -/
def Known (c : Int) : Prop := -1 ≤ c ∧ c ≤ 255

instance (c : Int) : Decidable (Known c) := inferInstanceAs (Decidable (_ ∧ _))

/-- The class of a code. -/
def classOf (c : Int) : CharClass := chtype.getD (c + 1).toNat .EOFCH

/-- The value of a code as a digit. -/
def digitOf (c : Int) : Nat := digval.getD (c + 1).toNat 99

/-- A code of one of the classes up to the given one. -/
def upTo (bound : CharClass) (c : Int) : Bool := Known c ∧ (classOf c).toNat ≤ bound.toNat

/-- A code of the class `SIGN`. -/
def isSign (c : Int) : Bool := Known c ∧ classOf c = .SIGN

/-- A digit smaller than `d`. -/
def digitBelow (d : Int) (c : Int) : Bool := Known c ∧ digitOf c < d

/-- A digit of a `\u` escape. -/
def unicodeDigit (c : Int) : Bool := digitBelow 16 c ∧ c ≠ code '_'

/-- Codes that stand one behind the other, the code that ends them, and what follows it. -/
structure Span (σ : Type) where
  codes : List Int
  stop : Int
  rest : σ

/-- The codes from `c` on that satisfy `p`, at most as many as the bound says. -/
def span (src : CharSource σ) (charset : Charset) (p : Int → Bool) : Nat → Int → σ → Span σ
  | 0, c, st => ⟨[], c, st⟩
  | k + 1, c, st =>
    if p c then
      let r := getCode src charset st
      let tail := span src charset p k r.1 r.2
      ⟨c :: tail.codes, tail.stop, tail.rest⟩
    else ⟨[], c, st⟩

/-- Without underscores. -/
def kept (codes : List Int) : List Int := codes.filter (· ≠ code '_')

/-- The bytes of a character of a quoted text. -/
def encode (c : Int) : List UInt8 := if c ≤ 127 then [toByte c] else utf8CodepointToStr c

/-- The bytes of a quoted text. -/
def encoded (codes : List Int) : List UInt8 := codes.flatMap encode

/-- The length that lets the text be written behind `o` bytes without a longer buffer: a code
point that is not one byte asks for four. -/
def roomNeeded : Nat → List Int → Nat
  | o, [] => o
  | o, c :: codes =>
    max (if c ≤ 127 then o + 1 else o + 4) (roomNeeded (o + (encode c).length) codes)

/-- A text of one-byte characters exactly fills a buffer that had `len` bytes and has been doubled
when it was full. -/
def Fills (len bytes : Nat) : Prop := ∃ k, bytes = len * 2 ^ k

/-- A quoted text exactly fills such a buffer. -/
def QuotedFills (len : Nat) (codes : List Int) : Prop :=
  ∃ k, (encoded codes).length = len * 2 ^ k ∧ roomNeeded 0 codes ≤ len * 2 ^ k

section Fits

variable (src : CharSource σ) (charset : Charset)

/-- The escape whose first character has been read has known codes where digits are expected. -/
def EscapeKnown (r : Int × σ) : Prop :=
  if r.1 = code 'x' then
    let d := getCode src charset r.2
    Known (span src charset (digitBelow 16) (src.size d.2 + 2) d.1 d.2).stop
  else if r.1 = code 'u' ∨ r.1 = code 'U' then
    let d := getCode src charset r.2
    let s := span src charset unicodeDigit 8 d.1 d.2
    s.codes.length = 8 ∨ Known s.stop
  else if code '0' ≤ r.1 ∧ r.1 ≤ code '7' then
    Known (span src charset (digitBelow 8) (src.size r.2 + 2) r.1 r.2).stop
  else True

/-- From the code `c` on, the next character of a constant in the quotes `q` is no escape with
unknown codes. Escaped ends of lines are skipped. -/
def BackKnown (q : Int) : Nat → Int → σ → Prop
  | 0, _, _ => True
  | fuel + 1, c, st =>
    if c = -1 ∨ c = q ∨ c ≠ code '\\' then True
    else
      let r := getCode src charset st
      if r.1 = code '\n' then
        let r := getCode src charset r.2
        BackKnown q fuel r.1 r.2
      else if r.1 = code '\r' then
        let r := getCode src charset r.2
        let r := if r.1 = code '\n' then getCode src charset r.2 else r
        BackKnown q fuel r.1 r.2
      else EscapeKnown src charset r

/-- The next character of a constant in the quotes `q` is no escape with unknown codes. -/
def CharacterKnown (q : Int) (st : σ) : Prop :=
  let r := getCode src charset st
  BackKnown src charset q (src.size r.2 + 1) r.1 r.2

/-- The escapes up to the closing quote have known codes where digits are expected. -/
def QuotedKnown (q : Int) : Nat → Int → σ → Prop
  | 0, _, _ => True
  | fuel + 1, lastc, st =>
    CharacterKnown src charset q st ∧
      ∀ d lastc' st', readCharacter src charset q lastc st = .ok (d, lastc', st') → d ≠ -1 →
        QuotedKnown q fuel lastc' st'

/-- The text in the quotes `q`, if it is closed. -/
def quotedCodes (q : Int) : Nat → Int → σ → Option (List Int)
  | 0, _, _ => none
  | fuel + 1, lastc, st =>
    match readCharacter src charset q lastc st with
    | .error _ => none
    | .ok (d, lastc, st) =>
      if d = -1 then some [] else (quotedCodes q fuel lastc st).map (d :: ·)

/-- A quoted atom or string of known escapes does not fill the buffer. -/
def QuotedFits (len : Nat) (q lastc : Int) (st : σ) : Prop :=
  QuotedKnown src charset q (src.size st + 1) lastc st ∧
    ∀ codes, quotedCodes src charset q (src.size st + 1) lastc st = some codes →
      ¬ QuotedFills len codes

/-- The digits behind a radix are ended by a known code. If they are too many for an integer then
the digits of the float are. -/
def RadixKnown (d : Int) : Nat → Int → σ → Prop
  | 0, _, _ => True
  | fuel + 1, newv, st =>
    let c := getCode src charset st
    Known c.1 ∧
      (digitOf c.1 < d →
        if c.1 = code '_' then RadixKnown d fuel newv c.2
        else
          let v := wrap64 (newv * d + digitOf c.1)
          if v < newv ∨ maxInt < v then
            let r := getCode src charset c.2
            Known (span src charset (digitBelow 99) (src.size c.2 + 2) r.1 r.2).stop
          else RadixKnown d fuel v c.2)

/-- The digits of an exponent that begins with `d` are ended by a known code, and with `k` bytes
before it the buffer holds the number. -/
def ExponentFits (len k : Nat) (d : Int) (st : σ) : Prop :=
  if d = code 'e' ∨ d = code 'E' then
    let r := getCode src charset st
    let k := if r.1 = code '-' then k + 2 else k + 1
    let r := if r.1 = code '-' ∨ r.1 = code '+' then getCode src charset r.2 else r
    Known r.1 ∧ k ≤ len ∧
      (upTo .BREAK r.1 →
        let e := span src charset (upTo .BREAK) (src.size r.2 + 1) r.1 r.2
        Known e.stop ∧ k + (kept e.codes).length < len)
  else k < len

/-- The digits behind a point and the exponent are ended by known codes, and with `k` bytes before
the point the buffer holds the number. -/
def DecimalFits (len k : Nat) (d : Int) (st : σ) : Prop :=
  let s := span src charset (upTo .BREAK) (src.size st + 1) d st
  let k := k + 1 + (kept s.codes).length
  Known s.stop ∧ k ≤ len ∧ ExponentFits src charset len k s.stop s.rest

/-- The digits of a number are ended by known codes, and the buffer holds them. -/
def NumberFits (len : Nat) (c : Int) (st : σ) : Prop :=
  let s := span src charset (upTo .BREAK) (src.size st + 1) c st
  let k := (kept s.codes).length
  let value := intValue ((kept s.codes).map toByte)
  let d := getCode src charset s.rest
  Known s.stop ∧
    if s.stop = code '\'' then
      k < len ∧ (value ≠ 1 → value ≤ 36 →
        if value = 0 then CharacterKnown src charset (-1) s.rest
        else RadixKnown src charset value (src.size s.rest + 1) 0 s.rest)
    else if s.stop = code '.' then
      Known d.1 ∧
        if classOf d.1 = .DIGIT then DecimalFits src charset len k d.1 d.2 else k < len
    else if s.stop = code 'b' ∨ s.stop = code 'o' ∨ s.stop = code 'x' then
      k < len ∧ (value = 0 →
        RadixKnown src charset
          (if s.stop = code 'b' then 2 else if s.stop = code 'o' then 8 else 16)
          (src.size s.rest + 1) 0 s.rest)
    else k < len

/-- A name is ended by a known code, and does not fill the buffer. -/
def NameFits (len : Nat) (c : Int) (st : σ) : Prop :=
  let s := span src charset (upTo .LOWER) (src.size st + 1) c st
  Known s.stop ∧ ¬ Fills len s.codes.length

/-- A symbol atom is ended by a known code, and does not fill the buffer. -/
def SignsFit (len : Nat) (d : Int) (st : σ) : Prop :=
  let s := span src charset isSign (src.size st + 2) d st
  Known s.stop ∧ ¬ Fills len (s.codes.length + 1)

/-- From `c` on, layout and comments are followed by a token with known codes where the tokenizer
needs a class or a digit, and a buffer of `len` bytes holds its text. -/
def TokenFits (len : Nat) (lastc : Int) : Nat → Int → σ → Prop
  | 0, _, _ => True
  | fuel + 1, c, st =>
    Known c ∧
      match classOf c with
      | .DIGIT => NumberFits src charset len c st
      | .BREAK | .UPPER | .LOWER => NameFits src charset len c st
      | .SIGN =>
        let d := getCode src charset st
        if c = code '/' ∧ d.1 = code '*' then
          ∀ st', com2plain src d.1 (code '/') (src.size d.2 + 1) false d.2 = .ok (true, st') →
            TokenFits len lastc fuel (getCode src charset st').1 (getCode src charset st').2
        else if c = code '.' ∧ Known d.1 ∧ classOf d.1 = .DIGIT then
          DecimalFits src charset len 1 d.1 d.2
        else SignsFit src charset len d.1 d.2
      | .PUNCT =>
        c = code '%' → ∀ r, com0plain src (src.size st + 1) st = .ok r →
          TokenFits len lastc fuel r.1 r.2
      | .ATMQT | .LISQT => QuotedFits src charset len c lastc st
      | .SPACE | .EOLN =>
        TokenFits len lastc fuel (getCode src charset st).1 (getCode src charset st).2
      | .NOBLE | .EOFCH => True

end Fits

end XSBEngine.Reading
