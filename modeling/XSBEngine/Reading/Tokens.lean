import XSBEngine.Reading.Chars

/-!
# The tokenizer

`GetToken`, `read_character`, the comments and the growth of `strbuff`,
`XSB/emu/token_xsb.c:53–225, 394–410, 780–1463`.
-/

namespace XSBEngine.Reading

/-- The classes of characters that occur in the table, `XSB/emu/token_defs_xsb.h`. -/
inductive CharClass where
  | DIGIT
  | BREAK
  | UPPER
  | LOWER
  | SIGN
  | NOBLE
  | PUNCT
  | ATMQT
  | LISQT
  | SPACE
  | EOLN
  | EOFCH
deriving DecidableEq

namespace CharClass

/-- The number of a class. -/
def toNat : CharClass → Nat
  | DIGIT => 0
  | BREAK => 1
  | UPPER => 2
  | LOWER => 3
  | SIGN => 4
  | NOBLE => 5
  | PUNCT => 6
  | ATMQT => 7
  | LISQT => 8
  | SPACE => 12
  | EOLN => 13
  | EOFCH => 15

end CharClass

section Tables

open CharClass

/-- `intab.chtype`, from the entry of the end of the input on. -/
def chtype : List CharClass :=
  [EOFCH,
   SPACE, SPACE, SPACE, SPACE, SPACE, SPACE, SPACE, SPACE,
   SPACE, SPACE, EOLN, SPACE, EOLN, SPACE, SPACE, SPACE,
   SPACE, SPACE, SPACE, SPACE, SPACE, SPACE, SPACE, SPACE,
   SPACE, SPACE, SPACE, SPACE, SPACE, SPACE, SPACE, SPACE,
   SPACE, NOBLE, LISQT, SIGN, SIGN, PUNCT, SIGN, ATMQT,
   PUNCT, PUNCT, SIGN, SIGN, PUNCT, SIGN, SIGN, SIGN,
   DIGIT, DIGIT, DIGIT, DIGIT, DIGIT, DIGIT, DIGIT, DIGIT,
   DIGIT, DIGIT, SIGN, PUNCT, SIGN, SIGN, SIGN, SIGN,
   SIGN, UPPER, UPPER, UPPER, UPPER, UPPER, UPPER, UPPER,
   UPPER, UPPER, UPPER, UPPER, UPPER, UPPER, UPPER, UPPER,
   UPPER, UPPER, UPPER, UPPER, UPPER, UPPER, UPPER, UPPER,
   UPPER, UPPER, UPPER, PUNCT, SIGN, PUNCT, SIGN, BREAK,
   SIGN, LOWER, LOWER, LOWER, LOWER, LOWER, LOWER, LOWER,
   LOWER, LOWER, LOWER, LOWER, LOWER, LOWER, LOWER, LOWER,
   LOWER, LOWER, LOWER, LOWER, LOWER, LOWER, LOWER, LOWER,
   LOWER, LOWER, LOWER, PUNCT, PUNCT, PUNCT, SIGN, SPACE,
   SPACE, SPACE, SPACE, SPACE, SPACE, SPACE, SPACE, SPACE,
   SPACE, SPACE, SPACE, SPACE, SPACE, SPACE, SPACE, SPACE,
   SPACE, SPACE, SPACE, SPACE, SPACE, SPACE, SPACE, SPACE,
   SPACE, SPACE, SPACE, SPACE, SPACE, SPACE, SPACE, SPACE,
   SPACE, SIGN, SIGN, SIGN, SIGN, SIGN, SIGN, SIGN,
   SIGN, SIGN, LOWER, SIGN, SIGN, SIGN, SIGN, SIGN,
   SIGN, SIGN, LOWER, LOWER, SIGN, SIGN, SIGN, SIGN,
   SIGN, LOWER, LOWER, SIGN, SIGN, SIGN, SIGN, SIGN,
   UPPER, UPPER, UPPER, UPPER, UPPER, UPPER, UPPER, UPPER,
   UPPER, UPPER, UPPER, UPPER, UPPER, UPPER, UPPER, UPPER,
   UPPER, UPPER, UPPER, UPPER, UPPER, UPPER, UPPER, SIGN,
   UPPER, UPPER, UPPER, UPPER, UPPER, UPPER, UPPER, LOWER,
   LOWER, LOWER, LOWER, LOWER, LOWER, LOWER, LOWER, LOWER,
   LOWER, LOWER, LOWER, LOWER, LOWER, LOWER, LOWER, LOWER,
   LOWER, LOWER, LOWER, LOWER, LOWER, LOWER, LOWER, SIGN,
   LOWER, LOWER, LOWER, LOWER, LOWER, LOWER, LOWER, LOWER]

/-- `digval`, from the entry of the end of the input on. Nearly all entries are 99. -/
def digval : List Nat :=
  List.replicate 49 99 ++
  [0, 1, 2, 3, 4, 5, 6, 7,
   8, 9, 99, 99, 99, 99, 99, 99,
   99, 10, 11, 12, 13, 14, 15, 16,
   17, 18, 19, 20, 21, 22, 23, 24,
   25, 26, 27, 28, 29, 30, 31, 32,
   33, 34, 35, 99, 99, 99, 99, 0,
   99, 10, 11, 12, 13, 14, 15, 16,
   17, 18, 19, 20, 21, 22, 23, 24,
   25, 26, 27, 28, 29, 30, 31, 32,
   33, 34, 35, 99, 99, 99, 99, 99] ++
  List.replicate 48 99 ++
  [99, 99, 2, 3, 99, 99, 99, 99,
   99, 1, 99, 99, 99, 99, 99, 99] ++
  List.replicate 64 99

end Tables

/-- What `SyntaxError` is called with. The name of the file is left out. -/
inductive SyntaxError where
  | eofInCharacterConstant
  | eofInQuotedConstant (q : Int)
  | eofInRem
  | badExpt
  | badRadix
deriving DecidableEq

/-- The description of a syntax error. -/
def SyntaxError.description : SyntaxError → String
  | eofInCharacterConstant => "end of file in character constant"
  | eofInQuotedConstant q =>
    let quote := String.singleton (Char.ofNat q.toNat)
    "end of file in " ++ quote ++ "quoted" ++ quote ++ " constant"
  | eofInRem => "end of file in comment"
  | badExpt => "bad exponent"
  | badRadix => "radix not 0 or 2..36"

/-- Why a call ends without a token: an access outside the tables or the token buffer, an error that
is thrown, or a loop that was given too few turns. -/
inductive Stop where
  | outside
  | syntaxError (e : SyntaxError)
  | unfinished
deriving DecidableEq

/-- `InType`. -/
def inType (c : Int) : Except Stop CharClass :=
  if -1 ≤ c ∧ c ≤ 255 then .ok (chtype.getD (c + 1).toNat .EOFCH) else .error .outside

/-- `DigVal`. -/
def digVal (c : Int) : Except Stop Nat :=
  if -1 ≤ c ∧ c ≤ 255 then .ok (digval.getD (c + 1).toNat 99) else .error .outside

/-- `strbuff` with `strbuff_len`. The bytes that a call has written are kept as a list, so that `s`
is behind the last one of them. -/
structure StrBuff where
  text : List UInt8
  len : Nat
  four_le : 4 ≤ len

namespace StrBuff

/-- `*s++ = c`. -/
def put (b : StrBuff) (c : Int) : Except Stop StrBuff :=
  if b.text.length < b.len then .ok { b with text := b.text ++ [toByte c] } else .error .outside

/-- `*s = 0`. -/
def terminate (b : StrBuff) : Except Stop Unit :=
  if b.text.length < b.len then .ok () else .error .outside

/-- `realloc_strbuff`, which makes the buffer twice as long. -/
def realloc (b : StrBuff) : StrBuff :=
  { b with len := b.len * 2, four_le := Nat.le_trans b.four_le (by omega) }

/-- The string in the buffer. -/
def string (b : StrBuff) : List UInt8 := b.text.takeWhile (· ≠ 0)

/-- `CODEPOINT_TO_UTF8_STR`, where `n` slots remain. -/
def codepointToUtf8Str (b : StrBuff) (n code : Int) : Except Stop (StrBuff × Int) :=
  if code ≤ 127 then do
    let n := n - 1
    let (b, n) := if n < 0 then (b.realloc, n + b.len) else (b, n)
    return (← b.put code, n)
  else do
    let (b, n) := if n < 4 then (b.realloc, n + b.len) else (b, n)
    let bytes := utf8CodepointToStr code
    let b ← bytes.foldlM (fun b c => b.put c.toNat) b
    return (b, n - bytes.length)

end StrBuff

/-- The types of tokens, `XSB/emu/token_defs_xsb.h`. -/
inductive TokenType where
  | PUNC
  | VARFUNC
  | VAR
  | FUNC
  | INT
  | ATOM
  | EOC
  | VVAR
  | VVARFUNC
  | REAL
  | EOF
  | LIST
  | HPUNC
  | INTFUNC
  | REALFUNC
deriving DecidableEq

/-- What `token->value` leads to. -/
inductive TokenValue (F : Type) where
  | none
  | text (bytes : List UInt8)
  | integer (i : Int)
  | real (x : F)

/-- `struct xsb_token_t`. -/
structure Token (F : Type) where
  type : TokenType
  value : TokenValue F
  nextch : Int

/-- The operations on `double` that the tokenizer uses. -/
structure Doubles (F : Type) where
  sscanf : List UInt8 → F
  ofInteger : Int → F
  shift : F → Int → Nat → F
  neg : F → F

/-- A value of type `int`. -/
def wrap32 (i : Int) : Int := i.bmod (2 ^ 32)

/-- A value of type `Integer`. -/
def wrap64 (i : Int) : Int := i.bmod (2 ^ 64)

/-- `MY_MAXINT`. -/
def maxInt : Int := 2 ^ 63 - 1

/-- The code of a character. -/
abbrev code (c : Char) : Int := c.toNat

section Characters

variable {σ : Type} (src : CharSource σ) (charset : Charset)

/-- The loop of a `\x` escape, from its first digit on. -/
def hexDigits : Nat → Int → Int → σ → Except Stop (Int × Int × σ)
  | 0, _, _, _ => .error .unfinished
  | fuel + 1, n, c, st => do
    let v ← digVal c
    if v < 16 then
      let r := getCode src charset st
      hexDigits fuel (wrap32 (n * 16 + v)) r.1 r.2
    else return (n, c, st)

/-- The loop of an octal escape, where `c` is a digit. -/
def octalDigits : Nat → Int → Int → σ → Except Stop (Int × Int × σ)
  | 0, _, _, _ => .error .unfinished
  | fuel + 1, n, c, st => do
    let n := wrap32 (n * 8 + (← digVal c))
    let r := getCode src charset st
    if (← digVal r.1) < 8 then octalDigits fuel n r.1 r.2
    else return (n, r.1, r.2)

/-- A number of digits of a unicode escape, and whether all of them are there. -/
def unicodeDigits : Nat → Int → σ → Except Stop (Int × Bool × σ)
  | 0, n, st => .ok (n, true, st)
  | k + 1, n, st => do
    let c := getCode src charset st
    let v ← digVal c.1
    if v ≤ 15 ∧ c.1 ≠ code '_' then unicodeDigits k (wrap32 (n * 16 + v)) c.2
    else if c.1 ≠ code '\\' then return (n, false, src.unGetC c.1 c.2)
    else return (n, false, c.2)

/-- A `\u` escape, with four or eight digits. -/
def unicodeEscape (st : σ) : Except Stop (Int × σ) := do
  let (n, complete, st) ← unicodeDigits src charset 4 0 st
  if complete then
    let c := getCode src charset st
    let v ← digVal c.1
    if v ≤ 15 ∧ c.1 ≠ code '_' then
      let (n, _, st) ← unicodeDigits src charset 3 (wrap32 (n * 16 + v)) c.2
      return (n, st)
    else if 0 < c.1 ∧ c.1 ≠ code '\\' then return (n, src.unGetC c.1 c.2)
    else return (n, c.2)
  else return (n, st)

/-- The error for an end of the input in the quotes `q`. -/
def readError (q : Int) : Stop :=
  .syntaxError (if q < 0 then .eofInCharacterConstant else .eofInQuotedConstant q)

/-- An escape that does not continue a line, where the backslash and `c` have been read. Like all of
`read_character` it gives the character, `lastc`, which is given before, and the rest. -/
def readEscape (q lastc c : Int) (st : σ) : Except Stop (Int × Int × σ) :=
  if c = -1 then .error (readError q)
  else if c = code 'a' then .ok (7, lastc, st)
  else if c = code 'b' then .ok (8, lastc, st)
  else if c = code 'f' then .ok (12, lastc, st)
  else if c = code 'n' then .ok (10, lastc, st)
  else if c = code 'r' then .ok (13, lastc, st)
  else if c = code 's' then .ok (32, lastc, st)
  else if c = code 't' then .ok (9, lastc, st)
  else if c = code 'v' then .ok (11, lastc, st)
  else if c = code 'x' then do
    let r := getCode src charset st
    let (n, c, st) ← hexDigits src charset (src.size r.2 + 2) 0 r.1 r.2
    if c < 0 then .error (readError q)
    else return (n, lastc, if c ≠ code '\\' then src.unGetC c st else st)
  else if c = code 'u' ∨ c = code 'U' then do
    let (n, st) ← unicodeEscape src charset st
    return (n, lastc, st)
  else if code '0' ≤ c ∧ c ≤ code '7' then do
    let (n, c, st) ← octalDigits src charset (src.size st + 1) 0 c st
    return (n, lastc, if c ≠ code '\\' then src.unGetC c st else st)
  else if c = code '\\' ∨ c = code '\'' ∨ c = code '"' ∨ c = code '`' then .ok (c, lastc, st)
  else .ok (code '\\', lastc, src.unGetC c st)

/-- The part of `read_character` from `BACK` on, where `c` has been read. -/
def readBack (q lastc : Int) : Nat → Int → σ → Except Stop (Int × Int × σ)
  | 0, _, _ => .error .unfinished
  | fuel + 1, c, st =>
    if c = -1 then .error (readError q)
    else
      let c := if c < 0 then c % 256 else c
      if c = q then
        let r := getCode src charset st
        if r.1 = q then .ok (r.1, lastc, r.2) else .ok (-1, r.1, r.2)
      else if c ≠ code '\\' then .ok (c, lastc, st)
      else
        let r := getCode src charset st
        if r.1 = code '\n' then
          let r := getCode src charset r.2
          readBack q lastc fuel r.1 r.2
        else if r.1 = code '\r' then
          let r := getCode src charset r.2
          let r := if r.1 = code '\n' then getCode src charset r.2 else r
          readBack q lastc fuel r.1 r.2
        else readEscape src charset q lastc r.1 r.2

/-- `read_character`. -/
def readCharacter (q lastc : Int) (st : σ) : Except Stop (Int × Int × σ) :=
  let r := getCode src charset st
  readBack src charset q lastc (src.size r.2 + 1) r.1 r.2

/-- `com0plain`, where `endeol` is -1. -/
def com0plain : Nat → σ → Except Stop (Int × σ)
  | 0, _ => .error .unfinished
  | fuel + 1, st =>
    let c := src.getC st
    if 0 ≤ c.1 ∧ c.1 ≠ code '\n' then com0plain fuel c.2
    else if 0 ≤ c.1 then .ok (src.getC c.2)
    else .ok c

/-- `com2plain`, with the value of `state`. It gives whether the comment is closed. -/
def com2plain (astcom endcom : Int) : Nat → Bool → σ → Except Stop (Bool × σ)
  | 0, _, _ => .error .unfinished
  | fuel + 1, state, st =>
    let c := src.getC st
    if c.1 < 0 then .ok (false, c.2)
    else if c.1 = endcom ∧ state then .ok (true, c.2)
    else com2plain astcom endcom fuel (c.1 = astcom) c.2

end Characters

/-- A token with what `GetToken` leaves: the stream, the buffer and `lastc`. -/
structure Lexed (σ F : Type) where
  token : Token F
  stream : σ
  strbuff : StrBuff
  lastc : Int

section Numbers

variable {σ F : Type} (src : CharSource σ) (charset : Charset) (fl : Doubles F)

/-- `if (c != '_') *s++ = c`. -/
def StrBuff.putDigit (b : StrBuff) (c : Int) : Except Stop StrBuff :=
  if c ≠ code '_' then b.put c else .ok b

/-- The loop over the digits of a number, which does not look at the room in the buffer. -/
def digits : Nat → Int → σ → StrBuff → Except Stop (Int × σ × StrBuff)
  | 0, _, _, _ => .error .unfinished
  | fuel + 1, c, st, b => do
    let b ← b.putDigit c
    let r := getCode src charset st
    if (← inType r.1).toNat ≤ CharClass.BREAK.toNat then digits fuel r.1 r.2 b
    else return (r.1, r.2, b)

/-- Decimal digits as an `int`. -/
def intValue (digits : List UInt8) : Int :=
  digits.foldl (fun d c => wrap32 (d * 10 - 48 + c.toNat)) 0

/-- The number in the buffer as an `Integer`, at most `MY_MAXINT`, and the last value of `c`. -/
def integerValue : Int → List UInt8 → Int × Int
  | radInt, [] => (radInt, 0)
  | radInt, c :: rest =>
    if radInt < maxInt / 10 ∨ radInt = maxInt / 10 ∧ (c.toNat : Int) - 48 ≤ maxInt % 10 then
      integerValue (radInt * 10 - 48 + c.toNat) rest
    else (maxInt, c.toNat)

/-- The token of a number without radix, point or exponent. -/
def integer (c : Int) (st : σ) (b : StrBuff) (lastc : Int) : Except Stop (Lexed σ F) := do
  b.terminate
  let (radInt, last) := integerValue 0 b.string
  return ⟨⟨if last = code '(' then .INTFUNC else .INT, .integer radInt, c⟩, st, b, lastc⟩

/-- The loop over the digits behind a radix once the number is a float. -/
def radixReal (d : Int) : Nat → F → σ → Except Stop (F × Int × σ)
  | 0, _, _ => .error .unfinished
  | fuel + 1, x, st => do
    let c := getCode src charset st
    let v ← digVal c.1
    if v < 99 then radixReal d fuel (if c.1 ≠ code '_' then fl.shift x d v else x) c.2
    else return (x, c.1, c.2)

/-- `NONZERO_RADIX`, with the value of `newv`. -/
def nonzeroRadix (d : Int) (b : StrBuff) (lastc : Int) : Nat → Int → σ → Except Stop (Lexed σ F)
  | 0, _, _ => .error .unfinished
  | fuel + 1, newv, st => do
    let c := getCode src charset st
    let v ← digVal c.1
    if v < d then
      if c.1 ≠ code '_' then
        let oldv := newv
        let newv := wrap64 (newv * d + v)
        if newv < oldv ∨ maxInt < newv then
          let (x, c, st) ← radixReal src charset fl d (src.size c.2 + 1)
            (fl.shift (fl.ofInteger oldv) d v) c.2
          let r := if c = code '\'' then getCode src charset st else (c, st)
          return ⟨⟨if r.1 = code '(' then .REALFUNC else .REAL, .real x, r.1⟩, r.2, b, lastc⟩
        else nonzeroRadix d b lastc fuel newv c.2
      else nonzeroRadix d b lastc fuel newv c.2
    else
      let r := if c.1 = code '\'' then getCode src charset c.2 else c
      return ⟨⟨if r.1 = code '(' then .INTFUNC else .INT, .integer newv, r.1⟩, r.2, b, lastc⟩

/-- The sign of an exponent, and the code behind it. -/
def exponentSign (st : σ) (b : StrBuff) : Except Stop (Int × σ × StrBuff) :=
  let r := getCode src charset st
  if r.1 = code '-' then do
    let b ← b.put r.1
    let r := getCode src charset r.2
    return (r.1, r.2, b)
  else if r.1 = code '+' then
    let r := getCode src charset r.2
    .ok (r.1, r.2, b)
  else .ok (r.1, r.2, b)

/-- An exponent, if `d` begins one. -/
def exponent (d : Int) (st : σ) (b : StrBuff) : Except Stop (Int × σ × StrBuff) :=
  if d = code 'e' ∨ d = code 'E' then do
    let b ← b.put (code 'E')
    let (d, st, b) ← exponentSign src charset st b
    if CharClass.BREAK.toNat < (← inType d).toNat then .error (.syntaxError .badExpt)
    else digits src charset (src.size st + 1) d st b
  else .ok (d, st, b)

/-- `LAB_DECIMAL`: the point, the digits behind it and an exponent. -/
def decimal (d : Int) (st : σ) (b : StrBuff) (lastc : Int) : Except Stop (Lexed σ F) := do
  let b ← b.put (code '.')
  let (d, st, b) ← digits src charset (src.size st + 1) d st b
  let (d, st, b) ← exponent src charset d st b
  b.terminate
  return ⟨⟨if d = code '(' then .REALFUNC else .REAL, .real (fl.sscanf b.string), d⟩, st, b, lastc⟩

/-- A number with a radix, or a character constant, behind the quote. -/
def radix (st : σ) (b : StrBuff) (lastc : Int) : Except Stop (Lexed σ F) := do
  b.terminate
  let d := intValue b.string
  if d = 1 ∨ 36 < d then .error (.syntaxError .badRadix)
  else if d = 0 then
    let (v, lastc, st) ← readCharacter src charset (-1) lastc st
    let r := getCode src charset st
    let r := if r.1 = code '\'' then getCode src charset r.2 else r
    return ⟨⟨.INT, .integer v, r.1⟩, r.2, b, lastc⟩
  else nonzeroRadix src charset fl d b lastc (src.size st + 1) 0 st

/-- A number that `c` ends, which is `b`, `o` or `x`. Behind a 0 it tells the radix. -/
def radixLetter (c : Int) (st : σ) (b : StrBuff) (lastc : Int) : Except Stop (Lexed σ F) := do
  b.terminate
  let d := intValue b.string
  if d = 0 then
    let d := if c = code 'b' then 2 else if c = code 'o' then 8 else 16
    nonzeroRadix src charset fl d b lastc (src.size st + 1) 0 st
  else return ⟨⟨.INT, .integer d, c⟩, st, b, lastc⟩

/-- The case `DIGIT`. -/
def number (c : Int) (st : σ) (b : StrBuff) (lastc : Int) : Except Stop (Lexed σ F) := do
  let (c, st, b) ← digits src charset (src.size st + 1) c st b
  if c = code '\'' then radix src charset fl st b lastc
  else if c = code '.' then
    let d := getCode src charset st
    if (← inType d.1) = .DIGIT then decimal src charset fl d.1 d.2 b lastc
    else integer c (src.unGetC d.1 d.2) b lastc
  else if c = code 'b' ∨ c = code 'o' ∨ c = code 'x' then radixLetter src charset fl c st b lastc
  else integer c st b lastc

end Numbers

section Names

variable {σ F : Type} (src : CharSource σ) (charset : Charset) (fl : Doubles F)

/-- The loop over the characters of a name, with `n` slots remaining. -/
def nameChars : Nat → Int → σ → Int → StrBuff → Except Stop (Int × σ × StrBuff)
  | 0, _, _, _, _ => .error .unfinished
  | fuel + 1, c, st, n, b => do
    let n := n - 1
    let (b, n) := if n < 0 then (b.realloc, n + b.len) else (b, n)
    let b ← b.put c
    let r := getCode src charset st
    if (← inType r.1).toNat ≤ CharClass.LOWER.toNat then nameChars fuel r.1 r.2 n b
    else return (r.1, r.2, b)

/-- The loop over the further characters of a symbol atom, with `n` slots remaining. -/
def signChars : Nat → Int → σ → Int → StrBuff → Except Stop (Int × σ × StrBuff)
  | 0, _, _, _, _ => .error .unfinished
  | fuel + 1, d, st, n, b => do
    if (← inType d) = .SIGN then
      let n := n - 1
      let (b, n) := if n = 0 then (b.realloc, n + b.len) else (b, n)
      let b ← b.put d
      let r := getCode src charset st
      signChars fuel r.1 r.2 n b
    else return (d, st, b)

/-- The loop over the characters in the quotes `q`. -/
def quotedChars (q : Int) : Nat → σ → Int → StrBuff → Int → Except Stop (σ × StrBuff × Int)
  | 0, _, _, _, _ => .error .unfinished
  | fuel + 1, st, n, b, lastc => do
    let (d, lastc, st) ← readCharacter src charset q lastc st
    if d = -1 then return (st, b, lastc)
    else
      let (b, n) ← b.codepointToUtf8Str n d
      quotedChars q fuel st n b lastc

/-- A name in the buffer, as the token of the given type or, in front of a parenthesis, as that of
the other one. -/
def named (type funcType : TokenType) (c : Int) (st : σ) (b : StrBuff) (lastc : Int) : Lexed σ F :=
  ⟨⟨if c = code '(' then funcType else type, .text b.string, c⟩, st, b, lastc⟩

/-- `SYMBOL`. -/
def symbol (c : Int) (st : σ) (b : StrBuff) (lastc : Int) : Lexed σ F :=
  named .ATOM .FUNC c st b lastc

/-- A name that begins with `c`. -/
def name (type funcType : TokenType) (c : Int) (st : σ) (b : StrBuff) (lastc : Int) :
    Except Stop (Lexed σ F) := do
  let (c, st, b) ← nameChars src charset (src.size st + 1) c st b.len b
  b.terminate
  return named type funcType c st b lastc

/-- A symbol atom or the end of a clause, from the second character on. -/
def signs (c d : Int) (st : σ) (b : StrBuff) (lastc : Int) : Except Stop (Lexed σ F) := do
  let n := b.len
  let b ← b.put c
  let (d, st, b) ← signChars src charset (src.size st + 2) d st n b
  b.terminate
  if (CharClass.SPACE.toNat ≤ (← inType d).toNat ∨ d = code '%') ∧ c = code '.' ∧
      b.text.getD 1 0 = 0 then
    return ⟨⟨.EOC, .none, d⟩, src.unGetC d st, b, lastc⟩
  else return symbol d st b lastc

/-- A quoted atom or a double-quoted string up to its end. -/
def quoted (q : Int) (st : σ) (b : StrBuff) (lastc : Int) : Except Stop (σ × StrBuff × Int) := do
  let (st, b, lastc) ← quotedChars src charset q (src.size st + 1) st b.len b lastc
  b.terminate
  return (st, b, lastc)

/-- The case `SIGN`: a symbol atom, a number that begins with its point, the end of a clause, or a
comment, behind which `START` goes on. -/
def signCase (c : Int) (st : σ) (b : StrBuff) (lastc : Int) :
    Except Stop ((Int × σ) ⊕ Lexed σ F) := do
  -- s stays, so that this character is written again
  let _ ← b.put c
  let d := getCode src charset st
  if c = code '/' ∧ d.1 = code '*' then
    let (closed, st) ← com2plain src d.1 (code '/') (src.size d.2 + 1) false d.2
    if closed then return .inl (getCode src charset st)
    else .error (.syntaxError .eofInRem)
  else if c = code '.' then
    if (← inType d.1) = .DIGIT then
      let b ← b.put (code '0')
      .inr <$> decimal src charset fl d.1 d.2 b lastc
    else .inr <$> signs src charset c d.1 d.2 b lastc
  else .inr <$> signs src charset c d.1 d.2 b lastc

/-- The case `NOBLE`. Tests on characters that are not of the class are left out, here and below. -/
def nobleCase (c : Int) (st : σ) (b : StrBuff) (lastc : Int) : Except Stop (Lexed σ F) := do
  let b ← b.put c
  b.terminate
  let r := getCode src charset st
  return symbol r.1 r.2 b lastc

/-- A punctuation mark in front of the code `d`, or one of the atoms `{}` and `[]`. -/
def punctuation (c d : Int) (st : σ) (b : StrBuff) (lastc : Int) : Except Stop (Lexed σ F) :=
  if c = code '{' ∧ d = code '}' ∨ c = code '[' ∧ d = code ']' then do
    let b ← b.put c
    let b ← b.put d
    b.terminate
    let r := getCode src charset st
    return symbol r.1 r.2 b lastc
  else do
    let b ← b.put c
    b.terminate
    return ⟨⟨if c = code ')' ∧ d = code '(' then .HPUNC else .PUNC, .text b.string, d⟩,
      st, b, lastc⟩

/-- The case `PUNCT`. `START` goes on behind a comment. -/
def punctCase (c : Int) (st : σ) (b : StrBuff) (lastc : Int) :
    Except Stop ((Int × σ) ⊕ Lexed σ F) :=
  if c = code '%' then .inl <$> com0plain src (src.size st + 1) st
  else
    let d := getCode src charset st
    .inr <$> punctuation src charset c d.1 d.2 b lastc

/-- The case `ATMQT`. -/
def atomCase (q : Int) (st : σ) (b : StrBuff) (lastc : Int) : Except Stop (Lexed σ F) := do
  let (st, b, lastc) ← quoted src charset q st b lastc
  return symbol lastc st b lastc

/-- The case `LISQT`. -/
def listCase (q : Int) (st : σ) (b : StrBuff) (lastc : Int) : Except Stop (Lexed σ F) := do
  let (st, b, lastc) ← quoted src charset q st b lastc
  return ⟨⟨.LIST, .text b.string, lastc⟩, st, b, lastc⟩

/-- `GetToken` from `START` on, where `c` has been read. -/
def start (b : StrBuff) (lastc : Int) : Nat → Int → σ → Except Stop (Lexed σ F)
  | 0, _, _ => .error .unfinished
  | fuel + 1, c, st => do
    match ← inType c with
    | .DIGIT => number src charset fl c st b lastc
    | .BREAK => name src charset .VVAR .VVARFUNC c st b lastc
    | .UPPER => name src charset .VAR .VARFUNC c st b lastc
    | .LOWER => name src charset .ATOM .FUNC c st b lastc
    | .SIGN =>
      match ← signCase src charset fl c st b lastc with
      | .inl r => start b lastc fuel r.1 r.2
      | .inr l => return l
    | .NOBLE => nobleCase src charset c st b lastc
    | .PUNCT =>
      match ← punctCase src charset c st b lastc with
      | .inl r => start b lastc fuel r.1 r.2
      | .inr l => return l
    | .ATMQT => atomCase src charset c st b lastc
    | .LISQT => listCase src charset c st b lastc
    | .SPACE | .EOLN =>
      let r := getCode src charset st
      start b lastc fuel r.1 r.2
    | .EOFCH => return ⟨⟨.EOF, .none, code ' '⟩, st, b, lastc⟩

/-- `GetToken`. The buffer of the calls before is used again from its first byte on. -/
def getToken (prevch : Int) (st : σ) (b : StrBuff) (lastc : Int) : Except Stop (Lexed σ F) :=
  start src charset fl { b with text := [] } lastc (src.size st + 2) prevch st

end Names

end XSBEngine.Reading
