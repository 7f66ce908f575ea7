import XSBEngine.Library.Machine
import XSBEngine.Reading.Tokens

/-!
# Canonical terms

`read_canonical_term` with its two stacks, `XSB/emu/io_builtins_xsb.c:764–1290`, and the decoders of
strings, `XSB/emu/token_xsb.c:358–360, 446–512`. What is returned about the functor of the term and
the copy to the heap are left out.
-/

namespace XSBEngine.Reading

open Library

/-- A term in the term buffer. A variable is told by its entry in `rc_vars`. -/
inductive Term (F : Type) where
  | var (i : Nat)
  | atom (name : List UInt8)
  | integer (i : Int)
  | boxedint (i : Int)
  | boxedfloat (x : F)
  | struct (name : List UInt8) (args : List (Term F))
  | list (head tail : Term F)

namespace Term

variable {F : Type}

/-- The empty list. -/
def nil : Term F := .atom [91, 93]

mutual

/-- The cells that a term takes in the term buffer. -/
def cells : Term F → Nat
  | .var _ => 0
  | .atom _ => 0
  | .integer _ => 0
  | .boxedint _ => 4
  | .boxedfloat _ => 4
  | .struct _ args => args.length + 1 + cellsAll args
  | .list head tail => 2 + head.cells + tail.cells

/-- The cells that some terms take. -/
def cellsAll : List (Term F) → Nat
  | [] => 0
  | t :: ts => t.cells + cellsAll ts

end

/-- A term for each of the given ones, all of them in a list with the given tail. -/
def listOf (ts : List (Term F)) (tail : Term F) : Term F := ts.foldr .list tail

/-- The terms of a comma list in front of the last one. -/
def commas (ts : List (Term F)) (last : Term F) : Term F :=
  ts.foldr (fun t tail => .struct [44] [t, tail]) last

end Term

/-- The types of operands. -/
inductive OpType where
  | VAR
  | ATOM
  | INT
  | FUNC
deriving DecidableEq

/-- `struct opstktype`. -/
structure Operand (F : Type) where
  typ : OpType
  op : Term F

/-- The operand is the atom `-`. -/
def Operand.isMinus {F : Type} (x : Operand F) : Bool :=
  match x.typ, x.op with
  | .ATOM, .atom name => name = [45]
  | _, _ => false

/-- The values of `funtyp`. -/
inductive FunType where
  | FUNFUN
  | FUNLIST
  | FUNDTLIST
  | FUNCOMMALIST
deriving DecidableEq

/-- `struct funstktype`. -/
structure FunEntry where
  name : List UInt8
  funop : Nat
  funtyp : FunType

/-- Why a call ends without a result: an access outside `opstk` or `funstk`, or a token that is not
read. -/
inductive ReadStop where
  | stack
  | token (e : Stop)
deriving DecidableEq

/-- What a call gives. -/
inductive Outcome (F : Type) where
  | term (t : Term F)
  | endOfFile
  | formatError
  | tooManyVariables

/-- What a call does next: it reads a token, it is in the loop over the characters of a string, it
skips the tokens behind an error, or it has ended. -/
inductive Mode (F : Type) where
  | reading
  | string (codes : List Int) (rest : List UInt8)
  | skipping (type : TokenType)
  | finished (outcome : Outcome F)

/-- The state of a call. The stacks are kept with all their entries, `rc_vars` as the list of those
in use, where the anonymous variables have no name, and `h` as the number of cells written. -/
structure ReadState (τ F : Type) where
  stream : τ
  prevchar : Int
  opstk : List (Operand F)
  funstk : List FunEntry
  optop : Nat
  funtop : Nat
  vars : List (Option (List UInt8))
  size : Nat
  h : Nat
  postopreq : Bool
  mode : Mode F

/-- `INIT_STK_SIZE`. -/
def INIT_STK_SIZE : Nat := 32

/-- `MAX_INIT_STK_SIZE`. -/
def MAX_INIT_STK_SIZE : Nat := 1000

/-- `MAXVAR`. -/
def MAXVAR : Nat := 1000

/-- `int_overflow`. -/
def overflows (i : Int) : Bool := i < -2 ^ 60 ∨ 2 ^ 60 ≤ i

namespace Token

variable {F : Type}

/-- The string that `value` leads to. -/
def text (t : Token F) : List UInt8 :=
  match t.value with
  | .text bytes => bytes
  | _ => []

/-- `*token->value`. -/
def mark (t : Token F) : UInt8 := t.text.headD 0

/-- `*(Integer *)(token->value)`. -/
def integer (t : Token F) : Int :=
  match t.value with
  | .integer i => i
  | _ => 0

/-- `*(double *)(token->value)`. -/
def real (fl : Doubles F) (t : Token F) : F :=
  match t.value with
  | .real x => x
  | _ => fl.ofInteger 0

/-- The atom `-`. -/
def isMinus (t : Token F) : Bool := t.type = .ATOM ∧ t.text = [45]

/-- The end of a clause or of the input. -/
def isEnd (t : Token F) : Bool := t.type = .EOC ∨ t.type = .EOF

end Token

/-- Where the tokens come from. A token that is not the end makes the input shorter. A parenthesis
that has been read is the next token, and brackets around nothing are one token. -/
structure TokenSource (τ F : Type) where
  getToken : Int → τ → Except Stop (Token F × τ)
  size : Int → τ → Nat
  finishes (c : Int) (st : τ) : getToken c st ≠ .error .unfinished
  shorter {c : Int} {st st' : τ} {t : Token F} : getToken c st = .ok (t, st') → ¬ t.isEnd →
    size t.nextch st' < size c st
  openParen {st st' : τ} {t : Token F} : getToken 40 st = .ok (t, st') →
    t.type = .PUNC ∧ t.text = [40]
  closeParen {st st' : τ} {t : Token F} : getToken 41 st = .ok (t, st') →
    (t.type = .PUNC ∧ t.nextch ≠ 40 ∨ t.type = .HPUNC) ∧ t.text = [41]
  bracket {c : Int} {st st' : τ} {t : Token F} : getToken c st = .ok (t, st') → t.type = .PUNC →
    t.mark = 91 → t.nextch ≠ 93

section Decoding

/-- `utf8_char_to_codepoint`: the code point and what follows it. The string ends with a 0. -/
def utf8CharToCodepoint : List UInt8 → Int × List UInt8
  | [] => (0, [])
  | b :: rest =>
    let c : Int := b.toNat
    let b2 : Int := (rest.getD 0 0).toNat
    let b3 : Int := (rest.getD 1 0).toNat
    let b4 : Int := (rest.getD 2 0).toNat
    if bits c 0x80 = 0 then (c, rest)
    else if bits c 0xe0 = 0xc0 then
      if continues b2 then ((bits c 0x1f <<< 6 ||| bits b2 0x3f : Nat), rest.drop 1) else (c, rest)
    else if bits c 0xf0 = 0xe0 then
      if continues b2 ∧ continues b3 then
        ((bits c 0xf <<< 12 ||| bits b2 0x3f <<< 6 ||| bits b3 0x3f : Nat), rest.drop 2)
      else (c, rest)
    else if bits c 0xf8 = 0xf0 then
      if continues b2 ∧ continues b3 ∧ continues b4 then
        ((bits c 0xf <<< 18 ||| bits b2 0x3f <<< 12 ||| bits b3 0x3f <<< 6 ||| bits b4 0x3f : Nat),
          rest.drop 3)
      else (c, rest)
    else (c, rest)

/-- `char_to_codepoint`. For `LATIN_1` it is the local pointer that goes on. -/
def charToCodepoint (charset : Charset) (string : List UInt8) : Int × List UInt8 :=
  match charset with
  | .latin1 => ((string.headD 0).toNat, string)
  | .utf8 => utf8CharToCodepoint string
  | .cp1252 => (codePage1252 (string.headD 0).toNat, string.tail)

end Decoding

namespace ReadState

variable {τ F : Type} (s : ReadState τ F)

/-- `opstk[j]`. -/
def readOp (j : Nat) : Except ReadStop (Operand F) :=
  match s.opstk[j]? with
  | some x => .ok x
  | none => .error .stack

/-- `opstk[j]` for all `j` from `i` on below `k`. -/
def readOps (i k : Nat) : Except ReadStop (List (Operand F)) :=
  if k ≤ i ∨ k ≤ s.opstk.length then .ok ((s.opstk.take k).drop i) else .error .stack

/-- `opstk[j] = x`. -/
def writeOp (j : Nat) (x : Operand F) : Except ReadStop (ReadState τ F) :=
  if j < s.opstk.length then .ok { s with opstk := s.opstk.set j x } else .error .stack

/-- `funstk[j]`. -/
def readFun (j : Nat) : Except ReadStop FunEntry :=
  match s.funstk[j]? with
  | some e => .ok e
  | none => .error .stack

/-- `funstk[j] = e`. -/
def writeFun (j : Nat) (e : FunEntry) : Except ReadStop (ReadState τ F) :=
  if j < s.funstk.length then .ok { s with funstk := s.funstk.set j e } else .error .stack

/-- `expand_opstk`, if the stack is full. The new entries have arbitrary values. -/
def roomOp : ReadState τ F :=
  if s.opstk.length ≤ s.optop then
    { s with opstk := s.opstk ++ List.replicate s.opstk.length ⟨.INT, .integer 0⟩ }
  else s

/-- `expand_funstk`, if the stack is full. -/
def roomFun : ReadState τ F :=
  if s.funstk.length ≤ s.funtop then
    { s with funstk := s.funstk ++ List.replicate s.funstk.length ⟨[], 0, .FUNFUN⟩ }
  else s

/-- An operand is pushed. -/
def pushOp (x : Operand F) : Except ReadStop (ReadState τ F) := do
  let s ← s.roomOp.writeOp s.optop x
  return { s with optop := s.optop + 1, postopreq := true }

/-- An entry is pushed on `funstk`. The name matters for functors only. -/
def pushFun (name : List UInt8) (funtyp : FunType) : Except ReadStop (ReadState τ F) := do
  let s ← s.roomFun.writeFun s.funtop ⟨name, s.optop, funtyp⟩
  return { s with funtop := s.funtop + 1 }

/-- The operands from `op1` on are replaced by one term, for which `n` cells are written. -/
def build (op1 n : Nat) (t : Term F) : Except ReadStop (ReadState τ F) := do
  let s ← s.writeOp op1 ⟨.FUNC, t⟩
  return { s with optop := op1 + 1, size := s.size + n, h := s.h + n }

/-- A boxed number is written, and counted if `counted` says so. -/
def box (counted : Bool) : ReadState τ F :=
  { s with h := s.h + 4, size := if counted then s.size + 4 else s.size }

/-- `read_can_error`, with the current token. -/
def fail (type : TokenType) : ReadState τ F := { s with mode := .skipping type }

/-- A closing parenthesis behind the arguments of a functor. -/
def closeFun (e : FunEntry) : Except ReadStop (ReadState τ F) := do
  let op1 := e.funop
  let arity := s.optop - op1
  if arity = 2 ∧ e.name = [46] then
    let head ← s.readOp op1
    let tail ← s.readOp (op1 + 1)
    s.build op1 2 (.list head.op tail.op)
  else
    let args ← s.readOps op1 s.optop
    s.build op1 (arity + 1) (.struct e.name (args.map Operand.op))

/-- A closing parenthesis behind a comma list. -/
def closeCommaList (e : FunEntry) : Except ReadStop (ReadState τ F) :=
  let op1 := e.funop
  if op1 + 1 = s.optop then .ok s
  else do
    let first ← s.readOp op1
    let middle ← s.readOps (op1 + 1) (s.optop - 1)
    let last ← s.readOp (s.optop - 1)
    let terms := first.op :: middle.map Operand.op
    s.build op1 (3 * terms.length) (.commas terms last.op)

/-- A closing bracket. -/
def closeList (e : FunEntry) : Except ReadStop (ReadState τ F) := do
  let op1 := e.funop
  let first ← s.readOp op1
  if op1 + 1 = s.optop then s.build op1 2 (.list first.op .nil)
  else
    let middle ← s.readOps (op1 + 1) (s.optop - 1)
    let last ← s.readOp (s.optop - 1)
    let terms := first.op :: middle.map Operand.op
    if e.funtyp = .FUNLIST then
      s.build op1 (2 * terms.length + 2) (.listOf (terms ++ [last.op]) .nil)
    else s.build op1 (2 * terms.length) (.listOf terms last.op)

/-- A punctuation mark behind an operand. -/
def closing (token : Token F) : Except ReadStop (ReadState τ F) :=
  if token.mark = 41 then
    if s.funtop = 0 then .error .stack
    else do
      let s : ReadState τ F := { s with funtop := s.funtop - 1 }
      let e ← s.readFun s.funtop
      if e.funtyp = .FUNFUN then s.closeFun e
      else if e.funtyp = .FUNCOMMALIST then s.closeCommaList e
      else return s.fail token.type
  else if token.mark = 93 then
    if s.funtop = 0 then .error .stack
    else do
      let s : ReadState τ F := { s with funtop := s.funtop - 1 }
      let e ← s.readFun s.funtop
      if e.funtyp = .FUNFUN ∨ e.funtyp = .FUNCOMMALIST then return s.fail token.type
      else s.closeList e
  else if token.mark = 44 then .ok { s with postopreq := false }
  else if token.mark = 124 then
    if s.funtop = 0 then .error .stack
    else do
      let s : ReadState τ F := { s with postopreq := false }
      let e ← s.readFun (s.funtop - 1)
      if e.funtyp ≠ .FUNLIST then return s.fail token.type
      else s.writeFun (s.funtop - 1) { e with funtyp := .FUNDTLIST }
  else .ok (s.fail token.type)

/-- A number behind the atom `-`, which is replaced by the negative number. -/
def backpatch (fl : Doubles F) (token : Token F) : Except ReadStop (ReadState τ F) :=
  if s.optop = 0 then .error .stack
  else do
    let x ← s.readOp (s.optop - 1)
    if x.isMinus then
      if token.type = .INT then
        let i := wrap64 (-token.integer)
        if overflows i then (s.box true).writeOp (s.optop - 1) ⟨.FUNC, .boxedint i⟩
        else s.writeOp (s.optop - 1) ⟨.INT, .integer i⟩
      else if token.type = .REAL then
        (s.box true).writeOp (s.optop - 1) ⟨.FUNC, .boxedfloat (fl.neg (token.real fl))⟩
      else return s.fail token.type
    else return s.fail token.type

/-- An operand that is a variable without a name. -/
def anonymous : Except ReadStop (ReadState τ F) :=
  if MAXVAR ≤ s.vars.length then .ok { s with mode := .finished .tooManyVariables }
  else ({ s with vars := s.vars ++ [none] } : ReadState τ F).pushOp ⟨.VAR, .var s.vars.length⟩

/-- An operand that is a variable with a name, which is looked for in `rc_vars`. -/
def named (name : List UInt8) : Except ReadStop (ReadState τ F) :=
  match s.vars.findIdx? (· = some name) with
  | some i => s.pushOp ⟨.VAR, .var i⟩
  | none =>
    if MAXVAR ≤ s.vars.length then .ok { s with mode := .finished .tooManyVariables }
    else
      ({ s with vars := s.vars ++ [some name] } : ReadState τ F).pushOp ⟨.VAR, .var s.vars.length⟩

/-- An operand that is an integer. Here a boxed one is not counted. -/
def integer (i : Int) : Except ReadStop (ReadState τ F) :=
  if overflows i then (s.box false).pushOp ⟨.FUNC, .boxedint i⟩
  else s.pushOp ⟨.INT, .integer i⟩

/-- An operand that is a string, from its first character on. -/
def string (charset : Charset) (text : List UInt8) : Except ReadStop (ReadState τ F) :=
  if text = [] then s.pushOp ⟨.ATOM, .nil⟩
  else
    let r := charToCodepoint charset text
    .ok { s with size := s.size + 2, h := s.h + 2, mode := .string [r.1] r.2 }

end ReadState

section Reading

variable {τ F : Type} (src : TokenSource τ F) (charset : Charset) (fl : Doubles F)

/-- `GetToken`, with the state behind the token. -/
def ReadState.getToken (s : ReadState τ F) : Except ReadStop (Token F × ReadState τ F) :=
  match src.getToken s.prevchar s.stream with
  | .ok (t, st) => .ok (t, { s with stream := st, prevchar := t.nextch })
  | .error e => .error (.token e)

/-- A functor, whose parenthesis is read. -/
def ReadState.functor (s : ReadState τ F) (token : Token F) :
    Except ReadStop (ReadState τ F) := do
  let s ← s.pushFun token.text .FUNFUN
  if token.nextch ≠ 40 then return s.fail token.type
  else
    let (par, s) ← s.getToken src
    return if par.nextch = 41 then { s with postopreq := true } else s

/-- A token where an operand has to be. -/
def ReadState.operand (s : ReadState τ F) (token : Token F) : Except ReadStop (ReadState τ F) :=
  match token.type with
  | .PUNC =>
    if token.mark = 91 then
      if token.nextch = 93 then do
        let (_, s) ← s.roomOp.getToken src
        s.pushOp ⟨.ATOM, .nil⟩
      else s.pushFun [] .FUNLIST
    else if token.mark = 40 then s.pushFun [] .FUNCOMMALIST
    else s.functor src token
  | .FUNC => s.functor src token
  | .VVAR => if token.text.getD 1 0 = 0 then s.anonymous else s.named token.text
  | .VAR => s.named token.text
  | .REAL => (s.box true).pushOp ⟨.FUNC, .boxedfloat (token.real fl)⟩
  | .INT => s.integer token.integer
  | .ATOM => s.pushOp ⟨.ATOM, .atom token.text⟩
  | .LIST => s.string charset token.text
  | .EOF => .ok { s with mode := .finished .endOfFile }
  | _ => .ok (s.fail token.type)

/-- What follows each token: if no bracket is open and the token is not the atom `-` then the term
is finished. -/
def ReadState.finish (s : ReadState τ F) (minus : Bool) : Except ReadStop (ReadState τ F) :=
  match s.mode with
  | .reading =>
    if minus ∨ s.funtop ≠ 0 then .ok s
    else do
      let (token, s) ← s.getToken src
      if ¬ token.isEnd then return s.fail token.type
      else
        let x ← s.readOp 0
        let s : ReadState τ F :=
          if MAX_INIT_STK_SIZE < s.opstk.length then { s with opstk := [], funstk := [] } else s
        return { s with mode := .finished (.term x.op) }
  | _ => .ok s

/-- A step of `read_canonical_term`. -/
def ReadState.step (s : ReadState τ F) : Except ReadStop (ReadState τ F) :=
  match s.mode with
  | .reading => do
    let (token, s) ← s.getToken src
    let s ←
      if s.postopreq then
        if token.type = .PUNC then s.closing token else s.backpatch fl token
      else s.operand src charset fl token
    s.finish src token.isMinus
  | .string codes rest =>
    if rest = [] then do
      let s ← ({ s with mode := .reading } : ReadState τ F).pushOp
        ⟨.FUNC, .listOf (codes.map .integer) .nil⟩
      s.finish src false
    else
      let r := charToCodepoint charset rest
      .ok { s with size := s.size + 2, h := s.h + 2, mode := .string (codes ++ [r.1]) r.2 }
  | .skipping type =>
    if type = .EOC ∨ type = .EOF then .ok { s with mode := .finished .formatError }
    else do
      let (token, s) ← s.getToken src
      return s.fail token.type
  | .finished _ => .ok s

/-- `read_canonical_term` as a machine. -/
def readCanonicalTerm : Machine (ReadState τ F) ReadStop where
  halted s :=
    match s.mode with
    | .finished _ => true
    | _ => false
  step := ReadState.step src charset fl

/-- The stacks between calls: none, or at least as many entries as they begin with. -/
structure CanonicalStacks (F : Type) where
  opstk : List (Operand F)
  funstk : List FunEntry
  sized : opstk = [] ∨ INIT_STK_SIZE ≤ opstk.length ∧ INIT_STK_SIZE ≤ funstk.length

/-- The state in which a call begins to read. Stacks that are not there are allocated. -/
def ReadState.start (old : CanonicalStacks F) (stream : τ) : ReadState τ F where
  stream := stream
  prevchar := 10
  opstk :=
    if old.opstk = [] then List.replicate INIT_STK_SIZE ⟨.INT, .integer 0⟩ else old.opstk
  funstk := if old.opstk = [] then List.replicate INIT_STK_SIZE ⟨[], 0, .FUNFUN⟩
    else old.funstk
  optop := 0
  funtop := 0
  vars := []
  size := 0
  h := 0
  postopreq := false
  mode := .reading

end Reading

end XSBEngine.Reading
