import XSBEngine.Heap.Cells

/-!
# Evaluation of arithmetic expressions

`xsb_eval`, `XSB/emu/function.c:347–759`, over the numbers of `XSB/emu/function.h:29–53`, on
machines whose integers wrap around and whose integer division traps.
-/

namespace XSBEngine.Arith

open Heap

/-- `FltInt`: an `Integer` of 64 bits or a `Float`. -/
inductive FltInt where
  | int (i : BitVec 64)
  | flt (x : Float64)
deriving DecidableEq

/-- What evaluation comes to: `xsb_eval` returns 1 with a value or without having set one, it
returns 0, `arithmetic_abort` raises an error for a term, or the division of the machine traps. -/
inductive EvalResult where
  | value (v : FltInt)
  | unset
  | failed
  | abort (op1 : Cell) (op : String) (op2 : Cell)
  | trap
deriving DecidableEq

/-- An integer, unless the machine has trapped. -/
def EvalResult.ofInt : Option (BitVec 64) → EvalResult
  | some i => .value (.int i)
  | none => .trap

/-! ### Integers -/

/-- The division of the machine: it rounds towards zero, and traps for a zero divisor and for a
quotient that is too large. -/
def machineDiv (a b : BitVec 64) : Option (BitVec 64) :=
  if b = 0 ∨ a = .intMin 64 ∧ b = -1 then none else some (a.sdiv b)

/-- The remainder of the machine. -/
def machineRem (a b : BitVec 64) : Option (BitVec 64) :=
  if b = 0 ∨ a = .intMin 64 ∧ b = -1 then none else some (a.srem b)

/-- A cast to `Float`. -/
def toFloat (fl : Floats) (i : BitVec 64) : Float64 := fl.ofInt i.toInt

/-- A cast to `Integer`. -/
def toInteger (fl : Floats) (x : Float64) : BitVec 64 := .ofInt 64 (fl.toInt x)

/-- A number where a `Float` is expected. -/
def FltInt.toFloat (fl : Floats) : FltInt → Float64
  | .int i => Arith.toFloat fl i
  | .flt x => x

/-- A number where an `Integer` is cast from it. -/
def FltInt.toInteger (fl : Floats) : FltInt → BitVec 64
  | .int i => i
  | .flt x => Arith.toInteger fl x

/-- `(Integer)floor((Float)a / (Float)b)`. -/
def floorDiv (fl : Floats) (a b : BitVec 64) : BitVec 64 :=
  toInteger fl (fl.floor (fl.div (toFloat fl a) (toFloat fl b)))

/-- Shifts of the machine, which takes the count modulo 64. -/
def shiftCount (b : BitVec 64) : Nat := b.toNat % 64

/-! ### Operators -/

/-- The operators that are the same for numbers of both kinds. -/
inductive ArithOp where
  | add
  | sub
  | mul
deriving DecidableEq, Repr

def ArithOp.ofInts : ArithOp → BitVec 64 → BitVec 64 → BitVec 64
  | .add => (· + ·)
  | .sub => (· - ·)
  | .mul => (· * ·)

def ArithOp.ofFloats (fl : Floats) : ArithOp → Float64 → Float64 → Float64
  | .add => fl.add
  | .sub => fl.sub
  | .mul => fl.mul

/-- Two integers give an integer, other numbers a float. -/
def ArithOp.eval (fl : Floats) (op : ArithOp) : FltInt → FltInt → FltInt
  | .int a, .int b => .int (op.ofInts a b)
  | x, y => .flt (op.ofFloats fl (x.toFloat fl) (y.toFloat fl))

/-- Operators for integers only. -/
def evalInts (f : BitVec 64 → BitVec 64 → EvalResult) : FltInt → FltInt → EvalResult
  | .int a, .int b => f a b
  | _, _ => .failed

/-- `**`, and `^` for what is not two integers. -/
def evalPow (fl : Floats) : FltInt → FltInt → EvalResult
  | .flt x, .flt y =>
    if fl.lt x (fl.ofInt 0) then .failed else .value (.flt (fl.pow x y))
  | x, y => .value (.flt (fl.pow (x.toFloat fl) (y.toFloat fl)))

/-- `mod`. -/
def evalMod (fl : Floats) : FltInt → FltInt → FltInt
  | .int a, .int b => .int (a - floorDiv fl a b * b)
  | x, y =>
    let q := fl.floor (fl.div (x.toFloat fl) (y.toFloat fl))
    .flt (fl.sub (x.toFloat fl) (fl.mul q (y.toFloat fl)))

/-- The comparisons of `min` and `max`. -/
def FltInt.lt (fl : Floats) : FltInt → FltInt → Bool
  | .int a, .int b => a.toInt < b.toInt
  | x, y => fl.lt (x.toFloat fl) (y.toFloat fl)

/-- `strcmp` with a name of ASCII characters. -/
def nameIs (name : CString) (s : String) : Bool :=
  name.bytes = s.toList.map fun c => c.toNat.toUInt8

/-- The `switch` on the names of binary operators. The operands are given too, for an error. -/
def evalBinary (fl : Floats) (name : CString) (op1 op2 : Cell) (x y : FltInt) : EvalResult :=
  if nameIs name "+" then .value (ArithOp.add.eval fl x y)
  -- no value is set for another name that begins so
  else if name.bytes.head? = some 43 then .unset
  else if nameIs name "*" then .value (ArithOp.mul.eval fl x y)
  else if nameIs name "**" then evalPow fl x y
  else if nameIs name "^" then
    match x, y with
    | .int a, .int b => .value (.int (toInteger fl (fl.pow (toFloat fl a) (toFloat fl b))))
    | x, y => evalPow fl x y
  else if nameIs name "atan" || nameIs name "atan2" then
    .value (.flt (fl.atan2 (x.toFloat fl) (y.toFloat fl)))
  else if nameIs name "rem" then .ofInt (machineRem (x.toInteger fl) (y.toInteger fl))
  else if nameIs name "div" then
    match x, y with
    | .int a, .int b => .value (.int (floorDiv fl a b))
    | _, _ => .abort op2 "div" op1
  else if nameIs name "mod" then .value (evalMod fl x y)
  else if nameIs name "min" then .value (if x.lt fl y then x else y)
  else if nameIs name "max" then .value (if y.lt fl x then x else y)
  else if nameIs name "-" then .value (ArithOp.sub.eval fl x y)
  else if nameIs name "/" then .value (.flt (fl.div (x.toFloat fl) (y.toFloat fl)))
  else if nameIs name "//" then evalInts (fun a b => .ofInt (machineDiv a b)) x y
  else if nameIs name "/\\" then evalInts (fun a b => .value (.int (a &&& b))) x y
  else if nameIs name "<<" then evalInts (fun a b => .value (.int (a <<< shiftCount b))) x y
  else if nameIs name "><" then evalInts (fun a b => .value (.int (a ^^^ b))) x y
  else if nameIs name ">>" then
    evalInts (fun a b => .value (.int (a.sshiftRight (shiftCount b)))) x y
  else if nameIs name "\\/" then evalInts (fun a b => .value (.int (a ||| b))) x y
  else if nameIs name "xor" then evalInts (fun a b => .value (.int (a ^^^ b))) x y
  else .failed

/-- The functions of the mathematical library that have their own names. -/
def mathNames : List String :=
  ["sin", "sqrt", "sinh", "cos", "cosh", "tan", "tanh", "exp", "log", "log10", "lgamma", "asin",
    "acos", "atan", "asinh"]

/-- The functions that an integer is returned by. -/
def evalRounding (x : FltInt) (f : Float64 → BitVec 64) : EvalResult :=
  match x with
  | .int a => .value (.int a)
  | .flt x => .value (.int (f x))

/-- `sign`. -/
def evalSign (fl : Floats) : FltInt → BitVec 64
  | .int a => if 0 < a.toInt then 1 else if a = 0 then 0 else -1
  | .flt x => if fl.lt (fl.ofInt 0) x then 1 else if fl.eq x (fl.ofInt 0) then 0 else -1

/-- `abs`. -/
def evalAbs (fl : Floats) : FltInt → FltInt
  | .int a => .int (if 0 ≤ a.toInt then a else -a)
  | .flt x => .flt (if fl.lt (fl.ofInt 0) x || fl.eq x (fl.ofInt 0) then x else fl.neg x)

/-- The `switch` on the names of functions. -/
def evalUnary (fl : Floats) (name : CString) (x : FltInt) : EvalResult :=
  if nameIs name "-" then
    match x with
    | .int a => .value (.int (-a))
    | .flt x => .value (.flt (fl.neg x))
  else if nameIs name "+" then .value x
  else if nameIs name "\\" then
    match x with
    | .int a => .value (.int (~~~a))
    -- the bits of the float are taken for an integer
    | .flt x => .value (.int (~~~x))
  else if nameIs name "sign" then .value (.int (evalSign fl x))
  else if nameIs name "ceiling" then evalRounding x fun x => -toInteger fl (fl.floor (fl.neg x))
  else if nameIs name "truncate" then
    evalRounding x fun x =>
      if fl.lt (fl.ofInt 0) x then toInteger fl (fl.floor x)
      else -toInteger fl (fl.floor (fl.neg x))
  else if nameIs name "float" then .value (.flt (x.toFloat fl))
  else if nameIs name "floor" then evalRounding x fun x => toInteger fl (fl.floor x)
  else if nameIs name "erf" then
    match x with
    | .int a => .value (.flt (fl.fn "erf" (toFloat fl a)))
    | .flt x => .value (.flt (fl.fn "exp" x))
  else if nameIs name "abs" then .value (evalAbs fl x)
  else if nameIs name "round" then
    evalRounding x fun x => toInteger fl (fl.floor (fl.add x 0x3fe0000000000000))
  else
    match mathNames.find? (nameIs name) with
    | some s => .value (.flt (fl.fn s (x.toFloat fl)))
    | none => .failed

/-- The loop of `xsb_calculate_epsilon`. -/
def epsilonLoop (fl : Floats) : Nat → Float64 → Option Float64
  | 0, _ => none
  | n + 1, ep =>
    if fl.lt (fl.ofInt 1) (fl.add (fl.ofInt 1) ep) then epsilonLoop fl n (fl.div ep (fl.ofInt 2))
    else some (fl.mul ep (fl.ofInt 2))

/-- `xsb_calculate_epsilon`. A `double` is halved to zero in less than 1100 rounds. -/
def xsbCalculateEpsilon (fl : Floats) : Option Float64 := epsilonLoop fl 1100 (fl.ofInt 1)

/-- The atoms that have a value. -/
def evalAtom (fl : Floats) (s : CString) : Option EvalResult :=
  if nameIs s "pi" then some (.value (.flt 0x400921fb54442d18))
  else if nameIs s "e" then some (.value (.flt 0x4005bf0a8b145769))
  else if nameIs s "epsilon" then (xsbCalculateEpsilon fl).map fun x => .value (.flt x)
  else some .failed

/-- The number that a cell is, if it is one. -/
def numberOf (mem : Nat → Cell) (c : Cell) : Option FltInt :=
  if isointeger mem c then some (.int (.ofInt 64 (ointVal mem c)))
  else if isofloat mem c then some (.flt (ofloatVal mem c))
  else none

/-- `xsb_eval`. The bound is on the depth of the expression. -/
def xsbEval (fl : Floats) (mem : Nat → Cell) : Nat → Cell → Option EvalResult
  | 0, _ => none
  | n + 1, expr => do
    let expr ← deref mem (n + 1) expr
    match numberOf mem expr with
    | some v => some (.value v)
    | none =>
      match expr with
      | .cs a => do
        let opPsc ← getStrPsc mem a
        if opPsc.arity = 2 then
          match ← xsbEval fl mem n (mem (a + 1)) with
          | .value x =>
            match ← xsbEval fl mem n (mem (a + 2)) with
            | .value y =>
              some (evalBinary fl opPsc.name (mem (a + 1)) (mem (a + 2)) x y)
            | res => some res
          | res => some res
        else if opPsc.arity = 1 then
          match ← xsbEval fl mem n (mem (a + 1)) with
          | .value x => some (evalUnary fl opPsc.name x)
          | res => some res
        else some .failed
      | .string s => evalAtom fl s
      | _ => some .failed

end XSBEngine.Arith
