import XSBEngine.Arith.Eval

/-!
# Arithmetic instructions

`addreg`, `subreg`, `mulreg`, `idivreg` and `fdivreg`, `XSB/emu/emuloop.c:1742–1819, 2087–2159`,
with the numbers that they store, `XSB/emu/cell_xsb.h:361–387` and `XSB/emu/cell_xsb_i.h:38–49`.
-/

namespace XSBEngine.Arith

open Function Heap

/-! ### Numbers that are stored -/

/-- What an instruction does: it stores a cell in a register, or what was not set, an error is
raised, or the machine traps. -/
inductive InstrResult where
  | stored (s : Stacks) (c : Cell)
  | unset
  | abort (op1 : Cell) (op : String) (op2 : Cell)
  | zeroDivide (op1 : Cell)
  | trap

/-- `int_overflow`: the integer does not fit in a tagged cell. -/
def intOverflow (value : BitVec 64) : Bool := (value <<< 3).sshiftRight 3 ≠ value

/-- The four cells of a boxed number. -/
def newBox (s : Stacks) (first second third : Int) : Stacks where
  mem := update (update (update (update s.mem
    s.hreg (.functor boxPsc)) (s.hreg + 1) (.int first)) (s.hreg + 2) (.int second))
    (s.hreg + 3) (.int third)
  hreg := s.hreg + 4
  trail := s.trail

/-- `bld_oint`. -/
def bldOint (s : Stacks) (value : BitVec 64) : InstrResult :=
  if intOverflow value then
    .stored (newBox s (idBoxedInt <<< (16 : Nat)) (value >>> 24).toNat (value &&& 0xffffff).toNat)
      (.cs s.hreg)
  else .stored s (.int value.toInt)

/-- `bld_boxedfloat`. -/
def bldBoxedfloat (s : Stacks) (value : Float64) : InstrResult :=
  .stored (newBox s (BitVec.ofInt 64 idBoxedFloat <<< 16 ||| (value >>> 48 &&& 0xffff)).toNat
    (value >>> 24 &&& 0xffffff).toNat (value &&& 0xffffff).toNat) (.cs s.hreg)

/-- The quotient of the machine is stored. -/
def bldQuotient (s : Stacks) : Option (BitVec 64) → InstrResult
  | some value => bldOint s value
  | none => .trap

/-! ### Instructions -/

/-- `float_val`: the float in a cell. For a pointer to a structure it is a float that has bits of
the pointer. -/
def floatVal (ptrFloat : Nat → Float64) : Cell → Float64
  | .float x => x
  | .cs a => ptrFloat a
  | _ => 0

/-- `oint_val`. -/
def ointBits (mem : Nat → Cell) (c : Cell) : BitVec 64 := .ofInt 64 (ointVal mem c)

/-- What becomes of an instruction when `xsb_eval` does not return a value. -/
def InstrResult.ofEval (fails : InstrResult) : EvalResult → InstrResult
  | .abort op1 op op2 => .abort op1 op op2
  | .trap => .trap
  | .failed => fails
  | _ => .unset

variable (fl : Floats) (ptrFloat : Nat → Float64)

/-- `ARITHPROC`. The second operand comes from the register of the result. -/
def arithproc (op : ArithOp) (strop : String) (n : Nat) (s : Stacks) (op1 op2 : Cell) :
    Option InstrResult := do
  let op1 ← deref s.mem n op1
  let op2 ← deref s.mem n op2
  if isointeger s.mem op1 then
    if isointeger s.mem op2 then
      some (bldOint s (op.ofInts (ointBits s.mem op2) (ointBits s.mem op1)))
    else if isofloat s.mem op2 then
      some (bldBoxedfloat s
        (op.ofFloats fl (ofloatVal s.mem op2) (toFloat fl (ointBits s.mem op1))))
    else
      match ← xsbEval fl s.mem n op2 with
      | .value (.int fivar) => some (bldOint s (op.ofInts fivar (ointBits s.mem op1)))
      | .value (.flt fivar) =>
        some (bldBoxedfloat s (op.ofFloats fl fivar (toFloat fl (ointBits s.mem op1))))
      | res => some (.ofEval (.abort op2 strop op1) res)
  else if isofloat s.mem op1 then
    if isofloat s.mem op2 then
      some (bldBoxedfloat s (op.ofFloats fl (ofloatVal s.mem op2) (ofloatVal s.mem op1)))
    else if isointeger s.mem op2 then
      some (bldBoxedfloat s
        (op.ofFloats fl (toFloat fl (ointBits s.mem op2)) (ofloatVal s.mem op1)))
    else
      match ← xsbEval fl s.mem n op2 with
      | .value (.int fivar) =>
        some (bldBoxedfloat s (op.ofFloats fl (toFloat fl fivar) (floatVal ptrFloat op1)))
      | .value (.flt fivar) =>
        some (bldBoxedfloat s (op.ofFloats fl fivar (floatVal ptrFloat op1)))
      | res => some (.ofEval (.abort op2 strop op1) res)
  else
    match ← xsbEval fl s.mem n op1 with
    | .value fiop1 =>
      match ← xsbEval fl s.mem n op2 with
      | .value fiop2 =>
        -- the first operand of the instruction is the right one of the expression
        match fiop1, fiop2 with
        | .int a, .int b => some (bldOint s (op.ofInts a b))
        | .int a, .flt y => some (bldBoxedfloat s (op.ofFloats fl (toFloat fl a) y))
        | .flt x, .int b => some (bldBoxedfloat s (op.ofFloats fl x (toFloat fl b)))
        | .flt x, .flt y => some (bldBoxedfloat s (op.ofFloats fl x y))
      | res => some (.ofEval (.abort op2 strop op1) res)
    | res => some (.ofEval (.abort op2 strop op1) res)

/-- `addreg`. -/
def addreg := arithproc fl ptrFloat .add "+"

/-- `subreg`. -/
def subreg := arithproc fl ptrFloat .sub "-"

/-- `mulreg`. -/
def mulreg := arithproc fl ptrFloat .mul "*"

/-- The last branch of `idivreg` and of `fdivreg`. -/
def divExpressions (n : Nat) (s : Stacks) (op1 op2 : Cell) : Option InstrResult := do
  match ← xsbEval fl s.mem n op1 with
  | .value (.int fiop1) =>
    match ← xsbEval fl s.mem n op2 with
    | .value (.int fiop2) => some (bldQuotient s (machineDiv fiop1 fiop2))
    | .value (.flt _) => some (.abort op2 "//" op1)
    | res => some (.ofEval (.abort op2 "//" op1) res)
  | .value (.flt _) => some (.abort op2 "//" op1)
  | res => some (.ofEval (.abort op2 "//" op1) res)

/-- `idivreg` and `fdivreg`, which divide by an integer their own way if the other operand is an
expression. -/
def divproc (divEvaluated : BitVec 64 → BitVec 64 → Option (BitVec 64)) (strop : String) (n : Nat)
    (s : Stacks) (op1 op2 : Cell) : Option InstrResult := do
  let op1 ← deref s.mem n op1
  let op2 ← deref s.mem n op2
  if isointeger s.mem op1 then
    if ointBits s.mem op1 ≠ 0 then
      if isointeger s.mem op2 then
        some (bldQuotient s (machineDiv (ointBits s.mem op2) (ointBits s.mem op1)))
      else
        match ← xsbEval fl s.mem n op2 with
        | .value (.int fiop2) => some (bldQuotient s (divEvaluated fiop2 (ointBits s.mem op1)))
        | .value (.flt _) => some (.abort op2 strop op1)
        | res => some (.ofEval (.abort op2 strop op1) res)
    else some (.zeroDivide op1)
  else divExpressions fl n s op1 op2

/-- `idivreg`. -/
def idivreg := divproc fl machineDiv "//"

/-- `fdivreg`. -/
def fdivreg := divproc fl (fun a b => some (floorDiv fl a b)) "div"

/-- The instructions. -/
inductive ArithInstr where
  | addreg
  | subreg
  | mulreg
  | idivreg
  | fdivreg
deriving DecidableEq, Repr

def ArithInstr.run : ArithInstr → Nat → Stacks → Cell → Cell → Option InstrResult
  | .addreg => Arith.addreg fl ptrFloat
  | .subreg => Arith.subreg fl ptrFloat
  | .mulreg => Arith.mulreg fl ptrFloat
  | .idivreg => Arith.idivreg fl
  | .fdivreg => Arith.fdivreg fl

/-! ### What is stored -/

/-- The low bits of a word. -/
theorem toNat_mask {k : Nat} (x m : BitVec 64) (hm : m.toNat = 2 ^ k - 1) :
    (x &&& m).toNat = x.toNat % 2 ^ k := by
  rw [BitVec.toNat_and, hm, Nat.and_two_pow_sub_one_eq_mod]

/-- Bits that are put after others. -/
theorem toNat_join {k : Nat} (a b : BitVec 64) (ha : a.toNat * 2 ^ k < 2 ^ 64)
    (hb : b.toNat < 2 ^ k) : (a <<< k ||| b).toNat = a.toNat * 2 ^ k + b.toNat := by
  rw [BitVec.toNat_or, BitVec.toNat_shiftLeft, Nat.shiftLeft_eq, Nat.mod_eq_of_lt ha,
    ← Nat.shiftLeft_eq, ← Nat.shiftLeft_add_eq_or_of_lt hb, Nat.shiftLeft_eq]

theorem ofInt_toNat (x : BitVec 64) : BitVec.ofInt 64 (x.toNat : Int) = x := by
  rw [BitVec.ofInt_natCast, BitVec.ofNat_toNat, BitVec.setWidth_eq]

theorem boxedInt_bits (v : BitVec 64) :
    BitVec.ofInt 64 (boxedInt (v >>> 24).toNat (v &&& 0xffffff).toNat) = v := by
  have hlow := toNat_mask (k := 24) v 0xffffff rfl
  have hlt := v.isLt
  rw [boxedInt, BitVec.ofInt_toInt, ofInt_toNat, ofInt_toNat]
  apply BitVec.eq_of_toNat_eq
  have hhigh : (v >>> 24).toNat = v.toNat / 2 ^ 24 := by
    rw [BitVec.toNat_ushiftRight, Nat.shiftRight_eq_div_pow]
  rw [toNat_join _ _ (by omega) (by omega), hlow, hhigh]
  omega

/-- The first word of a boxed float. -/
theorem toNat_floatHeader (x : BitVec 64) :
    (BitVec.ofInt 64 idBoxedFloat <<< 16 ||| (x >>> 48 &&& 0xffff)).toNat =
      2 * 2 ^ 16 + x.toNat / 2 ^ 48 := by
  have hlow := toNat_mask (k := 16) (x >>> 48) 0xffff rfl
  have hlt := x.isLt
  have hid : (BitVec.ofInt 64 idBoxedFloat).toNat = 2 := rfl
  rw [BitVec.toNat_ushiftRight, Nat.shiftRight_eq_div_pow] at hlow
  rw [toNat_join _ _ (by rw [hid]; decide) (by omega), hid, hlow]
  omega

theorem boxedFloat_bits (x : Float64) :
    boxedFloat (BitVec.ofInt 64 idBoxedFloat <<< 16 ||| (x >>> 48 &&& 0xffff)).toNat
      (x >>> 24 &&& 0xffffff).toNat (x &&& 0xffffff).toNat = x := by
  have hhigh := toNat_mask (k := 16)
    (BitVec.ofInt 64 idBoxedFloat <<< 16 ||| (x >>> 48 &&& 0xffff)) 0xffff rfl
  have hmiddle := toNat_mask (k := 24) (x >>> 24) 0xffffff rfl
  have hmiddle' := toNat_mask (k := 24) (x >>> 24 &&& 0xffffff) 0xffffff rfl
  have hlow := toNat_mask (k := 24) x 0xffffff rfl
  have hlow' := toNat_mask (k := 24) (x &&& 0xffffff) 0xffffff rfl
  have hlt := x.isLt
  rw [toNat_floatHeader] at hhigh
  rw [BitVec.toNat_ushiftRight, Nat.shiftRight_eq_div_pow] at hmiddle
  rw [boxedFloat, ofInt_toNat, ofInt_toNat, ofInt_toNat]
  apply BitVec.eq_of_toNat_eq
  rw [BitVec.or_assoc]
  have hrest : ((x >>> 24 &&& 0xffffff &&& 0xffffff) <<< 24 |||
      (x &&& 0xffffff &&& 0xffffff)).toNat = x.toNat % 2 ^ 48 := by
    rw [toNat_join _ _ (by omega) (by omega)]
    omega
  rw [toNat_join _ _ (by omega) (by omega), hrest]
  omega
/-- A number that an instruction stores. -/
def InstrResult.Stores (res : InstrResult) (v : FltInt) : Prop :=
  ∃ s c, res = .stored s c ∧ numberOf s.mem c = some v

/-- The number is stored by its kind. -/
def store (s : Stacks) : FltInt → InstrResult
  | .int value => bldOint s value
  | .flt value => bldBoxedfloat s value

section Stored

variable {s : Stacks} {first second third : Int} {v w : FltInt}

theorem newBox_mem (s : Stacks) (first second third : Int) :
    (newBox s first second third).mem s.hreg = .functor boxPsc ∧
    (newBox s first second third).mem (s.hreg + 1) = .int first ∧
    (newBox s first second third).mem (s.hreg + 2) = .int second ∧
    (newBox s first second third).mem (s.hreg + 3) = .int third := by
  simp [newBox]

theorem numberOf_boxedInt (h : first >>> (16 : Nat) = idBoxedInt) :
    numberOf (newBox s first second third).mem (.cs s.hreg) =
      some (.int (.ofInt 64 (boxedInt second third))) := by
  obtain ⟨h0, h1, h2, h3⟩ := newBox_mem s first second third
  simp [numberOf, isointeger, isboxedinteger, isboxed, boxHasId, ointVal, intVal, Cell.isinteger,
    h0, h1, h2, h3, h]

theorem numberOf_boxedFloat (h : first >>> (16 : Nat) = idBoxedFloat) :
    numberOf (newBox s first second third).mem (.cs s.hreg) =
      some (.flt (boxedFloat first second third)) := by
  obtain ⟨h0, h1, h2, h3⟩ := newBox_mem s first second third
  simp [numberOf, isointeger, isboxedinteger, isofloat, isboxedfloat, isboxed, boxHasId, ofloatVal,
    intVal, Cell.isinteger, h0, h1, h2, h3, h, idBoxedInt, idBoxedFloat]

/-- The number in the register is the one that was stored. -/
theorem store_stores : (store s v).Stores w ↔ w = v := by
  have hread : ∃ s' c, store s v = .stored s' c ∧ numberOf s'.mem c = some v := by
    cases v with
    | int value =>
      rw [store, bldOint]
      split
      next =>
        refine ⟨_, _, rfl, ?_⟩
        rw [numberOf_boxedInt rfl, boxedInt_bits]
      next =>
        refine ⟨_, _, rfl, ?_⟩
        simp [numberOf, isointeger, Cell.isinteger, ointVal, intVal, BitVec.ofInt_toInt]
    | flt value =>
      refine ⟨_, _, rfl, ?_⟩
      rw [numberOf_boxedFloat, boxedFloat_bits]
      have hlt := value.isLt
      have hheader := toNat_floatHeader value
      rw [Int.shiftRight_eq_div_pow, hheader, idBoxedFloat]
      omega
  obtain ⟨s', c, hstore, hnumber⟩ := hread
  constructor
  · rintro ⟨s'', c', hstore', hnumber'⟩
    cases hstore.symm.trans hstore'
    exact Option.some.inj (hnumber'.symm.trans hnumber)
  · rintro rfl
    exact ⟨s', c, hstore, hnumber⟩

end Stored

end XSBEngine.Arith
