import Mathlib

/-!
# Cells, strings and PSC records

The tagged words of the stacks, dereferencing, boxed numbers and the trail,
`XSB/emu/cell_xsb.h:85–385`, `XSB/emu/deref.h:41–56`, `XSB/emu/binding.h:92–200` and
`XSB/emu/psc_xsb.h:88–106, 153`, on machines of 64 bits.
-/

namespace XSBEngine.Heap

open Function List

/-! ### Strings -/

/-- A C string: its bytes before the NUL. -/
structure CString where
  bytes : List UInt8
  noNul : 0 ∉ bytes
deriving DecidableEq

/-- The name `f`. -/
theorem noNul_f : (0 : UInt8) ∉ [102] := by decide

/-- The loop of `strcmp`, which ends at bytes that differ or at the NULs. -/
def strcmpBytes : List UInt8 → List UInt8 → Int
  | [], [] => 0
  | [], b :: _ => 0 - b.toNat
  | a :: _, [] => a.toNat - 0
  | a :: as, b :: bs => if a = b then strcmpBytes as bs else a.toNat - b.toNat

def strcmp (s t : CString) : Int := strcmpBytes s.bytes t.bytes

/-- Bytes as numbers. -/
def byteCodes (l : List UInt8) : List Int := l.map fun b => (b.toNat : Int)

/-- The bytes of a string and its NUL. -/
def CString.codes (s : CString) : List Int := byteCodes s.bytes ++ [0]

theorem byteCodes_inj {l l' : List UInt8} (h : byteCodes l = byteCodes l') : l = l' := by
  apply map_injective_iff.mpr _ h
  intro a b hab
  exact UInt8.toNat_inj.mp (Int.ofNat.inj hab)

theorem CString.codes_inj {s t : CString} (h : s.codes = t.codes) : s = t := by
  have hbytes : s.bytes = t.bytes := byteCodes_inj (append_cancel_right h)
  cases s
  cases t
  cases hbytes
  rfl

/-- How a result of a comparison orders its arguments. -/
def orderOf (r : Int) : Ordering := compare r 0

theorem orderOf_sub (a b : Int) : orderOf (a - b) = compare a b := by
  rcases Int.lt_trichotomy a b with h | h | h
  · rw [orderOf, Int.compare_eq_lt.mpr h, Int.compare_eq_lt.mpr (by omega)]
  · rw [orderOf, Int.compare_eq_eq.mpr h, Int.compare_eq_eq.mpr (by omega)]
  · rw [orderOf, Int.compare_eq_gt.mpr h, Int.compare_eq_gt.mpr (by omega)]

theorem orderOf_neg (r : Int) : orderOf (-r) = (orderOf r).swap := by
  rw [← Int.zero_sub, orderOf_sub, orderOf]
  exact Std.OrientedCmp.eq_swap

theorem UInt8.toNat_pos {b : UInt8} (h : b ≠ 0) : (0 : Int) < b.toNat := by
  have hne : b.toNat ≠ 0 := by
    intro h0
    exact h (UInt8.toNat_inj.mp h0)
  omega

theorem strcmpBytes_order {l l' : List UInt8} (h : 0 ∉ l) (h' : 0 ∉ l') (k k' : List Int) :
    (orderOf (strcmpBytes l l')).then (compare k k') =
      compare (byteCodes l ++ 0 :: k) (byteCodes l' ++ 0 :: k') := by
  induction l generalizing l' with
  | nil =>
    cases l' with
    | nil => rfl
    | cons b bs =>
      have hb := UInt8.toNat_pos (ne_of_not_mem_cons h').symm
      show _ = compare (0 :: k) ((b.toNat : Int) :: _)
      rw [strcmpBytes, orderOf_sub, List.compare_cons_cons, Int.compare_eq_lt.mpr hb]
      rfl
  | cons a as ih =>
    cases l' with
    | nil =>
      have ha := UInt8.toNat_pos (ne_of_not_mem_cons h).symm
      show _ = compare ((a.toNat : Int) :: _) (0 :: k')
      rw [strcmpBytes, orderOf_sub, List.compare_cons_cons, Int.compare_eq_gt.mpr ha]
      rfl
    | cons b bs =>
      show _ = compare ((a.toNat : Int) :: _) ((b.toNat : Int) :: _)
      rw [strcmpBytes, List.compare_cons_cons]
      split
      next heq =>
        rw [heq, Std.compare_self]
        exact ih (fun hmem => h (mem_cons_of_mem _ hmem))
          (fun hmem => h' (mem_cons_of_mem _ hmem))
      next hne =>
        have hab : compare (a.toNat : Int) b.toNat ≠ .eq := by
          intro heq
          exact hne (UInt8.toNat_inj.mp (Int.ofNat.inj (Std.LawfulEqCmp.eq_of_compare heq)))
        rw [orderOf_sub]
        cases hcmp : compare (a.toNat : Int) b.toNat with
        | eq => exact absurd hcmp hab
        | lt | gt => rfl

/-- `strcmp` orders strings by their bytes. -/
theorem strcmp_order (s t : CString) : orderOf (strcmp s t) = compare s.codes t.codes := by
  have h := strcmpBytes_order s.noNul t.noNul [] []
  rw [Std.compare_self, Ordering.then_eq] at h
  exact h

theorem strcmp_eq_zero {s t : CString} : strcmp s t = 0 ↔ s = t := by
  constructor
  · intro h
    have hord := strcmp_order s t
    rw [h] at hord
    exact CString.codes_inj (Std.LawfulEqCmp.eq_of_compare hord.symm)
  · rintro rfl
    have hord := strcmp_order s s
    rw [Std.compare_self] at hord
    exact Std.LawfulEqCmp.eq_of_compare hord

/-! ### Cells -/

/-- A PSC record of a functor, and the name of its module, once that is set. The symbol tables
have one record for each name, arity and module. -/
@[ext] structure Psc where
  name : CString
  arity : Nat
  mod : Option CString
deriving DecidableEq

/-- The bits of a `double`. -/
abbrev Float64 := BitVec 64

/-- Words of the stacks: references, which point to themselves if they are free, attributed
variables, numbers, atoms, lists, structures, and the PSC record that a structure begins with. -/
inductive Cell where
  | ref (a : Nat)
  | attv (a : Nat)
  | int (i : Int)
  | float (x : Float64)
  | string (s : CString)
  | list (a : Nat)
  | cs (a : Nat)
  | functor (p : Psc)
deriving DecidableEq

def Cell.isref : Cell → Bool
  | .ref _ => true
  | _ => false

def Cell.isattv : Cell → Bool
  | .attv _ => true
  | _ => false

def Cell.isinteger : Cell → Bool
  | .int _ => true
  | _ => false

def Cell.isfloat : Cell → Bool
  | .float _ => true
  | _ => false

def Cell.isstring : Cell → Bool
  | .string _ => true
  | _ => false

def Cell.islist : Cell → Bool
  | .list _ => true
  | _ => false

def Cell.isconstr : Cell → Bool
  | .cs _ => true
  | _ => false

/-- `XSB_Deref`. The bound is on the length of the chain. -/
def deref (mem : Nat → Cell) : Nat → Cell → Option Cell
  | 0, _ => none
  | n + 1, .ref a => if mem a = .ref a then some (.ref a) else deref mem n (mem a)
  | n + 1, .attv a => if mem a = .ref a then some (.attv a) else deref mem n (mem a)
  | _ + 1, c => some c

/-- `get_str_psc`, for the address of a structure. -/
def getStrPsc (mem : Nat → Cell) (a : Nat) : Option Psc :=
  match mem a with
  | .functor p => some p
  | _ => none

/-! ### Boxed numbers -/

/-- The name of the PSC record `box_psc`, `"$BOX$"`. -/
def boxName : CString := ⟨[36, 66, 79, 88, 36], by decide⟩

/-- The name of the module `global_mod`, `"global"`. -/
def globalName : CString := ⟨[103, 108, 111, 98, 97, 108], by decide⟩

/-- The name of lists, `"."`. -/
def dotName : CString := ⟨[46], by decide⟩

def boxPsc : Psc := ⟨boxName, 3, some globalName⟩

/-- `ID_BOXED_INT`. -/
def idBoxedInt : Int := 1

/-- `ID_BOXED_FLOAT`. -/
def idBoxedFloat : Int := 2

/-- `int_val`, for a cell with an integer. -/
def intVal : Cell → Int
  | .int i => i
  | _ => 0

/-- `isboxed`. -/
def isboxed (mem : Nat → Cell) : Cell → Bool
  | .cs a => mem a = .functor boxPsc
  | _ => false

/-- `box_has_id`, for the address of a boxed number. -/
def boxHasId (mem : Nat → Cell) (a : Nat) (id : Int) : Bool :=
  intVal (mem (a + 1)) >>> (16 : Nat) = id

def isboxedinteger (mem : Nat → Cell) : Cell → Bool
  | .cs a => isboxed mem (.cs a) && boxHasId mem a idBoxedInt
  | _ => false

def isboxedfloat (mem : Nat → Cell) : Cell → Bool
  | .cs a => isboxed mem (.cs a) && boxHasId mem a idBoxedFloat
  | _ => false

def isointeger (mem : Nat → Cell) (c : Cell) : Bool := c.isinteger || isboxedinteger mem c

def isofloat (mem : Nat → Cell) (c : Cell) : Bool := isboxedfloat mem c || c.isfloat

/-- `boxedint_val`, of the second and the third argument. -/
def boxedInt (hi lo : Int) : Int :=
  (BitVec.ofInt 64 hi <<< 24 ||| BitVec.ofInt 64 lo).toInt

/-- `EXTRACT_FLOAT_FROM_16_24_24`. -/
def boxedFloat (high middle low : Int) : Float64 :=
  (BitVec.ofInt 64 high &&& 0xffff) <<< 48 ||| (BitVec.ofInt 64 middle &&& 0xffffff) <<< 24 |||
    (BitVec.ofInt 64 low &&& 0xffffff)

/-- `oint_val`, of a cell that `isointeger`. -/
def ointVal (mem : Nat → Cell) : Cell → Int
  | .cs a => boxedInt (intVal (mem (a + 2))) (intVal (mem (a + 3)))
  | c => intVal c

/-- `ofloat_val`, of a cell that `isofloat`. -/
def ofloatVal (mem : Nat → Cell) : Cell → Float64
  | .cs a => boxedFloat (intVal (mem (a + 1))) (intVal (mem (a + 2))) (intVal (mem (a + 3)))
  | .float x => x
  | _ => 0

/-- The arithmetic of `double`: conversions, the operators and comparisons of C, and the functions
of its mathematical library. -/
structure Floats where
  ofInt : Int → Float64
  toInt : Float64 → Int
  add : Float64 → Float64 → Float64
  sub : Float64 → Float64 → Float64
  mul : Float64 → Float64 → Float64
  div : Float64 → Float64 → Float64
  neg : Float64 → Float64
  lt : Float64 → Float64 → Bool
  eq : Float64 → Float64 → Bool
  floor : Float64 → Float64
  pow : Float64 → Float64 → Float64
  atan2 : Float64 → Float64 → Float64
  fn : String → Float64 → Float64

/-- The functions of the mathematical library that expressions name, but for `erf` and `lgamma`. -/
def mathFn (name : String) (x : Float) : Float :=
  match name with
  | "sin" => x.sin
  | "cos" => x.cos
  | "tan" => x.tan
  | "sinh" => x.sinh
  | "cosh" => x.cosh
  | "tanh" => x.tanh
  | "sqrt" => x.sqrt
  | "exp" => x.exp
  | "log" => x.log
  | "log10" => x.log10
  | "asin" => x.asin
  | "acos" => x.acos
  | "atan" => x.atan
  | "asinh" => x.asinh
  | _ => x

/-- The arithmetic of the machine. -/
def Floats.ieee : Floats where
  ofInt i := (Float.ofInt i).toBits.toBitVec
  toInt x := (Float.ofBits ⟨x⟩).toInt64.toInt
  add x y := (Float.ofBits ⟨x⟩ + Float.ofBits ⟨y⟩).toBits.toBitVec
  sub x y := (Float.ofBits ⟨x⟩ - Float.ofBits ⟨y⟩).toBits.toBitVec
  mul x y := (Float.ofBits ⟨x⟩ * Float.ofBits ⟨y⟩).toBits.toBitVec
  div x y := (Float.ofBits ⟨x⟩ / Float.ofBits ⟨y⟩).toBits.toBitVec
  neg x := (-Float.ofBits ⟨x⟩).toBits.toBitVec
  lt x y := Float.ofBits ⟨x⟩ < Float.ofBits ⟨y⟩
  eq x y := Float.ofBits ⟨x⟩ == Float.ofBits ⟨y⟩
  floor x := (Float.ofBits ⟨x⟩).floor.toBits.toBitVec
  pow x y := ((Float.ofBits ⟨x⟩).pow (Float.ofBits ⟨y⟩)).toBits.toBitVec
  atan2 x y := ((Float.ofBits ⟨x⟩).atan2 (Float.ofBits ⟨y⟩)).toBits.toBitVec
  fn name x := (mathFn name (Float.ofBits ⟨x⟩)).toBits.toBitVec

/-! ### Stacks and the trail -/

/-- The registers that bound the stacks. -/
structure Registers where
  topOfLocalstk : Nat
  glstackHigh : Nat
  ebreg : Nat
  efreg : Nat
  hbreg : Nat
  hfreg : Nat

/-- A binding, or the change of a cell that was bound. -/
inductive TrailEntry where
  | value (addr : Nat) (val : Cell)
  | preImage (addr : Nat) (val old : Cell)

/-- The heap and the local stack, the top of the heap, and the trail. -/
structure Stacks where
  mem : Nat → Cell
  hreg : Nat
  trail : List TrailEntry

/-- `conditional`: the cell is older than a choice point. -/
def Registers.conditional (r : Registers) (a : Nat) : Bool :=
  decide (r.ebreg ≤ a) || decide (r.efreg ≤ a) || decide (a < r.hbreg) || decide (a < r.hfreg)

/-- `pushtrail`. -/
def Stacks.pushtrail (r : Registers) (s : Stacks) (a : Nat) (c : Cell) : Stacks :=
  if r.conditional a then { s with trail := .value a c :: s.trail } else s

/-- A cell is written. -/
def Stacks.write (s : Stacks) (a : Nat) (c : Cell) : Stacks :=
  { s with mem := update s.mem a c }

/-- `bind_copy` and `bind_ref`. -/
def Stacks.bindCopy (r : Registers) (s : Stacks) (a : Nat) (c : Cell) : Stacks :=
  (s.pushtrail r a c).write a c

@[simp] theorem Stacks.write_mem (s : Stacks) (a : Nat) (c : Cell) :
    (s.write a c).mem = update s.mem a c := rfl

@[simp] theorem Stacks.pushtrail_mem (r : Registers) (s : Stacks) (a : Nat) (c : Cell) :
    (s.pushtrail r a c).mem = s.mem := by
  rw [pushtrail]
  split <;> rfl

@[simp] theorem Stacks.bindCopy_mem (r : Registers) (s : Stacks) (a : Nat) (c : Cell) :
    (s.bindCopy r a c).mem = update s.mem a c := by
  rw [bindCopy, write_mem, pushtrail_mem]

end XSBEngine.Heap
