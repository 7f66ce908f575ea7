import XSBEngine.Heap.Cells
import XSBEngine.Library.Tuple

/-!
# The standard order of terms

`sign` and `compare`, `XSB/emu/subp.c:611–760`.
-/

namespace XSBEngine.Heap

open PrefixTerms

/-! ### The comparison -/

/-- `sign_of`. -/
def signOf (r : Int) : Int := if 0 < r then 1 else if r < 0 then -1 else 0

/-- `sign`. -/
def Floats.sign (fl : Floats) (x : Float64) : Int :=
  if fl.eq x 0 then 0 else if fl.lt 0 x then 1 else -1

/-- The difference of two machine words. -/
def wrapSub (i j : Int) : Int := (i - j).bmod (2 ^ 64)

/-- A variable of the local stack is moved to the heap. -/
def globalize (r : Registers) (s : Stacks) (a : Nat) : Nat × Stacks :=
  if r.topOfLocalstk ≤ a ∧ a + 1 ≤ r.glstackHigh then
    (s.hreg, { (s.write s.hreg (.ref s.hreg)).bindCopy r a (.ref s.hreg) with
      hreg := s.hreg + 1 })
  else (a, s)

/-- The first term is a variable. -/
def compareRef (r : Registers) (s : Stacks) (a : Nat) : Cell → Int × Stacks
  | .attv b => (signOf (a - b), s)
  | .ref b =>
    let (a, s) := globalize r s a
    let (b, s) := globalize r s b
    (signOf (a - b), s)
  | _ => (-1, s)

/-- The first term is a float, boxed or not. -/
def compareFloat (fl : Floats) (mem : Nat → Cell) (x : Float64) (val2 : Cell) : Int :=
  if val2.isref || val2.isattv then 1
  else if isofloat mem val2 then fl.sign (fl.sub x (ofloatVal mem val2))
  else -1

/-- The first term is an integer, boxed or not. -/
def compareInt (mem : Nat → Cell) (i : Int) (val2 : Cell) : Int :=
  if val2.isref || isofloat mem val2 || val2.isattv then 1
  else if isointeger mem val2 then signOf (wrapSub i (ointVal mem val2))
  else -1

/-- The first term is an atom. -/
def compareString (mem : Nat → Cell) (t : CString) (val2 : Cell) : Int :=
  if val2.isref || isofloat mem val2 || isointeger mem val2 || val2.isattv then 1
  else
    match val2 with
    | .string t' => strcmp t t'
    | _ => -1

/-- The first term is an attributed variable. -/
def compareAttv (a : Nat) : Cell → Int
  | .attv b => signOf (a - b)
  | .ref b => signOf (a - b)
  | _ => -1

/-- The loop over the arguments. -/
def compareArgs (compare : Stacks → Cell → Cell → Option (Int × Stacks)) :
    Stacks → List (Nat × Nat) → Option (Int × Stacks)
  | s, [] => some (0, s)
  | s, (a, b) :: l => do
    let (comp, s) ← compare s (s.mem a) (s.mem b)
    if comp ≠ 0 then some (comp, s) else compareArgs compare s l

/-- The first term is a structure, and the second one a structure or a list. -/
def compareStruct (compare : Stacks → Cell → Cell → Option (Int × Stacks)) (s : Stacks)
    (cptr1 cptr2 : Nat) (islist2 : Bool) : Option (Int × Stacks) := do
  let ptr1 ← getStrPsc s.mem cptr1
  let arity2 ← if islist2 then some 2 else (getStrPsc s.mem cptr2).map Psc.arity
  if ptr1.arity ≠ arity2 then some (ptr1.arity - arity2, s)
  else
    let name2 ← if islist2 then some dotName else (getStrPsc s.mem cptr2).map Psc.name
    let comp := strcmp ptr1.name name2
    if comp ≠ 0 ∨ ptr1.arity = 0 then some (comp, s)
    else if s.mem cptr2 ≠ .functor ptr1 then
      -- of a list, it is the head that is taken for a PSC record
      let ptr2 ← getStrPsc s.mem cptr2
      some (strcmp (← ptr1.mod) (← ptr2.mod), s)
    else
      compareArgs compare s ((List.range' 1 ptr1.arity).map fun i =>
        (cptr1 + i, if islist2 then cptr2 + i - 1 else cptr2 + i))

/-- `compare` on dereferenced terms. -/
def compareDerefed (fl : Floats) (r : Registers)
    (compare : Stacks → Cell → Cell → Option (Int × Stacks)) (s : Stacks) (val1 val2 : Cell) :
    Option (Int × Stacks) :=
  if val1 = val2 then some (0, s)
  else
    match val1 with
    | .ref a => some (compareRef r s a val2)
    | .float x => some (compareFloat fl s.mem x val2, s)
    | .int i => some (compareInt s.mem i val2, s)
    | .string t => some (compareString s.mem t val2, s)
    | .cs cptr1 =>
      if isboxedinteger s.mem val1 then some (compareInt s.mem (ointVal s.mem val1) val2, s)
      else if isboxedfloat s.mem val1 then
        some (compareFloat fl s.mem (ofloatVal s.mem val1) val2, s)
      else if isboxedinteger s.mem val2 || isboxedfloat s.mem val2 then some (1, s)
      else
        match val2 with
        | .cs cptr2 => compareStruct compare s cptr1 cptr2 false
        | .list cptr2 => compareStruct compare s cptr1 cptr2 true
        | _ => some (1, s)
    | .list cptr1 =>
      match val2 with
      | .cs _ => (compare s val2 val1).map fun p => (-p.1, p.2)
      | .list cptr2 => compareArgs compare s [(cptr1, cptr2), (cptr1 + 1, cptr2 + 1)]
      | _ => some (1, s)
    | .attv a => some (compareAttv a val2, s)
    | .functor _ => none

/-- `compare`. The bound is on the depth of the recursion and on the chains of references. -/
def compare (fl : Floats) (r : Registers) : Nat → Stacks → Cell → Cell → Option (Int × Stacks)
  | 0, _, _, _ => none
  | n + 1, s, v1, v2 => do
    let val2 ← deref s.mem n v2
    let val1 ← deref s.mem n v1
    compareDerefed fl r (compare fl r n) s val1 val2

end XSBEngine.Heap
