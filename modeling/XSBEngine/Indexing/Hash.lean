import XSBEngine.Heap.Cells

/-!
# Buckets of indexes

`val_to_hash`, `hash_val`, `switchonbound` and `switchon3bound`, `XSB/emu/builtin.c:694–737`,
`XSB/emu/biassert.c:1588–1670` and `XSB/emu/emuloop.c:1469–1652`.
-/

namespace XSBEngine.Indexing

open Heap

/-- The words that symbols are hashed by: the addresses of strings, of PSC records and of the pair
of lists, and the bits of a float in its cell, without the tag. -/
structure HashWords where
  string : CString → BitVec 64
  psc : Psc → BitVec 64
  listPscPair : BitVec 64
  float : Float64 → BitVec 64

/-- `flags[MAXTOINDEX_FLAG]`, which is set when the system is started. -/
def maxToIndex : Nat := 5

/-- `ihash`. -/
def ihash (val : BitVec 64) (size : Nat) : Nat := val.toNat % size

theorem noNul_nil : (0 : UInt8) ∉ [91, 93] := by decide

/-- The name of the empty list, `"[]"`. -/
def nilName : CString := ⟨[91, 93], noNul_nil⟩

/-- The three integers of a boxed float. -/
def boxedFloatHash (mem : Nat → Cell) (a : Nat) : BitVec 64 :=
  .ofInt 64 (intVal (mem (a + 1))) ^^^ .ofInt 64 (intVal (mem (a + 2))) ^^^
    .ofInt 64 (intVal (mem (a + 3)))

/-- `struct_hash_value`, for the address of a structure. -/
def structHashValue (W : HashWords) (mem : Nat → Cell) (a : Nat) : Option (BitVec 64) :=
  if isboxedinteger mem (.cs a) then some (.ofInt 64 (ointVal mem (.cs a)))
  else if isboxedfloat mem (.cs a) then some (boxedFloatHash mem a)
  else (getStrPsc mem a).map W.psc

/-- `val_to_hash`. It aborts for a variable. -/
def valToHash (W : HashWords) (mem : Nat → Cell) : Cell → Option (BitVec 64)
  | .int i => some (.ofInt 64 i)
  | .float x => some (W.float x)
  | .list _ => some W.listPscPair
  | .cs a => structHashValue W mem a
  | .string s => some (W.string s)
  | _ => none

/-- `isref(..) || isattv(..)`. -/
def isUnbound (c : Cell) : Bool := c.isref || c.isattv

/-- `Hashval += Hashval + ihash(..)`. -/
def addHash (hashval : BitVec 64) (h : Nat) : BitVec 64 := hashval + (hashval + .ofNat 64 h)

/-- The bucket of a sum, in the division of C. -/
def bucketOf (hashval : BitVec 64) (tabSize : Nat) : Int :=
  (if hashval.toInt < 0 then -hashval else hashval).toInt.tmod tabSize

/-! ### Star indexes -/

section

variable (W : HashWords) (mem : Nat → Cell) (n : Nat)

/-- The arguments of a list or a structure are put on the stack `stk`, with their number as
`argsleft`. -/
def pushArgs (mem : Nat → Cell) (term : Cell) (stk : List (Nat × Nat)) : List (Nat × Nat) :=
  match term with
  | .list a => (a, 2) :: stk
  | .cs a =>
    if isboxedinteger mem (.cs a) || isboxedfloat mem (.cs a) then stk
    else
      match getStrPsc mem a with
      | some p => (a + 1, p.arity) :: stk
      | none => stk
  | _ => stk

/-- The loop over the symbols of a term in depth-first order, `k` of them at most. It ends with
nothing at a variable. The next cell is taken from the top of the stack, also if it has no
arguments left. -/
def starLoop (tabSize : Nat) :
    Nat → Cell → List (Nat × Nat) → BitVec 64 → Option (Option (BitVec 64))
  | 0, _, _, hashval => some (some hashval)
  | k + 1, term, stk, hashval => do
    let term ← deref mem n term
    if isUnbound term then some none
    else
      let w ← valToHash W mem term
      let hashval := addHash hashval (ihash w tabSize)
      match pushArgs mem term stk with
      | [] => some (some hashval)
      | (a, left) :: stk =>
        starLoop tabSize k (mem a) (if left ≤ 1 then stk else (a + 1, left - 1) :: stk) hashval

/-! ### Joint indexes -/

/-- The loop over the bytes of a joint index. It ends with nothing at a variable. -/
def overBytes (byte : Nat → BitVec 64 → Option (Option (BitVec 64))) :
    List Nat → BitVec 64 → Option (Option (BitVec 64))
  | [], hashval => some (some hashval)
  | j :: js, hashval => do
    match ← byte j hashval with
    | none => some none
    | some hashval => overBytes byte js hashval

/-- The bytes of a joint index. -/
def indexBytes (ind : Nat) : List Nat := [ind / 2 ^ 16 % 2 ^ 8, ind / 2 ^ 8 % 2 ^ 8, ind % 2 ^ 8]

/-! ### Assertion -/

/-- A byte of a joint index in `hash_val`, for the arguments of the head. -/
def hashByte (arg : Nat → Cell) (tabSize j : Nat) (hashval : BitVec 64) :
    Option (Option (BitVec 64)) :=
  if j = 0 then some (some hashval)
  else if j ≤ 0x80 then do
    let arg ← deref mem n (arg j)
    if isUnbound arg then some none
    else
      let w ← valToHash W mem arg
      some (some (addHash hashval (ihash w tabSize)))
  else starLoop W mem n tabSize maxToIndex (arg (j - 0x80)) [] hashval

/-- `hash_val`: -1 if the head cannot be hashed. -/
def hashVal (ind : Nat) (head : Cell) (tabSize : Nat) : Option Int := do
  match ← deref mem n head with
  | .cs a =>
    if ind ≤ 0xff then do
      let arg ← deref mem n (mem (a + ind))
      if arg = .string nilName then some (ihash 0 tabSize)
      else if isUnbound arg then some (-1)
      else (valToHash W mem arg).map fun w => (ihash w tabSize : Int)
    else (overBytes (hashByte W mem n (fun j => mem (a + j)) tabSize) (indexBytes ind) 0).map fun
      | none => -1
      | some hashval => bucketOf hashval tabSize
  | _ => none

/-- The bucket that a clause is put in by `db_addbuff_i`, and the size of its table, if there is a
table for this index or none at all. -/
def clauseBucket (ind : Nat) (head : Cell) (thisTabSize : Nat) : Option (Int × Nat) :=
  (hashVal W mem n ind head thisTabSize).map fun h => if h = -1 then (0, 1) else (h, thisTabSize)

/-! ### Calls -/

/-- The float in a cell as the three integers of a boxed one. -/
def floatHash (x : Float64) : BitVec 64 :=
  (BitVec.ofInt 64 idBoxedFloat <<< 16 ||| (x >>> 48 &&& 0xffff)) ^^^ (x >>> 24 &&& 0xffffff) ^^^
    (x &&& 0xffffff)

/-- `switchonbound`: the bucket, or nothing if the argument is free. -/
def switchonbound (op1 : Cell) (op3 : Nat) : Option (Option Int) := do
  match ← deref mem n op1 with
  | .cs a => (structHashValue W mem a).map fun w => some (ihash w op3 : Int)
  | .string s => some (some (ihash (if s = nilName then 0 else W.string s) op3))
  | .int i => some (some (ihash (.ofInt 64 i) op3))
  | .float x => some (some (ihash (floatHash x) op3))
  | .list _ => some (some (ihash W.listPscPair op3))
  | .ref _ => some none
  | .attv _ => some none
  | .functor _ => none

/-- A cast to `int`. -/
def castInt (h : Nat) : BitVec 64 := (BitVec.ofNat 32 h).signExtend 64

/-- A byte in `switchon3bound`. It is the number of a register, in its low seven bits. -/
def switchByte (reg : Nat → Cell) (op3 b : Nat) (j : BitVec 64) : Option (Option (BitVec 64)) :=
  if b ≠ 0 then
    if 0x80 < b then starLoop W mem n op3 maxToIndex (reg (b % 2 ^ 7)) [] j
    else do
      let op1 ← deref mem n (reg (b % 2 ^ 7))
      if isUnbound op1 then some none
      else
        let w ← valToHash W mem op1
        some (some (j + (j + castInt (ihash w op3))))
  else some (some j)

/-- `switchon3bound`. -/
def switchon3bound (reg : Nat → Cell) (indexreg : List Nat) (op3 : Nat) : Option (Option Int) :=
  (overBytes (switchByte W mem n reg op3) indexreg 0).map fun j => j.map fun j => bucketOf j op3

/-- The instruction of a SOB record, `new_SOBblock`. -/
def switch (reg : Nat → Cell) (ind tabSize : Nat) : Option (Option Int) :=
  if 0xff < ind then switchon3bound W mem n reg (indexBytes ind) tabSize
  else switchonbound W mem n (reg ind) tabSize

end

end XSBEngine.Indexing
