import XSBEngine.Heap.Cells

/-!
# Dereferenced terms

The terms that builtins classify by tag, boxed numbers among them, `XSB/emu/cell_xsb.h:100–385`,
`insert_psc` of `XSB/emu/psc_xsb.c:343–361` and the errors of `XSB/emu/error_xsb.c`.
-/

namespace XSBEngine.Builtins

open Heap (CString boxName dotName idBoxedInt idBoxedFloat)

/-- `MAX_ARITY`, `XSB/emu/basicdefs.h:49`. -/
def maxArity : Nat := 65535

/-- A PSC record. The hash table of the global modules, which is none here, and the chain of each
other module have one record for each name and arity, and the field for the arity has 16 bits. -/
@[ext] structure Psc where
  name : CString
  arity : Nat
  mod : Option CString
  arity_le : arity ≤ maxArity
deriving DecidableEq

/-- `insert_psc`, which finds or makes the record. -/
def insertPsc (name : CString) (arity : Nat) (mod : Option CString) (h : arity ≤ maxArity) : Psc :=
  ⟨name, arity, mod, h⟩

theorem one_le_maxArity : 1 ≤ maxArity := by decide

theorem two_le_maxArity : 2 ≤ maxArity := by decide

/-- `box_psc`. -/
def boxPsc : Psc := insertPsc boxName 3 none (by decide)

/-- `nil_string`, `"[]"`. -/
def nilName : CString := ⟨[91, 93], by decide⟩

/-- Terms: free variables, attributed variables, atoms, integers that fit in a cell, lists, and
structures. A number that does not fit in a cell is a structure of `box_psc`. -/
inductive Term where
  | ref (a : Nat)
  | attv (a : Nat)
  | string (s : CString)
  | int (i : Int)
  | list (head tail : Term)
  | cs (psc : Psc) (args : Fin psc.arity → Term)

namespace Term

/-- Terms are compared argument by argument. -/
def decEq : (t u : Term) → Decidable (t = u)
  | .ref a, u =>
    match u with
    | .ref b => decidable_of_iff (a = b) (by rw [ref.injEq])
    | .attv _ | .string _ | .int _ | .list _ _ | .cs _ _ => isFalse nofun
  | .attv a, u =>
    match u with
    | .attv b => decidable_of_iff (a = b) (by rw [attv.injEq])
    | .ref _ | .string _ | .int _ | .list _ _ | .cs _ _ => isFalse nofun
  | .string s, u =>
    match u with
    | .string s' => decidable_of_iff (s = s') (by rw [string.injEq])
    | .ref _ | .attv _ | .int _ | .list _ _ | .cs _ _ => isFalse nofun
  | .int i, u =>
    match u with
    | .int j => decidable_of_iff (i = j) (by rw [int.injEq])
    | .ref _ | .attv _ | .string _ | .list _ _ | .cs _ _ => isFalse nofun
  | .list head tail, u =>
    match u with
    | .list head' tail' =>
      match decEq head head', decEq tail tail' with
      | isTrue h, isTrue h' => isTrue (by rw [h, h'])
      | isFalse h, _ => isFalse fun heq => h (list.inj heq).1
      | _, isFalse h => isFalse fun heq => h (list.inj heq).2
    | .ref _ | .attv _ | .string _ | .int _ | .cs _ _ => isFalse nofun
  | .cs psc args, u =>
    match u with
    | .cs psc' args' =>
      if h : psc = psc' then
        have : ∀ i, Decidable (args i = args' (i.cast (by rw [h]))) := fun i => decEq (args i) _
        decidable_of_iff (∀ i, args i = args' (i.cast (by rw [h]))) (by
          subst h
          rw [cs.injEq]
          exact ⟨fun hall => ⟨rfl, heq_of_eq (funext hall)⟩,
            fun heq i => congrFun (eq_of_heq heq.2) i⟩)
      else isFalse fun heq => h (cs.inj heq).1
    | .ref _ | .attv _ | .string _ | .int _ | .list _ _ => isFalse nofun

instance : DecidableEq Term := decEq

/-- `isref`. What is not one `isnonvar`. -/
def isref : Term → Bool
  | ref _ => true
  | _ => false

def isstring : Term → Bool
  | string _ => true
  | _ => false

def isinteger : Term → Bool
  | int _ => true
  | _ => false

def islist : Term → Bool
  | list _ _ => true
  | _ => false

def isconstr : Term → Bool
  | cs _ _ => true
  | _ => false

/-- `makenil`. -/
def nil : Term := .string nilName

/-- `isnil`. -/
def isnil (t : Term) : Bool := t = nil

/-- `get_str_arg`, if there is one. The cells of a list are counted from 0 and those of a structure
from 1, where its PSC record has 0. -/
def getStrArg : Term → Nat → Option Term
  | cs psc args, i => if h : 1 ≤ i ∧ i ≤ psc.arity then some (args ⟨i - 1, by omega⟩) else none
  | list head _, 0 => some head
  | list _ tail, 1 => some tail
  | _, _ => none

/-- The structure of the arguments. -/
def ofArgs (psc : Psc) (l : List Term) (h : l.length = psc.arity) : Term :=
  .cs psc fun i => l.get (i.cast h.symm)

/-- The proper list of the elements. -/
def ofList : List Term → Term
  | [] => nil
  | t :: ts => .list t (ofList ts)

/-- `isboxed`. -/
def isboxed : Term → Bool
  | cs psc _ => psc = boxPsc
  | _ => false

/-- `box_has_id`. The tagged word of another argument than an integer, shifted right, is no
identifier. -/
def boxHasId (t : Term) (id : Int) : Bool :=
  match t.getStrArg 1 with
  | some (.int i) => i >>> (16 : Nat) = id
  | _ => false

def isboxedinteger (t : Term) : Bool := t.isboxed && t.boxHasId idBoxedInt

def isboxedfloat (t : Term) : Bool := t.isboxed && t.boxHasId idBoxedFloat

def isointeger (t : Term) : Bool := t.isinteger || t.isboxedinteger

/-- `isofloat`, where floats are boxed. -/
def isofloat (t : Term) : Bool := t.isboxedfloat

/-- `int_overflow`. -/
def intOverflow (value : Int) : Prop := ¬ (-2 ^ 60 ≤ value ∧ value < 2 ^ 60)

instance (value : Int) : Decidable (intOverflow value) := inferInstanceAs (Decidable (¬ _))

/-- `bld_boxedint`. -/
def boxedint (value : Int) : Term :=
  .ofArgs boxPsc [.int (idBoxedInt * 2 ^ 16), .int (value % 2 ^ 64 / 2 ^ 24),
    .int (value % 2 ^ 24)] rfl

/-- `bld_oint`. -/
def oint (value : Int) : Term := if intOverflow value then boxedint value else .int value

end Term

/-- How a builtin ends that neither succeeds nor fails. -/
inductive Abort where
  | typeError (validType : String) (culprit : Term) (predicate : String) (arg : Nat)
  | instantiationError (predicate : String) (arg : Nat)
  | domainError (validDomain : String) (culprit : Term) (predicate : String) (arg : Nat)
  | representationError (inmsg culprit predicate : String) (arg : Nat)
  | memoryError
  /-- Something has been written behind a buffer. -/
  | outside
deriving DecidableEq

end XSBEngine.Builtins
