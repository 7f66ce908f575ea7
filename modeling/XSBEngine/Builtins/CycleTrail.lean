import XSBEngine.Heap.Cells
import XSBEngine.Library.Machine

/-!
# Traversals with a cycle trail

`is_cyclic` and `ground_cyc`, `XSB/emu/std_pred_xsb_i.h:1329–1439`, with the cycle trail of
`XSB/emu/basictypes.h:137–169`, and `ground`, `XSB/emu/builtin.c:792–830`.
-/

namespace XSBEngine.Builtins.CycleTrail

open Function

open Heap (CString Psc Cell deref getStrPsc)
open Library

/-- `"_$visited"`. -/
def visitedName : CString := ⟨[95, 36, 118, 105, 115, 105, 116, 101, 100], by decide⟩

/-- `visited_string`. -/
def visitedString : Cell := .string visitedName

/-- `clref_val`. -/
def clrefVal : Cell → Nat
  | .list a => a
  | .cs a => a
  | _ => 0

/-- The test for the tags of lists and structures. -/
def isCompound (c : Cell) : Bool := c.islist || c.isconstr

/-- `Cycle_Trail_Frame`. The fields for the numbers of arguments are bytes. -/
structure CycleTrailFrame where
  cellAddr : Nat
  value : Cell
  argNum : Nat
  arity : Nat
  parent : Cell

/-- The heap, the cycle trail from its top down, and the result once there is one. -/
structure State where
  mem : Nat → Cell
  trail : List CycleTrailFrame
  result : Option Bool

/-- Where the code has no result: a chain of references that does not end, and the word that a
structure begins with, which is the address of its PSC record, taken for a cell. -/
inductive Stuck where
  | chain
  | psc
deriving DecidableEq

/-- `XSB_Deref` of a cell of a term. -/
def derefCell (mem : Nat → Cell) (n : Nat) (c : Cell) : Except Stuck Cell :=
  match deref mem n c with
  | none => .error .chain
  | some (.functor _) => .error .psc
  | some term => .ok term

/-- The frame of `push_cycle_trail`. -/
def newFrame (mem : Nat → Cell) (term : Cell) : Except Stuck CycleTrailFrame :=
  match term with
  | .cs a =>
    match getStrPsc mem a with
    | some psc => .ok ⟨a, mem a, 1, psc.arity % 256, term⟩
    | none => .error .psc
  | term => .ok ⟨clrefVal term, mem (clrefVal term), 0, 1, term⟩

namespace State

/-- `push_cycle_trail`, and `visited_string` in the first cell. -/
def push (s : State) (term : Cell) : Except Stuck State :=
  match newFrame s.mem term with
  | .error e => .error e
  | .ok frame =>
    .ok { s with mem := update s.mem (clrefVal term) visitedString,
                 trail := frame :: s.trail }

/-- `unwind_cycle_trail`, for the heap. -/
def unwind (mem : Nat → Cell) : List CycleTrailFrame → Nat → Cell
  | [] => mem
  | frame :: trail => unwind (update mem frame.cellAddr frame.value) trail

/-- The trail is unwound and a result returned. -/
def leave (s : State) (result : Bool) : State :=
  { mem := unwind s.mem s.trail, trail := [], result := some result }

end State

/-- What differs between the traversals: which compound terms are passed over, at which other
terms the traversal returns `FALSE`, and what it returns at a visited compound and at its end. -/
structure Visits where
  skips : Cell → Bool
  fails : Cell → Bool
  atVisited : Bool
  atEnd : Bool

/-- One round of the loop. -/
def step (v : Visits) (n : Nat) (s : State) : Except Stuck State :=
  match s.trail with
  | [] => .ok { s with result := some v.atEnd }
  | frame :: trail =>
    if frame.arity < frame.argNum then
      .ok { s with mem := update s.mem frame.cellAddr frame.value, trail := trail }
    else
      let cell := if frame.argNum = 0 then frame.value
        else s.mem (clrefVal frame.parent + frame.argNum)
      let s := { s with trail := { frame with argNum := (frame.argNum + 1) % 256 } :: trail }
      match derefCell s.mem n cell with
      | .error e => .error e
      | .ok term =>
        if isCompound term then
          if v.skips term then .ok s
          else if s.mem (clrefVal term) = visitedString then .ok (s.leave v.atVisited)
          else s.push term
        else if v.fails term then .ok (s.leave false)
        else .ok s

/-- The loop as a machine. -/
def loop (v : Visits) (n : Nat) : Machine State Stuck where
  halted s := s.result.isSome
  step := step v n

/-- `is_cyclic`: compound terms are passed over if they are interned. -/
def cyclicVisits (isinternstr : Cell → Bool) : Visits where
  skips := isinternstr
  fails _ := false
  atVisited := true
  atEnd := false

/-- `is_cyclic`, up to its loop. -/
def isCyclic (isinternstr : Cell → Bool) (mem : Nat → Cell) (n : Nat) (term : Cell) :
    Except Stuck State :=
  match derefCell mem n term with
  | .error e => .error e
  | .ok term =>
    if isCompound term = false ∨ isinternstr term then .ok ⟨mem, [], some false⟩
    else State.push ⟨mem, [], none⟩ term

/-- Variables: `!isnonvar(Term) || is_attv(Term)`. -/
def isVariable (c : Cell) : Bool := c.isref || c.isattv

/-- `cycle_action`, `XSB/emu/builtin.h:363–364`. -/
inductive CycleAction where
  | cyclicSucceed
  | cyclicFail
deriving DecidableEq

/-- `ground_cyc`: nothing is passed over, and variables end the traversal. -/
def groundVisits (action : CycleAction) : Visits where
  skips _ := false
  fails := isVariable
  atVisited := action = .cyclicSucceed
  atEnd := true

/-- `ground_cyc`, up to its loop, where `cycle_action` is used first. -/
def groundCyc (mem : Nat → Cell) (n : Nat) (term : Cell) : Except Stuck State :=
  match derefCell mem n term with
  | .error e => .error e
  | .ok term =>
    if isCompound term = false then .ok ⟨mem, [], some (!isVariable term)⟩
    else State.push ⟨mem, [], none⟩ term

/-- The loop of `ground` over arguments. The last one is not called, but gone on with. -/
def groundArgs (ground : Cell → Except Stuck Bool) : List Cell → Except Stuck Bool
  | [] => .ok true
  | c :: cs =>
    match ground c with
    | .error e => .error e
    | .ok false => .ok false
    | .ok true => groundArgs ground cs

/-- `ground`. The second number bounds the depth. -/
def ground (isinternstrReally : Cell → Bool) (mem : Nat → Cell) (n : Nat) :
    Nat → Cell → Except Stuck Bool
  | 0, _ => .error .chain
  | d + 1, temp =>
    match derefCell mem n temp with
    | .error e => .error e
    | .ok (.list a) =>
      if isinternstrReally (.list a) then .ok true
      else groundArgs (ground isinternstrReally mem n d) [mem a, mem (a + 1)]
    | .ok (.cs a) =>
      if isinternstrReally (.cs a) then .ok true
      else
        match getStrPsc mem a with
        | none => .error .psc
        | some psc =>
          groundArgs (ground isinternstrReally mem n d)
            ((List.range psc.arity).map fun j => mem (a + 1 + j))
    | .ok temp => .ok (!isVariable temp)

end XSBEngine.Builtins.CycleTrail
