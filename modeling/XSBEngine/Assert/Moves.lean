import XSBEngine.Library.Machine
import XSBEngine.Library.Ring

/-!
# Loading the arguments of a body goal

`db_genmvs` with its instruction queue and the registers of a clause (`XSB/emu/biassert.c:457–468,
519–557, 581–643, 1042–1115`): the arguments of the goal of a dynamic clause are loaded from
registers or with constants.
-/

namespace XSBEngine.Assert

open Function Library

/-! ### Instructions -/

/-- The instructions that load a register. -/
inductive Opcode where
  | movreg
  | puttvar
  | putcon
  | putnumcon
  | putnil
deriving Repr, DecidableEq

/-- `struct instruction`. The second argument is the target register. -/
structure Instruction where
  opcode : Opcode
  arg1 : Nat
  arg2 : Nat
deriving Repr, DecidableEq

/-- `INST_QUEUE_SIZE`. -/
def instQueueSize : Nat := 256

/-- `struct instruction_q`. -/
abbrev InstQueue := Library.Ring Instruction

/-- What stops the compilation of a clause. -/
inductive GenFault where
  | queueOverflow
  | register
deriving Repr, DecidableEq

/-- `inst_queue_init`, where the array is not initialised. -/
def instQueueInit (cell : Nat → Instruction) : InstQueue := ⟨cell, 10, 10⟩

/-- `inst_queue_push`. -/
def instQueuePush (q : InstQueue) (i : Instruction) : Except GenFault InstQueue :=
  let q := q.push instQueueSize i
  if q.top = q.bottom then .error .queueOverflow else .ok q

/-! ### Registers -/

/-- `MAX_REGS`. -/
def maxRegs : Nat := 257

/-- The mark of a register used for an introduced variable. -/
def TVAR : Int := -2

/-- The mark of a register that is required forever. -/
def NVAR : Int := -3

/-- `struct RegStat_t`. A free register holds the next free one, or 0 if all later ones are free. -/
structure RegStat where
  regArray : Nat → Int
  freeReg : Nat

/-- `reg_init`, where the rest of the array is not initialised. -/
def regInit (regArray : Nat → Int) (size : Nat) : RegStat where
  regArray r := if r < size + 1 then NVAR else if r = size + 1 then 0 else regArray r
  freeReg := size + 1

/-- `reg_get`. -/
def regGet (reg : RegStat) (type : Int) : Except GenFault (Nat × RegStat) :=
  let newReg := reg.freeReg
  if reg.regArray newReg = 0 then
    if maxRegs ≤ newReg + 1 then .error .register
    else .ok (newReg, ⟨update (update reg.regArray (newReg + 1) 0) newReg type,
      newReg + 1⟩)
  else .ok (newReg, ⟨update reg.regArray newReg type, (reg.regArray newReg).toNat⟩)

/-- `reg_release`. -/
def regRelease (reg : RegStat) (r : Nat) : RegStat :=
  if reg.regArray r = TVAR then ⟨update reg.regArray r reg.freeReg, r⟩ else reg

/-! ### Moves -/

/-- A register is not the source of an instruction that the scan sees. -/
def targetIsNotSource (q : InstQueue) (r : Nat) : Bool :=
  q.scan.all fun i => !(i.opcode = .movreg && i.arg1 = r)

/-- A register is not the target of an instruction that the scan sees. -/
def sourceIsNotTarget (q : InstQueue) (r : Nat) : Bool := q.scan.all fun i => !(i.arg2 = r)

/-- The state of `db_genmvs`, with the code it has emitted. -/
structure Moves where
  queue : InstQueue
  reg : RegStat
  code : List Instruction

namespace Moves

/-- The instruction is emitted. -/
def emit (s : Moves) (i : Instruction) : Moves := { s with code := s.code ++ [i] }

/-- The instruction is put back into the queue. -/
def push (s : Moves) (i : Instruction) : Except GenFault Moves :=
  (instQueuePush s.queue i).map fun q => { s with queue := q }

/-- The instruction at the bottom of the queue. -/
def head (s : Moves) : Instruction := s.queue.cell s.queue.bottom

/-- The queue after `inst_queue_rem`. -/
def rest (s : Moves) : InstQueue := s.queue.rem instQueueSize

/-- The body of the loop of `db_genmvs`. -/
def step (s : Moves) : Except GenFault Moves :=
  let i := s.head
  let s := { s with queue := s.rest }
  match i.opcode with
  | .movreg =>
    if i.arg1 = i.arg2 then .ok s
    else if targetIsNotSource s.queue i.arg2 then
      .ok { s.emit i with reg := regRelease s.reg i.arg1 }
    else if sourceIsNotTarget s.queue i.arg1 then s.push i
    else do
      let (r0, reg) ← regGet s.reg TVAR
      { s.emit ⟨.movreg, i.arg1, r0⟩ with reg := regRelease reg i.arg1 }.push ⟨.movreg, r0, i.arg2⟩
  | _ => if targetIsNotSource s.queue i.arg2 then .ok (s.emit i) else s.push i

end Moves

/-- `db_genmvs`. -/
def dbGenmvs : Machine Moves GenFault where
  halted s := s.queue.top = s.queue.bottom
  step := Moves.step

/-- The queue for the arguments of a goal. -/
def bodyQueue (cell : Nat → Instruction) (loads : List Instruction) : Except GenFault InstQueue :=
  loads.foldlM instQueuePush (instQueueInit cell)

/-! ### What the code does -/

/-- What a register holds: what was in it before, a reference to a new variable or a constant. -/
inductive Value where
  | before (w : Nat)
  | ref (addr : Nat)
  | con (c : Nat)
  | num (n : Nat)
  | nil
deriving Repr, DecidableEq

/-- The registers, and the next free heap cell. -/
structure Registers where
  regs : Nat → Value
  hreg : Nat

/-- An instruction is executed (`XSB/emu/emuloop.c:870, 972–1006, 1734`). -/
def exec (m : Registers) (i : Instruction) : Registers :=
  match i.opcode with
  | .movreg => { m with regs := update m.regs i.arg2 (m.regs i.arg1) }
  | .puttvar =>
    ⟨update (update m.regs i.arg1 (.ref m.hreg)) i.arg2 (.ref m.hreg), m.hreg + 1⟩
  | .putcon => { m with regs := update m.regs i.arg2 (.con i.arg1) }
  | .putnumcon => { m with regs := update m.regs i.arg2 (.num i.arg1) }
  | .putnil => { m with regs := update m.regs i.arg2 .nil }

/-- What a load puts into its target, if the registers hold `regs`; there is no such value for a
new variable. -/
def loadValue (regs : Nat → Value) (l : Instruction) : Option Value :=
  match l.opcode with
  | .movreg => some (regs l.arg1)
  | .puttvar => none
  | .putcon => some (.con l.arg1)
  | .putnumcon => some (.num l.arg1)
  | .putnil => some .nil

/-- The loads have been performed at once: each target has the value that its source had before,
and new variables are different. -/
structure Loaded (m m' : Registers) (loads : List Instruction) : Prop where
  value : ∀ l ∈ loads, ∀ v, loadValue m.regs l = some v → m'.regs l.arg2 = v
  var : ∀ l ∈ loads, loadValue m.regs l = none →
    ∃ a, m.hreg ≤ a ∧ a < m'.hreg ∧ m'.regs l.arg2 = .ref a
  distinct : ∀ l ∈ loads, ∀ l' ∈ loads, loadValue m.regs l = none → loadValue m.regs l' = none →
    m'.regs l.arg2 = m'.regs l'.arg2 → l = l'

/-- `db_genmvs` returns, and its code performs the loads. -/
def LoadsAll (s : Moves) (loads : List Instruction) : Prop :=
  ∃ n s', dbGenmvs.run n s = .ok s' ∧ dbGenmvs.halted s' ∧
    ∀ m, Loaded m (s'.code.foldl exec m) loads

/-! ### Loads of a clause body -/

/-- The registers of a chain of free registers, up to one from which all are free. -/
inductive FreeChain (regArray : Nat → Int) : Nat → List Nat → Nat → Prop where
  | last {n : Nat} : regArray n = 0 → FreeChain regArray n [] n
  | next {r n : Nat} {l : List Nat} : regArray r ≠ 0 →
      FreeChain regArray (regArray r).toNat l n → FreeChain regArray r (r :: l) n

/-- The free registers are those of a chain and all from `n` on. -/
structure RegStat.Free (reg : RegStat) (l : List Nat) (n : Nat) : Prop where
  chain : FreeChain reg.regArray reg.freeReg l n
  nodup : l.Nodup
  lt : ∀ r ∈ l, r < n
  pos : 0 < n ∧ ∀ r ∈ l, 0 < r

/-- Registers in use. -/
def RegStat.Held (l : List Nat) (n r : Nat) : Prop := 0 < r ∧ r < n ∧ r ∉ l

/-- The loads of a clause body and the registers then: targets are argument registers, and sources
are in use. Only a register for one load is marked as introduced. -/
structure Built (reg : RegStat) (loads : List Instruction) : Prop where
  targets : (loads.map Instruction.arg2).Nodup
  length : loads.length < instQueueSize
  puttvar : ∀ i ∈ loads, i.opcode = .puttvar → i.arg1 = i.arg2
  free : ∃ l n, reg.Free l n ∧ (∀ i ∈ loads, RegStat.Held l n i.arg2) ∧
    ∀ i ∈ loads, i.opcode = .movreg → RegStat.Held l n i.arg1
  arguments : ∀ i ∈ loads, reg.regArray i.arg2 ≠ TVAR
  introduced : ∀ i ∈ loads, ∀ j ∈ loads, i.opcode = .movreg → j.opcode = .movreg →
    i.arg1 = j.arg1 → reg.regArray i.arg1 = TVAR → i = j

/-! ### What may go wrong -/

namespace Moves

/-- The scan of a queue whose top is below its bottom misses the source of another load. -/
def Misled (s : Moves) : Prop :=
  s.rest.top < s.rest.bottom ∧ ¬ (s.head.opcode = .movreg ∧ s.head.arg1 = s.head.arg2) ∧
    ∃ i ∈ s.rest.contents instQueueSize, i.opcode = .movreg ∧ i.arg1 = s.head.arg2

/-- A load of a cycle needs a register, and there is none. -/
def OutOfRegisters (s : Moves) : Prop :=
  s.head.opcode = .movreg ∧ s.head.arg1 ≠ s.head.arg2 ∧
    targetIsNotSource s.rest s.head.arg2 = false ∧ sourceIsNotTarget s.rest s.head.arg1 = false ∧
    s.reg.regArray s.reg.freeReg = 0 ∧ maxRegs ≤ s.reg.freeReg + 1

end Moves

end XSBEngine.Assert
