import XSBEngine.Calls.AnswerTemplate
import XSBEngine.Library.Machine
import XSBEngine.Terms.Walker

/-!
# Tabled calls

`variant_call_search` with `recvariant_call` (`XSB/emu/tries.c:2024–2246, 2304–2539`): the arguments
of a call are read, its variables are standardized, and subterms that exceed the limit on the size
of calls are replaced by variables.
-/

namespace XSBEngine.Calls

open Library XSBEngine.Tries XSBEngine.Terms

/-- `flags[MAX_TABLE_SUBGOAL_ACTION]`. -/
inductive SubgoalAction where
  | error
  | failure
  | abstract
  | suspend
deriving Repr, DecidableEq

/-- What a search depends on. The limit on the number of variables is 64000, or set to 1 to 40000
(`XSB/syslib/curr_sym.P:1334`). -/
structure Settings where
  arity : Nat → Nat
  /-- `interning_terms && isinternstr`. -/
  interned : Cell → Bool
  isCyclic : Memory → Cell → Bool
  predSubgoalSizeLimit : Nat
  /-- `flags[CYCLIC_CHECK_SIZE]`. -/
  cyclicCheckSize : Nat
  action : SubgoalAction
  /-- `vcs_tnot_call`. -/
  tnotCall : Bool
  maxTableSubgoalVarNum : Nat
  varNum_lt : maxTableSubgoalVarNum < 2 ^ 16

/-- Why a search does not return a leaf. -/
inductive CallFault where
  | cyclicTerm
  | sizeExceeded
  | failure
  | badTag
  | floundering
  | tooManyVariables
deriving Repr, DecidableEq

/-- The local variables of the search, with the registers to come, and what it writes. -/
structure CallSearch where
  machine : Machine
  args : List Addr
  pdl : List Cell
  /-- The symbols for the call trie, the last one first, with interned terms. -/
  path : List (Symbol × Option Cell)
  /-- The substitution factor, from `SubsFactReg` on. -/
  subsFact : List Cell
  ctr : Nat
  attvCtr : Nat
  /-- `callAbsStk`, of original and abstracted terms. -/
  absStk : List (Cell × Addr)
  /-- The cells that were overwritten, on the pre-image trail. -/
  preImages : List (Addr × Cell)
  /-- `subgoal_size_ctr`, an unsigned word, which does not come back after it has been 0. -/
  sizeCtr : Option Nat
  canAbstract : Bool
  secondCheckingPhase : Bool

/-- The tag of attributed variables. -/
def isAttv : Cell → Bool
  | .attv _ => true
  | _ => false

namespace CallSearch

/-- `--subgoal_size_ctr`. -/
def decrement : Option Nat → Option Nat
  | some (n + 1) => some n
  | _ => none

/-- The symbol of a cell is put into the trie, and what is below it onto the pdl stack. A variable
is standardized. -/
def add (k : Settings) (s : CallSearch) (cell : Cell) : Except CallFault CallSearch :=
  match visit k.arity false true s.machine s.ctr cell with
  | none => .error .badTag
  | some v =>
    let interned := cell.isCompound && k.interned cell
    .ok { s with
      machine := v.machine
      pdl := (if interned then [] else v.push) ++ s.pdl
      path := (v.symbol, if interned then some cell else none) :: s.path
      subsFact := if v.ctr = s.ctr then s.subsFact else cell :: s.subsFact
      ctr := v.ctr
      attvCtr := if isAttv cell then s.attvCtr + 1 else s.attvCtr
      canAbstract := s.canAbstract && !isAttv cell }

/-- `new_heap_free`. -/
def newHeapFree (m : Machine) : Machine :=
  { m.write ⟨.heap, m.hreg⟩ (.ref ⟨.heap, m.hreg⟩) with hreg := m.hreg + 1 }

/-- `APPLY_SUBGOAL_SIZE_ABSTRACTION`, for the address of a cell that was popped. -/
def applySubgoalSizeAbstraction (s : CallSearch) (pElement : Addr) (cell : Cell) : CallSearch :=
  let newElement : Addr := ⟨.heap, s.machine.hreg⟩
  let m := (newHeapFree s.machine).write pElement (.ref newElement)
  { s with
    machine := m.standardizeVariable newElement s.ctr
    absStk := (cell, newElement) :: s.absStk
    preImages := (pElement, cell) :: s.preImages
    subsFact := .ref newElement :: s.subsFact
    path := (encodeNewTrieVar s.ctr, none) :: s.path
    ctr := s.ctr + 1 }

/-- `HANDLE_SUBGOAL_SIZE_LIST` and `HANDLE_SUBGOAL_SIZE_STRUCTURE`. -/
def handleSubgoalSize (k : Settings) (s : CallSearch) (nonderef cell : Cell) :
    Except CallFault CallSearch :=
  if k.action = .abstract ∧ s.canAbstract ∧ !k.tnotCall then
    match nonderef with
    | .ref pElement => .ok (s.applySubgoalSizeAbstraction pElement cell)
    | _ => .error .badTag
  else if k.action = .failure then .error .failure
  else if k.action = .suspend then s.add k cell
  else .error .sizeExceeded

/-- `subgoal_cyclic_term_check`, once the counter has come to 0. -/
def subgoalCyclicTermCheck (k : Settings) (s : CallSearch) (cell : Cell) :
    Except CallFault CallSearch :=
  if s.secondCheckingPhase = false ∧ k.cyclicCheckSize < k.predSubgoalSizeLimit then
    if k.isCyclic s.machine.mem cell then .error .cyclicTerm
    else .ok { s with
      secondCheckingPhase := true
      sizeCtr := s.sizeCtr.map (· + (k.predSubgoalSizeLimit - k.cyclicCheckSize)) }
  else .ok s

/-- `CHECK_SUBGOAL_SIZE_LIST` and `CHECK_SUBGOAL_SIZE_STRUCTURE`. -/
def checkSubgoalSize (k : Settings) (s : CallSearch) (nonderef cell : Cell) :
    Except CallFault CallSearch := do
  let s := { s with sizeCtr := decrement s.sizeCtr }
  let s ← if s.sizeCtr = some 0 then s.subgoalCyclicTermCheck k cell else .ok s
  if s.sizeCtr = some 0 then s.handleSubgoalSize k nonderef cell else s.add k cell

/-- The body of the loop of `recvariant_call`. The bound is on the length of chains of
references. -/
def recvariantCall (k : Settings) (fuel : Nat) (s : CallSearch) (nonderef : Cell) :
    Except CallFault CallSearch :=
  match deref s.machine.mem fuel nonderef with
  | none => .error .badTag
  | some cell => if cell.isCompound then s.checkSubgoalSize k nonderef cell else s.add k cell

/-- A variable on the local stack becomes one on the heap. -/
def globalize (m : Machine) (a : Addr) : Machine × Addr :=
  if a.area = .localStack then (m.moveToHeap a, ⟨.heap, m.hreg⟩) else (m, a)

/-- The switch over the tag of an argument of the call. -/
def callArg (k : Settings) (fuel : Nat) (s : CallSearch) (arg : Addr) :
    Except CallFault CallSearch :=
  let s := { s with
    canAbstract := true
    sizeCtr := some (if k.cyclicCheckSize < k.predSubgoalSizeLimit then k.cyclicCheckSize
      else k.predSubgoalSizeLimit) }
  match deref s.machine.mem fuel (.ref arg) with
  | none => .error .badTag
  | some (.ref a) =>
    if s.machine.isStandardizedVariable a then s.add k (.ref a)
    else { s with machine := (globalize s.machine a).1 }.add k (.ref (globalize s.machine a).2)
  | some cell => s.add k cell

/-- One pass of a loop. -/
def step (k : Settings) (fuel : Nat) (s : CallSearch) : Except CallFault CallSearch :=
  match s.pdl, s.args with
  | cell :: pdl, _ => { s with pdl := pdl }.recvariantCall k fuel cell
  | [], arg :: args => { s with args := args }.callArg k fuel arg
  | [], [] => .ok s

/-- The start of the search. `CallAbsStk_ResetTOS` was called before. -/
def start (m : Machine) (args : List Addr) : CallSearch where
  machine := m
  args := args
  pdl := []
  path := []
  subsFact := []
  ctr := 0
  attvCtr := 0
  absStk := []
  preImages := []
  sizeCtr := none
  canAbstract := true
  secondCheckingPhase := false

/-- `ResetStandardizedVariable` for the substitution factor. -/
def resetStandardized (m : Machine) (subsFact : List Cell) : Machine :=
  subsFact.foldl (fun m c => match c with
    | .ref a | .attv a => m.write a (.ref a)
    | _ => m) m

/-- What a search returns: the path to the leaf and the answer template, with its number cell. -/
structure CallLookup where
  path : List (Symbol × Option Cell)
  subsFact : List Cell
  absStk : List (Cell × Addr)
  template : BitVec 32
  machine : Machine

/-- The end of `variant_call_search`. The path of a call without arguments is the escape node. -/
def finish (k : Settings) (s : CallSearch) : Except CallFault CallLookup :=
  if k.tnotCall ∧ 0 < s.ctr then .error .floundering
  else if k.maxTableSubgoalVarNum < s.ctr then .error .tooManyVariables
  else .ok {
    path := s.path.reverse
    subsFact := s.subsFact
    absStk := s.absStk
    template := encodeAnsTemplCtrs s.attvCtr s.absStk.length s.ctr
    machine := (resetStandardized s.machine s.subsFact).undoAnswerBindings }

end CallSearch

/-- The loops of the search. -/
def callSearch (k : Settings) (fuel : Nat) : Library.Machine CallSearch CallFault where
  halted s := s.pdl.isEmpty && s.args.isEmpty
  step s := s.step k fuel

/-- A search that returns a leaf. -/
def Admitted (k : Settings) (m : Machine) (args : List Addr) (r : CallSearch.CallLookup) : Prop :=
  ∃ fuel n s, (callSearch k fuel).run n (.start m args) = .ok s ∧ (callSearch k fuel).halted s ∧
    s.finish k = .ok r

end XSBEngine.Calls
