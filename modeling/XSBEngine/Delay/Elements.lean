import XSBEngine.Library.Pool

/-!
# Delay elements, delay lists and their uses

The entries of `XSB/emu/slgdelay.h:84–140` and the functions that link them, `XSB/emu/slgdelay.h:
183–218, 312–339` and `XSB/emu/slgdelay.c:120–150, 385–600, 645–685, 745–800, 892–946, 1210–1263`.
-/

namespace XSBEngine.Delay

open Function Library

/-- What a delay element refers to: a subgoal if it is negative, else an answer. -/
inductive Owner where
  | subgoal (sf : Nat)
  | answer (leaf : Nat)
deriving Repr, DecidableEq

/-- The entries `PNDE`, and the fields `subg_nde_list` and `asi_pdes` of what they are for. -/
structure PndeTable where
  pool : Pool
  dl : Nat → Nat
  de : Nat → Nat
  prev : Nat → Option Nat
  head : Owner → Option Nat

/-- The entries `DE`, without their delay tries. -/
structure DeTable where
  pool : Pool
  subgoal : Nat → Nat
  ansSubst : Nat → Option Nat
  pnde : Nat → Nat

/-- The entries `DL`. -/
structure DlTable where
  pool : Pool
  deList : Nat → Option Nat
  asl : Nat → Option Nat

/-- The child field of an answer leaf: no delay information (or a tagged cell of the answer list),
delay information, and this with `UNCONDITIONAL_MARK` or in a leaf that was deleted. -/
inductive Child where
  | null
  | asi
  | unconditional
  | deleted
deriving Repr, DecidableEq

/-- `is_conditional_answer`. The child field of a deleted leaf is as it was. -/
def Child.isConditional : Child → Bool
  | .asi | .deleted => true
  | .null | .unconditional => false

/-- All entries, the child fields of the leaves and their `asi_dl_list`. -/
structure DelayTables where
  pndes : PndeTable
  des : DeTable
  dls : DlTable
  child : Nat → Child
  dlList : Nat → Option Nat

/-- The list that the entry for a delay element is on. -/
def DeTable.owner (e : DeTable) (de : Nat) : Owner :=
  match e.ansSubst de with
  | none => .subgoal (e.subgoal de)
  | some leaf => .answer leaf

/-- A delay element as it was in the delay register. -/
def DeTable.elem (e : DeTable) (de : Nat) : Nat × Option Nat := (e.subgoal de, e.ansSubst de)

namespace PndeTable

/-- `remove_pnde`. -/
def removePnde (t : PndeTable) (o : Owner) (item : Nat) : PndeTable :=
  let next := t.pool.next item
  if t.head o = some item then
    -- the field `prev` of the new head is not reset
    { t with head := update t.head o next, pool := t.pool.releaseEntry item }
  else
    let pool := match t.prev item with
      | some b => t.pool.setNext b next
      | none => t.pool
    { t with pool := pool.releaseEntry item, prev := setPrev t.prev next (t.prev item) }

/-- The body of the loop of `record_de_usage`: a new entry in front of a list. -/
def record (t : PndeTable) (o : Owner) (dl de : Nat) : Nat × PndeTable :=
  let pnde := t.pool.newEntry.1
  let currentFirst := t.head o
  (pnde, {
    pool := t.pool.newEntry.2.setNext pnde currentFirst
    dl := update t.dl pnde dl
    de := update t.de pnde de
    prev := setPrev (update t.prev pnde none) currentFirst (some pnde)
    head := update t.head o (some pnde) })

/-- The removal of the entry for a delay element. `release_all_dls` does nothing for a negative
one if the list of its subgoal is empty. -/
def removeFor (t : PndeTable) (checkNdeList : Bool) (e : DeTable) (de : Nat) : PndeTable :=
  if checkNdeList ∧ e.ansSubst de = none ∧ t.head (e.owner de) = none then t
  else t.removePnde (e.owner de) (e.pnde de)

end PndeTable

/-- `record_de_usage`, from an element of the list on. -/
def recordDeUsage (dl : Nat) :
    Nat → PndeTable → DeTable → Option Nat → Option (PndeTable × DeTable)
  | _, t, e, none => some (t, e)
  | 0, _, _, some _ => none
  | fuel + 1, t, e, some de =>
    let (pnde, t) := t.record (e.owner de) dl de
    recordDeUsage dl fuel t { e with pnde := update e.pnde de pnde } (e.pool.next de)

/-- The loops that release the elements of a list, from one of them on. -/
def releaseDes (checkNdeList : Bool) (e : DeTable) :
    Nat → PndeTable → Pool → Option Nat → Option (PndeTable × Pool)
  | _, t, pool, none => some (t, pool)
  | 0, _, _, some _ => none
  | fuel + 1, t, pool, some de =>
    let tmpDe := pool.next de
    releaseDes checkNdeList e fuel (t.removeFor checkNdeList e de) (pool.releaseEntry de) tmpDe

/-- `release_all_dls`, from a list on. -/
def releaseDls (e : DeTable) (deList : Nat → Option Nat) :
    Nat → PndeTable → Pool → Pool → Option Nat → Option (PndeTable × Pool × Pool)
  | _, t, des, dls, none => some (t, des, dls)
  | 0, _, _, _, some _ => none
  | fuel + 1, t, des, dls, some dl => do
    let tmpDl := dls.next dl
    let (t, des) ← releaseDes true e des.nextFree t des (deList dl)
    releaseDls e deList fuel t des (dls.releaseEntry dl) tmpDl

namespace DelayTables

/-- `was_simplifiable`, where the subgoals that have failed are given. -/
def wasSimplifiable (s : DelayTables) (failed : Nat → Bool) : Nat × Option Nat → Bool
  | (subgoal, none) => failed subgoal
  | (_, some leaf) => !(s.child leaf).isConditional

/-- The elements of the delay register that `intern_delay_list` keeps, in the order of the list. -/
def remaining (s : DelayTables) (failed : Nat → Bool) (delayreg : List (Nat × Option Nat)) :
    List (Nat × Option Nat) :=
  (delayreg.filter fun elem => !s.wasSimplifiable failed elem).reverse

/-- `intern_delay_element`, and the link to the elements before it. -/
def internDelayElement (e : DeTable) (head : Option Nat) (elem : Nat × Option Nat) : DeTable :=
  let de := e.pool.newEntry.1
  { pool := e.pool.newEntry.2.setNext de head
    subgoal := update e.subgoal de elem.1
    ansSubst := update e.ansSubst de elem.2
    pnde := e.pnde }

/-- The loop of `intern_delay_list` over the elements of the delay register. -/
def internDes (s : DelayTables) (failed : Nat → Bool) :
    List (Nat × Option Nat) → Option Nat → DeTable → Option Nat × DeTable
  | [], head, e => (head, e)
  | elem :: delayreg, head, e =>
    if s.wasSimplifiable failed elem then s.internDes failed delayreg head e
    else s.internDes failed delayreg (some e.pool.newEntry.1) (internDelayElement e head elem)

/-- `intern_delay_list`. -/
def internDelayList (s : DelayTables) (failed : Nat → Bool) (delayreg : List (Nat × Option Nat)) :
    Option Nat × DelayTables :=
  match s.internDes failed delayreg none s.des with
  | (none, des) => (none, { s with des := des })
  | (some head, des) =>
    let dl := s.dls.pool.newEntry.1
    (some dl, { s with
      des := des
      dls := { pool := s.dls.pool.newEntry.2
               deList := update s.dls.deList dl (some head)
               asl := update s.dls.asl dl none } })

/-- `create_asi_info`. -/
def createAsiInfo (s : DelayTables) (leaf : Nat) : DelayTables :=
  { s with
    child := update s.child leaf .asi
    pndes := { s.pndes with head := update s.pndes.head (.answer leaf) none }
    dlList := update s.dlList leaf none }

/-- `mark_conditional_answer`. -/
def markConditionalAnswer (s : DelayTables) (leaf dl : Nat) : DelayTables :=
  let s := if s.child leaf = .null then s.createAsiInfo leaf else s
  { s with
    dls := { s.dls with
      pool := s.dls.pool.setNext dl (s.dlList leaf)
      asl := update s.dls.asl dl (some leaf) }
    dlList := update s.dlList leaf (some dl) }

/-- The part of `do_delay_stuff_shared` before the simplifications, if the delay register is not
empty. -/
def doDelayStuff (s : DelayTables) (failed : Nat → Bool) (leaf : Nat) (sfExists : Bool)
    (delayreg : List (Nat × Option Nat)) : Option DelayTables :=
  if !sfExists || (s.child leaf).isConditional then
    match s.internDelayList failed delayreg with
    | (none, s) => some s
    | (some dl, s) => do
      let s := s.markConditionalAnswer leaf dl
      let (pndes, des) ← recordDeUsage dl s.des.pool.nextFree s.pndes s.des (s.dls.deList dl)
      some { s with pndes := pndes, des := des }
  else some s

/-- `remove_de_from_dl`. The result tells whether elements are left. -/
def removeDeFromDl (s : DelayTables) (de dl : Nat) : Option (Bool × DelayTables) := do
  let (head, pool) ← s.des.pool.searchRemove (s.dls.deList dl) de
  some (head.isSome, { s with
    des := { s.des with pool := pool }
    dls := { s.dls with deList := update s.dls.deList dl head } })

/-- `remove_dl_from_dl_list`. The result tells whether lists are left. -/
def removeDlFromDlList (s : DelayTables) (dl leaf : Nat) : Option (Bool × DelayTables) :=
  if s.dlList leaf = none then some (false, s)
  else do
    let (head, pool) ← s.dls.pool.searchRemove (s.dlList leaf) dl
    some (head.isSome, { s with
      dls := { s.dls with pool := pool }
      dlList := update s.dlList leaf head })

/-- The body of the loops of `simplify_pos_unconditional` and `simplify_neg_fails`: the entry is
removed first, and then the element. -/
def simplifyDe (s : DelayTables) (o : Owner) (pnde : Nat) : Option (Bool × DelayTables) :=
  let de := s.pndes.de pnde
  let dl := s.pndes.dl pnde
  removeDeFromDl { s with pndes := s.pndes.removePnde o pnde } de dl

/-- The body of the loops of `simplify_neg_succeeds` and `simplify_pos_unsupported`, and what
`handle_empty_dl_creation` does with a list that has become empty. -/
def simplifyDl (s : DelayTables) (dl : Nat) : Option (Bool × DelayTables) := do
  let leaf ← s.dls.asl dl
  let (pndes, pool) ←
    releaseDes false s.des s.des.pool.nextFree s.pndes s.des.pool (s.dls.deList dl)
  removeDlFromDlList { s with pndes := pndes, des := { s.des with pool := pool } } dl leaf

/-- `release_all_dls`. -/
def releaseAllDls (s : DelayTables) (leaf : Nat) : Option DelayTables := do
  let (pndes, des, dls) ←
    releaseDls s.des s.dls.deList s.dls.pool.nextFree s.pndes s.des.pool s.dls.pool (s.dlList leaf)
  some { s with
    pndes := pndes
    des := { s.des with pool := des }
    dls := { s.dls with pool := dls } }

/-- `unmark_conditional_answer`, the removal of the branch of a leaf, and the release of its delay
information. -/
def setChild (s : DelayTables) (leaf : Nat) (child : Child) : DelayTables :=
  { s with child := update s.child leaf child }

end DelayTables

end XSBEngine.Delay
