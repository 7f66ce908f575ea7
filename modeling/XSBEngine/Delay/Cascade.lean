import XSBEngine.Library.Machine
import XSBEngine.Delay.Runs

/-!
# Simplification

The functions of `XSB/emu/slgdelay.c:1082–1203, 1293–1607`, which call one another, with the calls
that are open as a stack of places in their bodies. The derivations of answers that start them,
`XSB/emu/slgdelay.c:767–801, 864–884`, `XSB/emu/tables.c:526–572`, `XSB/emu/tries.c:1173–1223` and
`XSB/emu/tr_utils.c:577–605`.
-/

namespace XSBEngine.Delay

open Function Library

/-- `MAX_SIMPLIFICATION_DEPTH`, without threads. -/
def maxSimplificationDepth : Int := 100

/-- What `subg_answers` says about a completed subgoal. -/
inductive AnswersTag where
  | noAnswers
  | uncondAnswers
  | condAnswers
  | other
deriving Repr, DecidableEq

/-- Places in the bodies of the functions: the start of each, its loop, and what is left to do after
a call. -/
inductive Place where
  | simplifyPosUnconditional (asLeaf : Nat)
  | posUnconditionalLoop (asLeaf : Nat)
  | simplifyNegFails (subgoal : Nat)
  /-- The outer loop, and the inner one for a subgoal that was popped. -/
  | negFailsLoop (popped : Option Nat)
  | simplifyNegSucceeds (subgoal : Nat)
  | negSucceedsLoop (subgoal : Nat)
  | simplifyPosUnsupported (asLeaf : Nat)
  | posUnsupportedLoop (asLeaf : Nat)
  | handleEmptyDlCreation (dl : Nat)
  /-- After `simplify_pos_unconditional`. -/
  | emptyDlConsumer (asLeaf subgoal : Nat)
  /-- After `simplify_neg_succeeds` of the consumer. -/
  | emptyDlProducer (asLeaf subgoal : Nat)
  | handleUnsupportedAnswerSubst (asLeaf : Nat)
  /-- After `simplify_pos_unsupported`. -/
  | unsupportedFails (asLeaf subgoal : Nat)
  /-- After `simplify_pos_unsupported` in `force_answer_false`. -/
  | markSubgoalFailed (subgoal : Nat)
  /-- The last statement of `do_delay_stuff_shared`. -/
  | derivedUnconditional (asLeaf subgoal : Nat)
deriving Repr, DecidableEq

/-- Why a step is not done: `xsb_exit`, or a null pointer was followed. -/
inductive Fault where
  | tooManyNested
  | nullPointer
deriving Repr, DecidableEq

/-- What the tries say about answers: the subgoal frame of the ground call that an answer of a
subsumptive producer makes, if it was called, and whether the answer is the escape node. -/
structure Answers where
  consumer : Nat → Option Nat
  mostGeneral : Nat → Bool

/-- The tables and the global variables. -/
structure Simplifying where
  tables : DelayTables
  /-- `asi_subgoal`. -/
  asiSubgoal : Nat → Nat
  /-- The leaves that `safe_delete_branch` has marked. -/
  marked : Nat → Bool
  /-- `subg_ans_root_ptr`, and the leaves of each trie. -/
  ansRoot : Nat → Nat
  leaves : Nat → List Nat
  completed : Nat → Bool
  answerCompleted : Nat → Bool
  answersTag : Nat → AnswersTag
  /-- `simplification_depth_gl`. -/
  depth : Int
  /-- `dyn_simplify_neg_fails_stack`, from its top on. -/
  negFailsStack : List Nat
  inSimplifyNegFails : Bool
  /-- The open calls, from the top on. -/
  places : List Place

namespace Simplifying

/-- `IsValidNode`. -/
def isValidNode (s : Simplifying) (leaf : Nat) : Bool :=
  !s.marked leaf && s.tables.child leaf != .deleted

/-- `subgoal_fails`. -/
def subgoalFails (s : Simplifying) (subgoal : Nat) : Bool :=
  (s.leaves (s.ansRoot subgoal)).isEmpty

/-- Calls are made, the first one of the list first. -/
def call (s : Simplifying) (calls : List Place) : Simplifying :=
  { s with places := calls ++ s.places }

/-- A pointer that the code follows. -/
def get {α : Type} : Option α → Except Fault α
  | none => .error .nullPointer
  | some a => .ok a

/-- The test at the start of each simplification. -/
def enter (s : Simplifying) : Except Fault Simplifying :=
  if s.depth > maxSimplificationDepth then .error .tooManyNested
  else .ok { s with depth := s.depth + 1 }

/-- The end of a simplification. -/
def leave (s : Simplifying) : Simplifying := { s with depth := s.depth - 1 }

/-- The body of the loops of `simplify_pos_unconditional` and `simplify_neg_fails`. -/
def removeDe (s : Simplifying) (o : Owner) (pnde : Nat) (loop : Place) :
    Except Fault Simplifying := do
  let dl := s.tables.pndes.dl pnde
  let (left, tables) ← get (s.tables.simplifyDe o pnde)
  let s := { s with tables := tables }
  .ok (s.call (if left then [loop] else [.handleEmptyDlCreation dl, loop]))

/-- The body of the loops of `simplify_neg_succeeds` and `simplify_pos_unsupported`. -/
def removeDl (s : Simplifying) (pnde : Nat) (loop : Place) : Except Fault Simplifying := do
  let dl := s.tables.pndes.dl pnde
  let usedAsLeaf ← get (s.tables.dls.asl dl)
  if s.isValidNode usedAsLeaf ∧ s.tables.child usedAsLeaf ≠ .null then
    let (left, tables) ← get (s.tables.simplifyDl dl)
    let s := { s with tables := tables }
    .ok (s.call (if left then [loop] else [.handleUnsupportedAnswerSubst usedAsLeaf, loop]))
  else .ok (s.call [loop])

theorem removeDe_eq {s : Simplifying} {o : Owner} {pnde : Nat} {left : Bool} {t : DelayTables}
    (h : s.tables.simplifyDe o pnde = some (left, t)) (loop : Place) :
    s.removeDe o pnde loop = .ok ({ s with tables := t }.call
      (if left then [loop] else [.handleEmptyDlCreation (s.tables.pndes.dl pnde), loop])) := by
  rw [removeDe, h]
  rfl

theorem removeDl_eq {s : Simplifying} {pnde leaf : Nat} {left : Bool} {t : DelayTables}
    (hleaf : s.tables.dls.asl (s.tables.pndes.dl pnde) = some leaf)
    (hvalid : s.isValidNode leaf ∧ s.tables.child leaf ≠ .null)
    (h : s.tables.simplifyDl (s.tables.pndes.dl pnde) = some (left, t)) (loop : Place) :
    s.removeDl pnde loop = .ok ({ s with tables := t }.call
      (if left then [loop] else [.handleUnsupportedAnswerSubst leaf, loop])) := by
  simp only [removeDl, hleaf, get, bind, Except.bind]
  rw [if_pos hvalid, h]

/-- The end of `simplify_pos_unconditional`. -/
def freeAsi (s : Simplifying) (asLeaf : Nat) : Simplifying :=
  let subgoal := s.asiSubgoal asLeaf
  let s := { s with tables := s.tables.setChild asLeaf .null }
  if s.answersTag subgoal = .condAnswers then
    { s with
      answersTag := update s.answersTag subgoal .uncondAnswers
      answerCompleted := update s.answerCompleted subgoal true }
  else s

@[simp] theorem freeAsi_depth (s : Simplifying) (asLeaf : Nat) :
    (s.freeAsi asLeaf).depth = s.depth := by
  unfold freeAsi
  dsimp only
  split <;> rfl

@[simp] theorem freeAsi_places (s : Simplifying) (asLeaf : Nat) :
    (s.freeAsi asLeaf).places = s.places := by
  unfold freeAsi
  dsimp only
  split <;> rfl

/-- What is done at a place, which has been taken off the stack. -/
def exec (k : Answers) (s : Simplifying) : Place → Except Fault Simplifying
  | .simplifyPosUnconditional asLeaf => do
    let s ← s.enter
    let tables ← get (s.tables.releaseAllDls asLeaf)
    .ok ({ s with tables := tables.setChild asLeaf .unconditional }.call
      [.posUnconditionalLoop asLeaf])
  | .posUnconditionalLoop asLeaf =>
    match s.tables.pndes.head (.answer asLeaf) with
    | some pde => s.removeDe (.answer asLeaf) pde (.posUnconditionalLoop asLeaf)
    | none => .ok (s.freeAsi asLeaf).leave
  | .simplifyNegFails subgoal => do
    let s ← s.enter
    let s := { s with negFailsStack := subgoal :: s.negFailsStack }
    -- the depth is not made smaller again
    if s.inSimplifyNegFails then .ok s
    else .ok ({ s with
      inSimplifyNegFails := true
      answersTag := update s.answersTag subgoal .noAnswers
      answerCompleted := update s.answerCompleted subgoal true }.call
        [.negFailsLoop none])
  | .negFailsLoop none =>
    match s.negFailsStack with
    | [] => .ok { s with inSimplifyNegFails := false }.leave
    | subgoal :: rest => .ok ({ s with negFailsStack := rest }.call [.negFailsLoop (some subgoal)])
  | .negFailsLoop (some subgoal) =>
    match s.tables.pndes.head (.subgoal subgoal) with
    | some nde => s.removeDe (.subgoal subgoal) nde (.negFailsLoop (some subgoal))
    | none => .ok (s.call [.negFailsLoop none])
  | .simplifyNegSucceeds subgoal => do
    let s ← s.enter
    .ok ({ s with answerCompleted := update s.answerCompleted subgoal true }.call
      [.negSucceedsLoop subgoal])
  | .negSucceedsLoop subgoal =>
    match s.tables.pndes.head (.subgoal subgoal) with
    | some nde => s.removeDl nde (.negSucceedsLoop subgoal)
    | none => .ok s.leave
  | .simplifyPosUnsupported asLeaf => do
    let s ← s.enter
    .ok (s.call [.posUnsupportedLoop asLeaf])
  | .posUnsupportedLoop asLeaf =>
    match s.tables.pndes.head (.answer asLeaf) with
    | some pde => s.removeDl pde (.posUnsupportedLoop asLeaf)
    | none => .ok s.leave
  | .handleEmptyDlCreation dl => do
    let asLeaf ← get (s.tables.dls.asl dl)
    if (s.tables.child asLeaf).isConditional then
      let (_, tables) ← get (s.tables.removeDlFromDlList dl asLeaf)
      let subgoal := s.asiSubgoal asLeaf
      .ok ({ s with tables := tables }.call [.simplifyPosUnconditional asLeaf,
        .emptyDlConsumer asLeaf subgoal, .emptyDlProducer asLeaf subgoal])
    else .ok s
  | .emptyDlConsumer asLeaf _ =>
    match k.consumer asLeaf with
    | some consumer =>
      .ok ({ s with completed := update s.completed consumer true }.call
        [.simplifyNegSucceeds consumer])
    | none => .ok s
  | .emptyDlProducer asLeaf subgoal =>
    -- early completion
    .ok ({ s with
      completed := update s.completed subgoal
        (s.completed subgoal || k.mostGeneral asLeaf) }.call [.simplifyNegSucceeds subgoal])
  | .handleUnsupportedAnswerSubst asLeaf =>
    let subgoal := s.asiSubgoal asLeaf
    let root := s.ansRoot subgoal
    .ok ({ s with
      tables := s.tables.setChild asLeaf .deleted
      leaves := update s.leaves root ((s.leaves root).erase asLeaf) }.call
        [.simplifyPosUnsupported asLeaf, .unsupportedFails asLeaf subgoal])
  | .unsupportedFails asLeaf subgoal =>
    if s.completed subgoal then
      .ok (s.call ((if s.subgoalFails subgoal then [.simplifyNegFails subgoal] else []) ++
        ((k.consumer asLeaf).filter (· ≠ subgoal)).toList.map .simplifyNegFails))
    else .ok s
  | .markSubgoalFailed subgoal =>
    .ok ({ s with leaves := update s.leaves (s.ansRoot subgoal) [] }.call
      [.simplifyNegFails subgoal])
  | .derivedUnconditional asLeaf subgoal =>
    if (s.tables.child asLeaf).isConditional = false ∧
        s.tables.pndes.head (.subgoal subgoal) ≠ none then
      .ok (s.call [.simplifyNegSucceeds subgoal])
    else .ok s

/-- One step of the open calls. -/
def step (k : Answers) (s : Simplifying) : Except Fault Simplifying :=
  match s.places with
  | [] => .ok s
  | place :: rest => { s with places := rest }.exec k place

end Simplifying

/-! ### Derivations -/

/-- The elements of a list are released, not so their entries. -/
def abolishDes : Nat → Pool → Option Nat → Option Pool
  | _, pool, none => some pool
  | 0, _, some _ => none
  | fuel + 1, pool, some de => abolishDes fuel (pool.releaseEntry de) (pool.next de)

/-- `abolish_release_all_dls`, from a list on. -/
def abolishDls (deList : Nat → Option Nat) :
    Nat → Pool → Pool → Option Nat → Option (Pool × Pool)
  | _, des, dls, none => some (des, dls)
  | 0, _, _, some _ => none
  | fuel + 1, des, dls, some dl => do
    let des ← abolishDes des.nextFree des (deList dl)
    abolishDls deList fuel des (dls.releaseEntry dl) (dls.next dl)

/-- `abolish_release_all_dls` for a leaf, which has no delay list then. -/
def DelayTables.abolishReleaseAllDls (s : DelayTables) (asLeaf : Nat) : Option DelayTables := do
  let (des, dls) ← abolishDls s.dls.deList s.dls.pool.nextFree s.des.pool s.dls.pool
    (s.dlList asLeaf)
  some { s with
    des := { s.des with pool := des }
    dls := { s.dls with pool := dls }
    dlList := update s.dlList asLeaf none }

namespace Simplifying

/-- `is_failing_delay_element`, where the subgoals that have succeeded are given. -/
def isFailingDelayElement (s : Simplifying) (succeeded : Nat → Bool) : Nat × Option Nat → Bool
  | (subgoal, none) => succeeded subgoal
  | (_, some asLeaf) => !s.isValidNode asLeaf

/-- `answer_is_unsupported`. -/
def answerIsUnsupported (s : Simplifying) (succeeded : Nat → Bool)
    (delayreg : List (Nat × Option Nat)) : Bool :=
  delayreg.any (s.isFailingDelayElement succeeded)

/-- `do_delay_stuff_shared`, up to the calls that it makes. -/
def doDelayStuff (s : Simplifying) (failed : Nat → Bool) (asLeaf subgoal : Nat) (sfExists : Bool)
    (delayreg : List (Nat × Option Nat)) : Option Simplifying := do
  let dl := if !delayreg.isEmpty && (!sfExists || (s.tables.child asLeaf).isConditional) then
    (s.tables.internDelayList failed delayreg).1 else none
  let tables ← if delayreg.isEmpty then some s.tables
    else s.tables.doDelayStuff failed asLeaf sfExists delayreg
  let created := dl.isSome && s.tables.child asLeaf == Child.null
  let becomesUnconditional := sfExists && (tables.child asLeaf).isConditional && dl.isNone
  some ({ s with
    tables := tables
    asiSubgoal := if created then update s.asiSubgoal asLeaf subgoal else s.asiSubgoal
    depth := 0 }.call
      ((if becomesUnconditional then [Place.simplifyPosUnconditional asLeaf] else []) ++
        [Place.derivedUnconditional asLeaf subgoal]))

/-- `table_answer_search`, where the leaf of the answer is given. A marked leaf is one of a table
that is recomputed. -/
def tableAnswerSearch (s : Simplifying) (failed : Nat → Bool) (asLeaf subgoal : Nat)
    (delayreg : List (Nat × Option Nat)) : Option Simplifying :=
  let root := s.ansRoot subgoal
  if asLeaf ∉ s.leaves root then
    { s with
      leaves := update s.leaves root (asLeaf :: s.leaves root)
      marked := update s.marked asLeaf false }.doDelayStuff failed asLeaf subgoal false
        delayreg
  else if !s.marked asLeaf then s.doDelayStuff failed asLeaf subgoal true delayreg
  else do
    let conditional := (s.tables.child asLeaf).isConditional
    let tables ← if conditional && !delayreg.isEmpty then s.tables.abolishReleaseAllDls asLeaf
      else some s.tables
    { s with
      tables := tables
      marked := update s.marked asLeaf false }.doDelayStuff failed asLeaf subgoal
        (conditional && delayreg.isEmpty) delayreg

/-- `new_answer_dealloc`. -/
def newAnswer (s : Simplifying) (failed succeeded : Nat → Bool) (asLeaf subgoal : Nat)
    (delayreg : List (Nat × Option Nat)) : Option Simplifying :=
  if s.completed subgoal || s.answerIsUnsupported succeeded delayreg then some s
  else s.tableAnswerSearch failed asLeaf subgoal delayreg

/-- No answers. -/
def start : Simplifying where
  tables := .start
  asiSubgoal _ := 0
  marked _ := false
  ansRoot := id
  leaves _ := []
  completed _ := false
  answerCompleted _ := false
  answersTag _ := .other
  depth := 0
  negFailsStack := []
  inSimplifyNegFails := false
  places := []

end Simplifying

/-- The open calls run until all have returned. -/
def simplification (k : Answers) : Machine Simplifying Fault where
  halted s := s.places.isEmpty
  step s := s.step k

end XSBEngine.Delay
