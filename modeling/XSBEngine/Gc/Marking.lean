import Mathlib
import XSBEngine.Heap.Cells
import XSBEngine.Library.System

/-!
# Marking the heap

`mark_cell` and `mark_root`, `XSB/emu/gc_mark.h:287–511`. A call of `mark_cell` keeps a stack of
cells to mark, and calls itself when that stack is full. The marks of strings and of interned
terms are left out.
-/

namespace XSBEngine.Gc

open Function List XSBEngine.Heap XSBEngine.Library

/-! ### The heap -/

/-- The memory, `heap_bot` and `heap_top`, the end of the global stack, the addresses in the other
stacks, and the interned terms. -/
structure Store where
  mem : Nat → Cell
  heapBot : Nat
  heapTop : Nat
  glstackHigh : Nat
  inStacks : Nat → Bool
  isInternedRec : Cell → Bool

namespace Store

/-- `points_into_heap`. -/
def pointsIntoHeap (st : Store) (p : Nat) : Prop := st.heapBot ≤ p ∧ p < st.heapTop

instance (st : Store) (p : Nat) : Decidable (st.pointsIntoHeap p) :=
  inferInstanceAs (Decidable (_ ∧ _))

/-- `isinternstr`. -/
def isinternstr (st : Store) (c : Cell) : Bool :=
  match c with
  | .list a => (a < st.heapBot || st.glstackHigh < a) && st.isInternedRec c
  | .cs a => (a < st.heapBot || st.glstackHigh < a) && st.isInternedRec c
  | _ => false

end Store

/-! ### The activations of `mark_cell` -/

/-- `MAXS`. -/
def maxs : Nat := 3700

/-- The label at which an activation goes on, with `cell_ptr`. -/
inductive Label where
  | markMore (cellPtr : Nat)
  | safeMarkMore (cellPtr : Nat)
  | popMore
deriving DecidableEq

/-- An activation: the cells for which `mark_cell` is still to be called, the label after that,
`mark_stack` from its top, and `m`. -/
structure Frame where
  calls : List Nat
  label : Label
  markStack : List Nat
  m : Nat
deriving DecidableEq

/-- What a call is given: the word of a root, or the address of a cell. -/
inductive Root where
  | word (cellVal : Cell)
  | cell (cellPtr : Nat)
deriving DecidableEq

/-- The marks, the activations from the last one, and the value of the last call that returned.
The marks before the last call and the roots so far are recorded too. -/
structure Marker where
  marks : Nat → Bool
  frames : List Frame
  value : Nat
  before : Nat → Bool
  roots : List Root

/-- The cells of the arguments of a structure. -/
def argCells (a arity : Nat) : List Nat := (List.range arity).map (a + 1 + ·)

/-- The case of a list or an attributed variable: the second cell is pushed, or marked by a call. -/
def Frame.both (f : Frame) (a : Nat) : Frame :=
  if maxs ≤ f.markStack.length then { f with calls := [a + 1], label := .safeMarkMore a }
  else { f with label := .safeMarkMore a, markStack := (a + 1) :: f.markStack }

/-- The case of a structure. A structure without arguments has the cell behind it marked next. -/
def Frame.args (f : Frame) (a arity : Nat) : Frame :=
  let others := (argCells a arity).tail
  if maxs ≤ f.markStack.length then { f with calls := others, label := .markMore (a + 1) }
  else { f with label := .markMore (a + 1), markStack := others.reverse ++ f.markStack }

/-- The code from `safe_mark_more` on, for a cell that is not marked. A functor cell is taken for
a reference to a place outside of the heap. -/
def visit (st : Store) (marks : Nat → Bool) (f : Frame) (cellPtr : Nat) :
    Option ((Nat → Bool) × Frame) :=
  let marks := update marks cellPtr true
  let f := { f with m := f.m + 1 }
  match st.mem cellPtr with
  | .list a =>
    if st.isinternstr (.list a) then some (marks, { f with label := .popMore })
    else some (marks, f.both a)
  | .attv a => some (marks, f.both a)
  | .cs a =>
    if st.isinternstr (.cs a) then some (marks, { f with label := .popMore })
    else if marks a then some (marks, { f with label := .popMore })
    else
      match st.mem a with
      | .functor psc =>
        some (update marks a true, { f with m := f.m + 1 }.args a psc.arity)
      | _ => none
  | .ref a =>
    if a = cellPtr then some (marks, { f with label := .popMore })
    else some (marks, { f with label := .markMore a })
  | _ => some (marks, { f with label := .popMore })

/-- One step of the activation on top. There is none when no call is active, or where a word that
is not a PSC record is taken for one. -/
def tick (st : Store) (s : Marker) : Option Marker :=
  match s.frames with
  | [] => none
  | f :: fs =>
    match f.calls with
    | cellPtr :: calls =>
      some { s with frames := ⟨[], .markMore cellPtr, [], 0⟩ :: { f with calls := calls } :: fs }
    | [] =>
      match f.label with
      | .markMore cellPtr =>
        let label := if st.pointsIntoHeap cellPtr then .safeMarkMore cellPtr else .popMore
        some { s with frames := { f with label := label } :: fs }
      | .safeMarkMore cellPtr =>
        if s.marks cellPtr then some { s with frames := { f with label := .popMore } :: fs }
        else (visit st s.marks f cellPtr).map fun (marks, f) =>
          { s with marks := marks, frames := f :: fs }
      | .popMore =>
        match f.markStack with
        | cellPtr :: markStack =>
          some { s with
            frames := { f with label := .markMore cellPtr, markStack := markStack } :: fs }
        | [] =>
          match fs with
          | [] => some { s with frames := [], value := f.m }
          | g :: gs => some { s with frames := { g with m := g.m + f.m } :: gs }

/-! ### Calls -/

/-- `v` is a reference, as far as its tag tells, that does not lead to the heap. -/
def leavesHeap (st : Store) : Cell → Bool
  | .ref b => ¬st.pointsIntoHeap b
  | .functor _ => true
  | _ => false

/-- The cells for which `mark_root` calls `mark_cell`, after it has marked the functor cell of a
structure. -/
def markRoot (st : Store) (marks : Nat → Bool) (cellVal : Cell) :
    Option ((Nat → Bool) × List Nat × Nat) :=
  let ignored := some (marks, [], 0)
  let both (a : Nat) :=
    if ¬st.pointsIntoHeap a then ignored
    else if leavesHeap st (st.mem a) then ignored
    else if leavesHeap st (st.mem (a + 1)) then ignored
    else some (marks, [a + 1, a], 0)
  if cellVal = .ref 0 then ignored
  else
    match cellVal with
    | .ref a => if leavesHeap st (st.mem a) then ignored else some (marks, [a], 0)
    | .cs a =>
      if st.isinternstr (.cs a) then ignored
      else if ¬st.pointsIntoHeap a then ignored
      else if marks a then ignored
      else
        match st.mem a with
        | .functor psc => some (update marks a true, argCells a psc.arity, 1)
        | .ref b => if st.pointsIntoHeap b ∨ st.inStacks b then ignored else none
        | _ => ignored
    | .list a => if st.isinternstr (.list a) then ignored else both a
    | .attv a => both a
    | _ => ignored

/-- The beginning of a call. -/
def call (st : Store) (s : Marker) (r : Root) : Option Marker :=
  match r with
  | .cell cellPtr =>
    some { s with
      frames := [⟨[cellPtr], .popMore, [], 0⟩]
      before := s.marks
      roots := r :: s.roots }
  | .word cellVal =>
    (markRoot st s.marks cellVal).map fun (marks, calls, m) =>
      { s with
        marks := marks
        frames := [⟨calls, .popMore, [], m⟩]
        before := s.marks
        roots := r :: s.roots }

/-! ### Well-formed heaps -/

namespace Store

/-- A functor cell. -/
def FunctorAt (st : Store) (a : Nat) : Prop := ∃ psc, st.mem a = .functor psc

/-- The cells that a word leads to. -/
def targets (st : Store) : Cell → List Nat
  | .ref a => [a]
  | .list a => if st.isinternstr (.list a) then [] else [a, a + 1]
  | .attv a => [a, a + 1]
  | .cs a => if st.isinternstr (.cs a) then [] else [a]
  | _ => []

/-- The cells that a cell leads to: a functor cell leads to the arguments. -/
def deps (st : Store) (i : Nat) : List Nat :=
  match st.mem i with
  | .functor psc => argCells i psc.arity
  | c => st.targets c

/-- A word that leads into the heap, to a functor cell if it is a structure and to no such cell
otherwise. -/
def Proper (st : Store) (c : Cell) : Prop :=
  ∀ d ∈ st.targets c, st.pointsIntoHeap d ∧ (st.FunctorAt d ↔ c.isconstr = true)

/-- The graph of the heap: the words of cells are proper, and functor cells begin structures. -/
structure WF (st : Store) : Prop where
  bot : 0 < st.heapBot
  proper : ∀ i, st.pointsIntoHeap i → st.Proper (st.mem i)
  args : ∀ i psc, st.pointsIntoHeap i → st.mem i = .functor psc →
    ∀ d ∈ argCells i psc.arity, st.pointsIntoHeap d ∧ ¬st.FunctorAt d

/-- What a call may be given: any word, and cells that are not functor cells of the heap. -/
def Valid (st : Store) : Root → Prop
  | .word _ => True
  | .cell cellPtr => st.pointsIntoHeap cellPtr → ¬st.FunctorAt cellPtr

end Store

/-- The marked cells lead to marked cells. -/
def Closed (st : Store) (marks : Nat → Bool) : Prop :=
  ∀ i, marks i = true → ∀ d ∈ st.deps i, marks d = true

/-- The cells that a root leads to are marked. -/
def Covers (st : Store) (marks : Nat → Bool) : Root → Prop
  | .word c => st.Proper c → ∀ d ∈ st.targets c, marks d = true
  | .cell cellPtr => st.pointsIntoHeap cellPtr → marks cellPtr = true

/-- Cells that have been marked since the last call. -/
def newlyMarked (st : Store) (s : Marker) : Finset Nat :=
  (Finset.Ico st.heapBot st.heapTop).filter fun i => s.marks i = true ∧ s.before i = false

/-- Calls and their steps. -/
inductive Event where
  | call (r : Root)
  | tick

/-- Calls one after the other, in any order. -/
def marking (st : Store) : System Marker Event where
  init s := s.frames = [] ∧ (∀ i, s.marks i = false) ∧ s.before = s.marks ∧ s.value = 0 ∧
    s.roots = []
  step s e s' :=
    match e with
    | .call r => s.frames = [] ∧ st.Valid r ∧ call st s r = some s'
    | .tick => tick st s = some s'

/-- If the step marks the functor cell of a structure without arguments, the next cell is not the
functor cell of another structure that has arguments and no mark. -/
def Clear (st : Store) (s : Marker) : Prop :=
  ∀ f fs p a psc next, s.frames = f :: fs → f.calls = [] → f.label = .safeMarkMore p →
    s.marks p = false → st.mem p = .cs a → st.isinternstr (.cs a) = false → s.marks a = false →
    st.mem a = .functor psc → psc.arity = 0 →
    st.pointsIntoHeap (a + 1) → st.mem (a + 1) = .functor next → next.arity ≠ 0 →
    s.marks (a + 1) = true

/-- The condition on the steps of a run. -/
def StepClear (st : Store) (s : Marker) : Event → Prop
  | .call _ => True
  | .tick => Clear st s

/-! ### What is still to be marked -/

/-- The cell that a label is about. -/
def Label.cells : Label → List Nat
  | .markMore p => [p]
  | .safeMarkMore p => [p]
  | .popMore => []

/-- The cells that an activation will still mark. -/
def Frame.pending (f : Frame) : List Nat := f.calls ++ (f.label.cells ++ f.markStack)

def Marker.pending (s : Marker) : List Nat := s.frames.flatMap Frame.pending

/-- The cell is marked or will be. -/
def Owed (marks : Nat → Bool) (pending : List Nat) (d : Nat) : Prop :=
  marks d = true ∨ d ∈ pending

/-- A functor cell that will be marked as if it were a reference has no arguments. -/
def Harmless (st : Store) (marks : Nat → Bool) (p : Nat) : Prop :=
  st.pointsIntoHeap p → ∀ psc, st.mem p = .functor psc → marks p = true ∨ psc.arity = 0

variable {st : Store} {marks marks' : Nat → Bool} {f f' : Frame} {p a : Nat} {s s' : Marker}
  {new : Finset Nat} {r : Root} {c : Cell}

theorem Harmless.mono (h : Harmless st marks p) (hm : ∀ i, marks i = true → marks' i = true) :
    Harmless st marks' p := fun hp psc hf => (h hp psc hf).imp_left (hm p)

theorem Harmless.of_not_functor (h : ¬st.FunctorAt p) : Harmless st marks p :=
  fun _ psc hf => absurd ⟨psc, hf⟩ h

/-- The marks and the activation after a cell has been visited. -/
structure Visits (st : Store) (marks : Nat → Bool) (f : Frame) (p : Nat) (marks' : Nat → Bool)
    (f' : Frame) (new : Finset Nat) : Prop where
  mem : p ∈ new
  fresh : ∀ i ∈ new, st.pointsIntoHeap i ∧ marks i = false
  marks : ∀ i, marks' i = true ↔ marks i = true ∨ i ∈ new
  m : f'.m = f.m + new.card
  stack : ∀ d ∈ f.markStack, d ∈ f'.pending
  safe : ∀ q, f'.label = .safeMarkMore q → st.pointsIntoHeap q

/-- What the visit leaves to be done, if it does not run into another structure. -/
structure Covered (st : Store) (marks : Nat → Bool) (f' : Frame) (new : Finset Nat) : Prop where
  owed : ∀ i ∈ new, ∀ d ∈ st.deps i, Owed marks f'.pending d
  harmless : ∀ q ∈ f'.pending, Harmless st marks q

theorem mem_argCells {d arity : Nat} : d ∈ argCells a arity ↔ ∃ j < arity, d = a + 1 + j := by
  simp only [argCells, mem_map, mem_range, eq_comm]

theorem argCells_split {d arity : Nat} (h : d ∈ argCells a arity) :
    d = a + 1 ∨ d ∈ (argCells a arity).tail := by
  cases arity with
  | zero => cases h
  | succ n =>
    rw [argCells, range_succ_eq_map, map_cons] at h ⊢
    exact (mem_cons.mp h).imp_left fun he => he

/-- Marking one cell. -/
theorem Visits.one (hp : st.pointsIntoHeap p) (hm : marks p = false) (hf : f'.m = f.m + 1)
    (hstack : ∀ d ∈ f.markStack, d ∈ f'.pending)
    (hsafe : ∀ q, f'.label = .safeMarkMore q → st.pointsIntoHeap q) :
    Visits st marks f p (update marks p true) f' {p} where
  mem := Finset.mem_singleton_self p
  fresh i hi := by
    rw [Finset.mem_singleton.mp hi]
    exact ⟨hp, hm⟩
  marks i := by
    by_cases he : i = p
    · simp [he]
    · simp [he]
  m := hf
  stack := hstack
  safe := hsafe

@[simp] theorem Frame.both_m (f : Frame) (a : Nat) : (f.both a).m = f.m := by
  unfold Frame.both
  split <;> rfl

@[simp] theorem Frame.both_label (f : Frame) (a : Nat) : (f.both a).label = .safeMarkMore a := by
  unfold Frame.both
  split <;> rfl

theorem Frame.mem_both (hcalls : f.calls = []) {q : Nat} :
    q ∈ (f.both a).pending ↔ q = a ∨ q = a + 1 ∨ q ∈ f.markStack := by
  unfold Frame.both Frame.pending
  split
  · simp only [Label.cells, mem_append, mem_singleton]
    exact or_left_comm
  · simp only [hcalls, Label.cells, nil_append, singleton_append, mem_cons]

@[simp] theorem Frame.args_m (f : Frame) (a arity : Nat) : (f.args a arity).m = f.m := by
  unfold Frame.args
  simp only
  split <;> rfl

@[simp] theorem Frame.args_label (f : Frame) (a arity : Nat) :
    (f.args a arity).label = .markMore (a + 1) := by
  unfold Frame.args
  simp only
  split <;> rfl

theorem Frame.mem_args {arity : Nat} (hcalls : f.calls = []) {q : Nat} :
    q ∈ (f.args a arity).pending ↔
      q = a + 1 ∨ q ∈ (argCells a arity).tail ∨ q ∈ f.markStack := by
  unfold Frame.args Frame.pending
  simp only
  split
  · simp only [Label.cells, mem_append, mem_singleton]
    exact or_left_comm
  · simp only [hcalls, Label.cells, nil_append, mem_append, mem_singleton,
      mem_reverse]

theorem Frame.mem_pending_pop (hcalls : f.calls = []) (n : Nat) {q : Nat} :
    q ∈ ({ f with m := n, label := .popMore } : Frame).pending ↔ q ∈ f.markStack := by
  simp [Frame.pending, Label.cells, hcalls]

theorem Frame.mem_pending_more (hcalls : f.calls = []) (n : Nat) {q : Nat} :
    q ∈ ({ f with m := n, label := .markMore a } : Frame).pending ↔ q = a ∨ q ∈ f.markStack := by
  simp [Frame.pending, Label.cells, hcalls]

/-- The zero-arity case of `visit` meets no structure that would be taken apart. -/
def VisitClear (st : Store) (marks : Nat → Bool) (p : Nat) : Prop :=
  ∀ a psc next, st.mem p = .cs a → st.isinternstr (.cs a) = false → marks a = false →
    st.mem a = .functor psc → psc.arity = 0 → st.pointsIntoHeap (a + 1) →
    st.mem (a + 1) = .functor next → next.arity ≠ 0 → marks (a + 1) = true

theorem update_true_mono (marks : Nat → Bool) (p : Nat) {i : Nat} (h : marks i = true) :
    update marks p true i = true := by
  by_cases he : i = p
  · rw [he, update_self]
  · rw [update_of_ne he, h]

/-- A visit of a cell that leads to nothing that is not marked. -/
theorem visits_pop (hp : st.pointsIntoHeap p) (hm : marks p = false) (hcalls : f.calls = []) :
    Visits st marks f p (update marks p true)
        { f with m := f.m + 1, label := .popMore } {p} ∧
      ((∀ d ∈ st.deps p, d = p ∨ marks d = true) → (∀ q ∈ f.markStack, Harmless st marks q) →
        Covered st (update marks p true) { f with m := f.m + 1, label := .popMore }
          {p}) := by
  have hpend := @Frame.mem_pending_pop f hcalls (f.m + 1)
  refine ⟨.one hp hm rfl (fun d hd ↦ hpend.mpr hd) (fun q hq ↦ by cases hq), fun hdeps hstack ↦ ?_⟩
  constructor
  · intro i hi d hd
    rw [Finset.mem_singleton.mp hi] at hd
    rcases hdeps d hd with rfl | hd
    · exact .inl (update_self ..)
    · exact .inl (update_true_mono marks p hd)
  · exact fun q hq => (hstack q (hpend.mp hq)).mono fun i => update_true_mono marks p

/-- A visit of a cell with a list or an attributed variable. -/
theorem visits_both (hp : st.pointsIntoHeap p) (hm : marks p = false) (hcalls : f.calls = [])
    (ha : st.pointsIntoHeap a ∧ ¬st.FunctorAt a) (ha' : ¬st.FunctorAt (a + 1)) :
    Visits st marks f p (update marks p true) ({ f with m := f.m + 1 }.both a) {p} ∧
      ((∀ d ∈ st.deps p, d = a ∨ d = a + 1) → (∀ q ∈ f.markStack, Harmless st marks q) →
        Covered st (update marks p true) ({ f with m := f.m + 1 }.both a) {p}) := by
  have hpend := @Frame.mem_both { f with m := f.m + 1 } a hcalls
  refine ⟨.one hp hm (Frame.both_m _ _) (fun d hd => hpend.mpr (.inr (.inr hd))) ?_, ?_⟩
  · intro q hq
    rw [Frame.both_label] at hq
    cases hq
    exact ha.1
  · intro hdeps hstack
    constructor
    · intro i hi d hd
      rw [Finset.mem_singleton.mp hi] at hd
      exact .inr (hpend.mpr ((hdeps d hd).imp_right .inl))
    · intro q hq
      rcases hpend.mp hq with rfl | rfl | hq
      · exact .of_not_functor ha.2
      · exact .of_not_functor ha'
      · exact (hstack q hq).mono fun i => update_true_mono marks p

/-- A visit of a cell with a structure whose functor cell is not marked. -/
theorem visits_args {psc : Psc} (hwf : st.WF) (hp : st.pointsIntoHeap p) (hm : marks p = false)
    (hcalls : f.calls = []) (hcell : st.mem p = .cs a) (hint : st.isinternstr (.cs a) = false)
    (ha : st.pointsIntoHeap a) (hma : marks a = false) (hpsc : st.mem a = .functor psc) :
    Visits st marks f p (update (update marks p true) a true)
        ({ f with m := f.m + 1 + 1 }.args a psc.arity) {p, a} ∧
      (VisitClear st marks p → (∀ q ∈ f.markStack, Harmless st marks q) →
        Covered st (update (update marks p true) a true)
          ({ f with m := f.m + 1 + 1 }.args a psc.arity) {p, a}) := by
  have hne : p ≠ a := by
    rintro rfl
    rw [hcell] at hpsc
    cases hpsc
  have hpend := @Frame.mem_args { f with m := f.m + 1 + 1 } a psc.arity hcalls
  have hmono : ∀ i, marks i = true →
      update (update marks p true) a true i = true :=
    fun i hi => update_true_mono _ a (update_true_mono marks p hi)
  constructor
  · constructor
    case mem => exact Finset.mem_insert_self p {a}
    case fresh =>
      intro i hi
      rcases Finset.mem_insert.mp hi with rfl | hi
      · exact ⟨hp, hm⟩
      · rw [Finset.mem_singleton.mp hi]
        exact ⟨ha, hma⟩
    case marks =>
      intro i
      rw [Finset.mem_insert, Finset.mem_singleton]
      by_cases hia : i = a
      · simp [hia]
      · by_cases hip : i = p
        · simp [hip, hne]
        · simp [hia, hip]
    case m => rw [Frame.args_m, Finset.card_pair hne]
    case stack => exact fun d hd => hpend.mpr (.inr (.inr hd))
    case safe =>
      intro q hq
      rw [Frame.args_label] at hq
      cases hq
  · intro hclear hstack
    have hargs := hwf.args a psc ha hpsc
    constructor
    · intro i hi d hd
      rcases Finset.mem_insert.mp hi with rfl | hi
      · -- The structure leads to its functor cell.
        unfold Store.deps at hd
        rw [hcell] at hd
        simp only [Store.targets, hint, Bool.false_eq_true, if_false, mem_singleton] at hd
        rw [hd]
        exact .inl (update_self ..)
      · rw [Finset.mem_singleton.mp hi, Store.deps, hpsc] at hd
        exact .inr (hpend.mpr ((argCells_split hd).imp_right .inl))
    · intro q hq
      rcases hpend.mp hq with rfl | hq | hq
      · intro hq next hnext
        rw [Classical.or_iff_not_imp_right]
        intro hnz
        by_cases hzero : psc.arity = 0
        · exact hmono _ (hclear a psc next hcell hint hma hpsc hzero hq hnext hnz)
        · have hfirst : a + 1 ∈ argCells a psc.arity := mem_argCells.mpr ⟨0, by omega, rfl⟩
          exact absurd ⟨next, hnext⟩ (hargs _ hfirst).2
      · exact .of_not_functor (hargs q (mem_of_mem_tail hq)).2
      · exact (hstack q hq).mono hmono

/-- A visit of a cell with a reference. -/
theorem visits_more (hp : st.pointsIntoHeap p) (hm : marks p = false) (hcalls : f.calls = [])
    (ha : ¬st.FunctorAt a) :
    Visits st marks f p (update marks p true)
        { f with m := f.m + 1, label := .markMore a } {p} ∧
      ((∀ d ∈ st.deps p, d = a) → (∀ q ∈ f.markStack, Harmless st marks q) →
        Covered st (update marks p true) { f with m := f.m + 1, label := .markMore a }
          {p}) := by
  have hpend := @Frame.mem_pending_more f a hcalls (f.m + 1)
  refine ⟨.one hp hm rfl (fun d hd => hpend.mpr (.inr hd)) (fun q hq => by cases hq), ?_⟩
  intro hdeps hstack
  constructor
  · intro i hi d hd
    rw [Finset.mem_singleton.mp hi] at hd
    exact .inr (hpend.mpr (.inl (hdeps d hd)))
  · intro q hq
    rcases hpend.mp hq with rfl | hq
    · exact .of_not_functor ha
    · exact (hstack q hq).mono fun i => update_true_mono marks p

/-- What a visit does, cell by cell. -/
theorem visit_spec (hwf : st.WF) (hp : st.pointsIntoHeap p) (hm : marks p = false)
    (hcalls : f.calls = []) :
    ∃ marks' f' new, visit st marks f p = some (marks', f') ∧
      Visits st marks f p marks' f' new ∧
      (VisitClear st marks p → (∀ q ∈ f.markStack, Harmless st marks q) → Harmless st marks p →
        Covered st marks' f' new) := by
  have hproper := hwf.proper p hp
  have hpop := visits_pop hp hm hcalls
  unfold visit
  simp only
  cases hcell : st.mem p with
  | ref a =>
    have hdeps : st.deps p = [a] := by rw [Store.deps, hcell]; rfl
    rw [hcell] at hproper
    have ha := hproper a (mem_singleton_self a)
    by_cases he : a = p
    · refine ⟨_, _, _, if_pos he, hpop.1, fun _ hstack _ => hpop.2 ?_ hstack⟩
      intro d hd
      rw [hdeps, mem_singleton, he] at hd
      exact .inl hd
    · have hmore := visits_more (a := a) hp hm hcalls fun hf => by cases ha.2.mp hf
      refine ⟨_, _, _, if_neg he, hmore.1, fun _ hstack _ => hmore.2 ?_ hstack⟩
      intro d hd
      rw [hdeps] at hd
      exact mem_singleton.mp hd
  | attv a =>
    have hdeps : st.deps p = [a, a + 1] := by rw [Store.deps, hcell]; rfl
    rw [hcell] at hproper
    have ha := hproper a (by simp [Store.targets])
    have ha' := hproper (a + 1) (by simp [Store.targets])
    have hboth := visits_both hp hm hcalls
      ⟨ha.1, fun hf => by cases ha.2.mp hf⟩ fun hf => by cases ha'.2.mp hf
    refine ⟨_, _, _, rfl, hboth.1, fun _ hstack _ => hboth.2 ?_ hstack⟩
    intro d hd
    rw [hdeps] at hd
    simpa using hd
  | list a =>
    by_cases hi : st.isinternstr (.list a) = true
    · refine ⟨_, _, _, if_pos hi, hpop.1, fun _ hstack _ => hpop.2 ?_ hstack⟩
      intro d hd
      rw [Store.deps, hcell] at hd
      simp [Store.targets, hi] at hd
    · have htargets : st.targets (.list a) = [a, a + 1] := if_neg hi
      have hdeps : st.deps p = [a, a + 1] := by rw [Store.deps, hcell]; exact htargets
      rw [hcell, Store.Proper, htargets] at hproper
      have ha := hproper a (by simp)
      have ha' := hproper (a + 1) (by simp)
      have hboth := visits_both hp hm hcalls
        ⟨ha.1, fun hf => by cases ha.2.mp hf⟩ fun hf => by cases ha'.2.mp hf
      refine ⟨_, _, _, if_neg hi, hboth.1, fun _ hstack _ => hboth.2 ?_ hstack⟩
      intro d hd
      rw [hdeps] at hd
      simpa using hd
  | cs a =>
    by_cases hi : st.isinternstr (.cs a) = true
    · refine ⟨_, _, _, if_pos hi, hpop.1, fun _ hstack _ => hpop.2 ?_ hstack⟩
      intro d hd
      rw [Store.deps, hcell] at hd
      simp [Store.targets, hi] at hd
    · have htargets : st.targets (.cs a) = [a] := if_neg hi
      have hdeps : st.deps p = [a] := by rw [Store.deps, hcell]; exact htargets
      rw [hcell, Store.Proper, htargets] at hproper
      obtain ⟨ha, hfunctor⟩ := hproper a (mem_singleton_self a)
      obtain ⟨psc, hpsc⟩ := hfunctor.mpr rfl
      have hne : a ≠ p := by
        rintro rfl
        rw [hcell] at hpsc
        cases hpsc
      simp only [hpsc, update_of_ne hne]
      cases hma : marks a with
      | true =>
        refine ⟨_, _, _, if_neg hi, hpop.1, fun _ hstack _ => hpop.2 ?_ hstack⟩
        intro d hd
        rw [hdeps, mem_singleton] at hd
        exact .inr (hd ▸ hma)
      | false =>
        have hint : st.isinternstr (.cs a) = false := Bool.eq_false_iff.mpr hi
        have hargs := visits_args hwf hp hm hcalls hcell hint ha hma hpsc
        exact ⟨_, _, _, if_neg hi, hargs.1, fun hclear hstack _ => hargs.2 hclear hstack⟩
  | functor psc =>
    refine ⟨_, _, _, rfl, hpop.1, fun _ hstack hharm => hpop.2 ?_ hstack⟩
    intro d hd
    have hzero : psc.arity = 0 := by
      rcases hharm hp psc hcell with h | h
      · rw [hm] at h
        cases h
      · exact h
    rw [Store.deps, hcell] at hd
    simp [argCells, hzero] at hd
  | int i | float x | string x =>
    refine ⟨_, _, _, rfl, hpop.1, fun _ hstack _ => hpop.2 ?_ hstack⟩
    intro d hd
    rw [Store.deps, hcell] at hd
    cases hd

/-! ### Steps -/

/-- What the activations have counted, or the value of the last call. -/
def Marker.total (s : Marker) : Nat :=
  match s.frames with
  | [] => s.value
  | fs => (fs.map Frame.m).sum

/-- A measure of what is still to be done, where each cell to be marked counts for more than the
steps before its visit. -/
def Label.weight : Label → Nat
  | .markMore _ => 3
  | .safeMarkMore _ => 2
  | .popMore => 1

def Frame.weight (f : Frame) : Nat :=
  4 * f.calls.length + (f.label.weight + 3 * f.markStack.length)

def Marker.weight (s : Marker) : Nat := (s.frames.map Frame.weight).sum

/-- The cells that are marked without a test are in the heap. -/
def Safe (st : Store) (s : Marker) : Prop :=
  ∀ f ∈ s.frames, ∀ q, f.label = .safeMarkMore q → st.pointsIntoHeap q

/-- What a step does: it marks the cells `new`, and no cell to be marked is forgotten. -/
structure Progress (st : Store) (s s' : Marker) (new : Finset Nat) : Prop where
  fresh : ∀ i ∈ new, st.pointsIntoHeap i ∧ s.marks i = false
  marks : ∀ i, s'.marks i = true ↔ s.marks i = true ∨ i ∈ new
  total : s'.total = s.total + new.card
  owed : ∀ d, st.pointsIntoHeap d → Owed s.marks s.pending d → Owed s'.marks s'.pending d
  safe : Safe st s'
  lighter : new = ∅ → s'.weight < s.weight
  before : s'.before = s.before
  roots : s'.roots = s.roots

/-- What is left to be done after a step. -/
structure Due (st : Store) (s' : Marker) (new : Finset Nat) : Prop where
  owed : ∀ i ∈ new, ∀ d ∈ st.deps i, Owed s'.marks s'.pending d
  harmless : ∀ q ∈ s'.pending, Harmless st s'.marks q

/-- A step that marks nothing. -/
theorem Progress.still (hmarks : s'.marks = s.marks) (hbefore : s'.before = s.before)
    (hroots : s'.roots = s.roots) (htotal : s'.total = s.total)
    (hsub : ∀ q ∈ s'.pending, q ∈ s.pending)
    (howed : ∀ d ∈ s.pending, st.pointsIntoHeap d → Owed s.marks s'.pending d)
    (hsafe : Safe st s') (hweight : s'.weight < s.weight) :
    Progress st s s' ∅ ∧ ((∀ q ∈ s.pending, Harmless st s.marks q) → Due st s' ∅) := by
  constructor
  · constructor
    case fresh => simp
    case marks => simp [hmarks]
    case total => simp [htotal]
    case owed =>
      rintro d hd (hm | hp)
      · exact .inl (hmarks ▸ hm)
      · exact hmarks ▸ howed d hp hd
    case safe => exact hsafe
    case lighter => exact fun _ => hweight
    case before => exact hbefore
    case roots => exact hroots
  · intro hharm
    constructor
    · simp
    · exact fun q hq => hmarks ▸ hharm q (hsub q hq)

variable {fs : List Frame}

theorem mem_pending_cons (hframes : s.frames = f :: fs) {q : Nat} :
    q ∈ s.pending ↔ q ∈ f.pending ∨ q ∈ fs.flatMap Frame.pending := by
  rw [Marker.pending, hframes, flatMap_cons, mem_append]

theorem Safe.cons (hsafe : Safe st s) (hframes : s.frames = f :: fs)
    (hframes' : s'.frames = f' :: fs)
    (hf' : ∀ q, f'.label = .safeMarkMore q → st.pointsIntoHeap q) : Safe st s' := by
  intro g hg
  rw [hframes'] at hg
  rcases mem_cons.mp hg with rfl | hg
  · exact hf'
  · exact hsafe g (by rw [hframes]; exact mem_cons_of_mem _ hg)

/-- A step of the activation on top that marks nothing. -/
theorem Progress.relabel (f' : Frame) (hsafe : Safe st s)
    (hframes : s.frames = f :: fs)
    (hm : f'.m = f.m) (hsub : ∀ q ∈ f'.pending, q ∈ f.pending)
    (howed : ∀ d ∈ f.pending, st.pointsIntoHeap d → Owed s.marks f'.pending d)
    (hlabel : ∀ q, f'.label = .safeMarkMore q → st.pointsIntoHeap q)
    (hweight : f'.weight < f.weight) :
    Progress st s { s with frames := f' :: fs } ∅ ∧
      ((∀ q ∈ s.pending, Harmless st s.marks q) → Due st { s with frames := f' :: fs } ∅) := by
  have hpend := @mem_pending_cons f s fs hframes
  have hpend' := @mem_pending_cons f' { s with frames := f' :: fs } fs rfl
  refine Progress.still rfl rfl rfl ?_ ?_ ?_ ?_ ?_
  · simp [Marker.total, hframes, hm]
  · intro q hq
    exact hpend.mpr ((hpend'.mp hq).imp_left (hsub q))
  · intro d hd hin
    rcases hpend.mp hd with hd | hd
    · exact (howed d hd hin).imp_right fun h => hpend'.mpr (.inl h)
    · exact .inr (hpend'.mpr (.inr hd))
  · exact hsafe.cons hframes rfl hlabel
  · simp only [Marker.weight, hframes, map_cons, sum_cons]
    omega

/-- The call for one more argument. -/
theorem tick_call {calls : List Nat} (hsafe : Safe st s)
    (hframes : s.frames = f :: fs) (hcalls : f.calls = p :: calls) :
    Progress st s
        { s with frames := ⟨[], .markMore p, [], 0⟩ :: { f with calls := calls } :: fs } ∅ ∧
      ((∀ q ∈ s.pending, Harmless st s.marks q) →
        Due st { s with frames := ⟨[], .markMore p, [], 0⟩ :: { f with calls := calls } :: fs }
          ∅) := by
  have hmem : ∀ q, q ∈ (({ s with
      frames := ⟨[], .markMore p, [], 0⟩ :: { f with calls := calls } :: fs } : Marker)).pending ↔
      q ∈ s.pending := by
    intro q
    simp [Marker.pending, hframes, Frame.pending, Label.cells, hcalls]
  refine Progress.still rfl rfl rfl ?_ ?_ ?_ ?_ ?_
  · simp [Marker.total, hframes]
  · exact fun q hq => (hmem q).mp hq
  · exact fun d hd _ => .inr ((hmem d).mpr hd)
  · intro g hg q hq
    rcases mem_cons.mp hg with rfl | hg
    · cases hq
    · rcases mem_cons.mp hg with rfl | hg
      · exact hsafe f (by simp [hframes]) q hq
      · exact hsafe g (by simp [hframes, hg]) q hq
  · simp only [Marker.weight, hframes, map_cons, sum_cons, Frame.weight, hcalls,
      length_cons, length_nil, Label.weight]
    omega

/-- The return to an activation that called. -/
theorem tick_return {g : Frame} {gs : List Frame} (hsafe : Safe st s)
    (hframes : s.frames = f :: g :: gs) (hcalls : f.calls = []) (hlabel : f.label = .popMore)
    (hstack : f.markStack = []) :
    Progress st s { s with frames := { g with m := g.m + f.m } :: gs } ∅ ∧
      ((∀ q ∈ s.pending, Harmless st s.marks q) →
        Due st { s with frames := { g with m := g.m + f.m } :: gs } ∅) := by
  have hmem : ∀ q, q ∈ ({ s with frames := { g with m := g.m + f.m } :: gs } : Marker).pending ↔
      q ∈ s.pending := by
    intro q
    simp [Marker.pending, hframes, Frame.pending, Label.cells, hcalls, hlabel, hstack]
  refine Progress.still rfl rfl rfl ?_ ?_ ?_ ?_ ?_
  · simp only [Marker.total, hframes, map_cons, sum_cons]
    omega
  · exact fun q hq => (hmem q).mp hq
  · exact fun d hd _ => .inr ((hmem d).mpr hd)
  · intro h hh q hq
    rcases mem_cons.mp hh with rfl | hh
    · exact hsafe g (by simp [hframes]) q hq
    · exact hsafe h (by simp [hframes, hh]) q hq
  · simp only [Marker.weight, hframes, map_cons, sum_cons, Frame.weight, hlabel,
      Label.weight]
    omega

/-- The return from the call. -/
theorem tick_end (hframes : s.frames = [f]) (hcalls : f.calls = []) (hlabel : f.label = .popMore)
    (hstack : f.markStack = []) :
    Progress st s { s with frames := [], value := f.m } ∅ ∧
      ((∀ q ∈ s.pending, Harmless st s.marks q) →
        Due st { s with frames := [], value := f.m } ∅) := by
  have hmem : ∀ q, q ∉ s.pending := by
    intro q
    simp [Marker.pending, hframes, Frame.pending, Label.cells, hcalls, hlabel, hstack]
  refine Progress.still rfl rfl rfl ?_ ?_ ?_ ?_ ?_
  · simp [Marker.total, hframes]
  · intro q hq
    cases hq
  · exact fun d hd _ => absurd hd (hmem d)
  · intro h hh
    cases hh
  · simp only [Marker.weight, hframes, map_cons, sum_cons, Frame.weight, hlabel,
      Label.weight, map_nil, sum_nil]
    omega

/-- The visit of a cell that is not marked. -/
theorem tick_visit (hsafe : Safe st s) (hframes : s.frames = f :: fs)
    (hcalls : f.calls = []) (hlabel : f.label = .safeMarkMore p)
    (hv : Visits st s.marks f p marks' f' new) :
    Progress st s { s with marks := marks', frames := f' :: fs } new ∧
      (Covered st marks' f' new → (∀ q ∈ s.pending, Harmless st s.marks q) →
        Due st { s with marks := marks', frames := f' :: fs } new) := by
  have hpend := @mem_pending_cons f s fs hframes
  have hpend' := @mem_pending_cons f' { s with marks := marks', frames := f' :: fs } fs rfl
  have hp : ∀ q, q ∈ f.pending ↔ q = p ∨ q ∈ f.markStack := by
    intro q
    simp [Frame.pending, hcalls, hlabel, Label.cells]
  constructor
  · constructor
    case fresh => exact hv.fresh
    case marks => exact hv.marks
    case total =>
      simp only [Marker.total, hframes, map_cons, sum_cons, hv.m]
      omega
    case owed =>
      rintro d - (hm | hd)
      · exact .inl ((hv.marks d).mpr (.inl hm))
      · rcases hpend.mp hd with hd | hd
        · rcases (hp d).mp hd with rfl | hd
          · exact .inl ((hv.marks d).mpr (.inr hv.mem))
          · exact .inr (hpend'.mpr (.inl (hv.stack d hd)))
        · exact .inr (hpend'.mpr (.inr hd))
    case safe => exact hsafe.cons hframes rfl hv.safe
    case lighter =>
      intro hempty
      have hmem := hv.mem
      rw [hempty] at hmem
      exact absurd hmem (Finset.notMem_empty p)
    case before => rfl
    case roots => rfl
  · intro hcov hharm
    constructor
    · exact fun i hi d hd => (hcov.owed i hi d hd).imp_right fun h => hpend'.mpr (.inl h)
    · intro q hq
      rcases hpend'.mp hq with hq | hq
      · exact hcov.harmless q hq
      · exact (hharm q (hpend.mpr (.inr hq))).mono fun i hi => (hv.marks i).mpr (.inl hi)

/-- What a step does. -/
theorem tick_spec (hwf : st.WF) (hsafe : Safe st s) (hactive : s.frames ≠ []) :
    ∃ s' new, tick st s = some s' ∧ Progress st s s' new ∧
      (Clear st s → (∀ q ∈ s.pending, Harmless st s.marks q) → Due st s' new) := by
  obtain ⟨⟨calls, label, markStack, m⟩, fs, hframes⟩ := exists_cons_of_ne_nil hactive
  -- The cells to be marked, for a label with a cell.
  have hmem : ∀ (label : Label) p, label.cells = [p] → ∀ q,
      q ∈ (⟨[], label, markStack, m⟩ : Frame).pending ↔ q = p ∨ q ∈ markStack := by
    intro label p hlabel q
    simp [Frame.pending, hlabel]
  have hpop : ∀ q, q ∈ (⟨[], .popMore, markStack, m⟩ : Frame).pending ↔ q ∈ markStack := by
    intro q
    simp [Frame.pending, Label.cells]
  unfold tick
  rw [hframes]
  simp only
  cases calls with
  | cons p calls =>
    obtain ⟨hprogress, hdue⟩ := tick_call hsafe hframes rfl
    exact ⟨_, ∅, rfl, hprogress, fun _ => hdue⟩
  | nil =>
    cases label with
    | markMore p =>
      by_cases hp : st.pointsIntoHeap p
      · simp only [if_pos hp]
        have hsame : ∀ q, q ∈ (⟨[], .safeMarkMore p, markStack, m⟩ : Frame).pending ↔
            q ∈ (⟨[], .markMore p, markStack, m⟩ : Frame).pending := fun q => Iff.rfl
        have hlt : (⟨[], .safeMarkMore p, markStack, m⟩ : Frame).weight <
            (⟨[], .markMore p, markStack, m⟩ : Frame).weight := by
          simp [Frame.weight, Label.weight]
        obtain ⟨hprogress, hdue⟩ := Progress.relabel ⟨[], .safeMarkMore p, markStack, m⟩
          hsafe hframes rfl
          (fun q => (hsame q).mp) (fun d hd _ => .inr ((hsame d).mpr hd))
          (fun q hq => by cases hq; exact hp) hlt
        exact ⟨_, ∅, rfl, hprogress, fun _ => hdue⟩
      · simp only [if_neg hp]
        have hlt : (⟨[], .popMore, markStack, m⟩ : Frame).weight <
            (⟨[], .markMore p, markStack, m⟩ : Frame).weight := by
          simp [Frame.weight, Label.weight]
        obtain ⟨hprogress, hdue⟩ := Progress.relabel ⟨[], .popMore, markStack, m⟩ hsafe hframes rfl
          (fun q hq => (hmem (.markMore p) p rfl q).mpr (.inr ((hpop q).mp hq)))
          (fun d hd hin => ((hmem (.markMore p) p rfl d).mp hd).elim
            (fun he => absurd (he ▸ hin) hp) fun hd => .inr ((hpop d).mpr hd))
          (fun q hq => by cases hq) hlt
        exact ⟨_, ∅, rfl, hprogress, fun _ => hdue⟩
    | safeMarkMore p =>
      have hp := hsafe _ (by rw [hframes]; exact mem_cons_self) p rfl
      cases hm : s.marks p with
      | true =>
        have hlt : (⟨[], .popMore, markStack, m⟩ : Frame).weight <
            (⟨[], .safeMarkMore p, markStack, m⟩ : Frame).weight := by
          simp [Frame.weight, Label.weight]
        obtain ⟨hprogress, hdue⟩ := Progress.relabel ⟨[], .popMore, markStack, m⟩ hsafe hframes rfl
          (fun q hq => (hmem (.safeMarkMore p) p rfl q).mpr (.inr ((hpop q).mp hq)))
          (fun d hd _ => ((hmem (.safeMarkMore p) p rfl d).mp hd).elim
            (fun he => .inl (he ▸ hm)) fun hd => .inr ((hpop d).mpr hd))
          (fun q hq => by cases hq) hlt
        exact ⟨_, ∅, if_pos hm, hprogress, fun _ => hdue⟩
      | false =>
        obtain ⟨marks', f', new, hvisit, hv, hcov⟩ := visit_spec hwf hp hm
          (show (⟨[], .safeMarkMore p, markStack, m⟩ : Frame).calls = [] from rfl)
        obtain ⟨hprogress, hdue⟩ := tick_visit hsafe hframes rfl rfl hv
        refine ⟨_, new, ?_, hprogress, fun hclear hharm => hdue (hcov ?_ ?_ ?_) hharm⟩
        · simp only [hvisit, Option.map_some]
          exact if_neg (by rw [hm]; exact Bool.false_ne_true)
        · exact fun a psc next hcell hint hma =>
            hclear _ fs p a psc next hframes rfl rfl hm hcell hint hma
        · exact fun q hq => hharm q ((mem_pending_cons hframes).mpr
            (.inl ((hmem (.safeMarkMore p) p rfl q).mpr (.inr hq))))
        · exact hharm p ((mem_pending_cons hframes).mpr
            (.inl ((hmem (.safeMarkMore p) p rfl p).mpr (.inl rfl))))
    | popMore =>
      cases markStack with
      | cons p markStack =>
        have hsame : ∀ q, q ∈ (⟨[], .markMore p, markStack, m⟩ : Frame).pending ↔
            q ∈ (⟨[], .popMore, p :: markStack, m⟩ : Frame).pending := fun q => Iff.rfl
        have hlt : (⟨[], .markMore p, markStack, m⟩ : Frame).weight <
            (⟨[], .popMore, p :: markStack, m⟩ : Frame).weight := by
          simp only [Frame.weight, Label.weight, length_cons]
          omega
        obtain ⟨hprogress, hdue⟩ := Progress.relabel ⟨[], .markMore p, markStack, m⟩
          hsafe hframes rfl
          (fun q ↦ (hsame q).mp) (fun d hd _ ↦ .inr ((hsame d).mpr hd)) (fun q hq ↦ by cases hq) hlt
        exact ⟨_, ∅, rfl, hprogress, fun _ => hdue⟩
      | nil =>
        cases fs with
        | nil =>
          obtain ⟨hprogress, hdue⟩ := tick_end hframes rfl rfl rfl
          exact ⟨_, ∅, rfl, hprogress, fun _ => hdue⟩
        | cons g gs =>
          obtain ⟨hprogress, hdue⟩ := tick_return hsafe hframes rfl rfl rfl
          exact ⟨_, ∅, rfl, hprogress, fun _ => hdue⟩

/-! ### The beginning of a call -/

theorem leavesHeap_of_functor (h : st.FunctorAt a) : leavesHeap st (st.mem a) = true := by
  obtain ⟨psc, h⟩ := h
  rw [h]
  rfl

theorem leavesHeap_eq_false (hwf : st.WF) (ha : st.pointsIntoHeap a) (h : ¬st.FunctorAt a) :
    leavesHeap st (st.mem a) = false := by
  cases hc : st.mem a with
  | ref b =>
    have hb := (hwf.proper a ha b (by simp [hc, Store.targets])).1
    simp [leavesHeap, hb]
  | functor psc => exact absurd ⟨psc, hc⟩ h
  | attv b | int i | float x | string x | list b | cs b => rfl

/-- What `mark_root` does before it calls `mark_cell`. -/
structure Roots (st : Store) (marks : Nat → Bool) (c : Cell) (marks' : Nat → Bool)
    (calls : List Nat) (new : Finset Nat) : Prop where
  fresh : ∀ i ∈ new, st.pointsIntoHeap i ∧ marks i = false
  marks : ∀ i, marks' i = true ↔ marks i = true ∨ i ∈ new
  owed : ∀ i ∈ new, ∀ d ∈ st.deps i, d ∈ calls
  plain : ∀ q ∈ calls, ¬st.FunctorAt q
  covers : st.Proper c → ∀ d ∈ st.targets c, Owed marks' calls d

/-- A root for which nothing new is marked. -/
theorem Roots.same {calls : List Nat} (hcalls : ∀ q ∈ calls, ¬st.FunctorAt q)
    (hcovers : st.Proper c → ∀ d ∈ st.targets c, Owed marks calls d) :
    Roots st marks c marks calls ∅ where
  fresh := by simp
  marks := by simp
  owed := by simp
  plain := hcalls
  covers := hcovers

/-- The last case of `mark_root`, for the two cells of a list or an attributed variable. -/
theorem roots_both (hwf : st.WF) (marks : Nat → Bool)
    (htargets : st.targets c = [a, a + 1]) (hc : c.isconstr = false) :
    ∃ calls, (if ¬st.pointsIntoHeap a then some (marks, [], 0)
      else if leavesHeap st (st.mem a) then some (marks, [], 0)
      else if leavesHeap st (st.mem (a + 1)) then some (marks, [], 0)
      else some (marks, [a + 1, a], 0)) = some (marks, calls, 0) ∧
        Roots st marks c marks calls ∅ := by
  have hin : st.Proper c → (st.pointsIntoHeap a ∧ ¬st.FunctorAt a) ∧
      st.pointsIntoHeap (a + 1) ∧ ¬st.FunctorAt (a + 1) := by
    intro hproper
    rw [Store.Proper, htargets] at hproper
    have ha := hproper a (by simp)
    have ha' := hproper (a + 1) (by simp)
    rw [hc] at ha ha'
    exact ⟨⟨ha.1, fun hf => by cases ha.2.mp hf⟩, ha'.1, fun hf => by cases ha'.2.mp hf⟩
  by_cases h1 : st.pointsIntoHeap a
  · by_cases h2 : leavesHeap st (st.mem a) = true
    · refine ⟨[], by simp [h1, h2], .same (by simp) fun hproper => ?_⟩
      rw [leavesHeap_eq_false hwf h1 (hin hproper).1.2] at h2
      cases h2
    · by_cases h3 : leavesHeap st (st.mem (a + 1)) = true
      · refine ⟨[], by simp [h1, h3], .same (by simp) fun hproper => ?_⟩
        rw [leavesHeap_eq_false hwf (hin hproper).2.1 (hin hproper).2.2] at h3
        cases h3
      · refine ⟨[a + 1, a], by simp [h1, h2, h3], .same ?_ fun _ d hd => .inr ?_⟩
        · intro q hq hf
          rcases mem_cons.mp hq with rfl | hq
          · exact h3 (leavesHeap_of_functor hf)
          · rw [mem_singleton.mp hq] at hf
            exact h2 (leavesHeap_of_functor hf)
        · rw [htargets] at hd
          simp only [mem_cons, not_mem_nil, or_false] at hd ⊢
          exact hd.symm
  · refine ⟨[], by simp [h1], .same (by simp) fun hproper => ?_⟩
    exact absurd (hin hproper).1.1 h1

theorem markRoot_spec (hwf : st.WF) (marks : Nat → Bool) (c : Cell) :
    ∃ marks' calls new, markRoot st marks c = some (marks', calls, new.card) ∧
      Roots st marks c marks' calls new := by
  have hzero : ¬st.pointsIntoHeap 0 := fun h => absurd h.1 (not_le.mpr hwf.bot)
  have hignored : st.targets c = [] → Roots st marks c marks [] ∅ := by
    intro htargets
    exact .same (by simp) fun _ d hd => by simp [htargets] at hd
  unfold markRoot
  by_cases h0 : c = .ref 0
  · subst h0
    refine ⟨marks, [], ∅, if_pos rfl, .same (by simp) fun hproper => ?_⟩
    exact absurd (hproper 0 (by simp [Store.targets])).1 hzero
  simp only [if_neg h0]
  cases c with
  | ref a =>
    by_cases h1 : leavesHeap st (st.mem a) = true
    · refine ⟨marks, [], ∅, if_pos h1, .same (by simp) fun hproper => ?_⟩
      obtain ⟨ha, hf⟩ := hproper a (by simp [Store.targets])
      rw [leavesHeap_eq_false hwf ha fun h => by cases hf.mp h] at h1
      cases h1
    · refine ⟨marks, [a], ∅, if_neg h1, .same ?_ fun _ d hd => .inr hd⟩
      intro q hq hf
      rw [mem_singleton.mp hq] at hf
      exact h1 (leavesHeap_of_functor hf)
  | attv a =>
    obtain ⟨calls, hcalls, hroots⟩ := roots_both (c := .attv a) hwf marks rfl rfl
    exact ⟨marks, calls, ∅, hcalls, hroots⟩
  | list a =>
    by_cases hi : st.isinternstr (.list a) = true
    · exact ⟨marks, [], ∅, if_pos hi, hignored (if_pos hi)⟩
    · obtain ⟨calls, hcalls, hroots⟩ := roots_both (c := .list a) hwf marks (if_neg hi) rfl
      exact ⟨marks, calls, ∅, (if_neg hi).trans hcalls, hroots⟩
  | cs a =>
    by_cases hi : st.isinternstr (.cs a) = true
    · exact ⟨marks, [], ∅, if_pos hi, hignored (if_pos hi)⟩
    · have htargets : st.targets (.cs a) = [a] := if_neg hi
      have hproper : st.Proper (.cs a) → st.pointsIntoHeap a ∧ st.FunctorAt a := by
        intro hproper
        rw [Store.Proper, htargets] at hproper
        obtain ⟨ha, hf⟩ := hproper a (by simp)
        exact ⟨ha, hf.mpr rfl⟩
      by_cases ha : st.pointsIntoHeap a
      · cases hm : marks a with
        | true =>
          refine ⟨marks, [], ∅, by simp [hi, ha, hm], .same (by simp) fun _ d hd => .inl ?_⟩
          rw [htargets, mem_singleton] at hd
          rw [hd, hm]
        | false =>
          by_cases hf : st.FunctorAt a
          · obtain ⟨psc, hc⟩ := hf
            refine ⟨update marks a true, argCells a psc.arity, {a},
              by simp [hi, ha, hm, hc], ?_, ?_, ?_, ?_, ?_⟩
            · intro i hia
              rw [Finset.mem_singleton.mp hia]
              exact ⟨ha, hm⟩
            · intro i
              by_cases he : i = a <;> simp [he]
            · intro i hia d hd
              rw [Finset.mem_singleton.mp hia, Store.deps, hc] at hd
              exact hd
            · exact fun q hq => (hwf.args a psc ha hc q hq).2
            · intro _ d hd
              rw [htargets, mem_singleton] at hd
              rw [hd]
              exact .inl (update_self ..)
          · refine ⟨marks, [], ∅, ?_, .same (by simp) fun hp => absurd (hproper hp).2 hf⟩
            simp only [if_neg hi, ha, not_true_eq_false, if_false, hm, Bool.false_eq_true]
            cases hc : st.mem a with
            | functor psc => exact absurd ⟨psc, hc⟩ hf
            | ref b =>
              have hb := (hwf.proper a ha b (by simp [hc, Store.targets])).1
              exact if_pos (.inl hb)
            | attv b | int i | float x | string x | list b | cs b => rfl
      · refine ⟨marks, [], ∅, by simp [hi, ha], .same (by simp) fun hp => ?_⟩
        exact absurd (hproper hp).1 ha
  | int i | float x | string x | functor psc => exact ⟨marks, [], ∅, rfl, hignored rfl⟩

/-! ### Runs -/

/-- What holds in every state of a run. -/
structure MarkInv (st : Store) (s : Marker) : Prop where
  heap : ∀ i, s.marks i = true → st.pointsIntoHeap i
  safe : Safe st s
  before : ∀ i, s.before i = true → s.marks i = true
  count : s.total = (newlyMarked st s).card

/-- What a root leads to is marked or will be. -/
def OwedRoot (st : Store) (s : Marker) : Root → Prop
  | .word c => st.Proper c → ∀ d ∈ st.targets c, Owed s.marks s.pending d
  | .cell p => st.pointsIntoHeap p → Owed s.marks s.pending p

/-- What holds when no step has run into another structure. -/
structure PartlyClosed (st : Store) (s : Marker) : Prop where
  closed : ∀ i, s.marks i = true → ∀ d ∈ st.deps i, Owed s.marks s.pending d
  harmless : ∀ q ∈ s.pending, Harmless st s.marks q
  covers : ∀ r ∈ s.roots, OwedRoot st s r

theorem mem_newlyMarked {i : Nat} : i ∈ newlyMarked st s ↔
    st.pointsIntoHeap i ∧ s.marks i = true ∧ s.before i = false := by
  simp [newlyMarked, Store.pointsIntoHeap]

/-- The cells that have no mark. -/
def unmarked (st : Store) (s : Marker) : Finset Nat :=
  (Finset.Ico st.heapBot st.heapTop).filter fun i => s.marks i = false

theorem Store.WF.deps_heap (hwf : st.WF) {i d : Nat} (hi : st.pointsIntoHeap i)
    (hd : d ∈ st.deps i) : st.pointsIntoHeap d := by
  unfold Store.deps at hd
  split at hd
  next psc hpsc => exact (hwf.args i psc hi hpsc d hd).1
  next => exact (hwf.proper i hi d hd).1

theorem MarkInv.tick (h : MarkInv st s) (hp : Progress st s s' new) : MarkInv st s' where
  heap i hi := ((hp.marks i).mp hi).elim (h.heap i) fun hn => (hp.fresh i hn).1
  safe := hp.safe
  before i hi := (hp.marks i).mpr (.inl (h.before i (hp.before ▸ hi)))
  count := by
    have hnew : newlyMarked st s' = newlyMarked st s ∪ new := by
      ext i
      rw [Finset.mem_union, mem_newlyMarked, mem_newlyMarked, hp.marks, hp.before]
      constructor
      · rintro ⟨hi, hm | hn, hb⟩
        · exact .inl ⟨hi, hm, hb⟩
        · exact .inr hn
      · rintro (⟨hi, hm, hb⟩ | hn)
        · exact ⟨hi, .inl hm, hb⟩
        · obtain ⟨hi, hm⟩ := hp.fresh i hn
          refine ⟨hi, .inr hn, Bool.eq_false_iff.mpr fun hb => ?_⟩
          rw [h.before i hb] at hm
          cases hm
    have hdisjoint : Disjoint (newlyMarked st s) new := by
      rw [Finset.disjoint_left]
      intro i hi hn
      have hm := (hp.fresh i hn).2
      rw [(mem_newlyMarked.mp hi).2.1] at hm
      cases hm
    rw [hp.total, h.count, hnew, Finset.card_union_of_disjoint hdisjoint]

theorem PartlyClosed.tick (hwf : st.WF) (h : MarkInv st s) (hc : PartlyClosed st s)
    (hp : Progress st s s' new) (hdue : Due st s' new) : PartlyClosed st s' where
  closed i hi d hd := by
    rcases (hp.marks i).mp hi with hm | hn
    · exact hp.owed d (hwf.deps_heap (h.heap i hm) hd) (hc.closed i hm d hd)
    · exact hdue.owed i hn d hd
  harmless := hdue.harmless
  covers r hr := by
    have hr' := hc.covers r (hp.roots ▸ hr)
    cases r with
    | word c => exact fun hproper d hd => hp.owed d (hproper d hd).1 (hr' hproper d hd)
    | cell p => exact fun hin => hp.owed p hin (hr' hin)

/-- A call begins. -/
theorem call_spec (hwf : st.WF) (h : MarkInv st s) (hidle : s.frames = []) (hr : st.Valid r) :
    ∃ s', call st s r = some s' ∧ s'.frames ≠ [] ∧ MarkInv st s' ∧
      (PartlyClosed st s → PartlyClosed st s') := by
  have hnone : ∀ d, Owed s.marks s.pending d → s.marks d = true := by
    rintro d (hm | hd)
    · exact hm
    · simp [Marker.pending, hidle] at hd
  cases r with
  | cell p =>
    have hpend : ∀ q, q ∈ ({ s with
        frames := [⟨[p], .popMore, [], 0⟩]
        before := s.marks
        roots := .cell p :: s.roots } : Marker).pending ↔ q = p := by
      intro q
      simp [Marker.pending, Frame.pending, Label.cells]
    refine ⟨_, rfl, cons_ne_nil _ _, ⟨h.heap, ?_, fun i hi => hi, ?_⟩, fun hc => ⟨?_, ?_, ?_⟩⟩
    · intro f hf q hq
      rw [mem_singleton.mp hf] at hq
      cases hq
    · have hempty : newlyMarked st { s with
          frames := [⟨[p], .popMore, [], 0⟩]
          before := s.marks
          roots := .cell p :: s.roots } = ∅ := by
        ext i
        rw [mem_newlyMarked]
        simp
      rw [hempty]
      rfl
    · exact fun i hi d hd => .inl (hnone d (hc.closed i hi d hd))
    · intro q hq
      rw [(hpend q).mp hq]
      exact fun hin psc hf => absurd ⟨psc, hf⟩ (hr hin)
    · intro r' hr'
      rcases mem_cons.mp hr' with rfl | hr'
      · exact fun _ => .inr ((hpend p).mpr rfl)
      · have hold := hc.covers r' hr'
        cases r' with
        | word c => exact fun hproper d hd => .inl (hnone d (hold hproper d hd))
        | cell q => exact fun hin => .inl (hnone q (hold hin))
  | word c =>
    obtain ⟨marks', calls, new, hroot, hspec⟩ := markRoot_spec hwf s.marks c
    have hpend : ∀ q, q ∈ ({ s with
        marks := marks'
        frames := [⟨calls, .popMore, [], new.card⟩]
        before := s.marks
        roots := .word c :: s.roots } : Marker).pending ↔ q ∈ calls := by
      intro q
      simp [Marker.pending, Frame.pending, Label.cells]
    refine ⟨{ s with
      marks := marks'
      frames := [⟨calls, .popMore, [], new.card⟩]
      before := s.marks
      roots := .word c :: s.roots }, by rw [call, hroot]; rfl, cons_ne_nil _ _,
      ⟨?_, ?_, ?_, ?_⟩, fun hc => ⟨?_, ?_, ?_⟩⟩
    · exact fun i hi => ((hspec.marks i).mp hi).elim (h.heap i) fun hn => (hspec.fresh i hn).1
    · intro f hf q hq
      rw [mem_singleton.mp hf] at hq
      cases hq
    · exact fun i hi => (hspec.marks i).mpr (.inl hi)
    · have hnew : newlyMarked st { s with
          marks := marks'
          frames := [⟨calls, .popMore, [], new.card⟩]
          before := s.marks
          roots := .word c :: s.roots } = new := by
        ext i
        rw [mem_newlyMarked]
        simp only [hspec.marks]
        constructor
        · rintro ⟨-, hm | hn, hb⟩
          · rw [hm] at hb
            cases hb
          · exact hn
        · intro hn
          exact ⟨(hspec.fresh i hn).1, .inr hn, (hspec.fresh i hn).2⟩
      rw [hnew]
      simp [Marker.total]
    · intro i hi d hd
      rcases (hspec.marks i).mp hi with hm | hn
      · exact .inl ((hspec.marks d).mpr (.inl (hnone d (hc.closed i hm d hd))))
      · exact .inr ((hpend d).mpr (hspec.owed i hn d hd))
    · exact fun q hq => .of_not_functor (hspec.plain q ((hpend q).mp hq))
    · intro r' hr'
      have hmono : ∀ d, Owed s.marks s.pending d → marks' d = true :=
        fun d hd => (hspec.marks d).mpr (.inl (hnone d hd))
      rcases mem_cons.mp hr' with rfl | hr'
      · exact fun hproper d hd => (hspec.covers hproper d hd).imp_right (hpend d).mpr
      · have hold := hc.covers r' hr'
        cases r' with
        | word c => exact fun hproper d hd => .inl (hmono d (hold hproper d hd))
        | cell q => exact fun hin => .inl (hmono q (hold hin))

/-- Every state of a run keeps the invariant. -/
theorem marking_inv (hwf : st.WF) : (marking st).Invariant (MarkInv st) where
  init s hs := by
    obtain ⟨hidle, hmarks, hbefore, hvalue, -⟩ := hs
    constructor
    case heap =>
      intro i hi
      rw [hmarks i] at hi
      cases hi
    case safe =>
      intro f hf
      rw [hidle] at hf
      cases hf
    case before =>
      intro i hi
      rw [← hbefore]
      exact hi
    case count =>
      have hempty : newlyMarked st s = ∅ := by
        ext i
        rw [mem_newlyMarked, hmarks]
        simp
      rw [hempty, Finset.card_empty, Marker.total, hidle]
      exact hvalue
  step s e s' h hstep := by
    cases e with
    | call r =>
      obtain ⟨hidle, hr, hcall⟩ := hstep
      obtain ⟨s1, hcall1, -, hinv, -⟩ := call_spec hwf h hidle hr
      rw [hcall1] at hcall
      cases hcall
      exact hinv
    | tick =>
      have htick : tick st s = some s' := hstep
      have hactive : s.frames ≠ [] := by
        intro hidle
        rw [tick, hidle] at htick
        cases htick
      obtain ⟨s1, new, htick1, hp, -⟩ := tick_spec hwf h.safe hactive
      rw [htick1] at htick
      cases htick
      exact h.tick hp

/-- Where each step meets the condition, what a mark leads to is marked or will be. -/
theorem clear_inv (hwf : st.WF) :
    ((marking st).restrict (StepClear st)).Invariant fun s => MarkInv st s ∧ PartlyClosed st s := by
  have hinv : ((marking st).restrict (StepClear st)).Invariant (MarkInv st) :=
    ⟨(marking_inv hwf).init, fun s e s' h hstep => (marking_inv hwf).step s e s' h hstep.2⟩
  apply hinv.and
  · intro s hs
    obtain ⟨hidle, hmarks, -, -, hroots⟩ := hs
    constructor
    case closed =>
      intro i hi
      rw [hmarks i] at hi
      cases hi
    case harmless => simp [Marker.pending, hidle]
    case covers => simp [hroots]
  · intro s e s' h hc hstep
    obtain ⟨hclear, hstep⟩ := hstep
    cases e with
    | call r =>
      obtain ⟨hidle, hr, hcall⟩ := hstep
      obtain ⟨s1, hcall1, -, -, hclosed⟩ := call_spec hwf h hidle hr
      rw [hcall1] at hcall
      cases hcall
      exact hclosed hc
    | tick =>
      have htick : tick st s = some s' := hstep
      have hactive : s.frames ≠ [] := by
        intro hidle
        rw [tick, hidle] at htick
        cases htick
      obtain ⟨s1, new, htick1, hp, hdue⟩ := tick_spec hwf h.safe hactive
      rw [htick1] at htick
      cases htick
      exact hc.tick hwf h hp (hdue hclear hc.harmless)

/-- A step that marks cells leaves fewer without a mark. -/
theorem Progress.unmarked_lt (hp : Progress st s s' new) (hne : new ≠ ∅) :
    (unmarked st s').card < (unmarked st s).card := by
  obtain ⟨i, hi⟩ := Finset.nonempty_iff_ne_empty.mpr hne
  obtain ⟨hin, hm⟩ := hp.fresh i hi
  apply Finset.card_lt_card
  rw [Finset.ssubset_iff_of_subset]
  · refine ⟨i, ?_, ?_⟩
    · rw [unmarked, Finset.mem_filter, Finset.mem_Ico]
      exact ⟨hin, hm⟩
    · rw [unmarked, Finset.mem_filter, (hp.marks i).mpr (.inr hi)]
      simp
  · intro j hj
    rw [unmarked, Finset.mem_filter] at hj ⊢
    refine ⟨hj.1, Bool.eq_false_iff.mpr fun h => ?_⟩
    rw [(hp.marks j).mpr (.inl h)] at hj
    cases hj.2

theorem Progress.unmarked_eq (hp : Progress st s s' ∅) : unmarked st s' = unmarked st s := by
  have hsame : ∀ i, s'.marks i = s.marks i := by
    intro i
    rw [Bool.eq_iff_iff, hp.marks]
    simp
  simp only [unmarked, hsame]

/-- A call ends: each step marks a cell or lightens what is to be done. -/
theorem MarkInv.ends (hwf : st.WF) (s : Marker) (h : MarkInv st s) :
    ∃ s', Relation.ReflTransGen (fun s s' => Gc.tick st s = some s') s s' ∧ s'.frames = [] := by
  by_cases hidle : s.frames = []
  · exact ⟨s, .refl, hidle⟩
  · obtain ⟨s1, new, htick, hp, -⟩ := tick_spec hwf h.safe hidle
    have hlex : (unmarked st s1).card < (unmarked st s).card ∨
        (unmarked st s1).card = (unmarked st s).card ∧ s1.weight < s.weight := by
      by_cases hne : new = ∅
      · subst hne
        exact .inr ⟨by rw [hp.unmarked_eq], hp.lighter rfl⟩
      · exact .inl (hp.unmarked_lt hne)
    obtain ⟨s', hrun, hend⟩ := MarkInv.ends hwf s1 (h.tick hp)
    exact ⟨s', .head htick hrun, hend⟩
termination_by ((unmarked st s).card, s.weight)
decreasing_by exact (Prod.lex_iff).mpr hlex

/-- Between calls the marks are closed if each step has met the condition. Every call ends, and its
value is the number of the cells that it has marked. -/
theorem marks_closed (hwf : st.WF) :
    (∀ s, ((marking st).restrict (StepClear st)).Reachable s → s.frames = [] →
      Closed st s.marks ∧ ∀ r ∈ s.roots, Covers st s.marks r) ∧
    ∀ s, (marking st).Reachable s →
      (∃ s', Relation.ReflTransGen (fun s s' => tick st s = some s') s s' ∧ s'.frames = []) ∧
      (s.frames = [] → s.value = (newlyMarked st s).card) := by
  constructor
  · intro s hs hidle
    obtain ⟨-, hc⟩ := (clear_inv hwf).holds hs
    have hnone : ∀ d, Owed s.marks s.pending d → s.marks d = true := by
      rintro d (hm | hd)
      · exact hm
      · simp [Marker.pending, hidle] at hd
    refine ⟨fun i hi d hd => hnone d (hc.closed i hi d hd), fun r hr => ?_⟩
    have hcover := hc.covers r hr
    cases r with
    | word c => exact fun hproper d hd => hnone d (hcover hproper d hd)
    | cell p => exact fun hin => hnone p (hcover hin)
  · intro s hs
    have h := (marking_inv hwf).holds hs
    refine ⟨h.ends hwf, fun hidle => ?_⟩
    have hcount := h.count
    rw [Marker.total, hidle] at hcount
    exact hcount

/-! ### Two heaps -/

/-- A heap from the address 1 on. -/
def heapOf (cells : List Cell) : Store where
  mem i := (cells[i - 1]?).getD (.int 0)
  heapBot := 1
  heapTop := cells.length + 1
  glstackHigh := 1000
  inStacks _ := false
  isInternedRec _ := false

/-- The state before the first call. -/
def emptyMarker : Marker := ⟨fun _ => false, [], 0, fun _ => false, []⟩

/-- Several steps. -/
def ticks (st : Store) : Nat → Marker → Option Marker
  | 0, s => some s
  | n + 1, s => (tick st s).bind (ticks st n)

theorem reach_ticks {ok : Marker → Event → Prop} (hok : ∀ s, ok s .tick) {n : Nat}
    (h : ((marking st).restrict ok).Reachable s) (hticks : ticks st n s = some s') :
    ((marking st).restrict ok).Reachable s' := by
  induction n generalizing s with
  | zero =>
    cases hticks
    exact h
  | succ n ih =>
    obtain ⟨s1, htick, hticks⟩ := Option.bind_eq_some_iff.mp hticks
    exact ih (h.step (e := .tick) ⟨hok s, htick⟩) hticks

/-- The first call. -/
theorem reach_first {ok : Marker → Event → Prop} {r : Root} (hok : ok emptyMarker (.call r))
    (hr : st.Valid r) (hcall : call st emptyMarker r = some s) :
    ((marking st).restrict ok).Reachable s := by
  have h0 : ((marking st).restrict ok).Reachable emptyMarker :=
    .init ⟨rfl, fun _ => rfl, rfl, rfl, rfl⟩
  exact h0.step (e := .call r) ⟨hok, rfl, hr, hcall⟩

/-- A structure with the arguments `X` and 7, behind a reference to it. -/
def structureHeap : Store :=
  heapOf [.cs 2, .functor ⟨⟨[104], by decide⟩, 2, none⟩, .ref 3, .int 7]

theorem structureHeap_wf : structureHeap.WF where
  bot := by decide
  proper i hi := by
    obtain rfl | rfl | rfl | rfl : i = 1 ∨ i = 2 ∨ i = 3 ∨ i = 4 := by
      have h : 1 ≤ i ∧ i < 5 := hi
      omega
    all_goals simp [Store.Proper, Store.FunctorAt, structureHeap, heapOf, Store.targets,
      Cell.isconstr, Store.pointsIntoHeap, Store.isinternstr]
  args i psc hi hpsc d hd := by
    obtain rfl | rfl | rfl | rfl : i = 1 ∨ i = 2 ∨ i = 3 ∨ i = 4 := by
      have h : 1 ≤ i ∧ i < 5 := hi
      omega
    all_goals cases hpsc
    obtain rfl | rfl : d = 3 ∨ d = 4 := by simpa [argCells, range_succ] using hd
    all_goals simp [Store.FunctorAt, structureHeap, heapOf, Store.pointsIntoHeap]

theorem structureHeap_arity (a : Nat) (psc : Psc) (h : structureHeap.mem a = .functor psc) :
    psc.arity = 2 := by
  by_cases ha : 4 < a
  · have hnone : structureHeap.mem a = .int 0 := by
      show ([_, _, _, _][a - 1]?).getD (Cell.int 0) = .int 0
      rw [List.getElem?_eq_none (by simp only [length_cons, length_nil]; omega),
        Option.getD_none]
    rw [hnone] at h
    cases h
  · obtain rfl | rfl | rfl | rfl | rfl : a = 0 ∨ a = 1 ∨ a = 2 ∨ a = 3 ∨ a = 4 := by omega
    all_goals cases h
    rfl

theorem marks_closed_structure : ∃ s : Marker, s.frames = [] ∧ s.marks 4 = true ∧ s.value = 4 ∧
    Closed structureHeap s.marks := by
  have hclear : ∀ s, StepClear structureHeap s .tick := by
    intro s f fs p a psc next _ _ _ _ _ _ _ hcell hzero
    rw [structureHeap_arity a psc hcell] at hzero
    cases hzero
  have hticks : ∃ s t, call structureHeap emptyMarker (.cell 1) = some s ∧
      ticks structureHeap 10 s = some t ∧ t.frames = [] ∧ t.marks 4 = true ∧ t.value = 4 := by
    exact ⟨_, _, rfl, rfl, rfl, rfl, rfl⟩
  obtain ⟨s, t, hcall, hticks, hidle, hmark, hvalue⟩ := hticks
  have hvalid : structureHeap.Valid (.cell 1) := fun _ ⟨_, h⟩ => by cases h
  have hreach := reach_ticks hclear (reach_first trivial hvalid hcall) hticks
  exact ⟨t, hidle, hmark, hvalue, ((marks_closed structureHeap_wf).1 t hreach hidle).1⟩

/-- A structure without arguments stands before another one. Roots lead to both. -/
def nullaryHeap : Store :=
  heapOf [.cs 2, .functor ⟨⟨[102], noNul_f⟩, 0, none⟩, .functor ⟨⟨[103], by decide⟩, 1, none⟩,
    .int 7, .cs 3]

theorem argument_not_marked : ¬∀ s, (marking nullaryHeap).Reachable s → s.frames = [] →
    Closed nullaryHeap s.marks := by
  intro hclosed
  have hticks : ∃ s t u v, call nullaryHeap emptyMarker (.cell 1) = some s ∧
      ticks nullaryHeap 7 s = some t ∧ t.frames = [] ∧ call nullaryHeap t (.cell 5) = some u ∧
      ticks nullaryHeap 5 u = some v ∧ v.frames = [] ∧ v.marks 3 = true ∧ v.marks 4 = false :=
    ⟨_, _, _, _, rfl, rfl, rfl, rfl, rfl, rfl, rfl, rfl⟩
  obtain ⟨s, t, u, v, hcall, hticks, hidle, hcall', hticks', hidle', hmark, hmark'⟩ := hticks
  have hvalid : nullaryHeap.Valid (.cell 1) := fun _ ⟨_, h⟩ => by cases h
  have hvalid' : nullaryHeap.Valid (.cell 5) := fun _ ⟨_, h⟩ => by cases h
  have hreach : ((marking nullaryHeap).restrict fun _ _ => True).Reachable t :=
    reach_ticks (fun _ => trivial) (reach_first trivial hvalid hcall) hticks
  have hreach' := reach_ticks (fun _ => trivial)
    (hreach.step (e := .call (.cell 5)) ⟨trivial, hidle, hvalid', hcall'⟩) hticks'
  have hdep : 4 ∈ nullaryHeap.deps 3 := by simp [Store.deps, nullaryHeap, heapOf, argCells]
  have h := hclosed v hreach'.of_restrict hidle' 3 hmark 4 hdep
  rw [hmark'] at h
  cases h

end XSBEngine.Gc
