import XSBEngine.Terms.Growth
import XSBEngine.Terms.Memory

/-!
# The variable enumerator

Standardization of variables (`XSB/emu/trie_internals.h:413–454`, `XSB/emu/tries.c:203`) and the
switch over the tag of a cell that the trie walkers share.
-/

namespace XSBEngine.Terms

open PrefixTerms XSBEngine.Tries

/-- The cells of the engine with the enumerator array `VarEnumerator[]`, its trail (top first),
the next free heap cell and the next free cell of the table space. -/
structure Machine where
  mem : Memory
  hreg : Nat
  tableTop : Nat
  varEnumerator : Nat
  numTrievars : Nat
  trail : List Addr

namespace Machine

/-- Address of a cell of the enumerator array. -/
def enumCell (m : Machine) (index : Nat) : Addr := ⟨.tableSpace, m.varEnumerator + index⟩

/-- Overwrite a cell. -/
def write (m : Machine) (a : Addr) (c : Cell) : Machine :=
  { m with mem := Function.update m.mem a c }

/-- `expand_varenumerators`: a new array of twice the size, whose cells are free. -/
def expandVarenumerators (m : Machine) : Machine :=
  { m with
    mem := fun a =>
      if a.area = .tableSpace ∧ m.tableTop ≤ a.pos ∧ a.pos < m.tableTop + 2 * m.numTrievars then
        .ref a
      else m.mem a
    varEnumerator := m.tableTop
    numTrievars := 2 * m.numTrievars
    tableTop := m.tableTop + 2 * m.numTrievars }

/-- `StandardizeVariable`: the variable gets the content of an array cell. -/
def standardizeVariable (m : Machine) (a : Addr) (index : Nat) : Machine :=
  let m := if index < m.numTrievars then m else m.expandVarenumerators
  m.write a (m.mem (m.enumCell index))

/-- `StandardizeAndTrailVariable`. -/
def standardizeAndTrailVariable (m : Machine) (a : Addr) (index : Nat) : Machine :=
  let m := m.standardizeVariable a index
  { m with trail := a :: m.trail }

/-- `IsStandardizedVariable`. -/
def isStandardizedVariable (m : Machine) (a : Addr) : Bool :=
  a.area = .tableSpace ∧ m.varEnumerator ≤ a.pos ∧
    a.pos ≤ m.varEnumerator + m.numTrievars - 1

/-- `IndexOfStdVar`. -/
def indexOfStdVar (m : Machine) (a : Addr) : Nat := a.pos - m.varEnumerator

/-- `bld_free(hreg); bind_ref(a, hreg); hreg++`: the variable moves to a new heap cell. -/
def moveToHeap (m : Machine) (a : Addr) : Machine :=
  { (m.write ⟨.heap, m.hreg⟩ (.ref ⟨.heap, m.hreg⟩)).write a (.ref ⟨.heap, m.hreg⟩) with
    hreg := m.hreg + 1 }

/-- `undo_answer_bindings`. -/
def undoAnswerBindings (m : Machine) : Machine :=
  { m.trail.foldl (fun m a => m.write a (.ref a)) m with trail := [] }

/-- Cells that a program can use: those of the local stack and of the heap. -/
def User (m : Machine) (a : Addr) : Prop :=
  match a.area with
  | .localStack => True
  | .heap => a.pos < m.hreg
  | .tableSpace => False

/-- Cells in use. -/
def Used (m : Machine) (a : Addr) : Prop :=
  match a.area with
  | .localStack => True
  | .heap => a.pos < m.hreg
  | .tableSpace => a.pos < m.tableTop

end Machine

/-- What a walker does at one cell: the symbol for the trie, the cells pushed on the pdl
stack, the memory and the variable counter afterwards. -/
structure Visit where
  symbol : Symbol
  push : List Cell
  machine : Machine
  ctr : Nat

/-- The arguments of a structure or list, or references to their cells. -/
def pushArgs (byAddr : Bool) (mem : Memory) (cells : List Addr) : List Cell :=
  cells.map fun a => if byAddr then .ref a else mem a

/-- The switch over the tag of a dereferenced cell, as in `recvariant_trie_intern`,
`tries.c:2591`. With `move` a new variable first moves to the heap; with `byAddr` the pdl stack
gets the addresses of arguments, as in `recvariant_call`. -/
def visit (arity : Nat → Nat) (move byAddr : Bool) (m : Machine) (ctr : Nat) :
    Cell → Option Visit
  | .ref a =>
    if m.isStandardizedVariable a then
      some ⟨encodeTrieVar (m.indexOfStdVar a), [], m, ctr⟩
    else
      let (m, a) := if move then (m.moveToHeap a, ⟨.heap, m.hreg⟩) else (m, a)
      some ⟨encodeNewTrieVar ctr, [], m.standardizeAndTrailVariable a ctr, ctr + 1⟩
  | .const tag val => some ⟨encodeTrieConstant tag val, [], m, ctr⟩
  | .list a => some ⟨encodeTrieList, pushArgs byAddr m.mem [a, a.plus 1], m, ctr⟩
  | .struct a =>
    match m.mem a with
    | .functor psc => some ⟨encodeTriePSC psc, pushArgs byAddr m.mem (strArgs a (arity psc)), m,
      ctr⟩
    | _ => none
  | .attv a =>
    let m := m.standardizeAndTrailVariable a ctr
    some ⟨encodeNewTrieAttv ctr, [m.mem (a.plus 1)], m, ctr + 1⟩
  | .functor _ => none

/-! ### Chains of references -/

/-- A chain of references through cells in use. -/
inductive Chain (mem : Memory) (used : Addr → Prop) : Addr → Addr → Prop where
  | refl {a : Addr} : used a → Chain mem used a a
  | step {a b c : Addr} : used a → mem a = .ref b → b ≠ a → Chain mem used b c →
      Chain mem used a c

variable {mem mem' : Memory} {used used' : Addr → Prop} {a b c : Addr}

section

variable (h : Chain mem used a b)
include h

theorem Chain.used_right : used b := by
  induction h with
  | refl hu => exact hu
  | step _ _ _ _ ih => exact ih

theorem Chain.used_left : used a := by
  cases h with
  | refl hu | step hu _ _ _ => exact hu

/-- A chain that stops at a free cell passes through no other free cell. -/
theorem Chain.congr (hused : ∀ x, used x → used' x)
    (hmem : ∀ x, used x → mem x ≠ .ref x → mem' x = mem x) : Chain mem' used' a b := by
  induction h with
  | refl hu => exact .refl (hused _ hu)
  | @step a d b hu ha hne hc ih =>
    have hself : mem a ≠ .ref a := by
      rw [ha]
      simpa using hne
    exact .step (hused _ hu) (by rw [hmem a hu hself]; exact ha) hne ih

theorem Chain.trans (h' : Chain mem used b c) : Chain mem used a c := by
  induction h with
  | refl _ => exact h'
  | step hu ha hne _ ih => exact .step hu ha hne (ih h')

/-- What is left of a chain behind one of its cells. -/
theorem Chain.tail (h' : Chain mem used a c) (hc : mem c = .ref c) :
    Chain mem used b c := by
  induction h with
  | refl _ => exact h'
  | step _ ha hne _ ih =>
    cases h' with
    | refl _ =>
      rw [hc] at ha
      exact absurd (Cell.ref.inj ha).symm hne
    | step _ ha' _ hc' =>
      rw [ha] at ha'
      cases ha'
      exact ih hc'

theorem Chain.deref (hb : mem b = .ref b) :
    ∃ n, deref mem n (.ref a) = some (.ref b) := by
  induction h with
  | refl _ => exact ⟨1, by rw [Terms.deref, if_pos hb]⟩
  | @step a d b _ ha hne _ ih =>
    obtain ⟨n, hn⟩ := ih hb
    refine ⟨n + 1, ?_⟩
    have hself : mem a ≠ .ref a := by
      rw [ha]
      simpa using hne
    rw [Terms.deref, if_neg hself, ha]
    exact hn

end

end XSBEngine.Terms
