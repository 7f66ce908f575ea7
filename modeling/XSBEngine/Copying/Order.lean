import XSBEngine.Copying.Images

/-!
# The order in which cells are read

A block is entered where its word is met for the first time, and its cells are read one after the
other. Where a cell is read again after the list that it is the head of has been entered, the mark
of the list is found there.
-/

namespace XSBEngine.Copying

open XSBEngine.Heap

/-- The head of a list that is being entered, or a later cell of a block. -/
inductive Reading where
  | head (x : Nat)
  | later (x : Nat)

def Reading.cell : Reading → Nat
  | .head x => x
  | .later x => x

/-- What is read for a word, which is none of the words that are copied as they are. -/
def readings (intern : Cell → Bool) (mem : Nat → Cell) : Cell → Option (List Reading)
  | .ref _ => some []
  | .attv a => some [.later (a + 1)]
  | .list a => if intern (.list a) then none else some [.head a, .later (a + 1)]
  | .cs a =>
    if intern (.cs a) then none
    else
      match mem a with
      | .functor psc => some ((List.range psc.arity).map fun j => .later (a + 1 + j))
      | _ => none
  | _ => none

/-- The words that have been met, and the cells that are still to be read. -/
structure Scan where
  seen : Cell → Bool
  todo : List Reading

/-- The word `v` is met. -/
def Scan.enter (intern : Cell → Bool) (mem : Nat → Cell) (S : Scan) (v : Cell) : Scan :=
  match readings intern mem v with
  | none => S
  | some rs => if S.seen v then S else ⟨Function.update S.seen v true, rs ++ S.todo⟩

variable {intern : Cell → Bool} {mem : Nat → Cell} {ok : Cell → Prop} {S S' S'' : Scan}
  {r : Reading} {seen : Cell → Bool} {todo : List Reading} {a y : Nat} {c v : Cell}

/-- Cells are read. -/
inductive Scan.Reads (intern : Cell → Bool) (mem : Nat → Cell) (S : Scan) : Scan → Prop
  | refl : Reads intern mem S S
  | read {seen : Cell → Bool} {r : Reading} {todo : List Reading} {v : Cell} :
      Reads intern mem S ⟨seen, r :: todo⟩ → EndsAt mem (mem r.cell) v →
      Reads intern mem S (Scan.enter intern mem ⟨seen, todo⟩ v)

theorem Scan.Reads.trans (h : Reads intern mem S S') (h' : Reads intern mem S' S'') :
    Reads intern mem S S'' := by
  induction h' with
  | refl => exact h
  | read _ hv ih => exact ih.read hv

/-- The cell `y` is met where the word `c` is dereferenced. -/
inductive Through (mem : Nat → Cell) : Cell → Nat → Prop
  | ref {a : Nat} : Through mem (.ref a) a
  | attv {a : Nat} : Through mem (.attv a) a
  | next {a y : Nat} : mem a ≠ .ref a → Through mem (mem a) y → Through mem (.ref a) y
  | bound {a y : Nat} : mem a ≠ .ref a → Through mem (mem a) y → Through mem (.attv a) y

/-- The cell `y` is met by a reading. The head of a list that is being entered is read before the
mark is left. -/
def Reading.Meets (mem : Nat → Cell) (y : Nat) : Reading → Prop
  | .head x => Through mem (mem x) y
  | .later x => y = x ∨ Through mem (mem x) y

/-- Where the head of a list that has been entered is met again, it is a word for which `ok`
holds. -/
def Scan.Safe (intern : Cell → Bool) (mem : Nat → Cell) (ok : Cell → Prop) (S : Scan) : Prop :=
  ∀ seen r todo, S.Reads intern mem ⟨seen, r :: todo⟩ → ∀ y v, r.Meets mem y →
    seen (.list y) = true → EndsAt mem (mem y) v → ok v

theorem Scan.Safe.reads (h : S.Safe intern mem ok) (hS : S.Reads intern mem S') :
    S'.Safe intern mem ok :=
  fun seen r todo hr => h seen r todo (hS.trans hr)

theorem Scan.enter_of_seen (h : S.seen v = true) : S.enter intern mem v = S := by
  unfold Scan.enter
  split
  next => rfl
  next => rw [if_pos h]

theorem Scan.enter_of_new {rs : List Reading} (h : S.seen v = false)
    (hv : readings intern mem v = some rs) :
    S.enter intern mem v = ⟨Function.update S.seen v true, rs ++ S.todo⟩ := by
  simp only [Scan.enter, hv, h, Bool.false_eq_true, if_false]

theorem Scan.enter_of_leaf (hv : readings intern mem v = none) : S.enter intern mem v = S := by
  simp only [Scan.enter, hv]

end XSBEngine.Copying
