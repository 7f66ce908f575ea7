import XSBEngine.Library.Tuple
import XSBEngine.Interning.Reclaim

/-!
# Interning of terms

`intern_term_size`, `get_big_arity_index`, `is_interned_rec`, `intern_rec` and `intern_term`,
`XSB/emu/struct_intern.c:69–181, 250–423`, over cells of the heap and records.
-/

namespace XSBEngine.Interning

open Function Library PrefixTerms

/-! ### Cells -/

/-- Where the fields of a compound term are: on the heap, or in an interned record of an area. -/
inductive Place where
  | heap (a : Nat)
  | record (area : Nat) (r : RecPtr)
deriving Repr, DecidableEq

/-- `XSB_LIST` and `XSB_STRUCT`. -/
inductive StrTag where
  | list
  | struct
deriving Repr, DecidableEq

/-- Tagged cells: references and attributed variables are to cells of the heap, constants are
integers, atoms and floats. The first cell of a structure points to its PSC record. -/
inductive Cell where
  | ref (a : Nat)
  | attv (a : Nat)
  | const (val : Nat)
  | str (tag : StrTag) (p : Place)
  | functor (psc : Nat)
deriving Repr, DecidableEq

/-- The machine words of cells, and what PSC records tell. -/
structure Words where
  word : Cell → Nat
  word_inj : Injective word
  psc : Nat → Nat
  psc_word : ∀ p, psc (word (.functor p)) = p
  arity : Nat → Nat

/-- What is at the root of a nonvariable term. -/
inductive Root where
  | const (val : Nat)
  | list
  | struct (psc : Nat)
deriving Repr, DecidableEq

def Root.tag : Root → StrTag
  | .list => .list
  | _ => .struct

/-- The index of the first argument in a record: a list has no PSC record. -/
def Root.first : Root → Nat
  | .struct _ => 1
  | _ => 0

/-- The length of a record. -/
def Words.reclen (w : Words) : Root → Nat
  | .const _ => 0
  | .list => 2
  | .struct psc => w.arity psc + 1

/-- The cells of a record. -/
def Root.recCells (f : Root) (args : List Cell) : List Cell :=
  match f with
  | .struct psc => .functor psc :: args
  | _ => args

/-- The root of the compound term at an address. -/
def header (heap : Nat → Cell) (tag : StrTag) (a : Nat) : Option Root :=
  match tag with
  | .list => some .list
  | .struct =>
    match heap a with
    | .functor psc => some (.struct psc)
    | _ => none

/-- The arguments of the compound term at an address. -/
def Words.args (w : Words) (heap : Nat → Cell) (f : Root) (a : Nat) : List Cell :=
  (List.range' f.first (w.reclen f - f.first)).map fun i => heap (a + i)

/-- `XSB_Deref`. The bound is on the length of the reference chain. -/
def deref (heap : Nat → Cell) : Nat → Cell → Option Cell
  | 0, _ => none
  | n + 1, .ref a => if heap a = .ref a then some (.ref a) else deref heap n (heap a)
  | n + 1, .attv a => if heap a = .ref a then some (.attv a) else deref heap n (heap a)
  | _ + 1, .functor _ => none
  | _ + 1, c => some c

/-! ### Areas -/

/-- `LIST_INDEX`. -/
def listIndex : Nat := 256

/-- `BIG_ARITY_INDEX_BASE`. -/
def bigArityIndexBase : Nat := 257

/-- `MAX_INTERN_BIG_ARITIES`. -/
def maxInternBigArities : Nat := 140

/-- The areas `hc_block` and the arities above 256 of the last of them, `big_arities`. -/
structure Interns where
  hcBlock : Nat → HcBlockRec
  bigArities : Nat → Nat

namespace Interns

/-- The loop of `get_big_arity_index`: the slot of an arity, which takes the first empty one. -/
def findSlot (s : Interns) (bigArity : Nat) : Nat → Nat → Option (Nat × Interns)
  | _, 0 => none
  | i, k + 1 =>
    if s.bigArities i = 0 then
      some (i, { s with bigArities := update s.bigArities i bigArity })
    else if s.bigArities i = bigArity then some (i, s)
    else s.findSlot bigArity (i + 1) k

/-- `get_big_arity_index`. -/
def getBigArityIndex (s : Interns) (bigArity : Nat) : Except String (Nat × Interns) :=
  if bigArity < bigArityIndexBase then .error "Internal error: Should be big arity!"
  else
    match s.findSlot bigArity 0 maxInternBigArities with
    | some (i, s) => .ok (i + bigArityIndexBase, s)
    | none => .error "[intern_term] Too many big arity functors\n"

/-- The area where `intern_rec` puts a record. -/
def areaIndex (w : Words) (s : Interns) : Root → Except String (Nat × Interns)
  | .struct psc =>
    if 255 < w.arity psc then s.getBigArityIndex (w.arity psc) else .ok (w.arity psc, s)
  | _ => .ok (listIndex, s)

/-- The area where `is_interned_rec` looks for a structure. An arity without an index would get
one, but no record has such an arity. -/
def readerIndex (s : Interns) (arity : Nat) : Option Nat :=
  if 256 < arity then
    match s.findSlot arity 0 maxInternBigArities with
    | some (i, _) => if s.bigArities i = arity then some (i + bigArityIndexBase) else none
    | none => none
  else some arity

/-- The loop of `is_interned_rec`, which compares addresses. -/
def areaHas (s : Interns) (index area : Nat) (r : RecPtr) : Option Bool :=
  if index = area then (s.hcBlock area).isInternedRec r else some false

/-- `isinternstr`: `is_interned_rec` for what is not on the heap. -/
def isinternstr (w : Words) (s : Interns) : Cell → Option Bool
  | .str .list (.record area r) => s.areaHas listIndex area r
  | .str .struct (.record area r) => do
    let psc := w.psc ((((s.hcBlock area).termRec r).getD []).headD 0)
    let index ← s.readerIndex (w.arity psc)
    s.areaHas index area r
  | _ => some false

end Interns

/-- The test of `intern_rec` on a field of a record: it is a constant or interned. -/
def recArg (w : Words) (n : Nat) (s : Interns) (heap : Nat → Cell) (c : Cell) : Option Cell := do
  match ← deref heap n c with
  | .const val => some (.const val)
  | .str tag p => if ← s.isinternstr w (.str tag p) then some (.str tag p) else none
  | _ => none

/-- `intern_rec` for a compound term on the heap. -/
def internRec (w : Words) (n : Nat) (s : Interns) (heap : Nat → Cell) (tag : StrTag) (a : Nat) :
    Option (Except String (Cell × Interns)) := do
  let f ← header heap tag a
  match s.areaIndex w f with
  | .error msg => some (.error msg)
  | .ok (area, s) =>
    let args ← (w.args heap f a).mapM (recArg w n s heap)
    let (h, r) ← (s.hcBlock area).insertInternedRec ((f.recCells args).map w.word)
    some (.ok (.str tag (.record area r), { s with hcBlock := update s.hcBlock area h }))

/-! ### The loop of `intern_term` -/

/-- `term_subterm`: a term on the heap, its copy, the subterm to process next, and whether none of
those before it has a variable. -/
structure Frame where
  tag : StrTag
  term : Nat
  newterm : Nat
  subtermIndex : Nat
  ground : Bool
deriving Repr, DecidableEq

/-- The heap up to `hreg`, the records, and the stack `ts_array` with its top first. -/
structure InternState where
  heap : Nat → Cell
  hreg : Nat
  interns : Interns
  frames : List Frame

/-- The loop goes on, or returns a term. -/
inductive Outcome where
  | running (m : InternState)
  | done (c : Cell) (m : InternState)

namespace InternState

/-- `new_heap_functor`, if the root has a PSC record. -/
def newHeapFunctor (heap : Nat → Cell) (hreg : Nat) : Root → Nat → Cell
  | .struct psc => update heap hreg (.functor psc)
  | _ => heap

/-- A new frame, with room for the copy. -/
def push (w : Words) (m : InternState) (tag : StrTag) (a : Nat) : Option InternState := do
  let f ← header m.heap tag a
  some { m with
    heap := newHeapFunctor m.heap m.hreg f
    hreg := m.hreg + w.reclen f
    frames := ⟨tag, a, m.hreg, f.first, true⟩ :: m.frames }

/-- The value of a frame goes to the frame below it, or is the result. -/
def leave (m : InternState) (c : Cell) (ground : Bool) : List Frame → Outcome
  | [] => .done c { m with frames := [] }
  | parent :: rest => .running { m with
      heap := update m.heap (parent.newterm + (parent.subtermIndex - 1)) c
      frames := { parent with ground := parent.ground && ground } :: rest }

/-- A subterm that needs no frame is copied. -/
def copyArg (m : InternState) (fr : Frame) (rest : List Frame) (c : Cell) (ground : Bool) :
    InternState :=
  { m with
    heap := update m.heap (fr.newterm + fr.subtermIndex) c
    frames := { fr with subtermIndex := fr.subtermIndex + 1, ground := fr.ground && ground } ::
      rest }

/-- The body of the loop for a subterm that is dereferenced. -/
def stepArg (w : Words) (m : InternState) (fr : Frame) (rest : List Frame) :
    Cell → Option InternState
  | .ref a => some (m.copyArg fr rest (.ref a) false)
  | .attv a => some (m.copyArg fr rest (.attv a) false)
  | .const val => some (m.copyArg fr rest (.const val) true)
  | .str tag p => do
    if ← m.interns.isinternstr w (.str tag p) then some (m.copyArg fr rest (.str tag p) true)
    else
      match p with
      | .heap a =>
        let fr := { fr with subtermIndex := fr.subtermIndex + 1 }
        InternState.push w { m with frames := fr :: rest } tag a
      | .record _ _ => none
  | .functor _ => none

/-- The body of the loop. -/
def step (w : Words) (n : Nat) (m : InternState) : Option (Except String Outcome) :=
  match m.frames with
  | [] => none
  | fr :: rest => do
    let f ← header m.heap fr.tag fr.term
    if w.reclen f ≤ fr.subtermIndex then
      if fr.ground then
        match ← internRec w n m.interns m.heap fr.tag fr.newterm with
        | .error msg => some (.error msg)
        | .ok (c, interns) =>
          -- the cells of the copy are given back
          let m := { m with interns := interns, hreg := fr.newterm }
          some (.ok (m.leave c true rest))
      else some (.ok (m.leave (.str fr.tag (.heap fr.newterm)) false rest))
    else do
      let arg ← deref m.heap n (m.heap (fr.term + fr.subtermIndex))
      let m ← m.stepArg w fr rest arg
      some (.ok (.running m))

/-- The loop. -/
def run (w : Words) (n : Nat) : Nat → InternState → Option (Except String (Cell × InternState))
  | 0, _ => none
  | fuel + 1, m =>
    match m.step w n with
    | none => none
    | some (.error msg) => some (.error msg)
    | some (.ok (.done c m)) => some (.ok (c, m))
    | some (.ok (.running m)) => run w n fuel m

/-- The state that the loop is in after a number of rounds. -/
def after (w : Words) (n : Nat) : Nat → InternState → Option InternState
  | 0, m => some m
  | k + 1, m =>
    match m.step w n with
    | some (.ok (.running m)) => after w n k m
    | _ => none

end InternState

/-- The start of `intern_term` for a term that is not cyclic: it is returned at once, or the loop
is entered. -/
def startIntern (w : Words) (n : Nat) (m : InternState) (term : Cell) : Option Outcome := do
  match ← deref m.heap n term with
  | .str tag p =>
    if ← m.interns.isinternstr w (.str tag p) then some (.done (.str tag p) m)
    else
      match p with
      | .heap a => (InternState.push w { m with frames := [] } tag a).map .running
      | .record _ _ => none
  | c => some (.done c m)

/-- `intern_term`. -/
def internTerm (w : Words) (n fuel : Nat) (m : InternState) (term : Cell) :
    Option (Except String (Cell × InternState)) := do
  match ← startIntern w n m term with
  | .done c m => some (.ok (c, m))
  | .running m => m.run w n fuel

/-- `intern_term_size`. The cell after the PSC record is read even if the arity is zero. -/
def internTermSize (w : Words) (n : Nat) (s : Interns) (heap : Nat → Cell) :
    Nat → Cell → Option Nat
  | 0, _ => none
  | d + 1, .str tag p => do
    if ← s.isinternstr w (.str tag p) then some 0
    else
      match p with
      | .record _ _ => none
      | .heap a => do
        let f ← header heap tag a
        let sizes ← (List.range' f.first (max (w.reclen f) (f.first + 1) - f.first)).mapM fun i =>
          (deref heap n (heap (a + i))).bind (internTermSize w n s heap d)
        some (w.reclen f + sizes.sum)
  | _ + 1, _ => some 0

end XSBEngine.Interning
