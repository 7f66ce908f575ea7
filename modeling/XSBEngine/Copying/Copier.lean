import XSBEngine.Heap.Cells

/-!
# Copying terms

The three functions of `XSB/emu/findall.c` that copy a term and leave marks in it that tell where
the copy is: `do_copy_term` (860–1120), `findall_copy_template_to_chunk` (503–688) and
`findall_copy_to_heap` (255–432). They differ in the tests for what has been copied, in where
words are dereferenced, and in where the copy is built.
-/

namespace XSBEngine.Copying

open Function Option XSBEngine.Heap

/-! ### The state -/

/-- `glstack.low`, `glstack.high` and the records of interned terms. -/
structure Glstack where
  low : Nat
  high : Nat
  isInternedRec : Cell → Bool

/-- `isinternstr`. -/
def Glstack.isinternstr (g : Glstack) : Cell → Bool
  | .list a => (a < g.low || g.high < a) && g.isInternedRec (.list a)
  | .cs a => (a < g.low || g.high < a) && g.isInternedRec (.cs a)
  | _ => false

/-- `on_glstack`. -/
def Glstack.onGlstack (g : Glstack) (p : Nat) : Bool := g.low ≤ p && p < g.high

/-- Where the next cells of the copy are taken from: `*h`, the number of the current chunk, and the
size of the copy so far. -/
structure Space where
  h : Nat
  chunk : Nat
  size : Nat
deriving DecidableEq

/-- The memory, the space for the copy, and the trail of `findall_trail`, the last entry first. -/
structure CopyState where
  mem : Nat → Cell
  space : Space
  trail : List (Nat × Cell)

/-- `*a = c`. -/
def CopyState.write (s : CopyState) (a : Nat) (c : Cell) : CopyState :=
  { s with mem := update s.mem a c }

@[simp] theorem CopyState.write_self (s : CopyState) (a : Nat) (c : Cell) :
    (s.write a c).mem a = c := update_self ..

theorem CopyState.write_of_ne (s : CopyState) (c : Cell) {a y : Nat} (h : y ≠ a) :
    (s.write a c).mem y = s.mem y := update_of_ne h _ _

@[simp] theorem CopyState.write_space (s : CopyState) (a : Nat) (c : Cell) :
    (s.write a c).space = s.space := rfl

@[simp] theorem CopyState.write_trail (s : CopyState) (a : Nat) (c : Cell) :
    (s.write a c).trail = s.trail := rfl

/-- `findall_untrail`. -/
def untrail : List (Nat × Cell) → (Nat → Cell) → Nat → Cell
  | [], mem => mem
  | (p, val) :: trail, mem => untrail trail (update mem p val)

/-! ### The copy -/

/-- What the functions differ in. -/
structure Copier where
  isinternstr : Cell → Bool
  /-- A pointer leads to cells of the copy. -/
  copied : Nat → Bool
  /-- A list is the mark on the head of a list that has been copied. -/
  leftover : (Nat → Cell) → Nat → Bool
  /-- The head of a list is such a mark. -/
  shared : Cell → Bool
  /-- How a word is dereferenced at the beginning of a call. -/
  enter : (Nat → Cell) → Cell → Option Cell
  /-- How the argument of a list or a structure is dereferenced before the call. -/
  argument : (Nat → Cell) → Cell → Option Cell
  attr : (Nat → Cell) → Cell → Option Cell
  /-- The cells for a list or an attributed variable. -/
  allocPair : Space → Nat × Space
  /-- The cells for a structure. -/
  allocStruct : Nat → Space → Nat × Space
  /-- The place of the box for a floating-point number, if it is boxed. -/
  box : Space → Option (Nat × Space)
  floatSize : Nat
  trails : Bool

/-- The mark left at `a`. -/
def Copier.mark (K : Copier) (s : CopyState) (a : Nat) (c : Cell) : CopyState :=
  { s.write a c with trail := if K.trails then (a, s.mem a) :: s.trail else s.trail }

@[simp] theorem Copier.mark_self (K : Copier) (s : CopyState) (a : Nat) (c : Cell) :
    (K.mark s a c).mem a = c := update_self ..

theorem Copier.mark_of_ne (K : Copier) (s : CopyState) (c : Cell) {a y : Nat} (h : y ≠ a) :
    (K.mark s a c).mem y = s.mem y := update_of_ne h _ _

@[simp] theorem Copier.mark_trail (K : Copier) (s : CopyState) (a : Nat) (c : Cell) :
    (K.mark s a c).trail = if K.trails then (a, s.mem a) :: s.trail else s.trail := rfl

/-- `FLOAT_HIGH_16_BITS`, with `ID_BOXED_FLOAT`. -/
def boxHigh (x : Float64) : Int :=
  (BitVec.ofInt 64 idBoxedFloat <<< 16 ||| (x >>> 48 &&& 0xffff)).toInt

/-- `FLOAT_MIDDLE_24_BITS`. -/
def boxMiddle (x : Float64) : Int := (x >>> 24 &&& 0xffffff).toInt

/-- `FLOAT_LOW_24_BITS`. -/
def boxLow (x : Float64) : Int := (x &&& 0xffffff).toInt

/-- The box that `bld_functor` and `bld_int` build. -/
def CopyState.writeBox (s : CopyState) (x : Float64) (d : Nat) : CopyState :=
  (((s.write d (.functor boxPsc)).write (d + 1) (.int (boxHigh x))).write (d + 2)
    (.int (boxMiddle x))).write (d + 3) (.int (boxLow x))

theorem CopyState.writeBox_of_notMem (s : CopyState) (x : Float64) {d y : Nat}
    (hy : ¬(d ≤ y ∧ y < d + 4)) : (s.writeBox x d).mem y = s.mem y := by
  unfold CopyState.writeBox
  rw [write_of_ne _ _ (by omega), write_of_ne _ _ (by omega), write_of_ne _ _ (by omega),
    write_of_ne _ _ (by omega)]

theorem CopyState.writeBox_cells (s : CopyState) (x : Float64) (d : Nat) :
    (s.writeBox x d).mem d = .functor boxPsc ∧
      (s.writeBox x d).mem (d + 1) = .int (boxHigh x) ∧
      (s.writeBox x d).mem (d + 2) = .int (boxMiddle x) ∧
      (s.writeBox x d).mem (d + 3) = .int (boxLow x) := by
  unfold CopyState.writeBox
  refine ⟨?_, ?_, ?_, write_self _ _ _⟩
  · rw [write_of_ne _ _ (by omega), write_of_ne _ _ (by omega), write_of_ne _ _ (by omega),
      write_self]
  · rw [write_of_ne _ _ (by omega), write_of_ne _ _ (by omega), write_self]
  · rw [write_of_ne _ _ (by omega), write_self]

/-- A floating-point number is copied. -/
def Copier.float (K : Copier) (x : Float64) (dest : Nat) (s : CopyState) : CopyState :=
  match K.box s.space with
  | some (d, space) => ({ s with space := space }.writeBox x d).write dest (.cs d)
  | none =>
    { s with space := { s.space with size := s.space.size + K.floatSize } }.write dest (.float x)

/-- The copy of the word `c` at `dest`, which is `to`. The bound is on the depth of the calls. The
order of the first two tests on a structure is another one in `findall_copy_to_heap`, which makes no
difference, since no record of an interned term begins with a mark. -/
def copyCell (K : Copier) : Nat → Cell → Nat → CopyState → Option CopyState
  | 0, _, _, _ => none
  | n + 1, c, dest, s =>
    match K.enter s.mem c with
    | none => none
    | some (.functor _) => none
    | some (.float x) => some (K.float x dest s)
    | some (.ref a) =>
      if K.copied a then some (s.write dest (.ref a))
      else some ((K.mark s a (.ref dest)).write dest (.ref dest))
    | some (.list a) =>
      let q := s.mem a
      if K.isinternstr (.list a) then some (s.write dest (.list a))
      else if K.leftover s.mem a then some (s.write dest q)
      else if K.shared q then some (s.write dest q)
      else
        let (d, space) := K.allocPair s.space
        let s := K.mark ({ s with space := space }.write dest (.list d)) a (.list d)
        let head :=
          if q = .ref a then some (s.write d (.ref d))
          else (K.argument s.mem q).bind fun c => copyCell K n c d s
        head.bind fun s => (K.argument s.mem (s.mem (a + 1))).bind fun c => copyCell K n c (d + 1) s
    | some (.cs a) =>
      if K.isinternstr (.cs a) then some (s.write dest (.cs a))
      else
        match s.mem a with
        | .cs d => some (s.write dest (.cs d))
        | .functor psc =>
          let (d, space) := K.allocStruct psc.arity s.space
          let s := { s with space := space }.write dest (.cs d)
          let s := K.mark (s.write d (.functor psc)) a (.cs d)
          (List.range psc.arity).foldlM (fun s j =>
            (K.argument s.mem (s.mem (a + 1 + j))).bind fun c => copyCell K n c (d + 1 + j) s) s
        | _ => none
    | some (.attv a) =>
      if K.copied a then some (s.write dest (.attv a))
      else
        (K.attr s.mem (s.mem (a + 1))).bind fun c =>
          let (d, space) := K.allocPair s.space
          let s := K.mark ({ s with space := space }.write dest (.attv d)) a (.attv d)
          copyCell K n c (d + 1) (s.write d (.ref d))
    | some c => some (s.write dest c)

/-! ### The functions -/

/-- `do_copy_term`. The copy is built at the top of the heap. -/
def doCopyTerm (g : Glstack) (hreg len : Nat) : Copier where
  isinternstr := g.isinternstr
  copied p := hreg ≤ p
  leftover _ p := hreg ≤ p
  shared
    | .list p => hreg ≤ p
    | _ => false
  enter _ c := some c
  argument mem c := deref mem len c
  attr mem c := deref mem len c
  allocPair sp := (sp.h, { sp with h := sp.h + 2 })
  allocStruct ar sp := (sp.h, { sp with h := sp.h + (ar + 1) })
  box _ := none
  floatSize := 0
  trails := true

/-- `MAX_ARITY`. -/
def maxArity : Nat := 65535

/-- `FINDALL_CHUNCK_SIZE`. -/
def findallChunckSize : Nat := 2 * maxArity

/-- `get_more_chunk`, for the addresses of the chunks. -/
def getMoreChunk (chunkAt : Nat → Nat) (sp : Space) : Space :=
  { sp with chunk := sp.chunk + 1, h := chunkAt (sp.chunk + 1) + 1 }

/-- Cells of a chunk, of a new one if `*h` is above the limit. -/
def chunkAlloc (chunkAt : Nat → Nat) (limit n : Nat) (sp : Space) : Nat × Space :=
  let sp := if limit < sp.h then getMoreChunk chunkAt sp else sp
  (sp.h, { sp with h := sp.h + n, size := sp.size + n })

/-- `findall_copy_template_to_chunk`. -/
def findallCopyTemplateToChunk (g : Glstack) (chunkAt : Nat → Nat) (len : Nat) : Copier where
  isinternstr := g.isinternstr
  copied p := !g.onGlstack p
  leftover mem p := !g.onGlstack p && !g.isinternstr (mem p)
  shared
    | .list p => !g.isinternstr (.list p) && !g.onGlstack p
    | _ => false
  enter _ c := some c
  argument mem c := deref mem len c
  attr mem c := deref mem len c
  allocPair sp := chunkAlloc chunkAt (chunkAt sp.chunk + findallChunckSize - 3) 2 sp
  allocStruct ar sp :=
    chunkAlloc chunkAt (chunkAt sp.chunk + findallChunckSize - 1 - ar) (ar + 1) sp
  box _ := none
  floatSize := 4
  trails := true

/-- `findall_copy_to_heap`. A word with another tag than a reference's or an attributed variable's
is not dereferenced; where an attributed variable leads to another word there is no result. -/
def findallCopyToHeap (g : Glstack) (len : Nat) : Copier where
  isinternstr := g.isinternstr
  copied p := g.onGlstack p
  leftover _ p := g.onGlstack p
  shared
    | .list p => g.onGlstack p
    | _ => false
  enter mem
    | .ref a => deref mem len (.ref a)
    | .attv a => (deref mem len (.attv a)).filter Cell.isattv
    | c => some c
  argument _ c := some c
  attr mem c := deref mem len c
  allocPair sp := (sp.h, { sp with h := sp.h + 2 })
  allocStruct ar sp := (sp.h, { sp with h := sp.h + (ar + 1) })
  box sp := some (sp.h, { sp with h := sp.h + 4 })
  floatSize := 4
  trails := false

/-! ### Larger bounds -/

theorem foldlM_le {α β : Type*} {f f' : β → α → Option β}
    (h : ∀ s j s', f s j = some s' → f' s j = some s') {l : List α} {s s' : β}
    (hs : l.foldlM f s = some s') : l.foldlM f' s = some s' := by
  induction l generalizing s with
  | nil => exact hs
  | cons j l ih =>
    rw [List.foldlM_cons] at hs ⊢
    obtain ⟨s1, h1, hs⟩ := bind_eq_some_iff.mp hs
    exact bind_eq_some_iff.mpr ⟨s1, h s j s1 h1, ih hs⟩

/-- The same copier with other bounds on chains of references. -/
def Copier.withDeref (K : Copier) (enter argument attr : (Nat → Cell) → Cell → Option Cell) :
    Copier :=
  { K with enter, argument, attr }

/-- What is copied does not depend on the bounds, if they suffice. -/
theorem copyCell_mono {K : Copier} (enter argument attr : (Nat → Cell) → Cell → Option Cell)
    (henter : ∀ mem c v, K.enter mem c = some v → enter mem c = some v)
    (hargument : ∀ mem c v, K.argument mem c = some v → argument mem c = some v)
    (hattr : ∀ mem c v, K.attr mem c = some v → attr mem c = some v) {n m : Nat} {c : Cell}
    {d : Nat} {s s' : CopyState} (h : copyCell K n c d s = some s') (hm : n ≤ m) :
    copyCell (K.withDeref enter argument attr) m c d s = some s' := by
  induction n generalizing c d s s' m with
  | zero => cases h
  | succ n ih =>
    obtain ⟨m, rfl⟩ := Nat.exists_eq_add_of_le' (Nat.one_le_of_lt hm)
    have hle : n ≤ m := Nat.le_of_succ_le_succ hm
    -- an argument that is dereferenced and copied
    have harg : ∀ {s s' : CopyState} {c : Cell} {d : Nat},
        ((K.argument s.mem c).bind fun c => copyCell K n c d s) = some s' →
        ((argument s.mem c).bind fun c =>
          copyCell (K.withDeref enter argument attr) m c d s) = some s' := by
      intro s s' c d h
      obtain ⟨v, hv, h⟩ := bind_eq_some_iff.mp h
      exact bind_eq_some_iff.mpr ⟨v, hargument _ _ _ hv, ih h hle⟩
    rw [copyCell] at h ⊢
    cases hv : K.enter s.mem c with
    | none =>
      rw [hv] at h
      cases h
    | some v =>
      have hv' : (K.withDeref enter argument attr).enter s.mem c = some v := henter _ _ _ hv
      rw [hv] at h
      rw [hv']
      cases v with
      | list a =>
        simp only at h ⊢
        split at h
        next hint =>
          exact (if_pos hint).trans h
        next hint =>
          refine (if_neg hint).trans ?_
          split at h
          next hleft =>
            exact (if_pos hleft).trans h
          next hleft =>
            refine (if_neg hleft).trans ?_
            split at h
            next hshared =>
              exact (if_pos hshared).trans h
            next hshared =>
              refine (if_neg hshared).trans ?_
              obtain ⟨s1, h1, h⟩ := bind_eq_some_iff.mp h
              refine bind_eq_some_iff.mpr ⟨s1, ?_, harg h⟩
              split at h1
              next hq =>
                exact (if_pos hq).trans h1
              next hq =>
                refine (if_neg hq).trans ?_
                exact harg h1
      | cs a =>
        simp only at h ⊢
        split at h
        next hint =>
          exact (if_pos hint).trans h
        next hint =>
          refine (if_neg hint).trans ?_
          cases hm : s.mem a with
          | functor psc =>
            simp only [hm] at h ⊢
            exact foldlM_le (fun s j s' hs => harg hs) h
          | _ =>
            simp only [hm] at h ⊢
            exact h
      | attv a =>
        simp only at h ⊢
        split at h
        next hc =>
          exact (if_pos hc).trans h
        next hc =>
          refine (if_neg hc).trans ?_
          obtain ⟨v, hv, h⟩ := bind_eq_some_iff.mp h
          exact bind_eq_some_iff.mpr ⟨v, hattr _ _ _ hv, ih h hle⟩
      | _ => exact h

end XSBEngine.Copying
