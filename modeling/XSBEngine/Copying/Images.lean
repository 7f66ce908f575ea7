import Mathlib
import XSBEngine.Copying.Copier

/-!
# The images of what is copied

While terms are copied, `ρ` tells for the variables, the lists and the structures that have been
copied where the copies are. The marks in the source agree with it, and each call leaves the image
of its word at its destination.
-/

namespace XSBEngine.Copying

open Function XSBEngine.Heap

/-! ### Dereferencing -/

variable {mem mem' : Nat → Cell} {n m a d : Nat} {c v w : Cell}

/-- A free variable or an attributed variable. -/
def isVar (c : Cell) : Bool := c.isref || c.isattv

/-- The cells of a list, a structure or an attributed variable. -/
def blockSize (mem : Nat → Cell) : Cell → Nat
  | .list _ => 2
  | .attv _ => 2
  | .cs a =>
    match mem a with
    | .functor psc => psc.arity + 1
    | _ => 0
  | _ => 0

/-- A word dereferences to another one. -/
def EndsAt (mem : Nat → Cell) (c v : Cell) : Prop := ∃ n, deref mem n c = some v

theorem deref_mono (h : deref mem n c = some v) (hm : n ≤ m) : deref mem m c = some v := by
  induction n generalizing c m with
  | zero => cases h
  | succ n ih =>
    obtain ⟨m, rfl⟩ := Nat.exists_eq_add_of_le' (Nat.one_le_of_lt hm)
    have hle : n ≤ m := Nat.le_of_succ_le_succ hm
    cases c with
    | ref a | attv a =>
      by_cases ha : mem a = .ref a
      · rw [deref, if_pos ha] at h ⊢
        exact h
      · rw [deref, if_neg ha] at h ⊢
        exact ih h hle
    | int i | float x | string x | list a | cs a | functor p => exact h

theorem EndsAt.unique (h : EndsAt mem c v) (h' : EndsAt mem c w) : v = w := by
  obtain ⟨n, h⟩ := h
  obtain ⟨m, h'⟩ := h'
  have hv := deref_mono h (Nat.le_add_right n m)
  have hw := deref_mono h' (Nat.le_add_left m n)
  exact Option.some.inj (hv.symm.trans hw)

theorem deref_other (h : isVar c = false) (n : Nat) : deref mem (n + 1) c = some c := by
  cases c with
  | ref a | attv a => cases h
  | int i | float x | string x | list a | cs a | functor p => rfl

/-- A variable that a word leads to is free. -/
theorem deref_free (h : deref mem n c = some v) (ha : v = .ref a ∨ v = .attv a) :
    mem a = .ref a := by
  induction n generalizing c with
  | zero => cases h
  | succ n ih =>
    cases c with
    | ref b =>
      by_cases hb : mem b = .ref b
      · rw [deref, if_pos hb] at h
        cases h
        rcases ha with ha | ha
        · cases ha
          exact hb
        · cases ha
      · rw [deref, if_neg hb] at h
        exact ih h
    | attv b =>
      by_cases hb : mem b = .ref b
      · rw [deref, if_pos hb] at h
        cases h
        rcases ha with ha | ha
        · cases ha
        · cases ha
          exact hb
      · rw [deref, if_neg hb] at h
        exact ih h
    | _ =>
      cases h
      rcases ha with ha | ha <;> cases ha

/-! ### The setting -/

/-- A copier, the memory and the words that it copies, the blocks among them, the cells that the
copy has taken, and their number. -/
structure Setup where
  K : Copier
  src : Nat → Cell
  old : Finset Nat
  words : Set Cell
  blocks : Finset Cell
  len : Nat
  maxAr : Nat
  /-- The destination of the first call. -/
  top : Nat
  /-- What holds of the space whenever cells are taken. -/
  Good : Space → Prop
  Owned : Space → Nat → Prop
  used : Space → Nat
  limit : Nat
  boxed : Bool
  /-- What the head of a list may be if it is read again. -/
  AliasOk : Cell → Prop

namespace Setup

variable (σ : Setup)

/-- What `v` adds to the size of the copy where it is an argument. -/
def cost : Cell → Nat
  | .float _ => σ.K.floatSize
  | _ => 0

def cellCost (x : Nat) : Nat :=
  match deref σ.src σ.len (σ.src x) with
  | some v => σ.cost v
  | none => 0

/-- What a block adds to the size of the copy. -/
def weight : Cell → Nat
  | .list a => 2 + (σ.cellCost a + σ.cellCost (a + 1))
  | .attv a => 2 + σ.cellCost (a + 1)
  | .cs a =>
    match σ.src a with
    | .functor psc => psc.arity + 1 + ∑ j ∈ Finset.range psc.arity, σ.cellCost (a + 1 + j)
    | _ => 0
  | _ => 0

/-- New cells. -/
structure Alloc (n : Nat) (sp : Space) (d : Nat) (sp' : Space) : Prop where
  fresh : ∀ j < n, ¬σ.Owned sp (d + j) ∧ d + j ≠ σ.top
  owned : ∀ y, σ.Owned sp y ∨ d ≤ y ∧ y < d + n → σ.Owned sp' y
  top : σ.Owned sp' σ.top → σ.Owned sp σ.top
  used : σ.used sp' = σ.used sp + n
  good : σ.Good sp'

/-- The tests of the copier tell the copy from what is copied. -/
structure Sound : Prop where
  not_old : ∀ sp y, σ.Owned sp y → y ∉ σ.old
  top_old : σ.top ∉ σ.old
  copied_old : ∀ a ∈ σ.old, σ.K.copied a = false
  copied_new : ∀ sp y, σ.Owned sp y → σ.K.copied y = true
  intern_new : ∀ sp y, σ.Owned sp y →
    σ.K.isinternstr (.list y) = false ∧ σ.K.isinternstr (.cs y) = false
  leftover_old : ∀ mem, ∀ a ∈ σ.old, σ.K.leftover mem a = false
  leftover_new : ∀ sp mem d v, σ.Owned sp d → σ.AliasOk v →
    (mem d = v ∨ isVar (mem d) = true ∨ ∃ y, σ.Owned sp y ∧ (mem d = .list y ∨ mem d = .cs y)) →
    σ.K.leftover mem d = true
  aliasOk_cost : ∀ v, σ.AliasOk v → σ.cost v = 0 ∧ (σ.boxed = true → v.isfloat = false)
  shared_new : ∀ sp y, σ.Owned sp y → σ.K.shared (.list y) = true
  shared_other : ∀ q : Cell, q.islist = false → σ.K.shared q = false
  enter_argument : ∀ mem c v, deref mem σ.len c = some v →
    (c.isattv = true → v.isattv = true ∨ ∃ a, .attv a ∈ σ.words ∧ σ.src a ≠ .ref a) →
    ∃ c', σ.K.argument mem c = some c' ∧ σ.K.enter mem c' = some v
  enter_end : ∀ mem v, (∀ a, v = .ref a ∨ v = .attv a → mem a = .ref a) → σ.K.enter mem v = some v
  attr : ∀ mem c v, deref mem σ.len c = some v → σ.K.attr mem c = some v
  allocPair : ∀ sp, σ.Good sp → σ.used sp + 2 ≤ σ.limit →
    σ.Alloc 2 sp (σ.K.allocPair sp).1 (σ.K.allocPair sp).2
  allocStruct : ∀ sp ar, σ.Good sp → ar ≤ σ.maxAr → σ.used sp + (ar + 1) ≤ σ.limit →
    σ.Alloc (ar + 1) sp (σ.K.allocStruct ar sp).1 (σ.K.allocStruct ar sp).2
  box : σ.boxed = true → σ.K.floatSize = 4 ∧ ∀ sp, σ.Good sp → σ.used sp + 4 ≤ σ.limit →
    ∃ d sp', σ.K.box sp = some (d, sp') ∧ σ.Alloc 4 sp d sp'
  noBox : σ.boxed = false → ∀ sp : Space, σ.K.box sp = none ∧
    (σ.Good sp → σ.Good { sp with size := sp.size + σ.K.floatSize }) ∧
    σ.used { sp with size := sp.size + σ.K.floatSize } = σ.used sp + σ.K.floatSize ∧
    ∀ y, σ.Owned { sp with size := sp.size + σ.K.floatSize } y ↔ σ.Owned sp y

/-- The words to be copied are closed under what they lead to, by chains of a bounded length. -/
structure Graph : Prop where
  ref : ∀ a, .ref a ∈ σ.words → a ∈ σ.old ∧ (σ.src a ≠ .ref a → σ.src a ∈ σ.words)
  attv : ∀ a, .attv a ∈ σ.words → a ∈ σ.old ∧ (σ.src a ≠ .ref a → σ.src a ∈ σ.words)
  free : ∀ a, .attv a ∈ σ.words → σ.src a = .ref a → a + 1 ∈ σ.old ∧ σ.src (a + 1) ∈ σ.words ∧
    .attv a ∈ σ.blocks ∧ ¬EndsAt σ.src (σ.src (a + 1)) (.attv a)
  list : ∀ a, .list a ∈ σ.words → σ.K.isinternstr (.list a) = false →
    (a ∈ σ.old ∧ a + 1 ∈ σ.old) ∧ (σ.src a ∈ σ.words ∧ σ.src (a + 1) ∈ σ.words) ∧
      .list a ∈ σ.blocks ∧ σ.K.shared (σ.src a) = false
  cs : ∀ a, .cs a ∈ σ.words → σ.K.isinternstr (.cs a) = false →
    a ∈ σ.old ∧ .cs a ∈ σ.blocks ∧ ∃ psc, σ.src a = .functor psc ∧ psc.arity ≤ σ.maxAr ∧
      ∀ j < psc.arity, a + 1 + j ∈ σ.old ∧ σ.src (a + 1 + j) ∈ σ.words
  functor : ∀ psc, .functor psc ∉ σ.words
  ends : ∀ c ∈ σ.words, ∃ v, deref σ.src (σ.len - 1) c = some v
  separate : ∀ a, .ref a ∈ σ.words → .attv a ∈ σ.words → σ.src a ≠ .ref a
  blocks : ∀ a, .ref a ∉ σ.blocks

/-! ### Images -/

/-- A word that is copied as it is. -/
def leaf : Cell → Bool
  | .int _ => true
  | .float _ => true
  | .string _ => true
  | .list a => σ.K.isinternstr (.list a)
  | .cs a => σ.K.isinternstr (.cs a)
  | _ => false

/-- The image of a dereferenced word that is not boxed. -/
def Plain (ρ : Cell → Option Cell) (v w : Cell) : Prop :=
  if σ.leaf v = true then w = v else ρ v = some w

/-- The box of a floating-point number. -/
structure Box (mem : Nat → Cell) (P : Nat → Prop) (x : Float64) (d : Nat) : Prop where
  cells : ∀ j < 4, P (d + j)
  functor : mem d = .functor boxPsc
  high : mem (d + 1) = .int (boxHigh x)
  middle : mem (d + 2) = .int (boxMiddle x)
  low : mem (d + 3) = .int (boxLow x)

/-- `v` has a box in the copy. -/
def Boxes (v : Cell) : Prop := σ.boxed = true ∧ v.isfloat = true

/-- `w` is the image of `v`. The cells of boxes are in `P`. -/
inductive Image (mem : Nat → Cell) (ρ : Cell → Option Cell) (P : Nat → Prop) : Cell → Cell → Prop
  | plain {v w : Cell} : ¬σ.Boxes v → σ.Plain ρ v w → Image mem ρ P v w
  | box {x : Float64} {d : Nat} : σ.boxed = true → Box mem P x d →
      Image mem ρ P (.float x) (.cs d)

/-- The cell `y` has the image of the word of the cell `x`. -/
def CellDone (mem : Nat → Cell) (ρ : Cell → Option Cell) (P : Nat → Prop) (x y : Nat) : Prop :=
  ∃ v, EndsAt σ.src (σ.src x) v ∧ σ.Image mem ρ P v (mem y)

/-- A block has been copied, to cells in `P`. -/
inductive BlockDone (mem : Nat → Cell) (ρ : Cell → Option Cell) (P : Nat → Prop) :
    Cell → Cell → Prop
  | ref {a d : Nat} : BlockDone mem ρ P (.ref a) (.ref d)
  | list {a d : Nat} : P d → P (d + 1) → σ.CellDone mem ρ P a d →
      σ.CellDone mem ρ P (a + 1) (d + 1) → BlockDone mem ρ P (.list a) (.list d)
  | cs {a d : Nat} {psc : Psc} : σ.src a = .functor psc → mem d = .functor psc →
      (∀ j < psc.arity + 1, P (d + j)) →
      (∀ j < psc.arity, σ.CellDone mem ρ P (a + 1 + j) (d + 1 + j)) →
      BlockDone mem ρ P (.cs a) (.cs d)
  | attv {a d : Nat} : P d → P (d + 1) → σ.CellDone mem ρ P (a + 1) (d + 1) →
      BlockDone mem ρ P (.attv a) (.attv d)

/-! ### The invariant -/

/-- The state of a cell that is copied: it is as before, or has the mark of a structure, of the
head of a list, of a free variable or of an attributed variable. -/
inductive CellState (mem : Nat → Cell) (ρ : Cell → Option Cell) (a : Nat) : Prop
  | kept : mem a = σ.src a → ρ (.list a) = none → ρ (.cs a) = none →
      (σ.src a = .ref a → ρ (.ref a) = none ∧ ρ (.attv a) = none) → CellState mem ρ a
  | str {psc : Psc} {d : Nat} : σ.src a = .functor psc → mem a = .cs d →
      ρ (.cs a) = some (.cs d) → ρ (.list a) = none → CellState mem ρ a
  | head {d : Nat} : mem a = .list d → ρ (.list a) = some (.list d) → ρ (.cs a) = none →
      (σ.src a = .ref a → ρ (.attv a) = none) → CellState mem ρ a
  | var {d : Nat} : σ.src a = .ref a → mem a = .ref d → ρ (.ref a) = some (.ref d) →
      ρ (.list a) = none → ρ (.cs a) = none → ρ (.attv a) = none → CellState mem ρ a
  | attv {d : Nat} : σ.src a = .ref a → mem a = .attv d → ρ (.attv a) = some (.attv d) →
      ρ (.list a) = none → ρ (.cs a) = none → CellState mem ρ a

/-- What is recorded for a word that has been copied. -/
inductive Pair (s : CopyState) : Cell → Cell → Prop
  | ref {a d : Nat} : .ref a ∈ σ.words → σ.src a = .ref a → d = σ.top ∨ σ.Owned s.space d →
      σ.K.copied d = true → s.mem d = .ref d → Pair s (.ref a) (.ref d)
  | attv {a d : Nat} : .attv a ∈ σ.words → σ.src a = .ref a → σ.Owned s.space d →
      s.mem d = .ref d → Pair s (.attv a) (.attv d)
  | list {a d : Nat} : .list a ∈ σ.words → σ.K.isinternstr (.list a) = false →
      σ.Owned s.space d → Pair s (.list a) (.list d)
  | cs {a d : Nat} : .cs a ∈ σ.words → σ.K.isinternstr (.cs a) = false →
      σ.Owned s.space d → Pair s (.cs a) (.cs d)

/-- The address of a word that is a pointer. -/
def addr : Cell → Nat
  | .ref a => a
  | .attv a => a
  | .list a => a
  | .cs a => a
  | _ => 0

/-- The marks agree with `ρ`. The head of the list at `e`, if it is given, is still to be copied. -/
structure Inv (s : CopyState) (ρ : Cell → Option Cell) (e : Option Nat) : Prop where
  cells : ∀ a ∈ σ.old, σ.CellState s.mem ρ a
  pairs : ∀ v w, ρ v = some w → σ.Pair s v w
  heads : ∀ x d v, ρ (.list x) = some (.list d) → e ≠ some x → EndsAt σ.src (σ.src x) v →
    ¬σ.Boxes v → σ.Plain ρ v (s.mem d)
  inj : ∀ v v' w w', ρ v = some w → ρ v' = some w' → isVar v = true → isVar v' = true →
    addr w = addr w' → v = v'
  apart : ∀ v w, ρ v = some w → ∀ y, addr w ≤ y → y < addr w + blockSize σ.src v →
    σ.Owned s.space y ∧ ∀ v' w', ρ v' = some w' → addr w' ≤ y →
      y < addr w' + blockSize σ.src v' → v' = v
  undo : σ.K.trails = true → ∀ a ∈ σ.old, untrail s.trail s.mem a = σ.src a
  trail : ∀ p ∈ s.trail, p.1 ∈ σ.old
  good : σ.Good s.space

/-- The destination of a call for a word that dereferences to `v`. -/
structure Dest (s : CopyState) (ρ : Cell → Option Cell) (e : Option Nat) (dest : Nat) (v : Cell) :
    Prop where
  owned : dest = σ.top ∨ σ.Owned s.space dest
  copied : v.isref = true → σ.K.copied dest = true
  clear : ∀ u w, ρ u = some w → addr w = dest → ∃ x, u = .list x ∧ e = some x
  head : ∀ x, e = some x → ρ (.list x) = some (.list dest) ∧ EndsAt σ.src (σ.src x) v

/-- A word that stands for `v` where marks may have been met: `v` itself, the image of a variable,
or the mark on the head of a list. -/
inductive Stands (mem : Nat → Cell) (ρ : Cell → Option Cell) (e : Option Nat) (v : Cell) :
    Cell → Prop
  | same : (isVar v = true → ρ v = none ∧ mem (addr v) = .ref (addr v)) → Stands mem ρ e v v
  | image {w : Cell} : isVar v = true → ρ v = some w → Stands mem ρ e v w
  | head {x d : Nat} : ρ (.list x) = some (.list d) → e ≠ some x → EndsAt σ.src (σ.src x) v →
      σ.AliasOk v → Stands mem ρ e v (.list d)

/-- The weight of what has not been copied. -/
def rest (ρ : Cell → Option Cell) : Nat := ∑ v ∈ σ.blocks with ρ v = none, σ.weight v

/-- The cells that have been taken between two states. -/
def Fresh (s s' : CopyState) (y : Nat) : Prop := σ.Owned s'.space y ∧ ¬σ.Owned s.space y

/-- What copying words of a certain cost to the cells `T` does. -/
structure Step (s : CopyState) (ρ : Cell → Option Cell) (T : Set Nat) (cost : Nat)
    (s' : CopyState) (ρ' : Cell → Option Cell) : Prop where
  grow : ∀ v w, ρ v = some w → ρ' v = some w
  owned : ∀ y, σ.Owned s.space y → σ.Owned s'.space y
  frame : ∀ y, y ∉ σ.old → y ∉ T → ¬σ.Fresh s s' y → s'.mem y = s.mem y
  fresh : ∀ v w, ρ' v = some w → ρ v = none → addr w ∈ T ∨ σ.Fresh s s' (addr w)
  done : ∀ v w, ρ' v = some w → ρ v = none → σ.BlockDone s'.mem ρ' (σ.Fresh s s') v w
  sum : σ.used s'.space + σ.rest ρ' = σ.used s.space + σ.rest ρ + cost
  top : ¬σ.Fresh s s' σ.top

variable {σ : Setup} {ρ ρ' ρ1 ρ2 : Cell → Option Cell} {P P' : Nat → Prop}
  {s s' s₁ s2 : CopyState} {T T' : Set Nat} {k k' x y dest : Nat} {e : Option Nat}

/-! ### Images and steps -/

theorem Plain.mono (hgrow : ∀ v w, ρ v = some w → ρ' v = some w) (h : σ.Plain ρ v w) :
    σ.Plain ρ' v w := by
  unfold Plain at h ⊢
  split
  next hl =>
    rw [if_pos hl] at h
    exact h
  next hl =>
    rw [if_neg hl] at h
    exact hgrow v w h

theorem Box.mono {x : Float64} (hmem : ∀ y, P y → P' y ∧ mem' y = mem y) (h : Box mem P x d) :
    Box mem' P' x d where
  cells j hj := (hmem _ (h.cells j hj)).1
  functor := by
    rw [(hmem d (h.cells 0 (by omega))).2]
    exact h.functor
  high := by
    rw [(hmem _ (h.cells 1 (by omega))).2]
    exact h.high
  middle := by
    rw [(hmem _ (h.cells 2 (by omega))).2]
    exact h.middle
  low := by
    rw [(hmem _ (h.cells 3 (by omega))).2]
    exact h.low

section

variable (hgrow : ∀ v w, ρ v = some w → ρ' v = some w)
include hgrow

section

variable (hmem : ∀ y, P y → P' y ∧ mem' y = mem y)
include hmem

theorem Image.mono (h : σ.Image mem ρ P v w) :
    σ.Image mem' ρ' P' v w := by
  cases h with
  | plain hb h => exact .plain hb (h.mono hgrow)
  | box hb h => exact .box hb (h.mono hmem)

theorem CellDone.mono (hy : mem' y = mem y)
    (h : σ.CellDone mem ρ P x y) : σ.CellDone mem' ρ' P' x y := by
  obtain ⟨v, hv, hi⟩ := h
  refine ⟨v, hv, ?_⟩
  rw [hy]
  exact hi.mono hgrow hmem

theorem BlockDone.mono (h : σ.BlockDone mem ρ P v w) :
    σ.BlockDone mem' ρ' P' v w := by
  cases h with
  | ref => exact .ref
  | list hd hd' h h' =>
    exact .list (hmem _ hd).1 (hmem _ hd').1 (h.mono hgrow hmem (hmem _ hd).2)
      (h'.mono hgrow hmem (hmem _ hd').2)
  | @cs a d psc hsrc hpsc hP h =>
    refine .cs hsrc ?_ (fun j hj => (hmem _ (hP j hj)).1) fun j hj => ?_
    · rw [(hmem d (hP 0 (by omega))).2]
      exact hpsc
    · have hcell := (hmem _ (hP (j + 1) (by omega))).2
      rw [show d + (j + 1) = d + 1 + j by omega] at hcell
      exact (h j hj).mono hgrow hmem hcell
  | attv hd hd' h =>
    exact .attv (hmem _ hd).1 (hmem _ hd').1 (h.mono hgrow hmem (hmem _ hd').2)

end

end

/-- What has been taken is not taken again. -/
theorem Fresh.trans_left (hown : ∀ y, σ.Owned s.space y → σ.Owned s₁.space y)
    (h : σ.Fresh s₁ s2 y) : σ.Fresh s s2 y := ⟨h.1, fun hy => h.2 (hown y hy)⟩

theorem Fresh.trans_right (hown : ∀ y, σ.Owned s₁.space y → σ.Owned s2.space y)
    (h : σ.Fresh s s₁ y) : σ.Fresh s s2 y := ⟨hown y h.1, h.2⟩

/-- The cells that have been taken in a step before are not changed. -/
theorem Step.keep (hσ : σ.Sound) (h : σ.Step s₁ ρ1 T k s2 ρ2) (hT : y ∉ T)
    (hy : σ.Owned s₁.space y) : s2.mem y = s₁.mem y :=
  h.frame y (hσ.not_old _ y hy) hT fun hf => hf.2 hy

theorem Step.trans (hσ : σ.Sound) (h : σ.Step s ρ T k s₁ ρ1) (h' : σ.Step s₁ ρ1 T' k' s2 ρ2)
    (hT : ∀ y ∈ T', ¬σ.Fresh s s₁ y) : σ.Step s ρ (T ∪ T') (k + k') s2 ρ2 where
  grow v w hv := h'.grow v w (h.grow v w hv)
  owned y hy := h'.owned y (h.owned y hy)
  frame y hold hy hf := by
    rw [h'.frame y hold (fun hy' => hy (.inr hy')) fun hf' => hf (hf'.trans_left h.owned)]
    exact h.frame y hold (fun hy' => hy (.inl hy')) fun hf' => hf (hf'.trans_right h'.owned)
  fresh v w hv hnone := by
    cases hv1 : ρ1 v with
    | none =>
      exact (h'.fresh v w hv hv1).imp .inr (Fresh.trans_left h.owned)
    | some w' =>
      have he := h'.grow v w' hv1
      rw [hv] at he
      cases he
      exact (h.fresh v w hv1 hnone).imp .inl (Fresh.trans_right h'.owned)
  done v w hv hnone := by
    cases hv1 : ρ1 v with
    | none =>
      exact (h'.done v w hv hv1).mono (fun _ _ h => h) fun y hy => ⟨hy.trans_left h.owned, rfl⟩
    | some w' =>
      have he := h'.grow v w' hv1
      rw [hv] at he
      cases he
      refine (h.done v w hv1 hnone).mono h'.grow fun y hy => ⟨hy.trans_right h'.owned, ?_⟩
      exact h'.keep hσ (fun hy' => hT y hy' hy) hy.1
  sum := by
    have h1 := h.sum
    have h2 := h'.sum
    omega
  top hf := by
    by_cases htop : σ.Owned s₁.space σ.top
    · exact h.top ⟨htop, hf.2⟩
    · exact h'.top ⟨hf.1, htop⟩

/-- A cell is written. -/
theorem Step.write (s : CopyState) (ρ : Cell → Option Cell) (dest : Nat) (w : Cell) :
    σ.Step s ρ {dest} 0 (s.write dest w) ρ where
  grow v w h := h
  owned y hy := hy
  frame y _ hy _ := update_of_ne hy _ _
  fresh v w hv hnone := by
    rw [hv] at hnone
    cases hnone
  done v w hv hnone := by
    rw [hv] at hnone
    cases hnone
  sum := rfl
  top hf := hf.2 hf.1

/-! ### Marks -/

theorem untrail_congr {S : Finset Nat} {trail : List (Nat × Cell)}
    (h : ∀ y ∈ S, mem y = mem' y) : ∀ y ∈ S, untrail trail mem y = untrail trail mem' y := by
  induction trail generalizing mem mem' with
  | nil => exact h
  | cons p trail ih =>
    apply ih
    intro y hy
    by_cases he : y = p.1
    · rw [he, update_self, update_self]
    · rw [update_of_ne he, update_of_ne he, h y hy]

theorem untrail_other {trail : List (Nat × Cell)} (h : ∀ p ∈ trail, p.1 ≠ y) :
    untrail trail mem y = mem y := by
  induction trail generalizing mem with
  | nil => rfl
  | cons p trail ih =>
    rw [untrail, ih fun q hq => h q (List.mem_cons_of_mem _ hq)]
    exact update_of_ne (h p List.mem_cons_self).symm _ _

/-- The state of a cell that is not changed. -/
theorem CellState.keep (h : σ.CellState mem ρ y) (hmem : mem' y = mem y)
    (hρ : ∀ v, addr v = y → ρ' v = ρ v) : σ.CellState mem' ρ' y := by
  have hr := hρ (.ref y) rfl
  have ha := hρ (.attv y) rfl
  have hl := hρ (.list y) rfl
  have hc := hρ (.cs y) rfl
  cases h with
  | kept h1 h2 h3 h4 =>
    exact .kept (hmem.trans h1) (hl.trans h2) (hc.trans h3)
      fun hfree => ⟨hr.trans (h4 hfree).1, ha.trans (h4 hfree).2⟩
  | str h1 h2 h3 h4 => exact .str h1 (hmem.trans h2) (hc.trans h3) (hl.trans h4)
  | head h1 h2 h3 h4 =>
    exact .head (hmem.trans h1) (hl.trans h2) (hc.trans h3) fun hfree => ha.trans (h4 hfree)
  | var h1 h2 h3 h4 h5 h6 =>
    exact .var h1 (hmem.trans h2) (hr.trans h3) (hl.trans h4) (hc.trans h5) (ha.trans h6)
  | attv h1 h2 h3 h4 h5 =>
    exact .attv h1 (hmem.trans h2) (ha.trans h3) (hl.trans h4) (hc.trans h5)

theorem Dest.not_old (hσ : σ.Sound) (h : σ.Dest s ρ e dest v) : dest ∉ σ.old := by
  rcases h.owned with h | h
  · rw [h]
    exact hσ.top_old
  · exact hσ.not_old _ _ h

/-- The image of a variable is not at the destination. -/
theorem Dest.var_ne (h : σ.Dest s ρ e dest v) {u : Cell} (hu : ρ u = some w)
    (hvar : isVar u = true) : addr w ≠ dest := by
  intro he
  obtain ⟨x, rfl, -⟩ := h.clear u w hu he
  cases hvar

theorem Pair.mono (h : σ.Pair s v w) (hown : ∀ y, σ.Owned s.space y → σ.Owned s'.space y)
    (hmem : isVar v = true → s'.mem (addr w) = s.mem (addr w)) : σ.Pair s' v w := by
  cases h with
  | ref h1 h2 h3 h4 h5 =>
    exact .ref h1 h2 (h3.imp_right (hown _)) h4 ((hmem rfl).trans h5)
  | attv h1 h2 h3 h4 => exact .attv h1 h2 (hown _ h3) ((hmem rfl).trans h4)
  | list h1 h2 h3 => exact .list h1 h2 (hown _ h3)
  | cs h1 h2 h3 => exact .cs h1 h2 (hown _ h3)

/-- The cell of a variable's image is the first destination or one that has been taken. -/
theorem Pair.owned (h : σ.Pair s v w) : addr w = σ.top ∨ σ.Owned s.space (addr w) := by
  cases h with
  | ref _ _ h _ _ => exact h
  | attv _ _ h _ | list _ _ h | cs _ _ h => exact .inr h

/-- The image is written at the destination. -/
theorem Inv.write (hσ : σ.Sound) (h : σ.Inv s ρ e) (hd : σ.Dest s ρ e dest v)
    (hw : ¬σ.Boxes v → σ.Plain ρ v w) : σ.Inv (s.write dest w) ρ none where
  cells a ha := by
    refine (h.cells a ha).keep (update_of_ne ?_ _ _) fun _ _ => rfl
    rintro rfl
    exact hd.not_old hσ ha
  pairs u w' hu :=
    (h.pairs u w' hu).mono (fun _ hy => hy) fun hvar =>
      update_of_ne (hd.var_ne hu hvar) _ _
  heads x d u hx _ hu hb := by
    by_cases hxe : e = some x
    · obtain ⟨hx', hv⟩ := hd.head x hxe
      rw [hx'] at hx
      cases hx
      cases hu.unique hv
      rw [CopyState.write_self]
      exact hw hb
    · have hne : d ≠ dest := by
        intro he
        obtain ⟨x', hx', he'⟩ := hd.clear _ _ hx he
        cases hx'
        exact hxe he'
      rw [s.write_of_ne w hne]
      exact h.heads x d u hx hxe hu hb
  inj := h.inj
  apart := h.apart
  undo htrails a ha := by
    rw [← h.undo htrails a ha]
    refine untrail_congr (S := σ.old) ?_ a ha
    intro y hy
    apply update_of_ne
    rintro rfl
    exact hd.not_old hσ hy
  trail := h.trail
  good := h.good

/-- What marking the cell `a` with `c` does to the cells that are copied. -/
structure Marks (s : CopyState) (a : Nat) (c : Cell) (s' : CopyState) : Prop where
  cell : s'.mem a = c
  other : ∀ y ∈ σ.old, y ≠ a → s'.mem y = s.mem y
  trail : s'.trail = if σ.K.trails then (a, s.mem a) :: s.trail else s.trail

theorem Marks.undo (h : σ.Marks s a c s') (hundo : σ.K.trails = true →
      ∀ y ∈ σ.old, untrail s.trail s.mem y = σ.src y) :
    σ.K.trails = true → ∀ y ∈ σ.old, untrail s'.trail s'.mem y = σ.src y := by
  intro htrails y hy
  rw [h.trail, if_pos htrails, ← hundo htrails y hy, untrail]
  refine untrail_congr (S := σ.old) ?_ y hy
  intro z hz
  by_cases he : z = a
  · rw [he, update_self]
  · rw [update_of_ne he, h.other z hz he]

theorem Marks.trail_old (h : σ.Marks s a c s') (ha : a ∈ σ.old)
    (htrail : ∀ p ∈ s.trail, p.1 ∈ σ.old) : ∀ p ∈ s'.trail, p.1 ∈ σ.old := by
  intro p hp
  rw [h.trail] at hp
  split at hp
  · rcases List.mem_cons.mp hp with rfl | hp
    · exact ha
    · exact htrail p hp
  · exact htrail p hp

/-- A variable has been copied to the destination. -/
structure Binds (σ : Setup) (s : CopyState) (ρ : Cell → Option Cell) (dest a : Nat)
    (s' : CopyState) : Prop where
  word : .ref a ∈ σ.words
  free : σ.src a = .ref a
  mem_old : a ∈ σ.old
  new : ρ (.ref a) = none
  space : s'.space = s.space
  cell : σ.CellState s'.mem (update ρ (.ref a) (some (.ref dest))) a
  same : ∀ y ∈ σ.old, y ≠ a → s'.mem y = s.mem y
  written : s'.mem dest = .ref dest
  other : ∀ y ∉ σ.old, y ≠ dest → s'.mem y = s.mem y
  undo : σ.K.trails = true → ∀ y ∈ σ.old, untrail s'.trail s'.mem y = σ.src y
  trail : ∀ p ∈ s'.trail, p.1 ∈ σ.old

theorem update_of_addr {v : Cell} (hne : y ≠ addr v) {u : Cell} (hu : addr u = y) :
    update ρ v (some w) u = ρ u := by
  apply update_of_ne
  rintro rfl
  exact hne hu.symm

theorem grow_update (hnone : ρ v = none) (u w' : Cell) (hu : ρ u = some w') :
    update ρ v (some w) u = some w' := by
  rw [update_of_ne, hu]
  rintro rfl
  rw [hnone] at hu
  cases hu

theorem Inv.var (hσ : σ.Sound) (h : σ.Inv s ρ e) (hd : σ.Dest s ρ e dest (.ref a))
    (hb : σ.Binds s ρ dest a s') :
    σ.Inv s' (update ρ (.ref a) (some (.ref dest))) none where
  cells y hy := by
    by_cases he : y = a
    · rw [he]
      exact hb.cell
    · exact (h.cells y hy).keep (hb.same y hy he) fun u hu => update_of_addr he hu
  pairs u w hu := by
    by_cases he : u = .ref a
    · subst he
      rw [update_self] at hu
      cases hu
      have hown : dest = σ.top ∨ σ.Owned s'.space dest := by
        rw [hb.space]
        exact hd.owned
      exact .ref hb.word hb.free hown (hd.copied rfl) hb.written
    · rw [update_of_ne he] at hu
      have hp := h.pairs u w hu
      refine hp.mono (fun y hy => by rw [hb.space]; exact hy) fun hvar => ?_
      refine hb.other _ ?_ (hd.var_ne hu hvar)
      rcases hp.owned with htop | hown
      · rw [htop]
        exact hσ.top_old
      · exact hσ.not_old _ _ hown
  heads x d u hx _ hu hnb := by
    have hne : (.list x : Cell) ≠ .ref a := Cell.noConfusion
    rw [update_of_ne hne] at hx
    have hgrow := grow_update (w := .ref dest) hb.new
    by_cases hxe : e = some x
    · obtain ⟨hx', hv⟩ := hd.head x hxe
      rw [hx'] at hx
      cases hx
      cases hu.unique hv
      rw [hb.written, Plain, if_neg (by simp [leaf])]
      exact update_self ..
    · have hne : d ≠ dest := by
        intro he
        obtain ⟨x', hx', he'⟩ := hd.clear _ _ hx he
        cases hx'
        exact hxe he'
      have hold : d ∉ σ.old := by
        cases h.pairs _ _ hx with
        | list _ _ hown => exact hσ.not_old _ _ hown
      rw [hb.other d hold hne]
      exact (h.heads x d u hx hxe hu hnb).mono hgrow
  inj u u' w w' hu hu' hvar hvar' heq := by
    by_cases he : u = .ref a
    · by_cases he' : u' = .ref a
      · rw [he, he']
      · subst he
        rw [update_self] at hu
        rw [update_of_ne he'] at hu'
        cases hu
        exact absurd heq.symm (hd.var_ne hu' hvar')
    · by_cases he' : u' = .ref a
      · subst he'
        rw [update_self] at hu'
        rw [update_of_ne he] at hu
        cases hu'
        exact absurd heq (hd.var_ne hu hvar)
      · rw [update_of_ne he] at hu
        rw [update_of_ne he'] at hu'
        exact h.inj u u' w w' hu hu' hvar hvar' heq
  apart u w hu y hle hlt := by
    have hlen : blockSize σ.src (.ref a) = 0 := rfl
    have he : u ≠ .ref a := by
      rintro rfl
      omega
    rw [update_of_ne he] at hu
    obtain ⟨hown, hapart⟩ := h.apart u w hu y hle hlt
    refine ⟨by rw [hb.space]; exact hown, fun u' w' hu' hle' hlt' => ?_⟩
    have he' : u' ≠ .ref a := by
      rintro rfl
      omega
    rw [update_of_ne he'] at hu'
    exact hapart u' w' hu' hle' hlt'
  undo := hb.undo
  trail := hb.trail
  good := by
    rw [hb.space]
    exact h.good

/-! ### The weight of what is left -/

theorem rest_mono (hgrow : ∀ v w, ρ v = some w → ρ' v = some w) : σ.rest ρ' ≤ σ.rest ρ := by
  apply Finset.sum_le_sum_of_subset
  intro v hv
  rw [Finset.mem_filter] at hv ⊢
  refine ⟨hv.1, ?_⟩
  cases hρ : ρ v with
  | none => rfl
  | some w =>
    rw [hgrow v w hρ] at hv
    cases hv.2

theorem rest_update (hv : v ∈ σ.blocks) (hnone : ρ v = none) :
    σ.rest (update ρ v (some w)) + σ.weight v = σ.rest ρ := by
  have hfilter : (σ.blocks.filter fun u => update ρ v (some w) u = none) =
      (σ.blocks.filter fun u => ρ u = none).erase v := by
    ext u
    rw [Finset.mem_erase, Finset.mem_filter, Finset.mem_filter]
    by_cases he : u = v
    · simp [he]
    · simp [he]
  rw [rest, hfilter]
  exact Finset.sum_erase_add _ _ (Finset.mem_filter.mpr ⟨hv, hnone⟩)

theorem rest_update_of_notMem (hv : v ∉ σ.blocks) :
    σ.rest (update ρ v (some w)) = σ.rest ρ := by
  unfold rest
  apply congrArg (fun S => ∑ v ∈ S, σ.weight v)
  apply Finset.filter_congr
  intro u hu
  rw [update_of_ne]
  rintro rfl
  exact hv hu

theorem Step.var (hg : σ.Graph)
    (hb : σ.Binds s ρ dest a s') :
    σ.Step s ρ {dest} 0 s' (update ρ (.ref a) (some (.ref dest))) where
  grow := grow_update hb.new
  owned y hy := by
    rw [hb.space]
    exact hy
  frame y hy hne _ := hb.other y hy hne
  fresh u w hu hnone := by
    by_cases he : u = .ref a
    · subst he
      rw [update_self] at hu
      cases hu
      exact .inl rfl
    · rw [update_of_ne he, hnone] at hu
      cases hu
  done u w hu hnone := by
    by_cases he : u = .ref a
    · subst he
      rw [update_self] at hu
      cases hu
      exact .ref
    · rw [update_of_ne he, hnone] at hu
      cases hu
  sum := by rw [hb.space, rest_update_of_notMem (hg.blocks a), Nat.add_zero]
  top hf := by
    rw [Fresh, hb.space] at hf
    exact hf.2 hf.1

/-! ### Blocks -/

/-- The cells from `d` on have been taken for the block `v`, whose image is `w`, and the mark has
been left. -/
structure Taken (σ : Setup) (s : CopyState) (dest : Nat) (v w : Cell) (n d : Nat)
    (s₁ : CopyState) : Prop where
  marks : σ.Marks s (addr v) w s₁
  addr_eq : addr w = d
  written : s₁.mem dest = w
  pos : 0 < n
  alloc : σ.Alloc n s.space d s₁.space
  other : ∀ y ∉ σ.old, y ≠ dest → ¬(d ≤ y ∧ y < d + n) → s₁.mem y = s.mem y

theorem Alloc.grow {sp sp' : Space} (h : σ.Alloc n sp d sp') (y : Nat) (hy : σ.Owned sp y) :
    σ.Owned sp' y := h.owned y (.inl hy)

/-- What has been taken before is not among the new cells. -/
theorem Alloc.notMem {sp sp' : Space} (h : σ.Alloc n sp d sp') (hy : y = σ.top ∨ σ.Owned sp y) :
    ¬(d ≤ y ∧ y < d + n) := by
  rintro ⟨hle, hlt⟩
  obtain ⟨j, rfl⟩ := Nat.exists_eq_add_of_le hle
  obtain ⟨hfresh, htop⟩ := h.fresh j (by omega)
  exact hy.elim htop hfresh

/-- Only the block leads to the new cells. -/
theorem Taken.clear (h : σ.Inv s ρ e) (ht : Taken σ s dest v w n d s₁) {u w' : Cell}
    (hu : update ρ v (some w) u = some w') (hy : d ≤ addr w' ∧ addr w' < d + n) :
    u = v ∧ w' = w := by
  by_cases he : u = v
  · subst he
    rw [update_self] at hu
    cases hu
    exact ⟨rfl, rfl⟩
  · rw [update_of_ne he] at hu
    exact absurd hy (ht.alloc.notMem (h.pairs u w' hu).owned)

/-- A block with its image. -/
structure Block (σ : Setup) (ρ : Cell → Option Cell) (v : Cell) : Prop where
  leaf : σ.leaf v = false
  noref : v.isref = false
  old : addr v ∈ σ.old
  new : ρ v = none

theorem Block.not_boxes (h : Block σ ρ v) : ¬σ.Boxes v := by
  rintro ⟨-, hf⟩
  cases v with
  | float x => cases h.leaf
  | _ => cases hf

theorem Inv.block (hσ : σ.Sound) (h : σ.Inv s ρ e) (hd : σ.Dest s ρ e dest v)
    (hb : Block σ ρ v) (ht : Taken σ s dest v w n d s₁) (hpair : σ.Pair s₁ v w)
    (hcell : σ.CellState s₁.mem (update ρ v (some w)) (addr v))
    (hlen : blockSize σ.src v = n) {e1 : Option Nat} (he1 : ∀ x, v = .list x → e1 = some x) :
    σ.Inv s₁ (update ρ v (some w)) e1 where
  cells y hy := by
    by_cases he : y = addr v
    · rw [he]
      exact hcell
    · exact (h.cells y hy).keep (ht.marks.other y hy he) fun u hu => update_of_addr he hu
  pairs u w' hu := by
    by_cases he : u = v
    · subst he
      rw [update_self] at hu
      cases hu
      exact hpair
    · rw [update_of_ne he] at hu
      have hp := h.pairs u w' hu
      refine hp.mono ht.alloc.grow fun hvar => ?_
      refine ht.other _ ?_ (hd.var_ne hu hvar) (ht.alloc.notMem hp.owned)
      rcases hp.owned with htop | hown
      · rw [htop]
        exact hσ.top_old
      · exact hσ.not_old _ _ hown
  heads x d' u hx hxe1 hu hnb := by
    have hgrow := grow_update (w := w) hb.new
    have hne : (.list x : Cell) ≠ v := fun he => hxe1 (he1 x he.symm)
    rw [update_of_ne hne] at hx
    by_cases hxe : e = some x
    · obtain ⟨hx', hv⟩ := hd.head x hxe
      rw [hx'] at hx
      cases hx
      cases hu.unique hv
      rw [ht.written, Plain, if_neg (by rw [hb.leaf]; exact Bool.false_ne_true)]
      exact update_self ..
    · have hne : d' ≠ dest := by
        intro he
        obtain ⟨x', hx', he'⟩ := hd.clear _ _ hx he
        cases hx'
        exact hxe he'
      have hown : σ.Owned s.space d' := by
        cases h.pairs _ _ hx with
        | list _ _ hown => exact hown
      rw [ht.other d' (hσ.not_old _ _ hown) hne (ht.alloc.notMem (.inr hown))]
      exact (h.heads x d' u hx hxe hu hnb).mono hgrow
  inj u u' w1 w2 hu hu' hvar hvar' heq := by
    have hrange : d ≤ addr w ∧ addr w < d + n := by
      have hpos := ht.pos
      rw [ht.addr_eq]
      omega
    by_cases he : u = v
    · subst he
      rw [update_self] at hu
      cases hu
      rw [heq] at hrange
      exact (ht.clear h hu' hrange).1.symm
    · by_cases he' : u' = v
      · subst he'
        rw [update_self] at hu'
        cases hu'
        rw [← heq] at hrange
        exact absurd (ht.clear h hu hrange).1 he
      · rw [update_of_ne he] at hu
        rw [update_of_ne he'] at hu'
        exact h.inj u u' w1 w2 hu hu' hvar hvar' heq
  apart u w1 hu y hle hlt := by
    have hnew : ∀ u' w', ρ u' = some w' → addr w' ≤ y → y < addr w' + blockSize σ.src u' →
        ¬(d ≤ y ∧ y < d + n) := fun u' w' hu' hle' hlt' =>
      ht.alloc.notMem (.inr (h.apart u' w' hu' y hle' hlt').1)
    have haddr := ht.addr_eq
    by_cases he : u = v
    · subst he
      rw [update_self] at hu
      cases hu
      refine ⟨ht.alloc.owned y (.inr (by omega)), fun u' w' hu' hle' hlt' => ?_⟩
      by_cases he' : u' = u
      · exact he'
      · rw [update_of_ne he'] at hu'
        exact absurd (by omega) (hnew u' w' hu' hle' hlt')
    · rw [update_of_ne he] at hu
      obtain ⟨hown, hapart⟩ := h.apart u w1 hu y hle hlt
      refine ⟨ht.alloc.grow y hown, fun u' w' hu' hle' hlt' => ?_⟩
      by_cases he' : u' = v
      · subst he'
        rw [update_self] at hu'
        cases hu'
        exact absurd (by omega) (hnew u w1 hu hle hlt)
      · rw [update_of_ne he'] at hu'
        exact hapart u' w' hu' hle' hlt'
  undo := ht.marks.undo h.undo
  trail := ht.marks.trail_old hb.old h.trail
  good := ht.alloc.good

/-- The first cell of a list as a destination. -/
theorem Dest.first (hσ : σ.Sound) (h : σ.Inv s ρ e) (ht : Taken σ s dest (.list a) (.list d) n d s₁)
    (hv : EndsAt σ.src (σ.src a) v) :
    σ.Dest s₁ (update ρ (.list a) (some (.list d))) (some a) d v where
  owned := .inr (ht.alloc.owned d (.inr ⟨le_rfl, Nat.lt_add_of_pos_right ht.pos⟩))
  copied _ :=
    hσ.copied_new _ d (ht.alloc.owned d (.inr ⟨le_rfl, Nat.lt_add_of_pos_right ht.pos⟩))
  clear u w hu he := by
    refine ⟨a, (ht.clear h hu ?_).1, rfl⟩
    have hpos := ht.pos
    omega
  head x hx := by
    cases hx
    exact ⟨update_self .., hv⟩

/-- A later cell of a block as a destination, after other cells have been filled. -/
theorem Dest.later (hσ : σ.Sound) (h : σ.Inv s ρ e) (ht : Taken σ s dest v w n d s₁)
    (hstep : σ.Step s₁ (update ρ v (some w)) T k s2 ρ2) (hy : d < y ∧ y < d + n)
    (hT : y ∉ T) (u : Cell) : σ.Dest s2 ρ2 none y u where
  owned := .inr (hstep.owned y (ht.alloc.owned y (.inr ⟨hy.1.le, hy.2⟩)))
  copied _ := hσ.copied_new _ y (hstep.owned y (ht.alloc.owned y (.inr ⟨hy.1.le, hy.2⟩)))
  clear u' w' hu he := by
    exfalso
    cases hρ : update ρ v (some w) u' with
    | none =>
      rcases hstep.fresh u' w' hu hρ with hT' | hf
      · rw [he] at hT'
        exact hT hT'
      · rw [he] at hf
        exact hf.2 (ht.alloc.owned y (.inr ⟨hy.1.le, hy.2⟩))
    | some w'' =>
      have heq := hstep.grow u' w'' hρ
      rw [hu] at heq
      cases heq
      have hw := (ht.clear h hρ (by omega)).2
      rw [hw, ht.addr_eq] at he
      omega
  head x hx := by cases hx

/-- The cells of a block have been filled. -/
theorem Step.block (hσ : σ.Sound) (hd : σ.Dest s ρ e dest v) (ht : Taken σ s dest v w n d s₁)
    (hnew : ρ v = none) (hv : v ∈ σ.blocks) (hweight : σ.weight v = n + k)
    (hstep : σ.Step s₁ (update ρ v (some w)) T k s2 ρ2)
    (hT : ∀ y ∈ T, d ≤ y ∧ y < d + n)
    (hdone : σ.BlockDone s2.mem ρ2 (σ.Fresh s s2) v w) :
    σ.Step s ρ {dest} 0 s2 ρ2 ∧ s2.mem dest = w := by
  have hown : ∀ y, σ.Owned s.space y → σ.Owned s₁.space y := ht.alloc.grow
  have htaken : ∀ y, d ≤ y ∧ y < d + n → σ.Fresh s s2 y := by
    intro y hy
    refine ⟨hstep.owned y (ht.alloc.owned y (.inr hy)), fun hy' => ?_⟩
    exact ht.alloc.notMem (.inr hy') hy
  have hdest : ¬(d ≤ dest ∧ dest < d + n) := ht.alloc.notMem hd.owned
  have hwritten : s2.mem dest = w := by
    rw [hstep.frame dest (hd.not_old hσ) (fun hy => hdest (hT dest hy)) ?_, ht.written]
    rcases hd.owned with htop | hy
    · rw [htop]
      exact hstep.top
    · exact fun hf => hf.2 (hown dest hy)
  refine ⟨?_, hwritten⟩
  constructor
  case grow => exact fun u w' hu => hstep.grow u w' (grow_update hnew u w' hu)
  case owned => exact fun y hy => hstep.owned y (hown y hy)
  case frame =>
    intro y hy hne hf
    rw [hstep.frame y hy (fun hy' => hf (htaken y (hT y hy'))) fun hf' => hf (hf'.trans_left hown)]
    exact ht.other y hy hne fun hy' => hf (htaken y hy')
  case fresh =>
    intro u w' hu hnone
    cases hρ : update ρ v (some w) u with
    | none =>
      rcases hstep.fresh u w' hu hρ with hy | hf
      · exact .inr (htaken _ (hT _ hy))
      · exact .inr (hf.trans_left hown)
    | some w'' =>
      have heq := hstep.grow u w'' hρ
      rw [hu] at heq
      cases heq
      by_cases he : u = v
      · subst he
        rw [update_self] at hρ
        cases hρ
        refine .inr (htaken _ ?_)
        have hpos := ht.pos
        rw [ht.addr_eq]
        omega
      · rw [update_of_ne he, hnone] at hρ
        cases hρ
  case done =>
    intro u w' hu hnone
    cases hρ : update ρ v (some w) u with
    | none =>
      exact (hstep.done u w' hu hρ).mono (fun _ _ h => h) fun y hy => ⟨hy.trans_left hown, rfl⟩
    | some w'' =>
      have heq := hstep.grow u w'' hρ
      rw [hu] at heq
      cases heq
      by_cases he : u = v
      · subst he
        rw [update_self] at hρ
        cases hρ
        exact hdone
      · rw [update_of_ne he, hnone] at hρ
        cases hρ
  case sum =>
    have h1 := hstep.sum
    have h2 := ht.alloc.used
    have h3 := rest_update (w := w) hv hnew
    omega
  case top =>
    intro hf
    by_cases htop : σ.Owned s₁.space σ.top
    · exact hf.2 (ht.alloc.top htop)
    · exact hstep.top ⟨hf.1, htop⟩

end Setup

end XSBEngine.Copying
