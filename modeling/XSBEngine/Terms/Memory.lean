import XSBEngine.Library.Tuple
import XSBEngine.Tries.Node

/-!
# Terms in memory

Cells of the engine (`XSB/emu/cell_xsb.h`), dereferencing (`XSB/emu/deref.h`), and the finite
terms that cells stand for.
-/

namespace XSBEngine.Terms

open List PrefixTerms XSBEngine.Tries

/-! ### Cells -/

/-- The memory areas that hold cells. -/
inductive Area where
  | localStack
  | heap
  | tableSpace
  deriving DecidableEq, Repr, Inhabited

/-- Address of a cell. -/
structure Addr where
  area : Area
  pos : Nat
  deriving DecidableEq, Repr, Inhabited

/-- Pointer arithmetic. -/
def Addr.plus (a : Addr) (k : Nat) : Addr := ⟨a.area, a.pos + k⟩

/-- `XSB_INT`, `XSB_STRING` and `XSB_FLOAT`. -/
inductive ConstTag where
  | int
  | string
  | float
  deriving DecidableEq, Repr

/-- A tagged cell. A free variable is a reference to its own cell, the VAR part of a free
attributed variable too. The first cell of a structure points to its PSC record. -/
inductive Cell where
  | ref (a : Addr)
  | const (tag : ConstTag) (val : Nat)
  | list (a : Addr)
  | struct (a : Addr)
  | attv (a : Addr)
  | functor (psc : Nat)
  deriving DecidableEq, Repr

/-- The contents of all cells. -/
abbrev Memory := Addr → Cell

/-- `XSB_CptrDeref`, `deref.h:62`. The bound is on the length of the reference chain. -/
def deref (mem : Memory) : Nat → Cell → Option Cell
  | 0, _ => none
  | n + 1, .ref a => if mem a = .ref a then some (.ref a) else deref mem n (mem a)
  | n + 1, .attv a => if mem a = .ref a then some (.attv a) else deref mem n (mem a)
  | _ + 1, .functor _ => none
  | _ + 1, c => some c

/-- The cells of the arguments of a structure. -/
def strArgs (a : Addr) (arity : Nat) : List Addr :=
  (List.range arity).map fun j => a.plus (j + 1)

theorem deref_mono {mem : Memory} {n k : Nat} {c r : Cell} (h : deref mem n c = some r)
    (hle : n ≤ k) : deref mem k c = some r := by
  induction n generalizing k c with
  | zero => simp [deref] at h
  | succ n ih =>
    obtain ⟨k, rfl⟩ : ∃ j, k = j + 1 := ⟨k - 1, by omega⟩
    have hnk : n ≤ k := Nat.le_of_succ_le_succ hle
    cases c with
    | ref a | attv a =>
      simp only [deref] at h ⊢
      split at h
      next ha => rw [if_pos ha]; exact h
      next ha => rw [if_neg ha]; exact ih h hnk
    | functor psc => simp [deref] at h
    | const tag val | list a | struct a => exact h

/-! ### Constants as symbols -/

/-- The tag of a constant. -/
def ConstTag.symbolTag : ConstTag → SymbolTag
  | .int => .int
  | .string => .string
  | .float => .float

/-- `EncodeTrieConstant`: the cell itself. -/
def encodeTrieConstant (tag : ConstTag) (val : Nat) : Symbol := ⟨tag.symbolTag, val⟩

/-- Number of arguments below a symbol. -/
def rank (arity : Nat → Nat) (f : Symbol) : Nat :=
  match f.tag with
  | .struct => arity f.val
  | .list => 2
  | _ => 0

/-! ### Finite terms -/

/-- The cell that a cell without attributed variables dereferences to, by cells in use. -/
inductive Deref (mem : Memory) (user : Addr → Prop) : Cell → Cell → Prop where
  | var {a : Addr} : user a → mem a = .ref a → Deref mem user (.ref a) (.ref a)
  | step {a : Addr} {r : Cell} : user a → mem a ≠ .ref a → Deref mem user (mem a) r →
      Deref mem user (.ref a) r
  | const (tag : ConstTag) (val : Nat) : Deref mem user (.const tag val) (.const tag val)
  | list (a : Addr) : Deref mem user (.list a) (.list a)
  | struct (a : Addr) : Deref mem user (.struct a) (.struct a)

/-- Cells that stand for a tuple of finite terms. Variables are named by their cells. -/
inductive Denotes (arity : Nat → Nat) (mem : Memory) (user : Addr → Prop) :
    List Cell → Tuple Symbol Addr → Prop where
  | nil : Denotes arity mem user [] .nil
  | var {c : Cell} {cs : List Cell} {a : Addr} {rest : Tuple Symbol Addr} :
      Deref mem user c (.ref a) → Denotes arity mem user cs rest →
      Denotes arity mem user (c :: cs) (.var a rest)
  | const {c : Cell} {cs : List Cell} {tag : ConstTag} {val : Nat} {rest : Tuple Symbol Addr} :
      Deref mem user c (.const tag val) → Denotes arity mem user cs rest →
      Denotes arity mem user (c :: cs) (.app (encodeTrieConstant tag val) .nil rest)
  | list {c : Cell} {cs : List Cell} {a : Addr} {args rest : Tuple Symbol Addr} :
      Deref mem user c (.list a) → user a → user (a.plus 1) →
      Denotes arity mem user [mem a, mem (a.plus 1)] args → Denotes arity mem user cs rest →
      Denotes arity mem user (c :: cs) (.app encodeTrieList args rest)
  | struct {c : Cell} {cs : List Cell} {a : Addr} {psc : Nat} {args rest : Tuple Symbol Addr} :
      Deref mem user c (.struct a) → (∀ k ≤ arity psc, user (a.plus k)) →
      mem a = .functor psc → Denotes arity mem user ((strArgs a (arity psc)).map mem) args →
      Denotes arity mem user cs rest →
      Denotes arity mem user (c :: cs) (.app (encodeTriePSC psc) args rest)

variable {arity : Nat → Nat} {mem : Memory} {user : Addr → Prop} {c r : Cell} {cs : List Cell}
  {t : Tuple Symbol Addr}

theorem Deref.unique {r' : Cell} (h : Deref mem user c r) (h' : Deref mem user c r') : r = r' := by
  induction h with
  | var hu ha =>
    cases h' with
    | var _ _ => rfl
    | step _ hne _ => exact absurd ha hne
  | step hu hne hd ih =>
    cases h' with
    | var _ ha => exact absurd ha hne
    | step _ _ hd' => exact ih hd'
  | const tag val | list a | struct a => cases h'; rfl

/-- A free variable at the end of a chain. -/
theorem Deref.free {a : Addr} (h : Deref mem user c (.ref a)) : user a ∧ mem a = .ref a := by
  generalize hr : Cell.ref a = r at h
  induction h with
  | var hu ha => cases hr; exact ⟨hu, ha⟩
  | step _ _ _ ih => exact ih hr
  | const tag val | list a | struct a => cases hr

theorem Denotes.length (h : Denotes arity mem user cs t) : t.length = cs.length := by
  induction h with
  | nil => rfl
  | var _ _ ih => simp [Tuple.length, ih]
  | const _ _ ih | list _ _ _ _ _ _ ih | struct _ _ _ _ _ _ ih => simp [Tuple.length, ih]

theorem Denotes.ranked (h : Denotes arity mem user cs t) : t.Ranked (rank arity) := by
  induction h with
  | nil => trivial
  | var _ _ ih => exact ih
  | @const c cs tag val rest _ _ ih =>
    exact ⟨by cases tag <;> rfl, trivial, ih⟩
  | list _ _ _ hargs _ ihargs ih => exact ⟨hargs.length, ihargs, ih⟩
  | @struct c cs a psc args rest _ _ _ hargs _ ihargs ih =>
    refine ⟨?_, ihargs, ih⟩
    rw [hargs.length, strArgs, length_map, length_map, length_range]
    rfl

/-- Cells stand for one tuple. -/
theorem Denotes.unique {t' : Tuple Symbol Addr} (h : Denotes arity mem user cs t)
    (h' : Denotes arity mem user cs t') : t = t' := by
  induction h generalizing t' with
  | nil => cases h'; rfl
  | var hd _ ih =>
    cases h' with
    | var hd' hcs => cases hd.unique hd'; rw [ih hcs]
    | const hd' _ | list hd' _ _ _ _ | struct hd' _ _ _ _ => cases hd.unique hd'
  | const hd _ ih =>
    cases h' with
    | var hd' _ => cases hd.unique hd'
    | const hd' hcs => cases hd.unique hd'; rw [ih hcs]
    | list hd' _ _ _ _ | struct hd' _ _ _ _ => cases hd.unique hd'
  | list hd _ _ _ _ ihargs ih =>
    cases h' with
    | var hd' _ | const hd' _ => cases hd.unique hd'
    | list hd' _ _ hargs hcs => cases hd.unique hd'; rw [ihargs hargs, ih hcs]
    | struct hd' _ _ _ _ => cases hd.unique hd'
  | struct hd _ hf _ _ ihargs ih =>
    cases h' with
    | var hd' _ | const hd' _ | list hd' _ _ _ _ => cases hd.unique hd'
    | struct hd' _ hf' hargs hcs =>
      cases hd.unique hd'
      cases hf.symm.trans hf'
      rw [ihargs hargs, ih hcs]

/-- Symbols of a term are not variables of a trie. -/
theorem Denotes.symbols (h : Denotes arity mem user cs t) :
    ∀ f, .inl f ∈ t.tokens → f.tag ≠ .trieVar := by
  induction h with
  | nil => simp [Tuple.tokens]
  | var _ _ ih => simpa [Tuple.tokens] using ih
  | @const c cs tag val rest _ _ ih =>
    intro f hf
    rcases mem_cons.mp hf with he | hf
    · cases he
      cases tag <;> simp [encodeTrieConstant, ConstTag.symbolTag]
    · exact ih f hf
  | list _ _ _ _ _ ihargs ih =>
    intro f hf
    rcases mem_cons.mp hf with he | hf
    · cases he
      simp [encodeTrieList]
    · rcases mem_append.mp hf with hf | hf
      · exact ihargs f hf
      · exact ih f hf
  | struct _ _ _ _ _ ihargs ih =>
    intro f hf
    rcases mem_cons.mp hf with he | hf
    · cases he
      simp [encodeTriePSC]
    · rcases mem_append.mp hf with hf | hf
      · exact ihargs f hf
      · exact ih f hf

end XSBEngine.Terms
