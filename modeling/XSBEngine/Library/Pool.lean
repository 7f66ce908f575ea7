import Mathlib
import XSBEngine.Library.Linked

/-!
# Pools of linked cells

Cells that are taken from a list of released ones or from unused memory. Each owner holds a linked
list of them, and no cell is on two lists, that of the released cells included.
-/

namespace XSBEngine.Library

open Function List Option

/-- The lists are linked, and no cell is on two of them. -/
structure Family {α ω : Type*} (next : α → Option α) (L : ω → List α) : Prop where
  linked : ∀ o, Linked next (L o).head? (L o)
  disjoint : ∀ o o' x, x ∈ L o → x ∈ L o' → o = o'

section Family

variable {α ω : Type*} [DecidableEq ω] {next : α → Option α} {L : ω → List α}
  {o : ω} {a b : α} {l l1 l2 : List α}

/-- A list is replaced by a part of it. -/
theorem Family.shrink (h : Family next L) (hl : Linked next l.head? l) (hsub : l ⊆ L o) :
    Family next (update L o l) := by
  have hmem : ∀ o' x, x ∈ update L o l o' → x ∈ L o' := by
    intro o' x hx
    rcases eq_or_ne o' o with rfl | ho
    · rw [update_self] at hx
      exact hsub hx
    · rwa [update_of_ne ho] at hx
  constructor
  case linked =>
    intro o'
    rcases eq_or_ne o' o with rfl | ho
    · rwa [update_self]
    · rw [update_of_ne ho]
      exact h.linked o'
  case disjoint =>
    intro o1 o2 x h1 h2
    exact h.disjoint o1 o2 x (hmem o1 x h1) (hmem o2 x h2)

/-- The first cell of a list is taken off. -/
theorem Family.pop (h : Family next L) (ho : L o = a :: l) :
    Family next (update L o l) ∧ ∀ o', a ∉ update L o l o' := by
  have hlinked : Linked next (some a) (a :: l) := by
    have hlo := h.linked o
    rwa [ho] at hlo
  have hrest : Linked next l.head? l := linked_head hlinked.2 ▸ hlinked.2
  have ha : a ∈ L o := ho ▸ mem_cons_self
  refine ⟨h.shrink hrest (ho ▸ subset_cons_self a l), fun o' hmem => ?_⟩
  rcases eq_or_ne o' o with rfl | hne
  · rw [update_self] at hmem
    exact (nodup_cons.mp hlinked.nodup).1 hmem
  · rw [update_of_ne hne] at hmem
    exact hne (h.disjoint o' o a hmem ha)

variable [DecidableEq α]

/-- A cell that is on no list is put in front of one. -/
theorem Family.push (h : Family next L) (ha : ∀ o, a ∉ L o) (o : ω) :
    Family (update next a (L o).head?) (update L o (a :: L o)) := by
  have hmem : ∀ o' x, x ∈ update L o (a :: L o) o' → x = a ∧ o' = o ∨ x ∈ L o' := by
    intro o' x hx
    rcases eq_or_ne o' o with rfl | ho
    · rw [update_self] at hx
      exact (mem_cons.mp hx).imp (fun hxa => ⟨hxa, rfl⟩) id
    · rw [update_of_ne ho] at hx
      exact Or.inr hx
  constructor
  case linked =>
    intro o'
    rcases eq_or_ne o' o with rfl | ho
    · rw [update_self]
      exact (h.linked o').push (ha o')
    · rw [update_of_ne ho]
      exact (h.linked o').update (ha o') _
  case disjoint =>
    intro o1 o2 x h1 h2
    rcases hmem o1 x h1 with ⟨rfl, rfl⟩ | hin1
    · rcases hmem o2 x h2 with ⟨-, rfl⟩ | hin2
      · rfl
      · exact absurd hin2 (ha o2)
    · rcases hmem o2 x h2 with ⟨rfl, -⟩ | hin2
      · exact absurd hin1 (ha o1)
      · exact h.disjoint o1 o2 x hin1 hin2

/-- The cell after `a` is taken out. -/
theorem Family.unlink (h : Family next L) (ho : L o = l1 ++ a :: b :: l2) :
    Family (update next a (next b)) (update L o (l1 ++ a :: l2)) ∧
      ∀ o', b ∉ update L o (l1 ++ a :: l2) o' := by
  have hlinked := h.linked o
  rw [ho] at hlinked
  have hperm : (l1 ++ a :: b :: l2).Perm (b :: (l1 ++ a :: l2)) := by
    have hmid : (l1 ++ [a] ++ b :: l2).Perm (b :: (l1 ++ [a] ++ l2)) := perm_middle
    simpa using hmid
  have hnodup : (b :: (l1 ++ a :: l2)).Nodup := hperm.nodup_iff.mp hlinked.nodup
  have hsub : l1 ++ a :: l2 ⊆ L o := fun x hx =>
    ho ▸ hperm.mem_iff.mpr (mem_cons_of_mem b hx)
  have hin : ∀ o' x, x ∈ update L o (l1 ++ a :: l2) o' → x ∈ L o' := by
    intro o' x hx
    rcases eq_or_ne o' o with rfl | hne
    · rw [update_self] at hx
      exact hsub hx
    · rwa [update_of_ne hne] at hx
  have ha : a ∈ L o := hsub (mem_append_right l1 mem_cons_self)
  have hb : b ∈ L o := ho ▸ hperm.mem_iff.mpr mem_cons_self
  refine ⟨⟨fun o' => ?_, fun o1 o2 x h1 h2 => h.disjoint o1 o2 x (hin o1 x h1) (hin o2 x h2)⟩, ?_⟩
  · rcases eq_or_ne o' o with rfl | hne
    · rw [update_self]
      have hunlink := hlinked.unlink
      have hhead : (l1 ++ a :: b :: l2).head? = (l1 ++ a :: l2).head? := by cases l1 <;> rfl
      rwa [hhead] at hunlink
    · rw [update_of_ne hne]
      exact (h.linked o').update (fun hmem => hne (h.disjoint o' o a hmem ha)) _
  · intro o' hmem
    rcases eq_or_ne o' o with rfl | hne
    · rw [update_self] at hmem
      exact (nodup_cons.mp hnodup).1 hmem
    · rw [update_of_ne hne] at hmem
      exact hne (h.disjoint o' o b hmem hb)

end Family

/-- Cells with a field `next`: the released ones and the first that was never used. -/
structure Pool where
  next : Nat → Option Nat
  released : Option Nat
  nextFree : Nat

namespace Pool

/-- A released cell, or else the next unused one. -/
def newEntry (p : Pool) : Nat × Pool :=
  match p.released with
  | some a => (a, { p with released := p.next a })
  | none => (p.nextFree, { p with nextFree := p.nextFree + 1 })

/-- A cell goes to the front of the released ones. -/
def releaseEntry (p : Pool) (a : Nat) : Pool :=
  { p with next := update p.next a p.released, released := some a }

/-- An assignment to the field of a cell. -/
def setNext (p : Pool) (a : Nat) (q : Option Nat) : Pool :=
  { p with next := update p.next a q }

/-- The cell before `a` on the list of the current cell, of which `prev` is the one before. -/
def findPrev (p : Pool) (a : Nat) : Nat → Option Nat → Option Nat → Option (Option Nat)
  | _, _, none => none
  | 0, _, some _ => none
  | fuel + 1, prev, some current =>
    if current = a then some prev else p.findPrev a fuel (some current) (p.next current)

/-- `a` is searched from the head of its list, taken off the list and released. The result has the
new head. -/
def searchRemove (p : Pool) (head : Option Nat) (a : Nat) : Option (Option Nat × Pool) := do
  match ← p.findPrev a p.nextFree none head with
  | none => some (p.next a, p.releaseEntry a)
  | some b => some (head, (p.setNext b (p.next a)).releaseEntry a)

/-- The released cells next to the lists of the owners. -/
def lists {ω : Type*} (free : List Nat) (own : ω → List Nat) : Option ω → List Nat
  | none => free
  | some o => own o

/-- The owners hold the given lists and the released cells are those of another one. -/
structure HoldsWith {ω : Type*} (p : Pool) (own : ω → List Nat) (free : List Nat) : Prop where
  family : Family p.next (lists free own)
  released : p.released = free.head?
  bound : ∀ o x, x ∈ lists free own o → x < p.nextFree

/-- The owners hold the given lists. -/
def Holds {ω : Type*} (p : Pool) (own : ω → List Nat) : Prop := ∃ free, p.HoldsWith own free

variable {ω : Type*} {p : Pool} {own own' : ω → List Nat} {o o' : ω} {a b x : Nat}
  {l l1 l2 free : List Nat}

theorem Holds.linked (h : p.Holds own) (o : ω) : Linked p.next (own o).head? (own o) :=
  h.elim fun _ h => h.family.linked (some o)

theorem Holds.nodup (h : p.Holds own) (o : ω) : (own o).Nodup := (h.linked o).nodup

theorem Holds.disjoint (h : p.Holds own) (hx : x ∈ own o) (hx' : x ∈ own o') : o = o' :=
  h.elim fun _ h => some.inj (h.family.disjoint (some o) (some o') x hx hx')

/-- A list is not longer than the memory that was ever used. -/
theorem Holds.length_le (h : p.Holds own) (o : ω) : (own o).length ≤ p.nextFree := by
  obtain ⟨free, hfree⟩ := h
  have hsub : (own o).toFinset ⊆ Finset.range p.nextFree := fun x hx =>
    Finset.mem_range.mpr (hfree.bound (some o) x (mem_toFinset.mp hx))
  have hcard := Finset.card_le_card hsub
  have hnodup : (own o).Nodup := (hfree.family.linked (some o)).nodup
  rwa [toFinset_card_of_nodup hnodup, Finset.card_range] at hcard

/-- The cells of a list that a cell was taken off. -/
theorem Holds.mem_erase [DecidableEq ω] (h : p.Holds own) (ho : own o = l1 ++ a :: l2) (o' : ω)
    (x : Nat) : x ∈ update own o (l1 ++ l2) o' ↔ x ∈ own o' ∧ x ≠ a := by
  have ha : a ∈ own o := ho ▸ mem_append_right l1 mem_cons_self
  have hperm : (l1 ++ a :: l2).Perm (a :: (l1 ++ l2)) := perm_middle
  have hnodup : (a :: (l1 ++ l2)).Nodup := hperm.nodup_iff.mp (ho ▸ h.nodup o)
  rcases eq_or_ne o' o with rfl | hne
  · rw [update_self, ho, hperm.mem_iff, mem_cons]
    constructor
    · intro hx
      exact ⟨Or.inr hx, fun heq => (nodup_cons.mp hnodup).1 (heq ▸ hx)⟩
    · rintro ⟨hx, hxa⟩
      exact hx.resolve_left hxa
  · rw [update_of_ne hne]
    refine ⟨fun hx => ⟨hx, ?_⟩, And.left⟩
    rintro rfl
    exact hne (h.disjoint hx ha)

theorem holds_empty (ω : Type*) (p : Pool) :
    Pool.Holds ⟨p.next, none, p.nextFree⟩ fun _ : ω => [] := by
  refine ⟨[], ⟨fun o => ?_, fun o o' x hx => ?_⟩, rfl, fun o x hx => ?_⟩
  · cases o <;> rfl
  · cases o <;> exact absurd hx not_mem_nil
  · cases o <;> exact absurd hx not_mem_nil

section Update

variable [DecidableEq ω]

theorem lists_update_some : update (lists free own) (some o) l =
    lists free (update own o l) := by
  funext o'
  cases o' with
  | none => exact update_of_ne (some_ne_none o).symm l (lists free own)
  | some o' =>
    rcases eq_or_ne o' o with rfl | ho
    · simp [lists]
    · rw [update_of_ne fun heq => ho (some.inj heq)]
      exact (update_of_ne ho l own).symm

theorem lists_update_none : update (lists free own) none l = lists l own := by
  funext o'
  cases o' with
  | none => exact update_self ..
  | some o' => exact update_of_ne (some_ne_none o') l (lists free own)

theorem bound_update {n : Nat} (h : ∀ o x, x ∈ lists free own o → x < n)
    (hl : ∀ x ∈ l, x < n) (o' : Option ω) (x : Nat)
    (hx : x ∈ lists free (update own o l) o') : x < n := by
  rw [← lists_update_some] at hx
  rcases eq_or_ne o' (some o) with rfl | hne
  · rw [update_self] at hx
    exact hl x hx
  · rw [update_of_ne hne] at hx
    exact h o' x hx

/-- A cell that is on no list is released. -/
theorem HoldsWith.releaseEntry (h : p.HoldsWith own free) (ha : ∀ o, a ∉ lists free own o)
    (hlt : a < p.nextFree) : (p.releaseEntry a).HoldsWith own (a :: free) := by
  have hpush := h.family.push ha none
  rw [lists_update_none] at hpush
  refine ⟨?_, rfl, fun o x hx => ?_⟩
  · rw [Pool.releaseEntry, h.released]
    exact hpush
  · cases o with
    | some o => exact h.bound (some o) x hx
    | none =>
      rcases mem_cons.mp hx with rfl | hx
      · exact hlt
      · exact h.bound none x hx

/-- The first cell of a list is released. -/
theorem Holds.releaseHead (h : p.Holds own) (ho : own o = a :: l) :
    (p.releaseEntry a).Holds (update own o l) := by
  obtain ⟨free, h⟩ := h
  have hlt : ∀ x ∈ a :: l, x < p.nextFree := ho ▸ h.bound (some o)
  obtain ⟨hfamily, ha⟩ := h.family.pop (o := some o) ho
  rw [lists_update_some] at hfamily ha
  have hbound := bound_update (o := o) h.bound (forall_mem_cons.mp hlt).2
  exact ⟨a :: free, HoldsWith.releaseEntry ⟨hfamily, h.released, hbound⟩ ha
    (hlt a mem_cons_self)⟩

/-- The cell after `a` is released. -/
theorem Holds.releaseAfter (h : p.Holds own) (ho : own o = l1 ++ a :: b :: l2) :
    ((p.setNext a (p.next b)).releaseEntry b).Holds (update own o (l1 ++ a :: l2)) := by
  obtain ⟨free, h⟩ := h
  have hlt : ∀ x ∈ l1 ++ a :: b :: l2, x < p.nextFree := ho ▸ h.bound (some o)
  have hb : b ∈ l1 ++ a :: b :: l2 :=
    mem_append_right l1 (mem_cons_of_mem a mem_cons_self)
  have hsub : ∀ x ∈ l1 ++ a :: l2, x < p.nextFree := by
    intro x hx
    apply hlt x
    simp only [mem_append, mem_cons] at hx ⊢
    exact hx.imp id (Or.imp id Or.inr)
  obtain ⟨hfamily, hnot⟩ := h.family.unlink (o := some o) ho
  rw [lists_update_some] at hfamily hnot
  have hbound := bound_update (o := o) h.bound hsub
  exact ⟨b :: free, HoldsWith.releaseEntry ⟨hfamily, h.released, hbound⟩ hnot (hlt b hb)⟩

/-- A new cell is put in front of a list. -/
theorem Holds.newEntry (h : p.Holds own) (o : ω) :
    (p.newEntry.2.setNext p.newEntry.1 (own o).head?).Holds
        (update own o (p.newEntry.1 :: own o)) ∧
      ∀ o', p.newEntry.1 ∉ own o' := by
  obtain ⟨free, h⟩ := h
  -- the new cell is on no list, and the released ones are the rest
  have hnew : ∃ free', p.newEntry.2.HoldsWith own free' ∧
      (∀ o, p.newEntry.1 ∉ lists free' own o) ∧ p.newEntry.1 < p.newEntry.2.nextFree := by
    unfold Pool.newEntry
    split
    next a hreleased =>
      obtain ⟨free', rfl⟩ : ∃ free', free = a :: free' := by
        rw [h.released] at hreleased
        cases free with
        | nil => exact absurd hreleased (some_ne_none a).symm
        | cons b free' => exact ⟨free', by rw [some.inj hreleased]⟩
      obtain ⟨hfamily, ha⟩ := h.family.pop (o := none) rfl
      rw [lists_update_none] at hfamily ha
      refine ⟨free', ⟨hfamily, ?_, fun o' x hx => ?_⟩, ha, ?_⟩
      · have hlinked : Linked p.next (some a) ([] ++ a :: free') := h.family.linked none
        exact hlinked.next_head
      · cases o' with
        | none => exact h.bound none x (mem_cons_of_mem a hx)
        | some o' => exact h.bound (some o') x hx
      · exact h.bound none a mem_cons_self
    next hreleased =>
      refine ⟨free, ⟨h.family, ?_, fun o' x hx => Nat.lt_succ_of_lt (h.bound o' x hx)⟩, ?_,
        Nat.lt_succ_self _⟩
      · exact h.released
      · intro o' hmem
        exact absurd (h.bound o' _ hmem) (Nat.lt_irrefl _)
  obtain ⟨free', hfree, hnot, hlt⟩ := hnew
  have hpush := hfree.family.push hnot (some o)
  rw [lists_update_some] at hpush
  have hbound := bound_update (o := o) hfree.bound
    (forall_mem_cons.mpr ⟨hlt, hfree.bound (some o)⟩)
  exact ⟨⟨free', hpush, hfree.released, hbound⟩, fun o' => hnot (some o')⟩

/-- The search finds the cell before one of the list. -/
theorem findPrev_eq {fuel : Nat} {prev : Option Nat}
    (h : Linked p.next (l1 ++ a :: l2).head? (l1 ++ a :: l2)) (hfuel : l1.length < fuel) :
    p.findPrev a fuel prev (l1 ++ a :: l2).head? = some (l1.getLast?.or prev) := by
  induction l1 generalizing fuel prev with
  | nil =>
    cases fuel with
    | zero => exact absurd hfuel (Nat.not_lt_zero _)
    | succ fuel => simp [findPrev]
  | cons b l1 ih =>
    cases fuel with
    | zero => exact absurd hfuel (Nat.not_lt_zero _)
    | succ fuel =>
      have hne : b ≠ a := by
        rintro rfl
        exact (nodup_cons.mp h.nodup).1 (mem_append_right l1 mem_cons_self)
      have hnext : p.next b = (l1 ++ a :: l2).head? := linked_head h.2
      simp only [cons_append, List.head?_cons, findPrev, if_neg hne, hnext]
      rw [ih (hnext ▸ h.2) (Nat.lt_of_succ_lt_succ hfuel)]
      cases hlast : l1.getLast? with
      | none | some c => simp [List.getLast?_cons, hlast]

/-- A cell of a list is found, taken off and released. -/
theorem Holds.searchRemove (h : p.Holds own) (ho : own o = l1 ++ a :: l2) :
    ∃ p', p.searchRemove (own o).head? a = some ((l1 ++ l2).head?, p') ∧
      p'.Holds (update own o (l1 ++ l2)) := by
  have hlinked := h.linked o
  rw [ho] at hlinked
  have hlen : l1.length < p.nextFree := by
    have hle := h.length_le o
    rw [ho, length_append, length_cons] at hle
    omega
  have hnext : p.next a = l2.head? := hlinked.next_head
  rw [ho, Pool.searchRemove, findPrev_eq hlinked hlen, or_none]
  rcases eq_nil_or_concat l1 with rfl | ⟨l, b, rfl⟩
  · refine ⟨p.releaseEntry a, ?_, h.releaseHead ho⟩
    simp [hnext]
  · rw [concat_eq_append, append_assoc] at ho
    have hhead : (l ++ [b] ++ a :: l2).head? = (l ++ [b] ++ l2).head? := by cases l <;> rfl
    have hafter := h.releaseAfter ho
    refine ⟨(p.setNext b (p.next a)).releaseEntry a, ?_, ?_⟩
    · simp only [concat_eq_append, List.getLast?_concat, hhead, bind_eq_bind,
        bind_some]
    · rwa [concat_eq_append, append_assoc]

end Update

end Pool

end XSBEngine.Library
