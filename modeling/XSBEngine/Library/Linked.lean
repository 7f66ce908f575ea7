import Mathlib

/-!
# Linked lists

Cells that a field `next` links one to another: the lists they form, and what an assignment to
one field does to them.
-/

namespace XSBEngine.Library

open List

variable {α : Type*} {next next' : α → Option α} {p q : Option α} {a b c : α} {l l₁ l₂ : List α}

/-- The cells of a list are linked from a pointer up to another one. -/
def Segment (next : α → Option α) : Option α → List α → Option α → Prop
  | p, [], q => p = q
  | p, a :: l, q => p = some a ∧ Segment next (next a) l q

/-- The cells that are linked from a pointer are those of a list. -/
def Linked (next : α → Option α) (p : Option α) (l : List α) : Prop := Segment next p l none

theorem segment_append :
    Segment next p (l₁ ++ l₂) q ↔ ∃ m, Segment next p l₁ m ∧ Segment next m l₂ q := by
  induction l₁ generalizing p with
  | nil => simp [Segment]
  | cons a l₁ ih => simp only [cons_append, Segment, ih, and_assoc, exists_and_left]

@[simp] theorem linked_nil : Linked next p [] ↔ p = none := Iff.rfl

@[simp] theorem linked_cons : Linked next p (a :: l) ↔ p = some a ∧ Linked next (next a) l :=
  Iff.rfl

theorem linked_append :
    Linked next p (l₁ ++ l₂) ↔ ∃ m, Segment next p l₁ m ∧ Linked next m l₂ :=
  segment_append

/-- A segment only depends on the fields of its own cells. -/
theorem Segment.congr (h : Segment next p l q) (hnext : ∀ x ∈ l, next x = next' x) :
    Segment next' p l q := by
  induction l generalizing p with
  | nil => exact h
  | cons a l ih =>
    obtain ⟨hp, h⟩ := h
    rw [hnext a mem_cons_self] at h
    exact ⟨hp, ih h fun x hx => hnext x (mem_cons_of_mem a hx)⟩

theorem Linked.congr (h : Linked next p l) (hnext : ∀ x ∈ l, next x = next' x) :
    Linked next' p l :=
  Segment.congr h hnext

/-- A pointer is linked to one list only. -/
theorem Linked.unique (h₁ : Linked next p l₁) (h₂ : Linked next p l₂) : l₁ = l₂ := by
  induction l₁ generalizing p l₂ with
  | nil =>
    cases l₂ with
    | nil => rfl
    | cons b l₂ => exact absurd (h₁.symm.trans h₂.1) (Option.some_ne_none b).symm
  | cons a l₁ ih =>
    cases l₂ with
    | nil => exact absurd (h₂.symm.trans h₁.1) (Option.some_ne_none a).symm
    | cons b l₂ =>
      obtain rfl : a = b := Option.some.inj (h₁.1.symm.trans h₂.1)
      rw [ih h₁.2 h₂.2]

/-- The cell of an occurrence starts the rest of the list. -/
theorem Linked.suffix (h : Linked next p (l₁ ++ a :: l₂)) : Linked next (some a) (a :: l₂) := by
  obtain ⟨m, -, rfl, h⟩ := linked_append.mp h
  exact ⟨rfl, h⟩

theorem Linked.next_eq (h : Linked next p (l₁ ++ a :: l₂)) : Linked next (next a) l₂ :=
  (linked_cons.mp h.suffix).2

/-- A list that ends has no cell twice. -/
theorem Linked.nodup (h : Linked next p l) : l.Nodup := by
  induction l generalizing p with
  | nil => exact nodup_nil
  | cons a l ih =>
    have hrest := (linked_cons.mp h).2
    refine nodup_cons.mpr ⟨fun ha => ?_, ih hrest⟩
    obtain ⟨l₁, l₂, rfl⟩ := append_of_mem ha
    have heq := hrest.unique hrest.next_eq
    have hlen := congrArg List.length heq
    simp only [length_append, length_cons] at hlen
    omega

theorem linked_head (h : Linked next p l) : p = l.head? := by
  cases l with
  | nil => exact h
  | cons a l => exact h.1

/-- Lists of the same cells start at the same one. -/
theorem Linked.start_unique (h₁ : Linked next p l₁) (h₂ : Linked next q l₂)
    (hmem : ∀ x, x ∈ l₁ ↔ x ∈ l₂) : p = q := by
  cases l₂ with
  | nil =>
    obtain rfl := eq_nil_iff_forall_not_mem.mpr fun x hx => not_mem_nil ((hmem x).mp hx)
    exact h₁.trans h₂.symm
  | cons a l₂ =>
    obtain ⟨front, rest, rfl⟩ := append_of_mem ((hmem a).mpr mem_cons_self)
    obtain ⟨rfl, -⟩ := linked_cons.mp h₂
    have hrest := h₁.suffix.unique h₂
    cases front with
    | nil => exact (linked_cons.mp h₁).1
    | cons b front =>
      have hb : b ∈ a :: rest := hrest ▸ (hmem b).mp mem_cons_self
      exact absurd (mem_append_right front hb) (nodup_cons.mp h₁.nodup).1

theorem Linked.next_head (h : Linked next p (l₁ ++ a :: l₂)) : next a = l₂.head? :=
  linked_head h.next_eq

section Update

variable [DecidableEq α]

/-- An assignment to a cell that is not in a segment. -/
theorem Segment.update (h : Segment next p l q) (ha : a ∉ l) (v : Option α) :
    Segment (Function.update next a v) p l q := by
  apply h.congr
  intro x hx
  rw [Function.update_of_ne (ne_of_mem_of_not_mem hx ha)]

theorem Linked.update (h : Linked next p l) (ha : a ∉ l) (v : Option α) :
    Linked (Function.update next a v) p l :=
  Segment.update h ha v

/-- A cell in front of a list. -/
theorem Linked.push (h : Linked next p l) (ha : a ∉ l) :
    Linked (Function.update next a p) (some a) (a :: l) := by
  refine ⟨rfl, ?_⟩
  rw [Function.update_self]
  exact h.update ha p

/-- The cells after `a` are replaced by another list. -/
theorem Linked.relink (h : Linked next p (l₁ ++ a :: l₂)) (hq : Linked next q l) (ha : a ∉ l) :
    Linked (Function.update next a q) p (l₁ ++ a :: l) := by
  have hnodup := h.nodup
  have ha1 : a ∉ l₁ := fun hmem =>
    (nodup_append.mp hnodup).2.2 a hmem a mem_cons_self rfl
  obtain ⟨m, hl1, rfl, -⟩ := linked_append.mp h
  refine linked_append.mpr ⟨some a, hl1.update ha1 q, rfl, ?_⟩
  rw [Function.update_self]
  exact hq.update ha q

/-- The cell after `a` is taken out. -/
theorem Linked.unlink (h : Linked next p (l₁ ++ a :: b :: l₂)) :
    Linked (Function.update next a (next b)) p (l₁ ++ a :: l₂) := by
  have hsuffix : Linked next (some a) (a :: b :: l₂) := h.suffix
  refine h.relink hsuffix.2.2 fun hmem => ?_
  exact (nodup_cons.mp hsuffix.nodup).1 (mem_cons_of_mem b hmem)

/-- A cell at the end. -/
theorem Linked.concat (h : Linked next p (l ++ [b])) (ha : a ∉ l ++ [b]) :
    Linked (Function.update (Function.update next b (some a)) a none) p (l ++ [b] ++ [a]) := by
  have hab : a ≠ b := by
    rintro rfl
    exact ha (mem_append_right l mem_cons_self)
  have hnil : Linked (Function.update next a none) (some a) [a] :=
    ⟨rfl, Function.update_self ..⟩
  have hba : b ∉ [a] := fun hmem => hab (mem_singleton.mp hmem).symm
  have hrelink := (h.update ha none).relink hnil hba
  rw [Function.update_comm hab.symm, append_assoc]
  exact hrelink

end Update

/-! ### Links back -/

/-- Each cell but the first has a link back to the one before it. -/
def BackLinked (prev : α → Option α) (l : List α) : Prop := l.IsChain fun a b => prev b = some a

/-- An assignment to the link back of a cell, if there is one. -/
def setPrev [DecidableEq α] (prev : α → Option α) : Option α → Option α → α → Option α
  | some b, q => Function.update prev b q
  | none, _ => prev

variable {prev prev' : α → Option α}

theorem setPrev_of_ne [DecidableEq α] (hp : p ≠ some a) : setPrev prev p q a = prev a := by
  cases p with
  | none => rfl
  | some b => exact Function.update_of_ne (fun hab => hp (congrArg some hab.symm)) q prev

theorem BackLinked.congr (h : BackLinked prev l) (hprev : ∀ x ∈ l.tail, prev x = prev' x) :
    BackLinked prev' l := by
  apply List.IsChain.imp_of_mem_tail_imp _ h
  intro x y _ hy hxy
  rw [← hprev y hy]
  exact hxy

theorem BackLinked.pop (h : BackLinked prev (a :: l)) : BackLinked prev l := List.IsChain.tail h

theorem BackLinked.prev_eq (h : BackLinked prev (l₁ ++ a :: b :: l₂)) : prev b = some a :=
  (isChain_append_cons_cons.mp h).2.1

/-- The links back to a new cell in front of a list. -/
theorem BackLinked.push [DecidableEq α] (h : BackLinked prev l) (hnodup : l.Nodup) :
    BackLinked (setPrev prev l.head? (some a)) (a :: l) := by
  cases l with
  | nil => exact isChain_singleton a
  | cons b l =>
    refine isChain_cons_cons.mpr ⟨Function.update_self .., ?_⟩
    apply h.congr
    intro x hx
    refine (setPrev_of_ne fun heq => ?_).symm
    exact (nodup_cons.mp hnodup).1 (Option.some.inj heq ▸ hx)

/-- The links back if the cell after `a` is taken out. -/
theorem BackLinked.unlink [DecidableEq α] (h : BackLinked prev (l₁ ++ a :: b :: l₂))
    (hnodup : (l₁ ++ a :: b :: l₂).Nodup) :
    BackLinked (setPrev prev l₂.head? (prev b)) (l₁ ++ a :: l₂) := by
  have hprev := h.prev_eq
  cases l₂ with
  | nil => exact (isChain_append_cons_cons.mp h).1
  | cons c l₂ =>
    obtain ⟨hfront, -, hback⟩ := isChain_append_cons_cons.mp h
    have hne : ∀ x ∈ l₁ ++ [a] ++ [b] ++ l₂, some c ≠ some x := by
      have hperm : (l₁ ++ [a] ++ [b] ++ c :: l₂).Perm (c :: (l₁ ++ [a] ++ [b] ++ l₂)) :=
        perm_middle
      have hnodup' : (c :: (l₁ ++ [a] ++ [b] ++ l₂)).Nodup := hperm.nodup_iff.mp (by simpa)
      intro x hx heq
      exact (nodup_cons.mp hnodup').1 (Option.some.inj heq ▸ hx)
    refine isChain_append_cons_cons.mpr ⟨?_, ?_, ?_⟩
    · apply BackLinked.congr hfront
      intro x hx
      refine (setPrev_of_ne (hne x ?_)).symm
      exact mem_append_left l₂ (mem_append_left [b] (mem_of_mem_tail hx))
    · show Function.update prev c (prev b) c = some a
      rw [Function.update_self, hprev]
    · apply BackLinked.congr (BackLinked.pop hback)
      intro x hx
      exact (setPrev_of_ne (hne x (mem_append_right _ hx))).symm

end XSBEngine.Library
