import Mathlib

/-!
# Circular queues

Queues in an array whose ends go round, and what a scan that does not go round sees of them.
-/

namespace XSBEngine.Library

open Function List

/-- A queue in the cells from `bottom` up to `top`, which may be below it. -/
structure Ring (α : Type*) where
  cell : Nat → α
  bottom : Nat
  top : Nat

namespace Ring

variable {α : Type*} {q : Ring α} {size : Nat} {a : α}

/-- The next position. -/
def next (size i : Nat) : Nat := (i + 1) % size

/-- A new element at the top. -/
def push (size : Nat) (q : Ring α) (a : α) : Ring α :=
  { q with cell := update q.cell q.top a, top := next size q.top }

/-- The element at the bottom is removed. -/
def rem (size : Nat) (q : Ring α) : Ring α := { q with bottom := next size q.bottom }

/-- Number of elements. -/
def length (size : Nat) (q : Ring α) : Nat :=
  if q.bottom ≤ q.top then q.top - q.bottom else q.top + size - q.bottom

/-- Position of an element. -/
def pos (size : Nat) (q : Ring α) (i : Nat) : Nat := (q.bottom + i) % size

/-- The elements, from the bottom on. -/
def contents (size : Nat) (q : Ring α) : List α :=
  (List.range (q.length size)).map fun i => q.cell (q.pos size i)

/-- What a loop over the positions from `bottom` up to `top` sees. -/
def scan (q : Ring α) : List α := (List.range' q.bottom (q.top - q.bottom)).map q.cell

/-- Both ends are positions. -/
structure WF (size : Nat) (q : Ring α) : Prop where
  bottom : q.bottom < size
  top : q.top < size

theorem next_lt (h : 0 < size) (i : Nat) : next size i < size := Nat.mod_lt _ h

theorem next_eq {i : Nat} (h : i < size) : next size i = if i + 1 = size then 0 else i + 1 := by
  unfold next
  split
  next heq => rw [heq, Nat.mod_self]
  next hne => exact Nat.mod_eq_of_lt (by omega)

theorem pos_eq {i : Nat} (h : q.WF size) (hi : i < size) :
    q.pos size i = if q.bottom + i < size then q.bottom + i else q.bottom + i - size := by
  have hbottom := h.bottom
  unfold pos
  split
  next hlt => exact Nat.mod_eq_of_lt hlt
  next hge => rw [Nat.mod_eq_sub_mod (by omega), Nat.mod_eq_of_lt (by omega)]

theorem WF.push (h : q.WF size) (a : α) : (q.push size a).WF size :=
  ⟨h.bottom, next_lt (Nat.zero_lt_of_lt h.top) _⟩

theorem WF.rem (h : q.WF size) : (q.rem size).WF size :=
  ⟨next_lt (Nat.zero_lt_of_lt h.top) _, h.top⟩

theorem length_lt (h : q.WF size) : q.length size < size := by
  have hbottom := h.bottom
  have htop := h.top
  unfold length
  split <;> omega

theorem length_eq_zero (h : q.WF size) : q.length size = 0 ↔ q.top = q.bottom := by
  have hbottom := h.bottom
  have htop := h.top
  unfold length
  split <;> omega

@[simp] theorem length_contents : (q.contents size).length = q.length size := by
  rw [contents, length_map, length_range]

section

variable (h : q.WF size)
include h

/-- The queue is full if its ends would meet. -/
theorem push_top_eq :
    (q.push size a).top = (q.push size a).bottom ↔ q.length size + 1 = size := by
  have hbottom := h.bottom
  have htop := h.top
  show next size q.top = q.bottom ↔ _
  rw [next_eq h.top, length]
  split <;> split <;> omega

theorem length_push (hroom : q.length size + 1 < size) :
    (q.push size a).length size = q.length size + 1 := by
  have hbottom := h.bottom
  have htop := h.top
  unfold length at hroom ⊢
  simp only [push, next_eq h.top]
  split at hroom <;> split <;> split <;> omega

theorem length_rem (hne : q.top ≠ q.bottom) :
    (q.rem size).length size + 1 = q.length size := by
  have hbottom := h.bottom
  have htop := h.top
  unfold length
  simp only [rem, next_eq h.bottom]
  split <;> split <;> split <;> omega

/-- A new element comes last. -/
theorem contents_push (hroom : q.length size + 1 < size) :
    (q.push size a).contents size = q.contents size ++ [a] := by
  have hbottom := h.bottom
  have htop := h.top
  have hlen := length_lt h
  have hpos : ∀ i < q.length size + 1, q.pos size i = q.top ↔ i = q.length size := by
    intro i hi
    rw [pos_eq h (by omega)]
    unfold length at hi ⊢
    split at hi <;> split <;> omega
  rw [contents, length_push h hroom, range_succ, map_append, contents]
  congr 1
  · apply map_congr_left
    intro i hi
    have hlt := mem_range.mp hi
    apply update_of_ne
    intro heq
    have := (hpos i (by omega)).mp heq
    omega
  · have hlast : q.pos size (q.length size) = q.top := (hpos _ (Nat.lt_succ_self _)).mpr rfl
    show [update q.cell q.top a (q.pos size (q.length size))] = [a]
    rw [hlast, update_self]

/-- The first element is at the bottom. -/
theorem contents_eq_cons (hne : q.top ≠ q.bottom) :
    q.contents size = q.cell q.bottom :: (q.rem size).contents size := by
  have hbottom := h.bottom
  have hlen := length_lt h
  rw [contents, ← length_rem h hne, range_succ_eq_map, map_cons, map_map, contents]
  congr 1
  · rw [pos, Nat.add_zero, Nat.mod_eq_of_lt hbottom]
  · apply map_congr_left
    intro i hi
    show q.cell ((q.bottom + (i + 1)) % size) = q.cell (((q.bottom + 1) % size + i) % size)
    rw [Nat.mod_add_mod, Nat.add_assoc, Nat.add_comm 1 i]

theorem contents_eq_nil (heq : q.top = q.bottom) : q.contents size = [] := by
  rw [contents, (length_eq_zero h).mpr heq]
  rfl

/-- A scan sees all elements if the top is not below the bottom, and none otherwise. -/
theorem scan_eq :
    q.scan = if q.bottom ≤ q.top then q.contents size else [] := by
  have htop := h.top
  split
  next hle =>
    rw [scan, contents, length, if_pos hle, List.range'_eq_map_range, map_map]
    apply map_congr_left
    intro i hi
    have hlt := mem_range.mp hi
    show q.cell (q.bottom + i) = q.cell (q.pos size i)
    rw [pos, Nat.mod_eq_of_lt (by omega)]
  next hlt =>
    rw [scan, Nat.sub_eq_zero_of_le (by omega)]
    rfl

end

end Ring

end XSBEngine.Library
