import Mathlib
import XSBEngine.Terms.Memory

/-!
# The test for cyclic terms

`is_cyclic`, `XSB/emu/std_pred_xsb_i.h:1329`, with the frames of `XSB/emu/basictypes.h:126–169`.
The first cell of every compound term on the path is overwritten by a mark and restored when
its frame is popped. No cell of the model is an interned term.
-/

namespace XSBEngine.Terms

open Function

/-- `CycleTrailFrame`. The numbers are bytes, and the parent is the term at the address. -/
structure CycleTrailFrame where
  cellAddr : Addr
  value : Cell
  argNum : Nat
  arity : Nat

/-- `clref_val` of a list or structure. -/
def clrefVal : Cell → Option Addr
  | .list a => some a
  | .struct a => some a
  | _ => none

/-- `push_cycle_trail`. -/
def pushCycleTrail (arity : Nat → Nat) (mem : Memory) : Cell → Option CycleTrailFrame
  | .struct a =>
    match mem a with
    | .functor psc => some ⟨a, mem a, 1, arity psc % 256⟩
    | _ => none
  | .list a => some ⟨a, mem a, 0, 1⟩
  | _ => none

/-- `pop_cycle_trail`. -/
def popCycleTrail (mem : Memory) (frame : CycleTrailFrame) : Memory :=
  update mem frame.cellAddr frame.value

/-- `unwind_cycle_trail`. -/
def unwindCycleTrail (mem : Memory) (trail : List CycleTrailFrame) : Memory :=
  trail.foldl popCycleTrail mem

/-- The loop of `is_cyclic`. The string is that of the mark `_$visited`. -/
def isCyclicLoop (arity : Nat → Nat) (visited : Nat) :
    Nat → Memory → List CycleTrailFrame → Option (Memory × Bool)
  | 0, _, _ => none
  | _ + 1, mem, [] => some (mem, false)
  | fuel + 1, mem, top :: rest =>
    if top.arity < top.argNum then isCyclicLoop arity visited fuel (popCycleTrail mem top) rest
    else
      let term := if top.argNum = 0 then top.value else mem (top.cellAddr.plus top.argNum)
      let top := { top with argNum := (top.argNum + 1) % 256 }
      match deref mem fuel term with
      | none => none
      | some term =>
        match clrefVal term with
        | none => isCyclicLoop arity visited fuel mem (top :: rest)
        | some a =>
          if mem a = .const .string visited then some (unwindCycleTrail mem (top :: rest), true)
          else
            match pushCycleTrail arity mem term with
            | none => none
            | some frame =>
              isCyclicLoop arity visited fuel
                (update mem a (.const .string visited)) (frame :: top :: rest)

/-- `is_cyclic`, with the memory afterwards. -/
def isCyclic (arity : Nat → Nat) (visited : Nat) (fuel : Nat) (mem : Memory) (term : Cell) :
    Option (Memory × Bool) :=
  match deref mem fuel term with
  | none => none
  | some term =>
    match clrefVal term with
    | none => some (mem, false)
    | some a =>
      match pushCycleTrail arity mem term with
      | none => none
      | some frame =>
        isCyclicLoop arity visited fuel (update mem a (.const .string visited)) [frame]

variable {arity : Nat → Nat} {visited n k : Nat} {mem mem' mem0 : Memory} {term : Cell}
  {trail : List CycleTrailFrame} {b : Bool}

theorem isCyclicLoop_mono {r : Memory × Bool} (h : isCyclicLoop arity visited n mem trail = some r)
    (hle : n ≤ k) : isCyclicLoop arity visited k mem trail = some r := by
  induction n generalizing k mem trail with
  | zero => cases h
  | succ n ih =>
    obtain ⟨k, rfl⟩ : ∃ j, k = j + 1 := ⟨k - 1, by omega⟩
    have hnk : n ≤ k := Nat.le_of_succ_le_succ hle
    cases trail with
    | nil => exact h
    | cons top rest =>
      simp only [isCyclicLoop] at h ⊢
      split at h
      next hlt => rw [if_pos hlt]; exact ih h hnk
      next hlt =>
        rw [if_neg hlt]
        split at h
        next => cases h
        next term hd =>
          rw [deref_mono hd hnk]
          simp only
          split at h
          next => exact ih h hnk
          next a ha =>
            split at h
            next hv => rw [if_pos hv]; exact h
            next hv =>
              rw [if_neg hv]
              split at h
              next => cases h
              next => exact ih h hnk

theorem isCyclic_mono {r : Memory × Bool} (h : isCyclic arity visited n mem term = some r)
    (hle : n ≤ k) : isCyclic arity visited k mem term = some r := by
  unfold isCyclic at h ⊢
  split at h
  next => cases h
  next term hd =>
    rw [deref_mono hd hle]
    simp only
    split at h
    next => exact h
    next a ha =>
      split at h
      next => cases h
      next => exact isCyclicLoop_mono h hle

end XSBEngine.Terms
