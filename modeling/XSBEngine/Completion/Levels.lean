import Mathlib
import XSBEngine.Library.System

/-!
# Levels on the completion stack

`push_completion_frame`, `adjust_level` and `is_leader`, `XSB/emu/tab_structs.h:565–620, 1053–1058`.
Frames whose level is the same belong to one approximate component; the oldest of them is its
leader.
-/

namespace XSBEngine.Completion

open Library List

/-- The fields of a completion stack frame that the level macros use. -/
structure ComplFrame where
  subgoalPtr : Nat
  level : Int
  visited : Bool
deriving Repr, DecidableEq

/-- The completion stack, oldest frame first, and the counter `level_num`. A frame is given by
its position; `openreg` is the last one. -/
structure ComplStack where
  frames : List ComplFrame
  levelNum : Int
deriving Repr, DecidableEq

namespace ComplStack

/-- `compl_level`. -/
def complLevel (s : ComplStack) (i : Nat) : Int := (s.frames.map ComplFrame.level).getD i 0

/-- `push_completion_frame`. -/
def pushCompletionFrame (s : ComplStack) (subgoal : Nat) : ComplStack where
  frames := s.frames ++ [⟨subgoal, s.levelNum + 1, false⟩]
  levelNum := s.levelNum + 1

/-- The loop of `adjust_level`, towards the younger frames. -/
def adjustFrames (newLevel : Int) : List ComplFrame → List ComplFrame
  | [] => []
  | csf :: next =>
    if newLevel ≤ csf.level then { csf with level := newLevel } :: adjustFrames newLevel next
    else csf :: next

/-- `adjust_level`, without the tripwire that counts the frames above the leader. -/
def adjustLevel (s : ComplStack) (i : Nat) : ComplStack :=
  let newLevel := s.complLevel i
  if newLevel < s.complLevel (s.frames.length - 1) then
    { s with frames := s.frames.take i ++ adjustFrames newLevel (s.frames.drop i) }
  else s

/-- `is_leader`. -/
def isLeader (s : ComplStack) (i : Nat) : Bool :=
  i = 0 || s.complLevel (i - 1) < s.complLevel i

/-- Completed frames are popped down to a height; `reclaim_stacks` resets the counter when the
outermost tabled call is done. -/
def popFrames (s : ComplStack) (height : Nat) (root : Bool) : ComplStack where
  frames := s.frames.take height
  levelNum := if root then 0 else s.levelNum

/-- The stack after `remove_incomplete_tries`, which sets the counter to the level on top. -/
def removeIncompleteTries (s : ComplStack) (height : Nat) : ComplStack where
  frames := s.frames.take height
  levelNum := if height = 0 then 0 else s.complLevel (height - 1)

end ComplStack

/-- A stack with, for each frame, the frames that calls have reached since it was pushed. -/
structure CallState where
  stack : ComplStack
  calls : List (List Nat)

/-- What a derivation does to the completion stack. -/
inductive LevelEvent where
  | push (subgoal : Nat)
  | call (frame : Nat)
  | pop (height : Nat) (root : Bool)
  | removeIncompleteTries (height : Nat)

/-- One step: a new subgoal, a call to an incomplete one, frames popped. -/
def CallState.next (s : CallState) : LevelEvent → CallState
  | .push subgoal => ⟨s.stack.pushCompletionFrame subgoal, s.calls ++ [[]]⟩
  | .call frame => ⟨s.stack.adjustLevel frame, s.calls.map (frame :: ·)⟩
  | .pop height root => ⟨s.stack.popFrames height root, s.calls.take height⟩
  | .removeIncompleteTries height =>
    ⟨s.stack.removeIncompleteTries height, s.calls.take height⟩

/-- Runs from the empty stack. A call reaches a frame that is on the stack, and frames are
popped as far as there are any. -/
def levelSystem : System CallState LevelEvent where
  init s := s = ⟨⟨[], 0⟩, []⟩
  step s e s' := s' = s.next e ∧ match e with
    | .push _ => True
    | .call frame => frame < s.stack.frames.length
    | .pop height root => height ≤ s.stack.frames.length ∧ (root = true → height = 0)
    | .removeIncompleteTries height => height ≤ s.stack.frames.length

/-! ### The levels after an operation -/

namespace ComplStack

variable {s : ComplStack} {i j height subgoal : Nat} {root : Bool}

/-- Levels do not decrease towards the top. -/
def Mono (s : ComplStack) : Prop :=
  ∀ i j, i ≤ j → j < s.frames.length → s.complLevel i ≤ s.complLevel j

theorem complLevel_eq (h : i < s.frames.length) : s.complLevel i = s.frames[i].level := by
  unfold complLevel
  rw [getD_eq_getElem _ _ (by simpa using h), getElem_map]

theorem complLevel_push (h : i < s.frames.length) :
    (s.pushCompletionFrame subgoal).complLevel i = s.complLevel i := by
  have hlen : i < (s.pushCompletionFrame subgoal).frames.length := by
    simp only [pushCompletionFrame, length_append, length_singleton]
    omega
  rw [complLevel_eq hlen, complLevel_eq h]
  simp only [pushCompletionFrame, getElem_append_left h]

theorem complLevel_push_top :
    (s.pushCompletionFrame subgoal).complLevel s.frames.length = s.levelNum + 1 := by
  rw [complLevel_eq (by simp [pushCompletionFrame])]
  simp [pushCompletionFrame]

theorem complLevel_take (root : Bool) (h : i < height) :
    (s.popFrames height root).complLevel i = s.complLevel i := by
  unfold complLevel popFrames
  simp only [map_take]
  rw [getD_eq_getElem?_getD, List.getElem?_take_of_lt h, ← getD_eq_getElem?_getD]

/-- On levels that are high enough the loop runs to the end. -/
theorem adjustFrames_level {newLevel : Int} {l : List ComplFrame}
    (h : ∀ csf ∈ l, newLevel ≤ csf.level) :
    (adjustFrames newLevel l).map ComplFrame.level = l.map fun _ => newLevel := by
  induction l with
  | nil => rfl
  | cons csf next ih =>
    rw [adjustFrames, if_pos (h csf mem_cons_self)]
    simp only [map_cons]
    rw [ih fun c hc => h c (mem_cons_of_mem _ hc)]

/-- The early stop of the loop is never taken, and every frame from the one called has its
level. -/
theorem complLevel_adjust (hmono : s.Mono) (hi : i < s.frames.length) (hj : j < s.frames.length) :
    (s.adjustLevel i).complLevel j = if i ≤ j then s.complLevel i else s.complLevel j := by
  unfold adjustLevel
  simp only
  split
  next hlt =>
    have hall : ∀ csf ∈ s.frames.drop i, s.complLevel i ≤ csf.level := by
      intro csf hc
      obtain ⟨k, hk, rfl⟩ := mem_iff_getElem.mp hc
      rw [length_drop] at hk
      rw [getElem_drop, ← complLevel_eq (by omega)]
      exact hmono i (i + k) (by omega) (by omega)
    have hlevels : ((s.frames.take i ++ adjustFrames (s.complLevel i) (s.frames.drop i)).map
        ComplFrame.level) = (s.frames.take i).map ComplFrame.level ++
          (s.frames.drop i).map fun _ => s.complLevel i := by
      rw [map_append, adjustFrames_level hall]
    show List.getD (List.map _ _) j 0 = _
    rw [hlevels]
    split
    next hij =>
      rw [getD_append_right _ _ _ _ (by simp; omega), getD_eq_getElem _ _ (by simp; omega)]
      simp
    next hij =>
      rw [getD_append _ _ _ _ (by simp; omega), map_take, getD_eq_getElem?_getD,
        List.getElem?_take_of_lt (by omega), ← getD_eq_getElem?_getD]
      rfl
  next hnlt =>
    split
    next hij =>
      have hlast := hmono i j hij hj
      have htop := hmono j (s.frames.length - 1) (by omega) (by omega)
      omega
    next hij => rfl

theorem length_adjustFrames (newLevel : Int) (l : List ComplFrame) :
    (adjustFrames newLevel l).length = l.length := by
  induction l with
  | nil => rfl
  | cons csf next ih =>
    rw [adjustFrames]
    split
    next => simp only [length_cons, ih]
    next => rfl

theorem length_adjustLevel (s : ComplStack) (i : Nat) :
    (s.adjustLevel i).frames.length = s.frames.length := by
  unfold adjustLevel
  simp only
  split
  next =>
    simp only [length_append, length_take, length_adjustFrames, length_drop]
    omega
  next => rfl

theorem levelNum_adjustLevel (s : ComplStack) (i : Nat) :
    (s.adjustLevel i).levelNum = s.levelNum := by
  unfold adjustLevel
  simp only
  split <;> rfl

end ComplStack

/-! ### The invariant -/

open ComplStack

variable {s : CallState} {i j height : Nat}

/-- The calls made since a frame was pushed. -/
def CallState.callsSince (s : CallState) (j : Nat) : List Nat := s.calls.getD j []

/-- What holds of the stack in every run. -/
structure LevelInv (s : CallState) : Prop where
  calls : s.calls.length = s.stack.frames.length
  mono : s.stack.Mono
  counter : ∀ i < s.stack.frames.length, s.stack.complLevel i ≤ s.stack.levelNum
  leader : ∀ j < s.stack.frames.length,
    s.stack.isLeader j = true ↔ ∀ i ∈ s.callsSince j, j ≤ i

theorem isLeader_iff {s : ComplStack} {j : Nat} :
    s.isLeader j = true ↔ j = 0 ∨ s.complLevel (j - 1) < s.complLevel j := by
  simp [isLeader]

theorem LevelInv.push (h : LevelInv s) (subgoal : Nat) : LevelInv (s.next (.push subgoal)) := by
  have hlen : (s.stack.pushCompletionFrame subgoal).frames.length =
      s.stack.frames.length + 1 := by
    simp [pushCompletionFrame]
  have hnum : (s.stack.pushCompletionFrame subgoal).levelNum = s.stack.levelNum + 1 := rfl
  constructor
  case calls =>
    show (s.calls ++ [[]]).length = (pushCompletionFrame _ _).frames.length
    rw [hlen, length_append, h.calls]
    rfl
  case mono =>
    intro i j hij hj
    rw [CallState.next, hlen] at hj
    show complLevel (pushCompletionFrame _ _) _ ≤ complLevel (pushCompletionFrame _ _) _
    by_cases hjn : j < s.stack.frames.length
    · rw [complLevel_push (by omega), complLevel_push hjn]
      exact h.mono i j hij hjn
    · have hje : j = s.stack.frames.length := by omega
      subst hje
      rw [complLevel_push_top]
      by_cases hin : i < s.stack.frames.length
      · rw [complLevel_push hin]
        have := h.counter i hin
        omega
      · have hie : i = s.stack.frames.length := by omega
        rw [hie, complLevel_push_top]
  case counter =>
    intro i hi
    rw [CallState.next, hlen] at hi
    show complLevel (pushCompletionFrame _ _) _ ≤ _
    rw [CallState.next, hnum]
    by_cases hin : i < s.stack.frames.length
    · rw [complLevel_push hin]
      have := h.counter i hin
      omega
    · have hie : i = s.stack.frames.length := by omega
      rw [hie, complLevel_push_top]
  case leader =>
    intro j hj
    rw [CallState.next, hlen] at hj
    show (pushCompletionFrame _ _).isLeader j = true ↔ ∀ i ∈ (s.calls ++ [[]]).getD j [], j ≤ i
    rw [isLeader_iff]
    by_cases hjn : j < s.stack.frames.length
    · rw [getD_append _ _ _ _ (by rw [h.calls]; exact hjn), complLevel_push (by omega),
        complLevel_push hjn, ← isLeader_iff]
      exact h.leader j hjn
    · -- A new frame is above every level so far, and no call has been made.
      have hje : j = s.stack.frames.length := by omega
      subst hje
      rw [getD_append_right _ _ _ _ (Nat.le_of_eq h.calls), h.calls]
      simp only [Nat.sub_self, getD_cons_zero]
      refine iff_of_true ?_ (by simp)
      by_cases hz : s.stack.frames.length = 0
      · exact .inl hz
      · right
        rw [complLevel_push_top, complLevel_push (by omega)]
        have := h.counter (s.stack.frames.length - 1) (by omega)
        omega

theorem LevelInv.call (h : LevelInv s) (hi : i < s.stack.frames.length) :
    LevelInv (s.next (.call i)) := by
  have hlen := length_adjustLevel s.stack i
  constructor
  case calls =>
    show (s.calls.map _).length = _
    rw [length_map, h.calls]
    exact hlen.symm
  case mono =>
    intro j k hjk hk
    rw [CallState.next, hlen] at hk
    show complLevel (adjustLevel _ _) _ ≤ complLevel (adjustLevel _ _) _
    rw [complLevel_adjust h.mono hi (by omega), complLevel_adjust h.mono hi hk]
    have hle := h.mono j k hjk hk
    split
    next hij => rw [if_pos (by omega)]
    next hij =>
      split
      next hik => exact h.mono j i (by omega) hi
      next hik => exact hle
  case counter =>
    intro j hj
    rw [CallState.next, hlen] at hj
    show complLevel (adjustLevel _ _) _ ≤ (adjustLevel _ _).levelNum
    rw [complLevel_adjust h.mono hi hj, levelNum_adjustLevel]
    split
    next => exact h.counter i hi
    next => exact h.counter j hj
  case leader =>
    intro j hj
    rw [CallState.next, hlen] at hj
    have hcalls : (s.next (.call i)).callsSince j = i :: s.callsSince j := by
      show (s.calls.map _).getD j [] = _
      rw [CallState.callsSince, getD_eq_getElem _ _ (by simp [h.calls, hj]),
        getD_eq_getElem _ _ (by simp [h.calls, hj]), getElem_map]
    rw [hcalls, forall_mem_cons, ← h.leader j hj]
    show (adjustLevel _ _).isLeader j = true ↔ _
    rw [isLeader_iff, isLeader_iff, complLevel_adjust h.mono hi (by omega),
      complLevel_adjust h.mono hi hj]
    by_cases hji : j ≤ i
    · -- The frames up to the one called keep their levels.
      rcases Nat.eq_zero_or_pos j with hz | hpos
      · simp [hz]
      · rw [if_neg (by omega)]
        split
        next hij =>
          have hje : j = i := by omega
          simp [hje]
        next hij => simp [hji]
    · -- A younger frame has the level of the one below it.
      rw [if_pos (by omega), if_pos (by omega)]
      constructor
      · rintro (hz | hlt)
        · omega
        · exact absurd hlt (lt_irrefl _)
      · rintro ⟨hle, -⟩
        exact absurd hle hji

/-- Frames that stay keep their levels, whatever the counter is set to. -/
theorem LevelInv.take (h : LevelInv s) (hh : height ≤ s.stack.frames.length) {levelNum : Int}
    (hnum : ∀ i < height, s.stack.complLevel i ≤ levelNum) :
    LevelInv ⟨⟨s.stack.frames.take height, levelNum⟩, s.calls.take height⟩ := by
  have hlen : (s.stack.frames.take height).length = height := length_take_of_le hh
  have hlevel : ∀ i < height, complLevel ⟨s.stack.frames.take height, levelNum⟩ i =
      s.stack.complLevel i := fun i hi => complLevel_take false hi
  constructor
  case calls =>
    show (s.calls.take height).length = _
    rw [hlen, length_take_of_le (by rw [h.calls]; exact hh)]
  case mono =>
    intro i j hij hj
    rw [hlen] at hj
    rw [hlevel i (by omega), hlevel j hj]
    exact h.mono i j hij (by omega)
  case counter =>
    intro i hi
    rw [hlen] at hi
    rw [hlevel i hi]
    exact hnum i hi
  case leader =>
    intro j hj
    rw [hlen] at hj
    have hcalls : CallState.callsSince ⟨⟨s.stack.frames.take height, levelNum⟩,
        s.calls.take height⟩ j = s.callsSince j := by
      show (s.calls.take height).getD j [] = _
      rw [CallState.callsSince, getD_eq_getElem?_getD, List.getElem?_take_of_lt hj,
        ← getD_eq_getElem?_getD]
    rw [hcalls, ← h.leader j (by omega), isLeader_iff, isLeader_iff, hlevel j hj,
      hlevel (j - 1) (by omega)]

theorem levelSystem_inv : levelSystem.Invariant LevelInv where
  init s hs := by
    rw [hs]
    refine ⟨rfl, ?_, ?_, ?_⟩
    · exact fun i j _ hj => absurd hj (Nat.not_lt_zero j)
    · exact fun i hi => absurd hi (Nat.not_lt_zero i)
    · exact fun j hj => absurd hj (Nat.not_lt_zero j)
  step s e s' h hstep := by
    obtain ⟨rfl, hok⟩ := hstep
    cases e with
    | push subgoal => exact h.push subgoal
    | call frame => exact h.call hok
    | pop height root =>
      obtain ⟨hh, hroot⟩ := hok
      apply h.take hh
      intro i hi
      split
      next hr => exact absurd (hroot hr) (by omega)
      next hr => exact h.counter i (by omega)
    | removeIncompleteTries height =>
      apply h.take hok
      intro i hi
      rw [if_neg (by omega)]
      exact h.mono i (height - 1) (by omega) (by simp only at hok; omega)

/-- Three subgoals, the second of which is called again by the third. -/
def threeSubgoals : CallState :=
  [LevelEvent.push 10, .push 20, .push 30, .call 1].foldl CallState.next ⟨⟨[], 0⟩, []⟩

theorem threeSubgoals_reachable : levelSystem.Reachable threeSubgoals := by
  refine .step (e := .call 1) (.step (e := .push 30) (.step (e := .push 20)
    (.step (e := .push 10) (.init rfl) ⟨rfl, trivial⟩) ⟨rfl, trivial⟩) ⟨rfl, trivial⟩) ⟨rfl, ?_⟩
  decide

example : (List.range 3).map threeSubgoals.stack.isLeader = [true, true, false] := by decide

end XSBEngine.Completion
