import XSBEngine.Completion.DepGraph

/-!
# Compaction of the completion stack

The end of `batched_compute_wfs`, `XSB/emu/wfs_xsb_i.h:464–478`, with `reclaim_edge_space` and
`compact_completion_frame`, `XSB/emu/tab_structs.h:520–529, 636–643`. Frames are copied towards the
leader over frames that have been read.
-/

namespace XSBEngine.Completion

open Function List

open AsccGraph (asccFrames)

/-- A completion stack frame. Lists stand for chains of answer list nodes and of edges. -/
structure CompletionFrame where
  subgoalPtr : Nat
  delRetList : List Nat
  levelNum : Int
  visited : Int
  dgEdges : List Nat
  dgtEdges : List Nat
deriving DecidableEq, Repr

/-- The frames by position, the fields of subgoals that refer to them, and the free edges. -/
structure ComplArea where
  frame : Nat → CompletionFrame
  complStackPtr : Nat → Nat
  isCompleted : Nat → Bool
  isReclaimed : Nat → Bool
  freeEdges : List Nat

namespace ComplArea

/-- `Free_Edge` for every edge of a list. -/
def freeEdge (free : List Nat) (edges : List Nat) : List Nat :=
  edges.foldl (fun free e => e :: free) free

/-- `reclaim_edge_space`. -/
def reclaimEdgeSpace (a : ComplArea) (csf : Nat) : ComplArea :=
  { a with
    freeEdges := freeEdge (freeEdge a.freeEdges (a.frame csf).dgEdges) (a.frame csf).dgtEdges
    frame := update a.frame csf { a.frame csf with dgEdges := [], dgtEdges := [] } }

/-- `compact_completion_frame`, without the step of `cp_frame`. -/
def compactCompletionFrame (a : ComplArea) (cpFrame csFrame subgoal : Nat) : ComplArea :=
  { a with
    frame := update a.frame cpFrame
      { a.frame cpFrame with
        subgoalPtr := subgoal, levelNum := (a.frame csFrame).levelNum, visited := 0,
        dgEdges := [], dgtEdges := [] } }

/-- `reclaim_incomplete_table_structs`, of which the flag of the subgoal is kept. -/
def reclaimIncompleteTableStructs (a : ComplArea) (subgoal : Nat) : ComplArea :=
  { a with isReclaimed := update a.isReclaimed subgoal true }

/-- One frame of the loop, with `CopyFrame`. -/
def compactStep (a : ComplArea) (copyFrame complStkFrame : Nat) : ComplArea × Nat :=
  let currSubg := (a.frame complStkFrame).subgoalPtr
  let a := a.reclaimEdgeSpace complStkFrame
  if a.isCompleted currSubg = false then
    let a := { a with complStackPtr := update a.complStackPtr currSubg copyFrame }
    (a.compactCompletionFrame copyFrame complStkFrame currSubg, copyFrame + 1)
  else (a.reclaimIncompleteTableStructs currSubg, copyFrame)

/-- The loop over the frames from the leader to `openreg`. -/
def compactLoop (a : ComplArea) (copyFrame : Nat) (frames : List Nat) : ComplArea × Nat :=
  frames.foldl (fun s csf => compactStep s.1 s.2 csf) (a, copyFrame)

/-- The frames from one position up to another. -/
def framesFrom (a : ComplArea) (leader height : Nat) : List CompletionFrame :=
  (asccFrames leader height).map a.frame

/-- The subgoal of a frame is not complete. -/
def incomplete (a : ComplArea) (csf : CompletionFrame) : Bool := !a.isCompleted csf.subgoalPtr

end ComplArea

open ComplArea

/-- What a frame is for after the compaction: its subgoal and level. -/
def CompletionFrame.contents (csf : CompletionFrame) : Nat × Int := (csf.subgoalPtr, csf.levelNum)

/-! ### One frame -/

section Steps

variable {a : ComplArea} {copyFrame csf p leader height : Nat}

theorem freeEdge_perm (free edges : List Nat) : (freeEdge free edges).Perm (edges ++ free) := by
  induction edges generalizing free with
  | nil => exact .refl free
  | cons e edges ih => exact (ih (e :: free)).trans perm_middle

@[simp] theorem compactStep_isCompleted (a : ComplArea) (copyFrame csf : Nat) :
    (a.compactStep copyFrame csf).1.isCompleted = a.isCompleted := by
  rw [compactStep]
  split <;> rfl

/-- The free edges after a frame. -/
theorem compactStep_freeEdges (a : ComplArea) (copyFrame csf : Nat) :
    (a.compactStep copyFrame csf).1.freeEdges.Perm
      ((a.frame csf).dgEdges ++ (a.frame csf).dgtEdges ++ a.freeEdges) := by
  have hperm : (a.reclaimEdgeSpace csf).freeEdges.Perm
      ((a.frame csf).dgEdges ++ (a.frame csf).dgtEdges ++ a.freeEdges) := by
    refine (freeEdge_perm _ _).trans ?_
    refine ((freeEdge_perm _ _).append_left _).trans ?_
    rw [← append_assoc]
    exact perm_append_comm.append_right _
  rw [compactStep]
  split <;> exact hperm

/-- A frame of a completed subgoal is passed. -/
theorem compactStep_completed (copyFrame : Nat) (h : a.incomplete (a.frame csf) = false) :
    a.compactStep copyFrame csf =
      ((a.reclaimEdgeSpace csf).reclaimIncompleteTableStructs (a.frame csf).subgoalPtr,
        copyFrame) := by
  have hc : a.isCompleted (a.frame csf).subgoalPtr = true := by simpa [incomplete] using h
  simp [compactStep, reclaimEdgeSpace, hc]

/-- Positions other than that of the frame and of its copy keep their contents. -/
theorem compactStep_frame_ne (hp : p ≠ csf) (hc : p ≠ copyFrame) :
    (a.compactStep copyFrame csf).1.frame p = a.frame p := by
  rw [compactStep]
  split
  · simp [compactCompletionFrame, reclaimEdgeSpace, hp, hc]
  · simp [reclaimIncompleteTableStructs, reclaimEdgeSpace, hp]

/-- A frame of a subgoal that is not complete is copied, all but its list of deleted returns. -/
theorem compactStep_incomplete (copyFrame : Nat) (h : a.incomplete (a.frame csf) = true) :
    (a.compactStep copyFrame csf).2 = copyFrame + 1 ∧
      ((a.compactStep copyFrame csf).1.frame copyFrame).contents = (a.frame csf).contents ∧
      ((a.compactStep copyFrame csf).1.frame copyFrame).visited = 0 ∧
      ((a.compactStep copyFrame csf).1.frame copyFrame).dgEdges = [] ∧
      ((a.compactStep copyFrame csf).1.frame copyFrame).dgtEdges = [] ∧
      (a.compactStep copyFrame csf).1.complStackPtr =
        update a.complStackPtr (a.frame csf).subgoalPtr copyFrame := by
  have hc : a.isCompleted (a.frame csf).subgoalPtr = false := by simpa [incomplete] using h
  simp [compactStep, reclaimEdgeSpace, compactCompletionFrame, CompletionFrame.contents, hc]

/-! ### The loop -/

/-- State of the loop at the frame `csf`: the copies are those of the incomplete frames so far. -/
structure Compacted (a : ComplArea) (leader csf : Nat) (s : ComplArea × Nat) : Prop where
  le : leader ≤ s.2 ∧ s.2 ≤ csf
  isCompleted : s.1.isCompleted = a.isCompleted
  copied : (s.1.framesFrom leader s.2).map CompletionFrame.contents =
    ((a.framesFrom leader csf).filter a.incomplete).map CompletionFrame.contents
  cleared : ∀ p, leader ≤ p → p < s.2 →
    (s.1.frame p).visited = 0 ∧ (s.1.frame p).dgEdges = [] ∧ (s.1.frame p).dgtEdges = []
  older : ∀ p < leader, s.1.frame p = a.frame p
  ahead : ∀ p, csf ≤ p → s.1.frame p = a.frame p
  backPtr : ∀ p, leader ≤ p → p < s.2 → s.1.complStackPtr (s.1.frame p).subgoalPtr = p
  otherPtr : ∀ subgoal, (∀ p, leader ≤ p → p < csf → a.isCompleted subgoal = false →
    (a.frame p).subgoalPtr ≠ subgoal) → s.1.complStackPtr subgoal = a.complStackPtr subgoal
  freed : s.1.freeEdges.Perm
    ((a.framesFrom leader csf).flatMap (fun f => f.dgEdges ++ f.dgtEdges) ++ a.freeEdges)

theorem asccFrames_self (leader : Nat) : asccFrames leader leader = [] := by simp [asccFrames]

theorem asccFrames_succ (h : leader ≤ csf) :
    asccFrames leader (csf + 1) = asccFrames leader csf ++ [csf] := by
  have hlen : csf + 1 - leader = (csf - leader) + 1 := by omega
  have hlast : leader + 1 * (csf - leader) = csf := by omega
  rw [asccFrames, asccFrames, hlen, List.range'_concat, hlast]

theorem framesFrom_succ (a : ComplArea) (h : leader ≤ csf) :
    a.framesFrom leader (csf + 1) = a.framesFrom leader csf ++ [a.frame csf] := by
  rw [framesFrom, asccFrames_succ h, map_append]
  rfl

theorem framesFrom_congr {b : ComplArea} (h : ∀ p, leader ≤ p → p < csf → b.frame p = a.frame p) :
    b.framesFrom leader csf = a.framesFrom leader csf := by
  apply map_congr_left
  intro p hp
  obtain ⟨hl, hc⟩ := mem_asccFrames.mp hp
  exact h p hl hc

theorem Compacted.init (a : ComplArea) (leader : Nat) : Compacted a leader leader (a, leader) where
  le := ⟨le_rfl, le_rfl⟩
  isCompleted := rfl
  copied := by simp [framesFrom, asccFrames_self]
  cleared p hl hp := by omega
  older p _ := rfl
  ahead p _ := rfl
  backPtr p hl hp := by omega
  otherPtr subgoal _ := rfl
  freed := by simp [framesFrom, asccFrames_self]

/-- A frame of the loop. No subgoal has two frames. -/
theorem Compacted.step {s : ComplArea × Nat} (h : Compacted a leader csf s)
    (hown : ∀ p, leader ≤ p → p < csf → a.incomplete (a.frame csf) = true →
      (a.frame p).subgoalPtr ≠ (a.frame csf).subgoalPtr) :
    Compacted a leader (csf + 1) (s.1.compactStep s.2 csf) := by
  obtain ⟨hl, hle⟩ := h.le
  have hread : s.1.frame csf = a.frame csf := h.ahead csf le_rfl
  have hinc : s.1.incomplete (s.1.frame csf) = a.incomplete (a.frame csf) := by
    simp only [incomplete, hread, h.isCompleted]
  have hfreed : (s.1.compactStep s.2 csf).1.freeEdges.Perm
      ((a.framesFrom leader (csf + 1)).flatMap (fun f => f.dgEdges ++ f.dgtEdges) ++
        a.freeEdges) := by
    refine (compactStep_freeEdges s.1 s.2 csf).trans ?_
    rw [hread, framesFrom_succ a (hl.trans hle), flatMap_append, flatMap_singleton]
    refine (h.freed.append_left _).trans ?_
    rw [← append_assoc]
    exact perm_append_comm.append_right _
  cases hi : a.incomplete (a.frame csf) with
  | false =>
    have hstep := compactStep_completed s.2 (hinc.trans hi)
    have hkeep : ∀ p, p ≠ csf → (s.1.compactStep s.2 csf).1.frame p = s.1.frame p := by
      intro p hp
      rw [hstep]
      simp [reclaimIncompleteTableStructs, reclaimEdgeSpace, hp]
    have htop : (s.1.compactStep s.2 csf).2 = s.2 := by rw [hstep]
    have hptr : (s.1.compactStep s.2 csf).1.complStackPtr = s.1.complStackPtr := by rw [hstep]; rfl
    constructor
    case le => rw [htop]; omega
    case isCompleted => rw [compactStep_isCompleted, h.isCompleted]
    case copied =>
      rw [htop, framesFrom_congr fun p _ hp => hkeep p (by omega), h.copied,
        framesFrom_succ a (hl.trans hle), filter_append]
      simp [hi]
    case cleared =>
      intro p hlp hp
      rw [htop] at hp
      rw [hkeep p (by omega)]
      exact h.cleared p hlp hp
    case older =>
      intro p hp
      rw [hkeep p (by omega)]
      exact h.older p hp
    case ahead =>
      intro p hp
      rw [hkeep p (by omega)]
      exact h.ahead p (by omega)
    case backPtr =>
      intro p hlp hp
      rw [htop] at hp
      rw [hptr, hkeep p (by omega)]
      exact h.backPtr p hlp hp
    case otherPtr =>
      intro subgoal hs
      rw [hptr]
      exact h.otherPtr subgoal fun p hlp hp => hs p hlp (by omega)
    case freed => exact hfreed
  | true =>
    obtain ⟨htop, hcont, hvis, hdg, hdgt, hptr⟩ :=
      compactStep_incomplete s.2 (hinc.trans hi)
    rw [hread] at hcont hptr
    have hkeep : ∀ p, p ≠ csf → p ≠ s.2 → (s.1.compactStep s.2 csf).1.frame p = s.1.frame p :=
      fun p hp hc => compactStep_frame_ne hp hc
    constructor
    case le => rw [htop]; omega
    case isCompleted => rw [compactStep_isCompleted, h.isCompleted]
    case copied =>
      rw [htop, framesFrom_succ _ hl, framesFrom_congr fun p _ hp => hkeep p (by omega) (by omega),
        map_append, h.copied, framesFrom_succ a (hl.trans hle), filter_append,
        map_append]
      simp [hi, hcont]
    case cleared =>
      intro p hlp hp
      rw [htop] at hp
      by_cases hps : p = s.2
      · rw [hps]
        exact ⟨hvis, hdg, hdgt⟩
      · rw [hkeep p (by omega) hps]
        exact h.cleared p hlp (by omega)
    case older =>
      intro p hp
      rw [hkeep p (by omega) (by omega)]
      exact h.older p hp
    case ahead =>
      intro p hp
      rw [hkeep p (by omega) (by omega)]
      exact h.ahead p (by omega)
    case backPtr =>
      intro p hlp hp
      rw [htop] at hp
      have hsubg : ((s.1.compactStep s.2 csf).1.frame s.2).subgoalPtr = (a.frame csf).subgoalPtr :=
        congrArg Prod.fst hcont
      by_cases hps : p = s.2
      · rw [hps, hptr, hsubg, update_self]
      · -- an earlier copy is that of another subgoal
        have hne : (s.1.frame p).subgoalPtr ≠ (a.frame csf).subgoalPtr := by
          have hmem : (s.1.frame p).contents ∈
              ((a.framesFrom leader csf).filter a.incomplete).map CompletionFrame.contents := by
            rw [← h.copied]
            exact mem_map_of_mem (mem_map_of_mem (mem_asccFrames.mpr ⟨hlp, by omega⟩))
          obtain ⟨f, hf, hfc⟩ := mem_map.mp hmem
          obtain ⟨q, hq, rfl⟩ := mem_map.mp (mem_filter.mp hf).1
          obtain ⟨hlq, hqc⟩ := mem_asccFrames.mp hq
          have hsub : (a.frame q).subgoalPtr = (s.1.frame p).subgoalPtr := congrArg Prod.fst hfc
          rw [← hsub]
          exact hown q hlq hqc hi
        rw [hkeep p (by omega) hps, hptr, update_of_ne hne]
        exact h.backPtr p hlp (by omega)
    case otherPtr =>
      intro subgoal hs
      have hcompl : a.isCompleted (a.frame csf).subgoalPtr = false := by
        simpa [incomplete] using hi
      have hne : subgoal ≠ (a.frame csf).subgoalPtr := fun he =>
        hs csf (hl.trans hle) (Nat.lt_succ_self csf) (by rw [he, hcompl]) he.symm
      rw [hptr, update_of_ne hne]
      exact h.otherPtr subgoal fun p hlp hp => hs p hlp (by omega)
    case freed => exact hfreed

theorem Compacted.loop (hlh : leader ≤ height)
    (hown : ∀ p q, leader ≤ p → p < q → q < height → a.incomplete (a.frame q) = true →
      (a.frame p).subgoalPtr ≠ (a.frame q).subgoalPtr) :
    Compacted a leader height (a.compactLoop leader (asccFrames leader height)) := by
  induction height, hlh using Nat.le_induction with
  | base =>
    rw [asccFrames_self]
    exact .init a leader
  | succ csf hl ih =>
    rw [compactLoop, asccFrames_succ hl, foldl_append]
    refine (ih fun p q hlp hpq hq => hown p q hlp hpq (by omega)).step fun p hlp hp => ?_
    exact hown p csf hlp hp (Nat.lt_succ_self csf)

end Steps

/-! ### The completion stack -/

/-- The completion stack up to `openreg`, where a subgoal that is not complete points to its
frame. -/
structure CompletionStack extends ComplArea where
  height : Nat
  ownFrame : ∀ csf < height, isCompleted (frame csf).subgoalPtr = false →
    complStackPtr (frame csf).subgoalPtr = csf

namespace CompletionStack

variable (s : CompletionStack) (leader : Fin s.height)

/-- No frame has the subgoal of an incomplete one. -/
theorem frames_ne {p q : Nat} (hpq : p < q) (hq : q < s.height)
    (hi : s.incomplete (s.frame q) = true) : (s.frame p).subgoalPtr ≠ (s.frame q).subgoalPtr := by
  intro he
  have hc : s.isCompleted (s.frame q).subgoalPtr = false := by simpa [incomplete] using hi
  have hp := s.ownFrame p (hpq.trans hq) (by rw [he, hc])
  rw [he, s.ownFrame q hq hc] at hp
  omega

theorem compacted : Compacted s.toComplArea leader s.height
    (s.compactLoop leader (asccFrames leader s.height)) :=
  .loop leader.isLt.le fun _ _ _ hpq hq hi => s.frames_ne hpq hq hi

/-- The stack after the compaction from a leader. -/
def compact : CompletionStack where
  toComplArea := (s.compactLoop leader (asccFrames leader s.height)).1
  height := (s.compactLoop leader (asccFrames leader s.height)).2
  ownFrame csf hcsf hc := by
    have h := s.compacted leader
    rcases Nat.lt_or_ge csf leader with hlt | hge
    · -- an older frame stays, and so does the pointer to it
      rw [h.older csf hlt, h.isCompleted] at hc
      rw [h.older csf hlt, h.otherPtr, s.ownFrame csf (hlt.trans leader.isLt) hc]
      intro p hlp hp hcp
      have hi : s.incomplete (s.frame p) = true → (s.frame csf).subgoalPtr ≠
          (s.frame p).subgoalPtr := s.frames_ne (hlt.trans_le hlp) hp
      intro he
      refine hi ?_ he.symm
      simp [incomplete, he, hc]
    · exact h.backPtr csf hge hcsf

/-- After the compaction the incomplete subgoals from the leader on have frames in their old order
with the same levels, to which they point. No frame is marked as visited or has edges, all of which
have been freed; the frames before the leader are as they were. -/
theorem compact_incomplete :
    ((s.compact leader).framesFrom leader (s.compact leader).height).map CompletionFrame.contents =
        ((s.framesFrom leader s.height).filter s.incomplete).map CompletionFrame.contents ∧
      (∀ csf, leader.val ≤ csf → csf < (s.compact leader).height →
        (s.compact leader).complStackPtr ((s.compact leader).frame csf).subgoalPtr = csf ∧
        ((s.compact leader).frame csf).visited = 0 ∧
        ((s.compact leader).frame csf).dgEdges = [] ∧
        ((s.compact leader).frame csf).dgtEdges = []) ∧
      (∀ csf < leader.val, (s.compact leader).frame csf = s.frame csf) ∧
      (s.compact leader).freeEdges.Perm
        ((s.framesFrom leader s.height).flatMap (fun f => f.dgEdges ++ f.dgtEdges) ++
          s.freeEdges) := by
  have h := s.compacted leader
  refine ⟨h.copied, fun csf hl hcsf => ?_, h.older, h.freed⟩
  exact ⟨h.backPtr csf hl hcsf, h.cleared csf hl hcsf⟩

end CompletionStack

/-- Subgoal 1, completed, and above it subgoal 2 with a deleted return and an edge. -/
def completedLeader : CompletionStack where
  frame csf :=
    if csf = 0 then ⟨1, [], 1, 1, [10], []⟩ else ⟨2, [7], 1, 0, [], [11]⟩
  complStackPtr subgoal := subgoal - 1
  isCompleted subgoal := subgoal == 1
  isReclaimed _ := false
  freeEdges := []
  height := 2
  ownFrame := by decide

/-- The frame of subgoal 2 loses its edge and its list of deleted returns. -/
theorem completedLeader_compact :
    ¬∀ (s : CompletionStack) (leader : Fin s.height),
      ((s.compact leader).framesFrom leader (s.compact leader).height).map
          (fun f => (f.contents, f.delRetList, f.dgEdges, f.dgtEdges)) =
        ((s.framesFrom leader s.height).filter s.incomplete).map
          (fun f => (f.contents, f.delRetList, f.dgEdges, f.dgtEdges)) := by
  intro h
  have h0 := h completedLeader ⟨0, by decide⟩
  revert h0
  decide

end XSBEngine.Completion
