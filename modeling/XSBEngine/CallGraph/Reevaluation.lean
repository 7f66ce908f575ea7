import XSBEngine.CallGraph.Edges
import XSBEngine.CallGraph.Propagation

/-!
# Invalidation and evaluation again

The marks of the nodes when calls are made, invalidated and evaluated again:
`makecallnode`, `XSB/emu/call_graph_xsb.c:210–230`, the take-over of an old call,
`XSB/emu/slginsts_xsb_i.h:358–376`, and its end, `XSB/emu/tables.c:757–804`.
-/

namespace XSBEngine.CallGraph

open Finset Function Relation

namespace IdgFlags

/-- The marks of a new node. -/
def makecallnode (f : IdgFlags) (cn : Nat) : IdgFlags := (f.setFalsecount cn 0).restore cn

/-- The marks of an old node, of which the call is evaluated again. -/
def stopUnmarking (f : IdgFlags) (old : Nat) : IdgFlags :=
  (f.setFalsecount old 0).setDeleted old true

variable (f : IdgFlags) (cn x : Nat)

theorem falsecount_makecallnode :
    (f.makecallnode cn).falsecount x = if x = cn then 0 else f.falsecount x :=
  f.falsecount_setFalsecount ..

theorem deleted_makecallnode :
    (f.makecallnode cn).deleted x = if x = cn then false else f.deleted x :=
  deleted_restore ..

theorem falsecount_stopUnmarking :
    (f.stopUnmarking cn).falsecount x = if x = cn then 0 else f.falsecount x :=
  f.falsecount_setFalsecount ..

theorem deleted_stopUnmarking :
    (f.stopUnmarking cn).deleted x = if x = cn then true else f.deleted x :=
  deleted_setDeleted ..

end IdgFlags

/-- The graph with the marks. For the statements the state also has, for each node, how often it
was invalidated itself while valid, and for each edge how often it counts without its source being
invalid: it was invalidated as a leaf, or is evaluated again or was found changed, and has not been
found unchanged since. -/
structure IdgState extends EdgeRun where
  idgDynLeaf : Nat → Bool
  flags : IdgFlags
  prevCall : Nat → Option Nat
  own : Nat → Nat
  stale : Nat → Nat → Nat

namespace IdgState

/-- What the walks read. -/
def idg (s : IdgState) (isCompleted : Nat → Bool) : Idg :=
  ⟨s.graph.table, s.idgDynLeaf, isCompleted⟩

/-- The state without nodes. -/
def start : IdgState where
  toEdgeRun := EdgeRun.start
  idgDynLeaf _ := false
  flags := ⟨fun _ => false, fun _ => false, fun _ => 0, fun _ => by decide⟩
  prevCall _ := none
  own _ := 0
  stale _ _ := 0

/-- A node is made for a call or a leaf. -/
def newCallNode (s : IdgState) (cn out : Nat) (dynLeaf : Bool) : IdgState where
  graph := s.graph.newCallNode cn out
  current := insert cn s.current
  live := insert cn s.live
  idgDynLeaf := update s.idgDynLeaf cn dynLeaf
  flags := s.flags.makecallnode cn
  prevCall := update s.prevCall cn none
  own := update s.own cn 0
  stale a b := if a = cn ∨ b = cn then 0 else s.stale a b

/-- A node is called from another. -/
def addcalledge (s : IdgState) (fromcn tocn : Nat) : IdgState :=
  { s with graph := s.graph.addcalledge fromcn tocn }

/-- A node has been invalidated. -/
def invalidateCall (s : IdgState) (cn : Nat) (f : IdgFlags) : IdgState :=
  { s with
    flags := f
    own := if s.flags.deleted cn then s.own else update s.own cn (s.own cn + 1)
    stale a b := s.stale a b + if a = cn ∧ s.idgDynLeaf cn = true ∧
      b ∈ s.graph.table cn then 1 else 0 }

/-- A new node takes over from an invalid one. -/
def takeOver (s : IdgState) (cn old : Nat) : IdgState where
  graph := s.graph.takeOver cn old
  current := insert cn (s.current.erase old)
  live := insert cn s.live
  idgDynLeaf := update s.idgDynLeaf cn false
  flags := (s.flags.makecallnode cn).stopUnmarking old
  prevCall := update s.prevCall cn (some old)
  own := update s.own cn 0
  stale a b := if b = cn then 0
    else if a = cn then s.stale old b + if b ∈ s.graph.table old then 1 else 0
    else s.stale a b

/-- The node that took over is completed. -/
def completeCall (s : IdgState) (cn old : Nat) (unchanged : Bool) (f : IdgFlags)
    (g : IncrDepGraph) :
    IdgState :=
  { s with
    graph := g
    live := s.live.erase old
    flags := f
    prevCall := update s.prevCall cn none
    stale a b := s.stale a b - if a = cn ∧ unchanged = true ∧ b ∈ s.graph.table cn then 1 else 0 }

/-- How much the counts grow, in an invalidation that does not overflow any. -/
def Fits (s : IdgState) (cn : Nat) (f : IdgFlags) (isCompleted : Nat → Bool) : Prop :=
  ∀ x, s.flags.falsecount x + (if x = cn then 1 else 0) + ((s.idg isCompleted).inedgesFrom s.current
    (fun a => a = cn || (f.deleted a && !s.flags.deleted a)) x).card < falsecountRange

end IdgState

/-- The operations. -/
inductive IdgEvent where
  | newCallNode (cn out : Nat) (dynLeaf : Bool)
  | addcalledge (fromcn tocn : Nat)
  | invalidateCall (cn : Nat)
  | takeOver (cn old : Nat)
  | completeCall (cn : Nat) (unchanged : Bool)

/-- One operation. An edge leads from a valid node to one under evaluation, which is valid; a node
is evaluated again if it is invalid; and no invalidation comes in between an evaluation. -/
inductive IdgState.Step : IdgState → IdgEvent → IdgState → Prop where
  | newCallNode {s : IdgState} {cn out : Nat} (dynLeaf : Bool) (hcn : cn ∉ s.live)
      (hout : ∀ a ∈ s.current, (s.graph.node a).outedges ≠ out) :
      Step s (.newCallNode cn out dynLeaf) (s.newCallNode cn out dynLeaf)
  | addcalledge {s : IdgState} {a b : Nat} (ha : a ∈ s.current) (hb : b ∈ s.current)
      (hvalid : s.flags.deleted a = false) (hleaf : s.idgDynLeaf b = false)
      (hcount : s.flags.falsecount b = 0) :
      Step s (.addcalledge a b) (s.addcalledge a b)
  | invalidateCall {s : IdgState} {cn : Nat} {f : IdgFlags} (isCompleted : Nat → Bool) (fuel : Nat)
      (hcn : cn ∈ s.current) (hlive : s.live = s.current)
      (hrun : (s.idg isCompleted).invalidateCall fuel s.flags cn = some (.done f))
      (hfits : s.flags.deleted cn = false → s.Fits cn f isCompleted) :
      Step s (.invalidateCall cn) (s.invalidateCall cn f)
  | takeOver {s : IdgState} {cn old : Nat} (hold : old ∈ s.current) (hcn : cn ∉ s.live)
      (hleaf : s.idgDynLeaf old = false) (hinvalid : s.flags.deleted old = true) :
      Step s (.takeOver cn old) (s.takeOver cn old)
  | completeCall {s : IdgState} {cn old : Nat} {unchanged : Bool} {f : IdgFlags}
      {g : IncrDepGraph} (isCompleted : Nat → Bool) (fuel : Nat) (hcn : cn ∈ s.current)
      (hprev : s.prevCall cn = some old)
      (hrun : (if unchanged then (s.idg isCompleted).propagateNoChange fuel s.flags old
        else some s.flags) = some f)
      (hdealloc : s.graph.deallocatePreviousCall old = some g) :
      Step s (.completeCall cn unchanged) (s.completeCall cn old unchanged f g)

/-- The runs of the operations. -/
def idgSystem : Library.System IdgState IdgEvent := ⟨(· = IdgState.start), IdgState.Step⟩

/-! ### The invariant -/

/-- What an edge counts towards its target. -/
def IdgState.pending (s : IdgState) (a b : Nat) : Nat :=
  s.stale a b + if s.flags.deleted a = true ∧ b ∈ s.graph.table a then 1 else 0

theorem IdgState.pending_congr {s s' : IdgState} {a x : Nat} (hstale : s'.stale a x = s.stale a x)
    (hdeleted : s'.flags.deleted a = s.flags.deleted a)
    (hmem : x ∈ s'.graph.table a ↔ x ∈ s.graph.table a) : s'.pending a x = s.pending a x := by
  simp only [pending, hstale, hdeleted, hmem]

theorem IdgState.pending_eq_zero {s : IdgState} {a x : Nat} (hstale : s.stale a x = 0)
    (hedge : s.flags.deleted a = true → x ∉ s.graph.table a) : s.pending a x = 0 := by
  rw [pending, hstale, if_neg fun hc => hedge hc.1 hc.2]

/-- The counts are those of the edges and of the invalidations. -/
structure IdgOK (s : IdgState) : Prop where
  edges : EdgesOK s.graph s.current s.live
  count : ∀ x ∈ s.current, s.flags.falsecount x = s.own x + ∑ a ∈ s.current, s.pending a x
  valid : ∀ x ∈ s.current, s.idgDynLeaf x = false →
    (s.flags.deleted x = true ↔ 0 < s.flags.falsecount x)
  leaf : ∀ x ∈ s.current, s.idgDynLeaf x = true → s.flags.deleted x = false
  outside : ∀ x, x ∉ s.current → s.flags.falsecount x = 0
  interior : ∀ a ∈ s.current, ∀ b ∈ s.graph.table a, s.idgDynLeaf b = false
  stale : ∀ a ∈ s.current, ∀ b ∈ s.current, b ∉ s.graph.table a → s.stale a b = 0
  prev : ∀ cn ∈ s.current, ∀ old, s.prevCall cn = some old → old ∈ s.live ∧ old ∉ s.current ∧
    (s.graph.node old).outedges = (s.graph.node cn).outedges ∧ s.flags.deleted cn = false ∧
    ∀ b ∈ s.graph.table cn, 0 < s.stale cn b ∨ s.flags.falsecount b = 0
  prevInj : ∀ a ∈ s.current, ∀ b ∈ s.current, ∀ old, s.prevCall a = some old →
    s.prevCall b = some old → a = b

namespace IdgOK

variable {s : IdgState} {a b cn old out fuel : Nat} {dynLeaf unchanged : Bool} {f : IdgFlags}
  {isCompleted : Nat → Bool} {g : IncrDepGraph}

theorem start : IdgOK IdgState.start := by
  constructor
  case edges => exact edgeSystem_invariant.init _ rfl
  all_goals simp [IdgState.start, EdgeRun.start]

theorem ne_of_fresh (h : IdgOK s) (hcn : cn ∉ s.live) (ha : a ∈ s.current) : a ≠ cn :=
  ne_of_mem_of_not_mem (h.edges.sub ha) hcn

/-- A new node has no edges, and it is valid. -/
theorem newCallNode (h : IdgOK s) (dynLeaf : Bool) (hcn : cn ∉ s.live)
    (hout : ∀ a ∈ s.current, (s.graph.node a).outedges ≠ out) :
    IdgOK (s.newCallNode cn out dynLeaf) := by
  obtain ⟨hnode, hself, htable⟩ := h.edges.node_newCallNode hcn hout
  have hne : ∀ a ∈ s.current, a ≠ cn := fun a ha => h.ne_of_fresh hcn ha
  have hcur : cn ∉ s.current := fun hc => hne cn hc rfl
  have hdeleted : ∀ a ∈ s.current, (s.flags.makecallnode cn).deleted a = s.flags.deleted a := by
    intro a ha
    rw [IdgFlags.deleted_makecallnode, if_neg (hne a ha)]
  have hcount : ∀ a ∈ s.current, (s.flags.makecallnode cn).falsecount a = s.flags.falsecount a := by
    intro a ha
    rw [IdgFlags.falsecount_makecallnode, if_neg (hne a ha)]
  have hpending : ∀ a ∈ s.current, ∀ x ∈ s.current,
      (s.newCallNode cn out dynLeaf).pending a x = s.pending a x := by
    intro a ha x hx
    apply IdgState.pending_congr _ (hdeleted a ha) (by rw [← htable a ha]; rfl)
    exact if_neg (by simp [hne a ha, hne x hx])
  have hpending_target : ∀ a ∈ s.current, (s.newCallNode cn out dynLeaf).pending a cn = 0 := by
    intro a ha
    apply IdgState.pending_eq_zero (if_pos (Or.inr rfl))
    intro _ hmem
    exact hcn (h.edges.table a ha cn (htable a ha ▸ hmem))
  have hpending_self : ∀ x, (s.newCallNode cn out dynLeaf).pending cn x = 0 := by
    intro x
    apply IdgState.pending_eq_zero (if_pos (Or.inl rfl))
    intro hdel
    simp [IdgState.newCallNode, IdgFlags.deleted_makecallnode] at hdel
  constructor
  case edges => exact h.edges.newCallNode hcn hout
  case count =>
    intro x hx
    show (s.flags.makecallnode cn).falsecount x = update s.own cn 0 x +
      ∑ a ∈ insert cn s.current, (s.newCallNode cn out dynLeaf).pending a x
    rw [sum_insert hcur, hpending_self, Nat.zero_add]
    rcases mem_insert.mp hx with rfl | hx
    · rw [IdgFlags.falsecount_makecallnode, if_pos rfl, update_self,
        sum_eq_zero hpending_target, Nat.add_zero]
    · rw [hcount x hx, update_of_ne (hne x hx), h.count x hx]
      congr 1
      apply sum_congr rfl
      exact fun a ha => (hpending a ha x hx).symm
  case valid =>
    intro x hx hleaf
    show (s.flags.makecallnode cn).deleted x = true ↔ 0 < (s.flags.makecallnode cn).falsecount x
    rcases mem_insert.mp hx with rfl | hx
    · simp [IdgFlags.deleted_makecallnode, IdgFlags.falsecount_makecallnode]
    · rw [hdeleted x hx, hcount x hx]
      apply h.valid x hx
      rw [← hleaf]
      exact (update_of_ne (hne x hx) ..).symm
  case leaf =>
    intro x hx hleaf
    show (s.flags.makecallnode cn).deleted x = false
    rcases mem_insert.mp hx with rfl | hx
    · simp [IdgFlags.deleted_makecallnode]
    · rw [hdeleted x hx]
      apply h.leaf x hx
      rw [← hleaf]
      exact (update_of_ne (hne x hx) ..).symm
  case outside =>
    intro x hx
    show (s.flags.makecallnode cn).falsecount x = 0
    rw [IdgFlags.falsecount_makecallnode]
    split
    next => rfl
    next => exact h.outside x fun hc => hx (mem_insert_of_mem hc)
  case interior =>
    refine (forall_mem_insert ..).mpr ⟨?_, ?_⟩
    · show ∀ b ∈ (s.graph.newCallNode cn out).table cn, _
      simp [hself]
    · intro a ha b hb
      have hb' : b ∈ s.graph.table a := htable a ha ▸ hb
      show update s.idgDynLeaf cn dynLeaf b = false
      rw [update_of_ne (ne_of_mem_of_not_mem (h.edges.table a ha b hb') hcn)]
      exact h.interior a ha b hb'
  case stale =>
    refine (forall_mem_insert ..).mpr ⟨?_, ?_⟩
    · exact fun b _ _ => if_pos (Or.inl rfl)
    · intro a ha b hbn hb
      show (if a = cn ∨ b = cn then 0 else s.stale a b) = 0
      split
      next => rfl
      next hne' =>
        apply h.stale a ha b ((mem_insert.mp hbn).resolve_left fun hc => hne' (Or.inr hc))
        rw [← htable a ha]
        exact hb
  case prev =>
    refine (forall_mem_insert ..).mpr ⟨?_, ?_⟩
    · intro old hold
      simp [IdgState.newCallNode] at hold
    · intro a ha old hold
      have hold' : s.prevCall a = some old := by
        rw [← hold]
        exact (update_of_ne (hne a ha) ..).symm
      obtain ⟨hlive, hretired, houts, hvalid, hcounts⟩ := h.prev a ha old hold'
      refine ⟨mem_insert_of_mem hlive, ?_, ?_, ?_, ?_⟩
      · exact fun hc => (mem_insert.mp hc).elim (ne_of_mem_of_not_mem hlive hcn) hretired
      · show ((s.graph.newCallNode cn out).node old).outedges =
          ((s.graph.newCallNode cn out).node a).outedges
        rw [hnode old hlive, hnode a (h.edges.sub ha), houts]
      · exact (hdeleted a ha).trans hvalid
      · intro b hb
        have hb' : b ∈ s.graph.table a := htable a ha ▸ hb
        have hbcn := ne_of_mem_of_not_mem (h.edges.table a ha b hb') hcn
        show 0 < (if a = cn ∨ b = cn then 0 else s.stale a b) ∨
          (s.flags.makecallnode cn).falsecount b = 0
        rw [if_neg (by simp [hne a ha, hbcn]), IdgFlags.falsecount_makecallnode, if_neg hbcn]
        exact hcounts b hb'
  case prevInj =>
    intro x hx y hy old hxold hyold
    have hmem : ∀ z ∈ insert cn s.current, (s.newCallNode cn out dynLeaf).prevCall z = some old →
        z ∈ s.current ∧ s.prevCall z = some old := by
      intro z hz hzold
      rcases mem_insert.mp hz with rfl | hz
      · simp [IdgState.newCallNode] at hzold
      · refine ⟨hz, ?_⟩
        rw [← hzold]
        exact (update_of_ne (hne z hz) ..).symm
    obtain ⟨hx', hxold'⟩ := hmem x hx hxold
    obtain ⟨hy', hyold'⟩ := hmem y hy hyold
    exact h.prevInj x hx' y hy' old hxold' hyold'

/-- An edge from a valid node counts nothing. -/
theorem addcalledge (h : IdgOK s) (ha : a ∈ s.current) (hb : b ∈ s.current)
    (hvalid : s.flags.deleted a = false) (hleaf : s.idgDynLeaf b = false)
    (hcount : s.flags.falsecount b = 0) : IdgOK (s.addcalledge a b) := by
  have htable : ∀ x ∈ s.current, ∀ y, y ∈ (s.addcalledge a b).graph.table x ↔
      y ∈ s.graph.table x ∨ x = a ∧ y = b := fun x hx y => h.edges.mem_table_addcalledge ha hx
  have hpending : ∀ x ∈ s.current, ∀ y, (s.addcalledge a b).pending x y = s.pending x y := by
    intro x hx y
    by_cases hxa : x = a
    · subst hxa
      simp [IdgState.pending, IdgState.addcalledge, hvalid]
    · exact IdgState.pending_congr rfl rfl
        ((htable x hx y).trans (or_iff_left fun hc => hxa hc.1))
  constructor
  case edges => exact h.edges.addcalledge ha (h.edges.sub hb)
  case count =>
    intro x hx
    show s.flags.falsecount x = s.own x + ∑ y ∈ s.current, (s.addcalledge a b).pending y x
    rw [h.count x hx]
    congr 1
    apply sum_congr rfl
    exact fun y hy => (hpending y hy x).symm
  case valid => exact h.valid
  case leaf => exact h.leaf
  case outside => exact h.outside
  case interior =>
    intro x hx y hy
    rcases (htable x hx y).mp hy with hy | ⟨-, rfl⟩
    · exact h.interior x hx y hy
    · exact hleaf
  case stale =>
    exact fun x hx y hyn hy => h.stale x hx y hyn fun hc => hy ((htable x hx y).mpr (Or.inl hc))
  case prev =>
    intro x hx old hold
    obtain ⟨hlive, hretired, houts, hdel, hcounts⟩ := h.prev x hx old hold
    refine ⟨hlive, hretired, ?_, hdel, ?_⟩
    · show ((s.graph.addcalledge a b).node old).outedges =
        ((s.graph.addcalledge a b).node x).outedges
      rw [IncrDepGraph.outedges_addcalledge, IncrDepGraph.outedges_addcalledge, houts]
    · intro y hy
      rcases (htable x hx y).mp hy with hy | ⟨-, rfl⟩
      · exact hcounts y hy
      · exact Or.inr hcount
  case prevInj => exact h.prevInj

/-- A new node takes over from an invalid one. -/
theorem takeOver (h : IdgOK s) (hold : old ∈ s.current) (hcn : cn ∉ s.live)
    (hinvalid : s.flags.deleted old = true) : IdgOK (s.takeOver cn old) := by
  obtain ⟨hnode, hself, htable, hother⟩ := h.edges.node_takeOver hcn old
  have hne : ∀ a ∈ s.current, a ≠ cn := fun a ha => h.ne_of_fresh hcn ha
  have hcur : cn ∉ s.current.erase old := fun hc => hne cn (mem_of_mem_erase hc) rfl
  have hdeleted : ∀ a ∈ s.current.erase old,
      ((s.flags.makecallnode cn).stopUnmarking old).deleted a = s.flags.deleted a := by
    intro a ha
    rw [IdgFlags.deleted_stopUnmarking, if_neg (ne_of_mem_erase ha),
      IdgFlags.deleted_makecallnode, if_neg (hne a (mem_of_mem_erase ha))]
  have hdeleted_self : ((s.flags.makecallnode cn).stopUnmarking old).deleted cn = false := by
    rw [IdgFlags.deleted_stopUnmarking, if_neg (hne old hold).symm,
      IdgFlags.deleted_makecallnode, if_pos rfl]
  have hcount : ∀ a ∈ s.current.erase old,
      ((s.flags.makecallnode cn).stopUnmarking old).falsecount a = s.flags.falsecount a := by
    intro a ha
    rw [IdgFlags.falsecount_stopUnmarking, if_neg (ne_of_mem_erase ha),
      IdgFlags.falsecount_makecallnode, if_neg (hne a (mem_of_mem_erase ha))]
  have hcount_self : ((s.flags.makecallnode cn).stopUnmarking old).falsecount cn = 0 := by
    rw [IdgFlags.falsecount_stopUnmarking, if_neg (hne old hold).symm,
      IdgFlags.falsecount_makecallnode, if_pos rfl]
  have hpending : ∀ a ∈ s.current.erase old, ∀ x ∈ s.current.erase old,
      (s.takeOver cn old).pending a x = s.pending a x := by
    intro a ha x hx
    apply IdgState.pending_congr _ (hdeleted a ha)
    · rw [← hother a (mem_of_mem_erase ha)]
      rfl
    · show (if x = cn then 0 else if a = cn then _ else s.stale a x) = s.stale a x
      rw [if_neg (hne x (mem_of_mem_erase hx)), if_neg (hne a (mem_of_mem_erase ha))]
  have hpending_self : ∀ x ∈ s.current.erase old,
      (s.takeOver cn old).pending cn x = s.pending old x := by
    intro x hx
    have hdel : (s.takeOver cn old).flags.deleted cn = false := hdeleted_self
    rw [IdgState.pending, if_neg (by simp [hdel]), IdgState.pending, Nat.add_zero]
    show (if x = cn then 0 else if cn = cn then _ else s.stale cn x) = _
    rw [if_neg (hne x (mem_of_mem_erase hx)), if_pos rfl]
    simp [hinvalid]
  have hpending_target : ∀ a ∈ insert cn (s.current.erase old),
      (s.takeOver cn old).pending a cn = 0 := by
    intro a ha
    apply IdgState.pending_eq_zero (if_pos rfl)
    intro hdel hmem
    rcases mem_insert.mp ha with rfl | ha
    · rw [show (s.takeOver a old).flags.deleted a = false from hdeleted_self] at hdel
      cases hdel
    · have hmem' : cn ∈ s.graph.table a := hother a (mem_of_mem_erase ha) ▸ hmem
      exact hcn (h.edges.table a (mem_of_mem_erase ha) cn hmem')
  constructor
  case edges => exact h.edges.takeOver hold hcn
  case count =>
    intro x hx
    show ((s.flags.makecallnode cn).stopUnmarking old).falsecount x = update s.own cn 0 x +
      ∑ a ∈ insert cn (s.current.erase old), (s.takeOver cn old).pending a x
    rcases mem_insert.mp hx with rfl | hx
    · rw [hcount_self, update_self, sum_eq_zero hpending_target, Nat.add_zero]
    · rw [hcount x hx, update_of_ne (hne x (mem_of_mem_erase hx)),
        h.count x (mem_of_mem_erase hx), sum_insert hcur, hpending_self x hx,
        ← add_sum_erase _ _ hold]
      congr 2
      apply sum_congr rfl
      exact fun a ha => (hpending a ha x hx).symm
  case valid =>
    intro x hx hleaf
    show ((s.flags.makecallnode cn).stopUnmarking old).deleted x = true ↔
      0 < ((s.flags.makecallnode cn).stopUnmarking old).falsecount x
    rcases mem_insert.mp hx with rfl | hx
    · simp [hdeleted_self, hcount_self]
    · rw [hdeleted x hx, hcount x hx]
      apply h.valid x (mem_of_mem_erase hx)
      rw [← hleaf]
      exact (update_of_ne (hne x (mem_of_mem_erase hx)) ..).symm
  case leaf =>
    intro x hx hleaf
    show ((s.flags.makecallnode cn).stopUnmarking old).deleted x = false
    rcases mem_insert.mp hx with rfl | hx
    · exact hdeleted_self
    · rw [hdeleted x hx]
      apply h.leaf x (mem_of_mem_erase hx)
      rw [← hleaf]
      exact (update_of_ne (hne x (mem_of_mem_erase hx)) ..).symm
  case outside =>
    intro x hx
    show ((s.flags.makecallnode cn).stopUnmarking old).falsecount x = 0
    rw [IdgFlags.falsecount_stopUnmarking, IdgFlags.falsecount_makecallnode]
    split
    next => rfl
    next hxold =>
      split
      next => rfl
      next =>
        apply h.outside x
        exact fun hc => hx (mem_insert_of_mem (mem_erase.mpr ⟨hxold, hc⟩))
  case interior =>
    have hinterior : ∀ a ∈ s.current, ∀ b ∈ s.graph.table a,
        update s.idgDynLeaf cn false b = false := by
      intro a ha b hb
      rw [update_of_ne (ne_of_mem_of_not_mem (h.edges.table a ha b hb) hcn)]
      exact h.interior a ha b hb
    refine (forall_mem_insert ..).mpr ⟨?_, ?_⟩
    · exact fun b hb => hinterior old hold b (htable ▸ hb)
    · exact fun a ha b hb => hinterior a (mem_of_mem_erase ha) b
        (hother a (mem_of_mem_erase ha) ▸ hb)
  case stale =>
    have hzero : ∀ b ∈ insert cn (s.current.erase old), ∀ a ∈ s.current, b ∉ s.graph.table a →
        b ≠ cn → s.stale a b = 0 := by
      intro b hbn a ha hb hbcn
      exact h.stale a ha b (mem_of_mem_erase ((mem_insert.mp hbn).resolve_left hbcn)) hb
    refine (forall_mem_insert ..).mpr ⟨?_, ?_⟩
    · intro b hbn hb
      have hb' : b ∉ s.graph.table old := fun hc => hb (htable ▸ hc)
      show (if b = cn then 0 else if cn = cn then
        s.stale old b + (if b ∈ s.graph.table old then 1 else 0) else s.stale cn b) = 0
      split
      next => rfl
      next hbcn => rw [if_pos rfl, hzero b hbn old hold hb' hbcn]
    · intro a ha b hbn hb
      have ha' := mem_of_mem_erase ha
      have hb' : b ∉ s.graph.table a := fun hc => hb (hother a ha' ▸ hc)
      show (if b = cn then 0 else if a = cn then _ else s.stale a b) = 0
      split
      next => rfl
      next hbcn => rw [if_neg (hne a ha'), hzero b hbn a ha' hb' hbcn]
  case prev =>
    refine (forall_mem_insert ..).mpr ⟨?_, ?_⟩
    · intro o ho
      have ho' : old = o := by simpa [IdgState.takeOver] using ho
      subst ho'
      refine ⟨mem_insert_of_mem (h.edges.sub hold), ?_, ?_, hdeleted_self, ?_⟩
      · intro hc
        rcases mem_insert.mp hc with heq | hc
        · exact hne old hold heq
        · exact ne_of_mem_erase hc rfl
      · show ((s.graph.takeOver cn old).node old).outedges =
          ((s.graph.takeOver cn old).node cn).outedges
        rw [hnode old (h.edges.sub hold), hself]
      · intro b hb
        have hb' : b ∈ s.graph.table old := htable ▸ hb
        apply Or.inl
        show 0 < (if b = cn then 0 else if cn = cn then
          s.stale old b + (if b ∈ s.graph.table old then 1 else 0) else s.stale cn b)
        rw [if_neg (ne_of_mem_of_not_mem (h.edges.table old hold b hb') hcn), if_pos rfl,
          if_pos hb']
        exact Nat.succ_pos _
    · intro a ha o ho
      have ha' := mem_of_mem_erase ha
      have ho' : s.prevCall a = some o := by
        rw [← ho]
        exact (update_of_ne (hne a ha') ..).symm
      obtain ⟨hlive, hretired, houts, hvalid, hcounts⟩ := h.prev a ha' o ho'
      refine ⟨mem_insert_of_mem hlive, ?_, ?_, (hdeleted a ha).trans hvalid, ?_⟩
      · intro hc
        rcases mem_insert.mp hc with heq | hc
        · exact ne_of_mem_of_not_mem hlive hcn heq
        · exact hretired (mem_of_mem_erase hc)
      · show ((s.graph.takeOver cn old).node o).outedges =
          ((s.graph.takeOver cn old).node a).outedges
        rw [hnode o hlive, hnode a (h.edges.sub ha'), houts]
      · intro b hb
        have hb' : b ∈ s.graph.table a := hother a ha' ▸ hb
        have hbcn := ne_of_mem_of_not_mem (h.edges.table a ha' b hb') hcn
        show 0 < (if b = cn then 0 else if a = cn then _ else s.stale a b) ∨
          ((s.flags.makecallnode cn).stopUnmarking old).falsecount b = 0
        rw [if_neg hbcn, if_neg (hne a ha'), IdgFlags.falsecount_stopUnmarking,
          IdgFlags.falsecount_makecallnode, if_neg hbcn]
        rcases hcounts b hb' with hstale | hzero
        · exact Or.inl hstale
        · apply Or.inr
          split
          next => rfl
          next => exact hzero
  case prevInj =>
    have hmem : ∀ z ∈ insert cn (s.current.erase old), ∀ o, (s.takeOver cn old).prevCall z =
      some o →
        z = cn ∧ o = old ∨ z ∈ s.current ∧ s.prevCall z = some o ∧ o ≠ old := by
      intro z hz o hzo
      rcases mem_insert.mp hz with rfl | hz
      · exact Or.inl ⟨rfl, by simpa [IdgState.takeOver, eq_comm] using hzo⟩
      · have hz' := mem_of_mem_erase hz
        have hzo' : s.prevCall z = some o := by
          rw [← hzo]
          exact (update_of_ne (hne z hz') ..).symm
        exact Or.inr ⟨hz', hzo', fun heq => (h.prev z hz' o hzo').2.1 (heq ▸ hold)⟩
    intro x hx y hy o hxo hyo
    rcases hmem x hx o hxo with ⟨rfl, hxold⟩ | ⟨hx', hxo', hxold⟩
    · rcases hmem y hy o hyo with ⟨rfl, -⟩ | ⟨-, -, hyold⟩
      · rfl
      · exact absurd hxold hyold
    · rcases hmem y hy o hyo with ⟨rfl, hyold⟩ | ⟨hy', hyo', -⟩
      · exact absurd hyold hxold
      · exact h.prevInj x hx' y hy' o hxo' hyo'

/-- The graph of the nodes in use, while no call is evaluated again. -/
theorem idg_on (h : IdgOK s) (hlive : s.live = s.current) (isCompleted : Nat → Bool) :
    (s.idg isCompleted).On s.current where
  closed a ha b hb := hlive ▸ h.edges.table a ha b hb
  nodup := h.edges.nodup
  interior := h.interior

/-- An invalidation adds its edges to the counts. -/
theorem pending_invalidateCall
    (hinv : Invalidated (s.idg isCompleted) s.current s.flags cn f)
    (hvalid : s.flags.deleted cn = false) (a x : Nat) :
    (s.invalidateCall cn f).pending a x = s.pending a x +
      if (a = cn || (f.deleted a && !s.flags.deleted a)) = true ∧ x ∈ s.graph.table a then 1
      else 0 := by
  simp only [IdgState.pending, IdgState.invalidateCall]
  have hdeleted := hinv.deleted a
  by_cases hacn : a = cn
  · subst hacn
    by_cases hleaf : s.idgDynLeaf a = true
    · have hf : f.deleted a = false := by
        apply Bool.eq_false_iff.mpr
        intro hd
        rcases hdeleted.mp hd with hd | ⟨-, hd⟩
        · rw [hvalid] at hd
          cases hd
        · rw [show s.idgDynLeaf a = false from hd] at hleaf
          cases hleaf
      simp [hf, hvalid, hleaf]
    · have hf : f.deleted a = true :=
        hdeleted.mpr (Or.inr ⟨.refl, Bool.eq_false_iff.mpr hleaf⟩)
      simp [hf, hvalid, hleaf]
  · cases hd : s.flags.deleted a with
    | true =>
      have hf : f.deleted a = true := hdeleted.mpr (Or.inl hd)
      simp [hacn, hf]
    | false =>
      by_cases hf : f.deleted a = true
      · simp [hacn, hf]
      · simp [hacn, hf]

/-- An invalidation keeps the counts. -/
theorem invalidateCall (h : IdgOK s) (hcn : cn ∈ s.current) (hlive : s.live = s.current)
    (hrun : (s.idg isCompleted).invalidateCall fuel s.flags cn = some (.done f))
    (hfits : s.flags.deleted cn = false → s.Fits cn f isCompleted) :
    IdgOK (s.invalidateCall cn f) := by
  have hon := h.idg_on hlive isCompleted
  by_cases hd : s.flags.deleted cn = true
  · -- the node is marked, and nothing is done
    rw [Idg.invalidateCall, if_pos hd] at hrun
    cases hrun
    have hleaf : s.idgDynLeaf cn ≠ true := by
      intro hleaf
      rw [h.leaf cn hcn hleaf] at hd
      cases hd
    have heq : s.invalidateCall cn s.flags = s := by
      simp [IdgState.invalidateCall, hd, hleaf]
    rw [heq]
    exact h
  · have hvalid := Bool.eq_false_iff.mpr hd
    have hinv := invalidateCall_done hon hcn hvalid hrun
    have hcount : ∀ x, f.falsecount x = s.flags.falsecount x + (if x = cn then 1 else 0) +
        ((s.idg isCompleted).inedgesFrom s.current
          (fun a => a = cn || (f.deleted a && !s.flags.deleted a)) x).card := by
      intro x
      rw [hinv.falsecount x, Nat.mod_eq_of_lt (hfits hvalid x)]
    constructor
    case edges => exact h.edges
    case count =>
      intro x hx
      show f.falsecount x = (if s.flags.deleted cn then s.own
        else update s.own cn (s.own cn + 1)) x +
          ∑ a ∈ s.current, (s.invalidateCall cn f).pending a x
      rw [if_neg hd, sum_congr rfl fun a _ => pending_invalidateCall hinv hvalid a x,
        sum_add_distrib, ← card_filter, hcount x, h.count x hx]
      have hown : update s.own cn (s.own cn + 1) x =
          s.own x + if x = cn then 1 else 0 := by
        by_cases hxcn : x = cn
        · rw [hxcn, update_self, if_pos rfl]
        · rw [update_of_ne hxcn, if_neg hxcn, Nat.add_zero]
      rw [hown, Idg.inedgesFrom]
      show s.own x + _ + _ + (s.current.filter fun a =>
        (a = cn || (f.deleted a && !s.flags.deleted a)) = true ∧ x ∈ s.graph.table a).card = _
      omega
    case valid =>
      intro x hx hleaf
      show f.deleted x = true ↔ 0 < f.falsecount x
      rw [hinv.marked_iff hon hcn hleaf, hcount x, h.valid x hx hleaf]
      split
      next hxcn => simp [hxcn]
      next hxcn =>
        simp only [hxcn, false_or]
        omega
    case leaf =>
      intro x hx hleaf
      show f.deleted x = false
      apply Bool.eq_false_iff.mpr
      intro hdel
      rcases (hinv.deleted x).mp hdel with hdel | ⟨-, hint⟩
      · rw [h.leaf x hx hleaf] at hdel
        cases hdel
      · have hleaf' : s.idgDynLeaf x = true := hleaf
        rw [show s.idgDynLeaf x = false from hint] at hleaf'
        cases hleaf'
    case outside =>
      intro x hx
      show f.falsecount x = 0
      have hcard : (s.idg isCompleted).inedgesFrom s.current
          (fun a => a = cn || (f.deleted a && !s.flags.deleted a)) x = ∅ := by
        apply filter_eq_empty_iff.mpr
        exact fun a ha hmem => hx (hon.closed a ha x hmem.2)
      rw [hcount x, hcard, h.outside x hx, if_neg (ne_of_mem_of_not_mem hcn hx).symm]
      rfl
    case interior => exact h.interior
    case stale =>
      intro a ha b hb hmem
      show s.stale a b + _ = 0
      rw [h.stale a ha b hb hmem, if_neg]
      rintro ⟨rfl, -, hc⟩
      exact hmem hc
    case prev =>
      intro a ha old hold
      obtain ⟨hold_live, hretired, -⟩ := h.prev a ha old hold
      exact absurd (hlive ▸ hold_live) hretired
    case prevInj => exact h.prevInj

/-- The counts in the form that the propagation takes. -/
theorem counted (h : IdgOK s) (isCompleted : Nat → Bool) : Counted (s.idg isCompleted) s.current ∅
    (fun x => s.own x + ∑ a ∈ s.current, s.stale a x) s.flags where
  count x hx := by
    rw [h.count x (hx.resolve_right (notMem_empty x)), Idg.inedgesFrom, card_filter, Nat.add_assoc,
      ← sum_add_distrib]
    rfl
  valid := h.valid
  leaf := h.leaf
  keeps x hx := absurd hx (notMem_empty x)
  outside _ x _ hx _ := h.outside x hx

/-- What the completion of a node does to the marks. -/
theorem completed (h : IdgOK s) (hcn : cn ∈ s.current) (hprev : s.prevCall cn = some old)
    (hrun : (if unchanged then (s.idg isCompleted).propagateNoChange fuel s.flags old
      else some s.flags) = some f) (g : IncrDepGraph) :
    Counted (s.idg isCompleted) s.current ∅
      (fun x => s.own x + ∑ a ∈ s.current, (s.completeCall cn old unchanged f g).stale a x) f ∧
      Retracts s.current s.flags f := by
  obtain ⟨-, -, houts, -, hcounts⟩ := h.prev cn hcn old hprev
  have hhasht : (s.idg isCompleted).hasht old = s.graph.table cn :=
    congrArg (fun o => (s.graph.outedge o).hasht) houts
  cases unchanged with
  | false =>
    cases hrun
    refine ⟨?_, .refl _⟩
    have hstale : (s.completeCall cn old false s.flags g).stale = s.stale := by
      funext a b
      simp [IdgState.completeCall]
    rw [hstale]
    exact h.counted isCompleted
  | true =>
    have hreports : Counted.Reports (s.idg isCompleted) ∅
        (fun x ↦ s.own x + ∑ a ∈ s.current, s.stale a x) s.flags
          ((s.idg isCompleted).hasht old) := by
      rw [hhasht]
      refine ⟨h.edges.nodup cn hcn, fun b hb => ⟨cn, hb⟩, h.interior cn hcn, fun b hb => ?_⟩
      rcases hcounts b hb with hstale | hzero
      · have hle := single_le_sum (f := fun a => s.stale a b) (fun _ _ => Nat.zero_le _) hcn
        exact Or.inl ⟨Nat.add_pos_right _ (hstale.trans_le hle),
          fun hc => absurd hc (notMem_empty b)⟩
      · exact Or.inr hzero
    obtain ⟨hcounted, hretracts⟩ := (h.counted isCompleted).propagate h.edges.nodup h.interior
      hreports hrun
    refine ⟨hcounted.congr fun x hx => ?_, hretracts⟩
    replace hx := hx.resolve_right (notMem_empty x)
    rw [hhasht, ← add_sum_erase _ _ hcn, ← add_sum_erase _ (fun a => s.stale a x) hcn]
    have hrest : ∑ a ∈ s.current.erase cn, (s.completeCall cn old true f g).stale a x =
        ∑ a ∈ s.current.erase cn, s.stale a x := by
      apply sum_congr rfl
      intro a ha
      simp [IdgState.completeCall, ne_of_mem_erase ha]
    rw [hrest]
    by_cases hmem : x ∈ s.graph.table cn
    · have hself : (s.completeCall cn old true f g).stale cn x = s.stale cn x - 1 := by
        simp [IdgState.completeCall, hmem]
      rw [hself, if_pos hmem]
      rcases hcounts x hmem with hstale | hzero
      · omega
      · have hcount := h.count x hx
        have hle : ∑ a ∈ s.current, s.stale a x ≤ ∑ a ∈ s.current, s.pending a x :=
          sum_le_sum fun a _ => Nat.le_add_right ..
        rw [← add_sum_erase _ _ hcn] at hle
        omega
    · have hself : (s.completeCall cn old true f g).stale cn x = s.stale cn x := by
        simp [IdgState.completeCall, hmem]
      rw [hself, if_neg hmem]
      omega

/-- The completion of a node keeps the counts. -/
theorem completeCall (h : IdgOK s) (hcn : cn ∈ s.current) (hprev : s.prevCall cn = some old)
    (hrun : (if unchanged then (s.idg isCompleted).propagateNoChange fuel s.flags old
      else some s.flags) = some f) (hdealloc : s.graph.deallocatePreviousCall old = some g) :
    IdgOK (s.completeCall cn old unchanged f g) := by
  obtain ⟨hold, hretired, -⟩ := h.prev cn hcn old hprev
  obtain ⟨hcounted, hretracts⟩ := h.completed hcn hprev hrun g
  obtain ⟨houts, hmem⟩ := IncrDepGraph.removeInedges_frame hdealloc
  have htable : ∀ a x, x ≠ old → (x ∈ g.table a ↔ x ∈ s.graph.table a) := by
    intro a x hx
    rw [IncrDepGraph.table, houts, hmem _ _ hx]
    rfl
  have hedges : EdgesOK g s.current (s.live.erase old) := by
    obtain ⟨g1, hrun1, hok1⟩ := h.edges.deallocatePreviousCall hold hretired
    rw [Option.some.inj (hdealloc.symm.trans hrun1)]
    exact hok1
  have hne : ∀ a ∈ s.current, a ≠ old := fun a ha => ne_of_mem_of_not_mem ha hretired
  have hsub : ∀ a ∈ s.current, ∀ x ∈ g.table a, x ∈ s.graph.table a := fun a ha x hx =>
    (htable a x (ne_of_mem_erase (hedges.table a ha x hx))).mp hx
  constructor
  case edges => exact hedges
  case count =>
    intro x hx
    show f.falsecount x = s.own x +
      ∑ a ∈ s.current, (s.completeCall cn old unchanged f g).pending a x
    rw [hcounted.count x (Or.inl hx), Idg.inedgesFrom, card_filter, Nat.add_assoc,
      ← sum_add_distrib]
    congr 1
    apply sum_congr rfl
    intro a ha
    have hiff := htable a x (hne x hx)
    simp only [IdgState.pending]
    congr 1
    show (if f.deleted a = true ∧ x ∈ s.graph.table a then 1 else 0) =
      if f.deleted a = true ∧ x ∈ g.table a then 1 else 0
    simp only [hiff]
  case valid => exact hcounted.valid
  case leaf => exact hcounted.leaf
  case outside =>
    intro x hx
    exact Nat.le_zero.mp ((hretracts.falsecount x).trans (h.outside x hx).le)
  case interior => exact fun a ha b hb => h.interior a ha b (hsub a ha b hb)
  case stale =>
    intro a ha b hb hmem'
    have hzero := h.stale a ha b hb fun hc => hmem' ((htable a b (hne b hb)).mpr hc)
    show s.stale a b - _ = 0
    rw [hzero, Nat.zero_sub]
  case prev =>
    intro a ha o ho
    have hacn : a ≠ cn := by
      rintro rfl
      simp [IdgState.completeCall] at ho
    have ho' : s.prevCall a = some o := by
      rw [← ho]
      exact (update_of_ne hacn ..).symm
    obtain ⟨hlive, hret, houts', hvalid, hcounts⟩ := h.prev a ha o ho'
    refine ⟨mem_erase.mpr ⟨?_, hlive⟩, hret, ?_, ?_, ?_⟩
    · rintro rfl
      exact hacn (h.prevInj a ha cn hcn o ho' hprev)
    · show (g.node o).outedges = (g.node a).outedges
      rw [houts, houts, houts']
    · apply Bool.eq_false_iff.mpr
      intro hd
      rw [hretracts.deleted a hd] at hvalid
      cases hvalid
    · intro b hb
      rcases hcounts b (hsub a ha b hb) with hstale | hzero
      · apply Or.inl
        show 0 < s.stale a b - if a = cn ∧ _ then 1 else 0
        rw [if_neg fun hc => hacn hc.1]
        exact hstale
      · exact Or.inr (Nat.le_zero.mp ((hretracts.falsecount b).trans hzero.le))
  case prevInj =>
    have hprev' : ∀ z o, (s.completeCall cn old unchanged f g).prevCall z = some o →
        s.prevCall z = some o := by
      intro z o hz
      by_cases hzcn : z = cn
      · simp [IdgState.completeCall, hzcn] at hz
      · rw [← hz]
        exact (update_of_ne hzcn ..).symm
    exact fun a ha b hb o hao hbo => h.prevInj a ha b hb o (hprev' a o hao) (hprev' b o hbo)

end IdgOK

/-- The counts are right after every operation. -/
theorem idgSystem_invariant : idgSystem.Invariant IdgOK := by
  constructor
  case init =>
    rintro _ rfl
    exact IdgOK.start
  case step =>
    intro s e s' h hstep
    cases hstep with
    | newCallNode dynLeaf hcn hout => exact h.newCallNode dynLeaf hcn hout
    | addcalledge ha hb hvalid hleaf hcount => exact h.addcalledge ha hb hvalid hleaf hcount
    | invalidateCall isCompleted fuel hcn hlive hrun hfits =>
      exact h.invalidateCall hcn hlive hrun hfits
    | takeOver hold hcn hleaf hinvalid => exact h.takeOver hold hcn hinvalid
    | completeCall isCompleted fuel hcn hprev hrun hdealloc =>
      exact h.completeCall hcn hprev hrun hdealloc

namespace IdgOK

variable {s : IdgState} {a b x : Nat}

/-- What the count of a node counts. -/
theorem falsecount_eq (h : IdgOK s) (hx : x ∈ s.current) : s.flags.falsecount x =
    s.own x + (s.current.filter fun a => s.flags.deleted a = true ∧ x ∈ s.graph.table a).card +
      ∑ a ∈ s.current, s.stale a x := by
  rw [h.count x hx, card_filter, Nat.add_assoc, ← sum_add_distrib]
  congr 1
  apply sum_congr rfl
  intro a _
  rw [IdgState.pending, Nat.add_comm]

/-- An invalid node affects invalid nodes only. -/
theorem invalid_closed (h : IdgOK s) (ha : a ∈ s.current) (hb : b ∈ s.current)
    (hd : s.flags.deleted a = true) (hab : b ∈ s.graph.table a) : s.flags.deleted b = true := by
  apply (h.valid b hb (h.interior a ha b hab)).mpr
  rw [h.count b hb]
  apply Nat.add_pos_right
  have hpos : 0 < s.pending a b := by
    rw [IdgState.pending, if_pos ⟨hd, hab⟩]
    exact Nat.succ_pos _
  exact hpos.trans_le (single_le_sum (f := fun a => s.pending a b)
    (fun _ _ => Nat.zero_le _) ha)

end IdgOK

/-- Small counts do not overflow. -/
theorem IdgState.fits {s : IdgState} {cn : Nat} {f : IdgFlags} {isCompleted : Nat → Bool}
    (hsmall : ∀ x, s.flags.falsecount x + s.current.card + 1 < falsecountRange) :
    s.Fits cn f isCompleted := by
  intro x
  have hcard := (s.idg isCompleted).card_inedgesFrom_le s.current
    (fun a => a = cn || (f.deleted a && !s.flags.deleted a)) x
  have hx := hsmall x
  split
  next => omega
  next => omega

end XSBEngine.CallGraph
