import Mathlib
import XSBEngine.Library.DepthFirst
import XSBEngine.Library.System

/-!
# The dependency graph of batched completion

`construct_dep_graph` and the check of `batched_compute_wfs`, `XSB/emu/wfs_xsb_i.h:80–254, 440–477`,
with `DFS_DGT` and `find_independent_scc`, `XSB/emu/scc_xsb.c:77–115`.
-/

namespace XSBEngine.Completion

open Function Library Library.DepthFirst List Relation

/-- The fields of the completion stack frames that the check uses. A frame is given by its
position, the oldest first. `compl_visited` is only `DELAYED` after the check. -/
structure AsccGraph where
  visited : Nat → Bool
  dgEdges : Nat → List Nat
  dgtEdges : Nat → List Nat

/-- What the check reads of the subgoals: their frames, and the subgoals that the generator, the
consumers and the completion suspensions of each were called from. -/
structure Subgoals where
  complSubgoalPtr : Nat → Nat
  complStackPtr : Nat → Nat
  isCompleted : Nat → Bool
  ptcpOfGen : Nat → Option Nat
  ptcpOfCons : Nat → List (Option Nat)
  ptcpOfCsusp : Nat → List (Option Nat)

namespace AsccGraph

/-- `New_Edge` for an edge of the graph and for its transpose. -/
def newEdge (g : AsccGraph) (fromFrame toFrame : Nat) : AsccGraph where
  visited := g.visited
  dgtEdges := update g.dgtEdges toFrame (fromFrame :: g.dgtEdges toFrame)
  dgEdges := update g.dgEdges fromFrame (toFrame :: g.dgEdges fromFrame)

/-- `add_ascc_edges`, where the caller has no `ptcp` if it is not tabled. -/
def addAsccEdges (e : Subgoals) (leader csf1 : Nat) (g : AsccGraph) : Option Nat → AsccGraph
  | none => g
  | some p =>
    if leader ≤ e.complStackPtr p ∧ e.isCompleted p = false then
      g.newEdge (e.complStackPtr p) csf1
    else g

/-- The frames from the leader to the newest one. -/
def asccFrames (leader height : Nat) : List Nat := List.range' leader (height - leader)

/-- `construct_dep_graph`. -/
def constructDepGraph (e : Subgoals) (leader height : Nat) (g : AsccGraph) : AsccGraph :=
  (asccFrames leader height).foldl (fun g csf1 =>
    let sourceSubg := e.complSubgoalPtr csf1
    if e.isCompleted sourceSubg then g
    else
      let g := addAsccEdges e leader csf1 g (e.ptcpOfGen sourceSubg)
      let g := (e.ptcpOfCons sourceSubg).foldl (addAsccEdges e leader csf1) g
      (e.ptcpOfCsusp sourceSubg).foldl (addAsccEdges e leader csf1) g) g

/-- `DFS_DGT`: the root of the last search over the transposed graph. -/
def dfsDGT (fuel leader height : Nat) (g : AsccGraph) : Option (AsccGraph × Option Nat) :=
  (visitAll g.dgtEdges fuel (asccFrames leader height) g.visited).map fun r =>
    ({ g with visited := r.1 }, r.2)

/-- `unvisit`. -/
def unvisit (leader height : Nat) (g : AsccGraph) : AsccGraph :=
  { g with visited := fun csf => if leader ≤ csf ∧ csf < height then false else g.visited csf }

/-- `find_independent_scc`. -/
def findIndependentScc (fuel : Nat) (g : AsccGraph) (u : Nat) : Option AsccGraph :=
  (visit g.dgEdges fuel u g.visited).map fun visited => { g with visited }

/-- The check of `batched_compute_wfs` up to the marks of the component that is completed. -/
def selectScc (e : Subgoals) (fuel leader height : Nat) (g : AsccGraph) : Option AsccGraph := do
  let (g, maxFinishCsf) ← dfsDGT fuel leader height (constructDepGraph e leader height g)
  findIndependentScc fuel (unvisit leader height g) (← maxFinishCsf)

/-- `reclaim_edge_space`. -/
def reclaimEdgeSpace (g : AsccGraph) (csf : Nat) : AsccGraph :=
  { g with dgEdges := update g.dgEdges csf [],
           dgtEdges := update g.dgtEdges csf [] }

/-- `push_completion_frame` and `compact_completion_frame` for a frame. -/
def initFrame (g : AsccGraph) (csf : Nat) : AsccGraph where
  visited := update g.visited csf false
  dgEdges := update g.dgEdges csf []
  dgtEdges := update g.dgtEdges csf []

/-- The compaction of the stack when the subgoals of some frames have been completed. -/
def compactFrames (completed : Nat → Bool) : List Nat → AsccGraph → Nat → AsccGraph × Nat
  | [], g, copyFrame => (g, copyFrame)
  | csf :: rest, g, copyFrame =>
    let g := g.reclaimEdgeSpace csf
    if completed csf then compactFrames completed rest g copyFrame
    else compactFrames completed rest (g.initFrame copyFrame) (copyFrame + 1)

end AsccGraph

open AsccGraph

/-! ### Construction of the graph -/

/-- The dependencies in the order in which they are added. -/
def dependencies (e : Subgoals) (leader height : Nat) : List (Nat × Option Nat) :=
  (asccFrames leader height).flatMap fun csf1 =>
    let sourceSubg := e.complSubgoalPtr csf1
    if e.isCompleted sourceSubg then []
    else ((e.ptcpOfGen sourceSubg :: e.ptcpOfCons sourceSubg) ++ e.ptcpOfCsusp sourceSubg).map
      (csf1, ·)

/-- The graph after some of the dependencies. -/
def addDependencies (e : Subgoals) (leader : Nat) (g : AsccGraph)
    (ds : List (Nat × Option Nat)) : AsccGraph :=
  ds.foldl (fun g d => addAsccEdges e leader d.1 g d.2) g

variable {e : Subgoals} {g g' : AsccGraph} {leader height fuel csf u v x y : Nat}
  {ds : List (Nat × Option Nat)}

theorem constructDepGraph_eq (e : Subgoals) (leader height : Nat) (g : AsccGraph) :
    constructDepGraph e leader height g =
      addDependencies e leader g (dependencies e leader height) := by
  unfold constructDepGraph dependencies addDependencies
  rw [foldl_flatMap]
  congr 1
  funext g csf1
  simp only
  split
  next => rfl
  next => simp [foldl_map, foldl_append]

theorem mem_asccFrames : csf ∈ asccFrames leader height ↔ leader ≤ csf ∧ csf < height := by
  rw [asccFrames, mem_range'_1]
  omega

/-- The two kinds of edge lists are those of a graph and of its transpose, and edges stay between
the frames of the component. -/
structure GraphOK (leader height : Nat) (g : AsccGraph) : Prop where
  transposed : Transposed g.dgEdges g.dgtEdges
  inside : ∀ x, ∀ y ∈ g.dgEdges x, (leader ≤ x ∧ x < height) ∧ leader ≤ y ∧ y < height

theorem GraphOK.newEdge (h : GraphOK leader height g) (hu : leader ≤ u ∧ u < height)
    (hv : leader ≤ v ∧ v < height) : GraphOK leader height (g.newEdge u v) where
  transposed x y := by
    have hxy := h.transposed x y
    unfold AsccGraph.newEdge
    simp only [update_apply]
    by_cases hx : x = u <;> by_cases hy : y = v
    · subst hx hy
      simp [hxy]
    · subst hx
      simp [hxy, hy, Ne.symm hy]
    · subst hy
      simp [hxy, hx, Ne.symm hx]
    · simp [hxy, hx, hy]
  inside x y hy := by
    unfold AsccGraph.newEdge at hy
    simp only [update_apply] at hy
    split at hy
    next hx =>
      subst hx
      rcases mem_cons.mp hy with rfl | hy
      · exact ⟨hu, hv⟩
      · exact h.inside x y hy
    next => exact h.inside x y hy

theorem GraphOK.addAsccEdges (h : GraphOK leader height g)
    (hframes : ∀ p, e.isCompleted p = false → e.complStackPtr p < height)
    (hcsf : leader ≤ csf ∧ csf < height) (p : Option Nat) :
    GraphOK leader height (addAsccEdges e leader csf g p) := by
  cases p with
  | none => exact h
  | some p =>
    rw [AsccGraph.addAsccEdges]
    split
    next hp => exact h.newEdge ⟨hp.1, hframes p hp.2⟩ hcsf
    next => exact h

theorem GraphOK.addDependencies (h : GraphOK leader height g)
    (hframes : ∀ p, e.isCompleted p = false → e.complStackPtr p < height)
    (hds : ∀ d ∈ ds, leader ≤ d.1 ∧ d.1 < height) :
    GraphOK leader height (addDependencies e leader g ds) := by
  induction ds generalizing g with
  | nil => exact h
  | cons d ds ih =>
    exact ih (h.addAsccEdges hframes (hds d mem_cons_self) d.2)
      fun d hd => hds d (mem_cons_of_mem _ hd)

theorem mem_dependencies {d : Nat × Option Nat} (h : d ∈ dependencies e leader height) :
    leader ≤ d.1 ∧ d.1 < height := by
  obtain ⟨csf1, hcsf, hd⟩ := mem_flatMap.mp h
  simp only at hd
  split at hd
  next => exact absurd hd not_mem_nil
  next =>
    obtain ⟨p, -, rfl⟩ := mem_map.mp hd
    exact mem_asccFrames.mp hcsf

theorem addDependencies_visited (e : Subgoals) (leader : Nat) (g : AsccGraph)
    (ds : List (Nat × Option Nat)) : (addDependencies e leader g ds).visited = g.visited := by
  induction ds generalizing g with
  | nil => rfl
  | cons d ds ih =>
    rw [addDependencies, foldl_cons]
    refine (ih _).trans ?_
    cases hp : d.2 with
    | none => rfl
    | some p =>
      rw [AsccGraph.addAsccEdges]
      split <;> rfl

/-! ### The component that is selected -/

/-- Frames that can be used for a check: no marks and no edges. -/
structure Clean (height : Nat) (g : AsccGraph) : Prop where
  visited : ∀ csf < height, g.visited csf = false
  dgEdges : ∀ csf, g.dgEdges csf = []
  dgtEdges : ∀ csf, g.dgtEdges csf = []

theorem Clean.graphOK (leader : Nat) (h : Clean height g) : GraphOK leader height g where
  transposed x y := by rw [h.dgEdges, h.dgtEdges, count_nil, count_nil]
  inside x y hy := by
    rw [h.dgEdges] at hy
    exact absurd hy not_mem_nil

/-- A frame of the selected component. -/
def Selected (leader height : Nat) (g : AsccGraph) (csf : Nat) : Prop :=
  leader ≤ csf ∧ csf < height ∧ g.visited csf = true

/-- The selected frames are a strongly connected component that no edge leaves. -/
structure IndependentScc (leader height : Nat) (g : AsccGraph) : Prop where
  nonempty : ∃ x, Selected leader height g x
  component : ∀ x, Selected leader height g x → ∀ y, Selected leader height g y ↔
    ReflTransGen (Edge g.dgEdges) x y ∧ ReflTransGen (Edge g.dgEdges) y x
  independent : ∀ x, Selected leader height g x → ∀ y ∈ g.dgEdges x, Selected leader height g y

theorem reach_inside {edges : Nat → List Nat}
    (h : ∀ x, ∀ y ∈ edges x, leader ≤ y ∧ y < height) (hx : leader ≤ x ∧ x < height)
    (hr : ReflTransGen (Edge edges) x y) : leader ≤ y ∧ y < height := by
  cases hr with
  | refl => exact hx
  | tail _ he => exact h _ _ he

/-- The marks of a search from the last root over the transposed graph. -/
theorem independentScc_of_visit {visited' : Nat → Bool} (hok : GraphOK leader height g)
    (hroot : LastRoot g.dgtEdges (asccFrames leader height) u)
    (hclean : ∀ csf, leader ≤ csf → csf < height → g.visited csf = false)
    (hspec : VisitSpec g.dgEdges u g.visited visited') :
    IndependentScc leader height { g with visited := visited' } := by
  have hu := mem_asccFrames.mp hroot.mem
  have hin : ∀ {x y}, leader ≤ x ∧ x < height → ReflTransGen (Edge g.dgEdges) x y →
      leader ≤ y ∧ y < height :=
    fun hx hr => reach_inside (fun x y hy => (hok.inside x y hy).2) hx hr
  have hiff : ∀ x, Selected leader height { g with visited := visited' } x ↔
      ReflTransGen (Edge g.dgEdges) u x := by
    intro x
    constructor
    · rintro ⟨hx, hx', hm⟩
      rcases hspec.sound x hm with hm | hm
      · rw [hclean x hx hx'] at hm
        cases hm
      · exact hm
    · intro hr
      obtain ⟨hx, hx'⟩ := hin hu hr
      refine ⟨hx, hx', ?_⟩
      induction hr with
      | refl => exact hspec.root
      | @tail y z hy he ih =>
        obtain ⟨hy1, hy2⟩ := hin hu hy
        by_cases hyu : y = u
        · subst hyu
          exact hspec.targets z he
        · exact hspec.closed y hyu (ih hy1 hy2) (hclean y hy1 hy2) z he
  have hback : ∀ x, ReflTransGen (Edge g.dgEdges) u x → ReflTransGen (Edge g.dgEdges) x u :=
    fun x hx => hroot.returns hok.transposed (mem_asccFrames.mpr (hin hu hx)) hx
  constructor
  case nonempty => exact ⟨u, (hiff u).mpr .refl⟩
  case component =>
    intro x hx y
    have hux := (hiff x).mp hx
    rw [hiff y]
    constructor
    · intro hy
      exact ⟨(hback x hux).trans hy, (hback y hy).trans hux⟩
    · exact fun hy => hux.trans hy.1
  case independent =>
    intro x hx y hy
    exact (hiff y).mpr (((hiff x).mp hx).tail hy)

/-- The check ends and selects an independent component. -/
theorem selectScc_spec (hclean : Clean height g) (hlt : leader < height) (hfuel : height ≤ fuel)
    (hframes : ∀ p, e.isCompleted p = false → e.complStackPtr p < height) :
    ∃ g', selectScc e fuel leader height g = some g' ∧
      g'.dgEdges = (constructDepGraph e leader height g).dgEdges ∧
      g'.dgtEdges = (constructDepGraph e leader height g).dgtEdges ∧
      GraphOK leader height g' ∧ (∀ csf < leader, g'.visited csf = false) ∧
      IndependentScc leader height g' := by
  have hok : GraphOK leader height (constructDepGraph e leader height g) := by
    rw [constructDepGraph_eq]
    exact (hclean.graphOK leader).addDependencies hframes fun d hd => mem_dependencies hd
  have hvisited : (constructDepGraph e leader height g).visited = g.visited := by
    rw [constructDepGraph_eq, addDependencies_visited]
  unfold selectScc
  generalize constructDepGraph e leader height g = g1 at hok hvisited ⊢
  have hcard : (Finset.Ico leader height).card ≤ fuel := by
    rw [Nat.card_Ico]
    omega
  have hdg : ∀ x ∈ Finset.Ico leader height, ∀ y ∈ g1.dgEdges x, y ∈ Finset.Ico leader height :=
    fun x _ y hy => Finset.mem_Ico.mpr (hok.inside x y hy).2
  have hdgt : ∀ x y, y ∈ g1.dgtEdges x → leader ≤ y ∧ y < height := by
    intro x y hy
    exact (hok.inside y x (hok.transposed.edge_iff.mpr hy)).1
  have hfalse : ∀ csf, leader ≤ csf → csf < height → g1.visited csf = false := by
    intro csf _ hc
    rw [hvisited]
    exact hclean.visited csf hc
  have hclosed : Closed g1.dgtEdges g1.visited := by
    intro x hx y hy
    have hx' := hok.inside y x (hok.transposed.edge_iff.mpr hy)
    rw [hfalse x hx'.2.1 hx'.2.2] at hx
    cases hx
  have hnodes : ∀ x ∈ Finset.Ico leader height, ∀ y ∈ g1.dgtEdges x,
      y ∈ Finset.Ico leader height :=
    fun x _ y hy => Finset.mem_Ico.mpr (hdgt x y hy)
  have horder : ∀ x ∈ asccFrames leader height, x ∈ Finset.Ico leader height :=
    fun x hx => Finset.mem_Ico.mpr (mem_asccFrames.mp hx)
  obtain ⟨visited1, u, hrun, hroot, hsound1⟩ := visitAll_spec hnodes horder
    (ne_nil_of_mem (mem_asccFrames.mpr ⟨le_refl leader, hlt⟩)) hcard
    (fun x hx => hfalse x (mem_asccFrames.mp hx).1 (mem_asccFrames.mp hx).2) hclosed
  have hu := mem_asccFrames.mp hroot.mem
  let g2 : AsccGraph := unvisit leader height { g1 with visited := visited1 }
  have hfalse2 : ∀ csf, leader ≤ csf → csf < height → g2.visited csf = false :=
    fun csf hc hc' => if_pos ⟨hc, hc'⟩
  obtain ⟨visited', hrun', hspec⟩ := visit_spec hdg
    (Finset.mem_Ico.mpr hu) (hfalse2 u hu.1 hu.2) ((Finset.card_filter_le _ _).trans hcard)
  have hok2 : GraphOK leader height g2 := ⟨hok.transposed, hok.inside⟩
  refine ⟨{ g1 with visited := visited' }, ?_, rfl, rfl, ⟨hok.transposed, hok.inside⟩, ?_, ?_⟩
  · simp only [dfsDGT, hrun]
    show findIndependentScc fuel g2 u = _
    unfold findIndependentScc
    rw [show g2.dgEdges = g1.dgEdges from rfl, hrun']
    rfl
  · -- The searches do not leave the frames from the leader on.
    intro csf hc
    apply Bool.eq_false_iff.mpr
    intro hm
    rcases hspec.sound csf hm with hm | hm
    · have hm' : visited1 csf = true := by
        simpa only [g2, unvisit, if_neg (show ¬ (leader ≤ csf ∧ csf < height) by omega)] using hm
      rcases hsound1 csf hm' with hm' | ⟨r, hr, hm'⟩
      · rw [hvisited, hclean.visited csf (by omega)] at hm'
        cases hm'
      · have := reach_inside (fun x y hy => hdgt x y hy) (mem_asccFrames.mp hr) hm'
        omega
    · have := reach_inside (fun x y hy => (hok.inside x y hy).2) hu hm
      omega
  · exact independentScc_of_visit (g := g2) hok2 hroot hfalse2 hspec

/-! ### Runs -/

/-- The frames and the height of the completion stack. -/
structure CheckState where
  graph : AsccGraph
  height : Nat

/-- New frames, checks after which some of the frames are completed, and pops. -/
inductive CheckEvent where
  | push
  | check (e : Subgoals) (leader : Nat) (completed : Nat → Bool)
  | pop (height : Nat)

/-- Runs from a stack without frames. After a check the subgoals of any frames may have been
completed, and the stack is compacted. -/
def checkSystem : System CheckState CheckEvent where
  init s := s.height = 0 ∧ Clean 0 s.graph
  step s ev s' := match ev with
    | .push => s' = ⟨s.graph.initFrame s.height, s.height + 1⟩
    | .check e leader completed => leader < s.height ∧
        (∀ p, e.isCompleted p = false → e.complStackPtr p < s.height) ∧
        ∃ g, selectScc e s.height leader s.height s.graph = some g ∧
          (s'.graph, s'.height) = compactFrames completed (asccFrames leader s.height) g leader
    | .pop height => height ≤ s.height ∧ s' = ⟨s.graph, height⟩

theorem Clean.initFrame (h : Clean height g) : Clean (height + 1) (g.initFrame height) where
  visited c hc := by
    unfold AsccGraph.initFrame
    simp only [update_apply]
    split
    next => rfl
    next hne => exact h.visited c (by omega)
  dgEdges c := by
    unfold AsccGraph.initFrame
    simp only [update_apply, h.dgEdges, ite_self]
  dgtEdges c := by
    unfold AsccGraph.initFrame
    simp only [update_apply, h.dgtEdges, ite_self]

/-- Frames are clean up to the one that is copied next, and those ahead are not marked or have
edges only if they are still to be compacted. -/
theorem compactFrames_clean (completed : Nat → Bool) {n copyFrame : Nat}
    (hcopy : copyFrame ≤ csf) (hvisited : ∀ c < copyFrame, g.visited c = false)
    (hedges : ∀ c, (c < csf ∨ csf + n ≤ c) → g.dgEdges c = [] ∧ g.dgtEdges c = []) :
    Clean (compactFrames completed (List.range' csf n) g copyFrame).2
      (compactFrames completed (List.range' csf n) g copyFrame).1 := by
  induction n generalizing csf copyFrame g with
  | zero =>
    refine ⟨hvisited, fun c => ?_, fun c => ?_⟩
    · exact (hedges c (by omega)).1
    · exact (hedges c (by omega)).2
  | succ n ih =>
    have hreclaim : ∀ c, (c < csf + 1 ∨ csf + 1 + n ≤ c) →
        (g.reclaimEdgeSpace csf).dgEdges c = [] ∧ (g.reclaimEdgeSpace csf).dgtEdges c = [] := by
      intro c hc
      unfold AsccGraph.reclaimEdgeSpace
      simp only [update_apply]
      by_cases hcc : c = csf
      · simp [hcc]
      · rw [if_neg hcc, if_neg hcc]
        exact hedges c (by omega)
    rw [List.range'_succ, compactFrames]
    split
    next => exact ih (by omega) hvisited hreclaim
    next =>
      apply ih (by omega)
      · intro c hc
        unfold AsccGraph.initFrame
        simp only [update_apply]
        split
        next => rfl
        next => exact hvisited c (by omega)
      · intro c hc
        unfold AsccGraph.initFrame
        simp only [update_apply]
        split
        next => exact ⟨rfl, rfl⟩
        next => exact hreclaim c hc

theorem checkSystem_clean : checkSystem.Invariant fun s => Clean s.height s.graph where
  init s hs := hs.1 ▸ hs.2
  step s ev s' h hstep := by
    cases ev with
    | push =>
      rw [show s' = _ from hstep]
      exact h.initFrame
    | check e leader completed =>
      obtain ⟨hlt, hframes, g, hsel, hcompact⟩ := hstep
      obtain ⟨g', hsel', -, -, hok, hbelow, -⟩ := selectScc_spec h hlt (le_refl _) hframes
      rw [hsel] at hsel'
      cases hsel'
      have hclean := compactFrames_clean completed (n := s.height - leader)
        (le_refl leader) hbelow fun c hc => ?_
      · rw [asccFrames] at hcompact
        rw [← hcompact] at hclean
        exact hclean
      · have hout : ¬ (leader ≤ c ∧ c < s.height) := by omega
        constructor
        · apply eq_nil_iff_forall_not_mem.mpr
          exact fun y hy => hout (hok.inside c y hy).1
        · apply eq_nil_iff_forall_not_mem.mpr
          exact fun y hy => hout (hok.inside y c (hok.transposed.edge_iff.mpr hy)).2
    | pop height =>
      obtain ⟨hle, rfl⟩ := hstep
      exact ⟨fun c hc => h.visited c (by simp only at hc; omega), h.dgEdges, h.dgtEdges⟩

/-- In every state of a run, the edge lists that are built are transposes of each other at every
point, and the check selects a component that no edge leaves. -/
theorem reachable_selects {s : CheckState} (h : checkSystem.Reachable s) (hlt : leader < s.height)
    (hframes : ∀ p, e.isCompleted p = false → e.complStackPtr p < s.height)
    (hfuel : s.height ≤ fuel) :
    (∀ ds, ds <+: dependencies e leader s.height →
      Transposed (addDependencies e leader s.graph ds).dgEdges
        (addDependencies e leader s.graph ds).dgtEdges) ∧
    ∃ g, selectScc e fuel leader s.height s.graph = some g ∧
      g.dgEdges = (addDependencies e leader s.graph (dependencies e leader s.height)).dgEdges ∧
      g.dgtEdges = (addDependencies e leader s.graph (dependencies e leader s.height)).dgtEdges ∧
      IndependentScc leader s.height g := by
  have hclean := checkSystem_clean.holds h
  constructor
  · intro ds hds
    have hok := (hclean.graphOK leader).addDependencies (e := e) hframes
      fun d hd => mem_dependencies (hds.subset hd)
    exact hok.transposed
  · obtain ⟨g, hsel, hdg, hdgt, -, -, hscc⟩ := selectScc_spec hclean hlt hfuel hframes
    rw [constructDepGraph_eq] at hdg hdgt
    exact ⟨g, hsel, hdg, hdgt, hscc⟩

/-- Frames without marks and edges. -/
def cleanGraph : AsccGraph := ⟨fun _ => false, fun _ => [], fun _ => []⟩

/-- Two frames on the stack. -/
def twoFrames : CheckState := ⟨(cleanGraph.initFrame 0).initFrame 1, 2⟩

theorem twoFrames_reachable : checkSystem.Reachable twoFrames := by
  have hstart : checkSystem.Reachable ⟨cleanGraph, 0⟩ :=
    .init ⟨rfl, fun _ _ => rfl, fun _ => rfl, fun _ => rfl⟩
  have hone : checkSystem.Reachable ⟨cleanGraph.initFrame 0, 1⟩ := hstart.step (e := .push) rfl
  exact hone.step (e := .push) rfl

/-- The second subgoal is called from the first one and calls nothing. -/
def callOnce : Subgoals where
  complSubgoalPtr csf := csf
  complStackPtr p := p
  isCompleted p := 2 ≤ p
  ptcpOfGen p := if p = 1 then some 0 else none
  ptcpOfCons _ := []
  ptcpOfCsusp _ := []

theorem twoFrames_selects :
    (∀ ds, ds <+: dependencies callOnce 0 2 →
      Transposed (addDependencies callOnce 0 twoFrames.graph ds).dgEdges
        (addDependencies callOnce 0 twoFrames.graph ds).dgtEdges) ∧
    ∃ g, selectScc callOnce 2 0 2 twoFrames.graph = some g ∧
      g.dgEdges = (addDependencies callOnce 0 twoFrames.graph (dependencies callOnce 0 2)).dgEdges ∧
      g.dgtEdges =
        (addDependencies callOnce 0 twoFrames.graph (dependencies callOnce 0 2)).dgtEdges ∧
      IndependentScc 0 2 g := by
  apply reachable_selects twoFrames_reachable
  · decide
  · intro p hp
    have hlt : ¬ 2 ≤ p := of_decide_eq_false hp
    exact Nat.lt_of_not_le hlt
  · exact le_refl 2

example : (selectScc callOnce 2 0 2 twoFrames.graph).map (fun g => (g.visited 0, g.visited 1)) =
    some (false, true) := by decide

end XSBEngine.Completion
