import XSBEngine.CallGraph.SccPop

/-!
# Runs of the component search

The loop over the edges of one node and the recursion, from the steps of `SccTransitions`
and `SccPop`.
-/

namespace XSBEngine.CallGraph

open List Relation SccState

section Run

variable {succ : Nat → List Nat} {n : Nat} {st st₀ st' : SccState} {gray : List Nat} {v y : Nat}

/-- The edge from `v` to `y` has been followed. -/
def Followed (st : SccState) (v y : Nat) : Prop :=
  st.Disc y ∧ (st.Active y → (st.nodes v).low ≤ (st.nodes y).dfn)

/-- State inside the loop over the edges of `v`, after the call for `v` started in `st₀`. -/
structure SccLoop (succ : Nat → List Nat) (n : Nat) (gray : List Nat) (v : Nat)
    (st₀ st : SccState) : Prop where
  inv : SccInv succ n st (v :: gray)
  frame : SccFrame succ v st₀ st
  dfn_eq : (st.nodes v).dfn = st₀.dfn
  stack_eq : (st.nodes v).stack = st₀.dfnTop
  low_min : ∀ x, st.Active x → ¬ st₀.Disc x → (st.nodes v).low ≤ (st.nodes x).low

theorem SccLoop.start (h : SccInv succ n st₀ gray) (hv : ¬ st₀.Disc v) (hvn : v < n)
    (ho : Opens succ st₀ gray v) : SccLoop succ n gray v st₀ (st₀.enter v) where
  inv := h.enter hv hvn ho
  frame := enter_frame hv
  dfn_eq := by rw [enter_nodes_self]
  stack_eq := by rw [enter_nodes_self]
  low_min x hx hx0 := by
    have hxv := ((enter_active h.dfn_pos (fun hd => hv (h.done_disc v hd)) x).mp hx).resolve_right
      (fun hx => hx0 hx.1)
    rw [hxv]

/-- The node of the loop is newer than what was discovered before its call. -/
theorem SccLoop.older (hl : SccLoop succ n gray v st₀ st) (h : SccInv succ n st₀ gray) {x : Nat}
    (hx : st₀.Disc x) : (st.nodes x).dfn < (st.nodes v).dfn := by
  rw [hl.frame.nodes x hx, hl.dfn_eq]
  exact h.dfn_lt x hx

theorem SccLoop.fresh (hl : SccLoop succ n gray v st₀ st) {x : Nat} (hx : st.Disc x)
    (hx₀ : ¬ st₀.Disc x) : (st.nodes v).dfn ≤ (st.nodes x).dfn := by
  rw [hl.dfn_eq]
  exact (hl.frame.fresh x hx hx₀).1

theorem SccFrame.lowerLow (hf : SccFrame succ v st₀ st) (hv : ¬ st₀.Disc v) :
    SccFrame succ v st₀ (st.lowerLow v y) := by
  obtain ⟨hs, ht, hn, -⟩ := lowerLow_fields st v y
  have hkept := lowerLow_kept st v y
  constructor
  case nodes =>
    intro x hx
    have hxv : x ≠ v := fun h => hv (h ▸ hx)
    rw [lowerLow_nodes_ne st hxv, hf.nodes x hx]
  case node => exact fun x => (hkept x).1.trans (hf.node x)
  case fresh =>
    intro x hx hx0
    rw [Disc, (hkept x).2.1] at hx
    rw [(hkept x).2.1]
    exact hf.fresh x hx hx0
  all_goals simp only [hs, ht, hn]
  case top => exact hf.top
  case stk => exact hf.stk
  case dfn => exact hf.dfn

/-- Lowering keeps the state of the loop. -/
theorem SccLoop.lowerLow (hl : SccLoop succ n gray v st₀ st) (hv : ¬ st₀.Disc v)
    (he : Edge succ v y) (hy : st.Active y) : SccLoop succ n gray v st₀ (st.lowerLow v y) where
  inv := hl.inv.lowerLow he (.inl hy)
  frame := hl.frame.lowerLow hv
  dfn_eq := by rw [(lowerLow_kept st v y v).2.1, hl.dfn_eq]
  stack_eq := by rw [(lowerLow_kept st v y v).2.2.2, hl.stack_eq]
  low_min x hx hx0 := by
    rw [lowerLow_active] at hx
    by_cases hxv : x = v
    · rw [hxv]
    · rw [lowerLow_nodes_ne st hxv]
      exact (lowerLow_low_le st v y v).trans (hl.low_min x hx hx0)

/-- A call for a child, followed by lowering, keeps the state of the loop. -/
theorem SccLoop.child (hl : SccLoop succ n gray v st₀ st) (hv : ¬ st₀.Disc v)
    (he : Edge succ v y) (hp : SccPost succ n (v :: gray) y st st') :
    SccLoop succ n gray v st₀ (st'.lowerLow v y) := by
  have hact_v := hl.inv.gray_active v (mem_cons_self ..)
  have hvd := hact_v.1
  have hsame := hp.frame.nodes v hvd
  -- Either the child is active, or it was popped with a `low` above the number of `v`.
  have hcase : st'.Active y ∨ (st'.nodes v).low ≤ (st'.nodes y).low := by
    refine (active_or_done hp.disc).imp_right fun hd => ?_
    have := hp.done_low hd
    have := hp.dfn_eq
    have := hl.inv.dfn_lt v hvd
    have := hl.inv.low_le v hact_v
    rw [hsame]
    omega
  constructor
  case inv => exact hp.inv.lowerLow he hcase
  case frame => exact (hl.frame.trans (.single he) hp.frame).lowerLow hv
  case dfn_eq => rw [(lowerLow_kept st' v y v).2.1, hsame, hl.dfn_eq]
  case stack_eq => rw [(lowerLow_kept st' v y v).2.2.2, hsame, hl.stack_eq]
  case low_min =>
    intro x hx hx0
    rw [lowerLow_active] at hx
    by_cases hxv : x = v
    · rw [hxv]
    rw [lowerLow_nodes_ne st' hxv]
    by_cases hxd : st.Disc x
    · refine (lowerLow_low_le st' v y v).trans ?_
      have hxs := hp.frame.nodes x hxd
      have hxa : st.Active x := ⟨hxd, by rw [← hxs]; exact hx.2⟩
      rw [hsame, hxs]
      exact hl.low_min x hxa hx0
    · rw [lowerLow_nodes_self]
      exact (Nat.min_le_right _ _).trans (hp.low_min x hx hxd).2

theorem Followed.lowerLow {z : Nat} (h : Followed st v z) : Followed (st.lowerLow v y) v z := by
  refine ⟨by rw [Disc, (lowerLow_kept st v y z).2.1]; exact h.1, fun hz => ?_⟩
  rw [lowerLow_active] at hz
  rw [(lowerLow_kept st v y z).2.1]
  exact (lowerLow_low_le st v y v).trans (h.2 hz)

theorem followed_lowerLow (h : SccInv succ n st gray) (hy : st.Disc y) :
    Followed (st.lowerLow v y) v y := by
  refine ⟨by rw [Disc, (lowerLow_kept st v y y).2.1]; exact hy, fun ha => ?_⟩
  rw [lowerLow_active] at ha
  rw [lowerLow_nodes_self, (lowerLow_kept st v y y).2.1]
  exact (Nat.min_le_right _ _).trans (h.low_le y ha)

theorem Followed.frame {z : Nat} (h : Followed st v z) (hv : st.Disc v)
    (hf : SccFrame succ y st st') : Followed st' v z := by
  refine ⟨hf.disc h.1, fun hz => ?_⟩
  rw [hf.nodes z h.1, hf.nodes v hv]
  refine h.2 ⟨h.1, ?_⟩
  rw [← hf.nodes z h.1]
  exact hz.2

/-! ### The undiscovered nodes -/

/-- Number of nodes without a number. -/
def undiscovered (n : Nat) (st : SccState) : Nat :=
  ((Finset.range n).filter fun x => (st.nodes x).dfn = 0).card

theorem undiscovered_mono (h : SccFrame succ v st st') :
    undiscovered n st' ≤ undiscovered n st := by
  refine Finset.card_le_card fun x hx => ?_
  simp only [Finset.mem_filter, Finset.mem_range] at hx ⊢
  refine ⟨hx.1, ?_⟩
  by_contra hd
  exact h.disc hd hx.2

theorem undiscovered_pos (hvn : v < n) (hv : ¬ st.Disc v) : 0 < undiscovered n st := by
  refine Finset.card_pos.mpr ⟨v, ?_⟩
  simp only [Finset.mem_filter, Finset.mem_range]
  exact ⟨hvn, not_not.mp hv⟩

theorem undiscovered_enter (hvn : v < n) (hv : ¬ st.Disc v) (hpos : 0 < st.dfn) :
    undiscovered n (st.enter v) < undiscovered n st := by
  refine Finset.card_lt_card (Finset.ssubset_iff_subset_ne.mpr ⟨fun x hx => ?_, fun he => ?_⟩)
  · simp only [Finset.mem_filter, Finset.mem_range] at hx ⊢
    refine ⟨hx.1, ?_⟩
    by_contra hd
    have hf : SccFrame (fun _ => []) v st (st.enter v) := enter_frame hv
    exact hf.disc hd hx.2
  · have hm : v ∈ (Finset.range n).filter fun x => (st.nodes x).dfn = 0 := by
      simp only [Finset.mem_filter, Finset.mem_range]
      exact ⟨hvn, not_not.mp hv⟩
    rw [← he] at hm
    simp only [Finset.mem_filter, enter_nodes_self] at hm
    omega

/-! ### One edge and the loop -/

/-- What a call of the search does from every state in which `bound` nodes are left. -/
def VisitSpec (succ : Nat → List Nat) (n : Nat) (node : Nat → Nat) (bound : Nat)
    (visit : SccState → Nat → Option SccState) : Prop :=
  ∀ st gray v, SccInv succ n st gray → (∀ x, (st.nodes x).node = node x) → ¬ st.Disc v → v < n →
    Opens succ st gray v → undiscovered n st ≤ bound →
    ∃ st', visit st v = some st' ∧ SccPost succ n gray v st st'

variable {node : Nat → Nat} {bound : Nat} {visit : SccState → Nat → Option SccState}

section

variable (hl : SccLoop succ n gray v st₀ st)
include hl

theorem SccLoop.opens (h : SccInv succ n st₀ gray)
    (he : Edge succ v y) : Opens succ st (v :: gray) y := by
  refine .inr ⟨v, mem_cons_self .., he, fun x hx => ?_⟩
  rcases mem_cons.mp hx with rfl | hx
  · exact le_rfl
  · exact Nat.le_of_lt (hl.older h (h.gray_active x hx).1)

/-- One edge of the loop. -/
theorem SccLoop.followEdge (h : SccInv succ n st₀ gray)
    (hv : ¬ st₀.Disc v) (hnode : ∀ x, (st₀.nodes x).node = node x)
    (hvisit : VisitSpec succ n node bound visit) (hb : undiscovered n st ≤ bound)
    (he : Edge succ v y) (hyn : y < n) :
    ∃ st', followEdge visit v y st = some st' ∧ SccLoop succ n gray v st₀ st' ∧
      undiscovered n st' ≤ undiscovered n st ∧ Followed st' v y ∧
      ∀ z, Followed st v z → Followed st' v z := by
  have hvd := (hl.inv.gray_active v (mem_cons_self ..)).1
  have hvle := hl.inv.low_le v (hl.inv.gray_active v (mem_cons_self ..))
  have hundisc : ∀ st : SccState, undiscovered n (st.lowerLow v y) = undiscovered n st := by
    intro st
    simp only [undiscovered, (lowerLow_kept st v y _).2.1]
  by_cases hy : (st.nodes y).dfn = 0
  · obtain ⟨st', hst', hp⟩ := hvisit st (v :: gray) y hl.inv
      (fun x => (hl.frame.node x).trans (hnode x)) (not_not.mpr hy) hyn (hl.opens h he) hb
    refine ⟨st'.lowerLow v y, by simp [CallGraph.followEdge, hy, hst'], hl.child hv he hp, ?_,
      followed_lowerLow hp.inv hp.disc, fun z hz => (hz.frame hvd hp.frame).lowerLow⟩
    rw [hundisc]
    exact undiscovered_mono hp.frame
  · by_cases hc : (st.nodes y).dfn < (st.nodes v).dfn ∧ (st.nodes y).component = 0
    · refine ⟨st.lowerLow v y, by simp [CallGraph.followEdge, hy, hc], ?_, (hundisc st).le,
        followed_lowerLow hl.inv hy, fun z hz => hz.lowerLow⟩
      exact hl.lowerLow hv he ⟨hy, hc.2⟩
    · refine ⟨st, by simp [CallGraph.followEdge, hy, hc], hl, le_rfl, ⟨hy, fun ha => ?_⟩,
        fun z hz => hz⟩
      have : ¬ (st.nodes y).dfn < (st.nodes v).dfn := fun hlt => hc ⟨hlt, ha.2⟩
      omega

/-- The loop over edges whose targets are `ys`. -/
theorem SccLoop.fold (h : SccInv succ n st₀ gray)
    (hv : ¬ st₀.Disc v) (hnode : ∀ x, (st₀.nodes x).node = node x)
    (hvisit : VisitSpec succ n node bound visit) (hb : undiscovered n st ≤ bound)
    (target : Nat → Nat) (sfs : List Nat)
    (hsfs : ∀ sf ∈ sfs, Edge succ v (target sf) ∧ target sf < n) :
    ∃ st', sfs.foldlM (fun st sf => CallGraph.followEdge visit v (target sf) st) st = some st' ∧
      SccLoop succ n gray v st₀ st' ∧ (∀ sf ∈ sfs, Followed st' v (target sf)) ∧
      ∀ z, Followed st v z → Followed st' v z := by
  induction sfs generalizing st with
  | nil => exact ⟨st, rfl, hl, by simp, fun z hz => hz⟩
  | cons sf sfs ih =>
    obtain ⟨he, hn⟩ := hsfs sf (mem_cons_self ..)
    obtain ⟨st1, hst1, hl1, hle, hf, hkeep⟩ := hl.followEdge h hv hnode hvisit hb he hn
    obtain ⟨st2, hst2, hl2, hfs, hkeep'⟩ :=
      ih hl1 (hle.trans hb) (fun x hx => hsfs x (mem_cons_of_mem _ hx))
    refine ⟨st2, by simp [foldlM_cons, hst1, hst2], hl2, fun x hx => ?_,
      fun z hz => hkeep' z (hkeep z hz)⟩
    rcases mem_cons.mp hx with rfl | hx
    · exact hkeep' _ hf
    · exact hfs x hx

end

/-! ### The end of a call -/

section

variable (hl : SccLoop succ n gray v st₀ st)
include hl

/-- A call that leaves its node active. -/
theorem SccLoop.post_stay (hv : succ v ≠ [])
    (hf : ∀ y, Edge succ v y → Followed st v y) (hlow : (st.nodes v).low ≠ (st.nodes v).dfn) :
    SccPost succ n gray v st₀ st := by
  have hact := hl.inv.gray_active v (mem_cons_self ..)
  have hle := hl.inv.low_le v hact
  exact {
    inv := hl.inv.stay (by omega) hf
    frame := hl.frame
    disc := hact.1
    dfn_eq := hl.dfn_eq
    low_min := fun x hx hx0 => ⟨hact, hl.low_min x hx hx0⟩
    done_low := fun hd => absurd hd (not_done_of_active hact)
    stack_sink := fun hs => absurd hs hv
    stack_done := fun _ hd => absurd hd (not_done_of_active hact) }

theorem SccLoop.popReady (h : SccInv succ n st₀ gray)
    (hv : succ v ≠ []) (hf : ∀ y, Edge succ v y → Followed st v y)
    (hlow : (st.nodes v).low = (st.nodes v).dfn) : PopReady succ st gray v where
  low_eq := hlow
  edges := hv
  low_min x hx hle := by
    refine hl.low_min x hx fun hx0 => ?_
    have := hl.older h hx0
    omega
  gray_lt x hx := hl.older h (h.gray_active x hx).1
  followed := hf

/-- A call that pops the component of its node. -/
theorem SccLoop.post_pop (h : SccInv succ n st₀ gray)
    (hv : succ v ≠ []) (hf : ∀ y, Edge succ v y → Followed st v y)
    (hlow : (st.nodes v).low = (st.nodes v).dfn) :
    SccPost succ n gray v st₀ (st.popComponent v) := by
  have hact := hl.inv.gray_active v (mem_cons_self ..)
  have hon := hl.inv.active_stk v hact
  have hinv := hl.inv.pop (hl.popReady h hv hf hlow)
  obtain ⟨hstk, htop, hdfn, -⟩ := pop_fields st v
  have hkept := hl.inv.pop_kept hon
  have hdisc : ∀ {x}, (st.popComponent v).Disc x → st.Disc x := by
    intro x hx
    rwa [Disc, (hkept x).2.1] at hx
  constructor
  case inv => exact hinv
  case frame =>
    constructor
    case nodes =>
      intro x hx
      have hns : ¬ Segment st v x := by
        rintro ⟨-, hle⟩
        have := hl.older h hx
        omega
      rw [hl.inv.pop_nodes_of_not_segment hon hns, hl.frame.nodes x hx]
    case top => rw [htop, hl.stack_eq]
    case stk => rw [hstk]; exact hl.frame.stk
    case dfn => rw [hdfn]; exact hl.frame.dfn
    case node => exact fun x => (hkept x).1.trans (hl.frame.node x)
    case fresh =>
      intro x hx hx0
      rw [(hkept x).2.1]
      exact hl.frame.fresh x (hdisc hx) hx0
  case disc => rw [Disc, (hkept v).2.1]; exact hact.1
  case dfn_eq => rw [(hkept v).2.1, hl.dfn_eq]
  case low_min =>
    intro x hx hx0
    -- Every node discovered by the call is in the popped segment or was finished before.
    have hxd := hdisc hx.1
    have hns : ¬ Segment st v x := fun hs => by
      have := hx.2
      rw [hl.inv.pop_nodes_of_segment hon hs] at this
      exact absurd this (Nat.ne_of_gt hl.inv.component_pos)
    have hxa : st.Active x := by
      have := hx.2
      rw [hl.inv.pop_nodes_of_not_segment hon hns] at this
      exact ⟨hxd, this⟩
    exact absurd ⟨hl.inv.active_stk x hxa, hl.fresh hxd hx0⟩ hns
  case done_low =>
    intro _
    rw [(hkept v).2.2.1, (hkept v).2.1, hlow]
  case stack_sink => exact fun hs => absurd hs hv
  case stack_done =>
    intro _ _ x
    simp only [OnStack, hstk, htop, hl.stack_eq]
    constructor
    · rintro ⟨p, hp, rfl⟩
      exact ⟨p, hp, (hl.frame.stk p hp).symm⟩
    · rintro ⟨p, hp, rfl⟩
      exact ⟨p, hp, hl.frame.stk p hp⟩

end

/-- A call for a node without edges. -/
theorem SccLoop.post_sink (hl : SccLoop succ n gray v st₀ (st₀.enter v))
    (h : SccInv succ n st₀ gray) (hv0 : ¬ st₀.Disc v) (hv : succ v = []) :
    SccPost succ n gray v st₀ ((st₀.enter v).closeSink v) := by
  have hact := hl.inv.gray_active v (mem_cons_self ..)
  have hnew : ∀ x, (st₀.enter v).Disc x → x ≠ v →
      ((st₀.enter v).nodes x).dfn < ((st₀.enter v).nodes v).dfn :=
    fun x hx hxv => hl.older h (((enter_disc h.dfn_pos x).mp hx).resolve_left hxv)
  have hinv := hl.inv.closeSink hv hnew (fun hg => hv0 (h.gray_active v hg).1)
  have hd := closeSink_dfn (st₀.enter v) v
  have hself := closeSink_nodes_self (st₀.enter v) v
  constructor
  case inv => exact hinv
  case frame =>
    constructor
    case nodes =>
      intro x hx
      have hxv : x ≠ v := fun he => hv0 (he ▸ hx)
      rw [closeSink_nodes_ne _ hxv, hl.frame.nodes x hx]
    case top => exact hl.frame.top
    case stk => exact hl.frame.stk
    case dfn => exact hl.frame.dfn
    case node =>
      intro x
      by_cases hxv : x = v
      · rw [hxv, hself]; exact hl.frame.node v
      · rw [closeSink_nodes_ne _ hxv]; exact hl.frame.node x
    case fresh =>
      intro x hx hx0
      rw [Disc, hd] at hx
      rw [hd]
      exact hl.frame.fresh x hx hx0
  case disc => rw [Disc, hd]; exact hact.1
  case dfn_eq => rw [hd, hl.dfn_eq]
  case low_min =>
    intro x hx hx0
    have hxd := hx.1
    rw [Disc, hd] at hxd
    have hxv := ((enter_disc h.dfn_pos x).mp hxd).resolve_right hx0
    subst hxv
    have hC := hl.inv.component_pos
    have := hx.2
    rw [hself] at this
    exact absurd this (Nat.ne_of_gt hC)
  case done_low =>
    intro _
    rw [hself, enter_nodes_self]
  case stack_sink => exact fun _ x => enter_onStack x
  case stack_done => exact fun hs => absurd hv hs

end Run

end XSBEngine.CallGraph
