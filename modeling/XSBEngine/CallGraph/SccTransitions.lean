import XSBEngine.CallGraph.SccInvariant

/-!
# Steps of the component search

Each update of `xsb_compute_scc` keeps the invariant: entering a node, lowering `low`,
closing a node without edges, and popping a component.
-/

namespace XSBEngine.CallGraph

open Relation SccState

section Steps

variable {succ : Nat → List Nat} {n : Nat} {st st0 : SccState} {gray : List Nat} {v : Nat}

/-! ### Frames -/

/-- Successive calls below one node. -/
theorem SccFrame.trans {st1 st2 : SccState} {y : Nat} (h1 : SccFrame succ v st st1)
    (hr : Reach succ v y) (h2 : SccFrame succ y st1 st2) : SccFrame succ v st st2 where
  nodes x hx := by
    have hx1 : st1.Disc x := by rw [Disc, h1.nodes x hx]; exact hx
    rw [h2.nodes x hx1, h1.nodes x hx]
  top := h1.top.trans h2.top
  stk p hp := by rw [h2.stk p (lt_of_lt_of_le hp h1.top), h1.stk p hp]
  dfn := h1.dfn.trans h2.dfn
  node x := by rw [h2.node, h1.node]
  fresh x hx hx0 := by
    by_cases hx1 : st1.Disc x
    · rw [h2.nodes x hx1]
      exact h1.fresh x hx1 hx0
    · obtain ⟨hd, hr'⟩ := h2.fresh x hx hx1
      exact ⟨h1.dfn.trans hd, hr.trans hr'⟩

theorem SccFrame.disc (h : SccFrame succ v st0 st) {x : Nat} (hx : st0.Disc x) : st.Disc x := by
  rw [Disc, h.nodes x hx]
  exact hx

/-! ### Entering a node -/

theorem enter_nodes_self (st : SccState) (v : Nat) :
    (st.enter v).nodes v =
      { st.nodes v with low := st.dfn, dfn := st.dfn, stack := st.dfnTop } := by
  simp [enter]

theorem enter_nodes_ne (st : SccState) {v x : Nat} (h : x ≠ v) :
    (st.enter v).nodes x = st.nodes x := by
  simp [enter, h]

theorem enter_component (st : SccState) (v x : Nat) :
    ((st.enter v).nodes x).component = (st.nodes x).component := by
  by_cases h : x = v
  · subst h; rw [enter_nodes_self]
  · rw [enter_nodes_ne st h]

theorem enter_stk_lt (st : SccState) (v : Nat) {p : Nat} (h : p < st.dfnTop) :
    (st.enter v).dfnStack p = st.dfnStack p := by
  simp [enter, Nat.ne_of_lt h]

theorem enter_stk_top (st : SccState) (v : Nat) : (st.enter v).dfnStack st.dfnTop = v := by
  simp [enter]

theorem enter_done (st : SccState) (v x : Nat) : (st.enter v).Done x ↔ st.Done x := by
  simp only [Done, enter_component]

/-- The entered node is the only newly discovered one. -/
theorem enter_disc (hpos : 0 < st.dfn) (x : Nat) :
    (st.enter v).Disc x ↔ x = v ∨ st.Disc x := by
  by_cases h : x = v
  · subst h
    simp only [Disc, enter_nodes_self, true_or, iff_true]
    omega
  · simp only [Disc, enter_nodes_ne st h, h, false_or]

theorem enter_onStack (x : Nat) : (st.enter v).OnStack x ↔ x = v ∨ st.OnStack x := by
  constructor
  · rintro ⟨p, hp, rfl⟩
    rcases Nat.lt_succ_iff_lt_or_eq.mp hp with hp | rfl
    · exact .inr ⟨p, hp, (enter_stk_lt st v hp).symm⟩
    · exact .inl (enter_stk_top st v)
  · rintro (rfl | ⟨p, hp, rfl⟩)
    · exact ⟨st.dfnTop, Nat.lt_succ_self _, enter_stk_top st x⟩
    · exact ⟨p, Nat.lt_succ_of_lt hp, enter_stk_lt st v hp⟩

theorem enter_active (hpos : 0 < st.dfn) (hv : ¬ st.Done v) (x : Nat) :
    (st.enter v).Active x ↔ x = v ∨ st.Active x := by
  simp only [Active, enter_disc hpos, enter_component]
  by_cases h : x = v
  · subst h
    simpa [Done] using hv
  · simp [h]

theorem enter_frame (hv : ¬ st.Disc v) : SccFrame succ v st (st.enter v) where
  nodes x hx := enter_nodes_ne st (fun h => hv (h ▸ hx))
  top := Nat.le_succ _
  stk p hp := enter_stk_lt st v hp
  dfn := Nat.le_succ _
  node x := by
    by_cases h : x = v
    · subst h; rw [enter_nodes_self]
    · rw [enter_nodes_ne st h]
  fresh x hx hx0 := by
    have hxv : x = v := by
      by_contra h
      rw [Disc, enter_nodes_ne st h] at hx
      exact hx0 hx
    subst hxv
    rw [enter_nodes_self]
    exact ⟨le_rfl, .refl⟩

/-- The newest open call leads to the entered node. -/
def Opens (succ : Nat → List Nat) (st : SccState) (gray : List Nat) (v : Nat) : Prop :=
  gray = [] ∨ ∃ u ∈ gray, Edge succ u v ∧ ∀ x ∈ gray, (st.nodes x).dfn ≤ (st.nodes u).dfn

/-- Every active node reaches the node that is entered. -/
theorem SccInv.active_reach (h : SccInv succ n st gray) (ho : Opens succ st gray v) {x : Nat}
    (hx : st.Active x) : Reach succ x v := by
  rcases ho with rfl | ⟨u, hu, he, hmax⟩
  · exact absurd hx (h.no_active x)
  · refine (h.reach_down (h.gray_active u hu) (fun y _ hlt hy => ?_) hx).tail he
    have := hmax y hy
    omega

theorem SccInv.enter (h : SccInv succ n st gray) (hv : ¬ st.Disc v) (hvn : v < n)
    (ho : Opens succ st gray v) : SccInv succ n (st.enter v) (v :: gray) := by
  have hvd : ¬ st.Done v := fun hd => hv (h.done_disc v hd)
  have hne : ∀ {x}, st.Disc x → x ≠ v := fun hx he => hv (he ▸ hx)
  have hdfn : ∀ {x}, st.Disc x → (st.enter v).nodes x = st.nodes x :=
    fun hx => enter_nodes_ne st (hne hx)
  have hself : ((st.enter v).nodes v).dfn = st.dfn := by rw [enter_nodes_self]
  have hlow : ((st.enter v).nodes v).low = st.dfn := by rw [enter_nodes_self]
  have hact := enter_active h.dfn_pos hvd
  have hdis := fun x => enter_disc (v := v) h.dfn_pos x
  have hcase : ∀ p < (st.enter v).dfnTop, p < st.dfnTop ∨ p = st.dfnTop :=
    fun p hp => Nat.lt_succ_iff_lt_or_eq.mp hp
  constructor
  case component_pos => exact h.component_pos
  case dfn_lt =>
    intro x hx
    rcases (hdis x).mp hx with rfl | hx
    · rw [hself]; exact Nat.lt_succ_self _
    · rw [hdfn hx]; exact Nat.lt_succ_of_lt (h.dfn_lt x hx)
  case dfn_pos => exact Nat.succ_pos _
  case bound =>
    intro x hx
    rcases (hdis x).mp hx with rfl | hx
    · exact hvn
    · exact h.bound x hx
  case stk_disc =>
    intro p hp
    rcases hcase p hp with hp | rfl
    · rw [enter_stk_lt st v hp]; exact (hdis _).mpr (.inr (h.stk_disc p hp))
    · rw [enter_stk_top]; exact (hdis v).mpr (.inl rfl)
  case stk_pos =>
    intro p hp
    rcases hcase p hp with hp | rfl
    · rw [enter_stk_lt st v hp, hdfn (h.stk_disc p hp)]; exact h.stk_pos p hp
    · rw [enter_stk_top, enter_nodes_self]
  case stk_lt =>
    intro p q hpq hq
    rcases hcase q hq with hq | rfl
    · have hp : p < st.dfnTop := hpq.trans hq
      rw [enter_stk_lt st v hp, enter_stk_lt st v hq, hdfn (h.stk_disc p hp),
        hdfn (h.stk_disc q hq)]
      exact h.stk_lt p q hpq hq
    · rw [enter_stk_lt st v hpq, enter_stk_top, hdfn (h.stk_disc p hpq), hself]
      exact h.dfn_lt _ (h.stk_disc p hpq)
  case active_stk =>
    intro x hx
    rw [enter_onStack]
    exact ((hact x).mp hx).imp_right (h.active_stk x)
  case done_disc =>
    intro x hx
    exact (hdis x).mpr (.inr (h.done_disc x ((enter_done st v x).mp hx)))
  case done_lt =>
    intro x
    rw [enter_component]
    exact h.done_lt x
  case done_edge =>
    intro x y hx he
    rw [enter_done] at hx ⊢
    exact h.done_edge x y hx he
  case black_edge =>
    intro x y hx hg he
    rw [List.mem_cons, not_or] at hg
    exact (hdis y).mpr (.inr (h.black_edge x y (((hdis x).mp hx).resolve_left hg.1) hg.2 he))
  case order_reach =>
    intro x y hx hy hle
    rcases (hact x).mp hx with rfl | hx
    · rcases (enter_onStack y).mp hy with rfl | hy
      · exact .refl
      · rw [hself, hdfn (h.onStack_disc hy)] at hle
        exact absurd (h.dfn_lt y (h.onStack_disc hy)) (by omega)
    · rcases (enter_onStack y).mp hy with hyv | hy
      · exact hyv ▸ h.active_reach ho hx
      · rw [hdfn hx.1, hdfn (h.onStack_disc hy)] at hle
        exact h.order_reach x y hx hy hle
  case low_le =>
    intro x hx
    rcases (hact x).mp hx with rfl | hx
    · rw [hself, hlow]
    · rw [hdfn hx.1]; exact h.low_le x hx
  case low_reach =>
    intro x hx
    rcases (hact x).mp hx with rfl | hx
    · exact ⟨x, (hact x).mpr (.inl rfl), by rw [hself, hlow], .refl⟩
    · obtain ⟨w, hw, hwl, hr⟩ := h.low_reach x hx
      exact ⟨w, (hact w).mpr (.inr hw), by rw [hdfn hw.1, hdfn hx.1]; exact hwl, hr⟩
  case low_lt =>
    intro x hx hg
    rw [List.mem_cons, not_or] at hg
    have hx := ((hact x).mp hx).resolve_left hg.1
    rw [hdfn hx.1]
    exact h.low_lt x hx hg.2
  case low_edge =>
    intro x y hx hg he hy
    rw [List.mem_cons, not_or] at hg
    have hx := ((hact x).mp hx).resolve_left hg.1
    rcases (hact y).mp hy with hyv | hy
    · exact absurd (hyv ▸ h.black_edge x y hx.1 hg.2 he) hv
    · rw [hdfn hx.1, hdfn hy.1]
      exact h.low_edge x y hx hg.2 he hy
  case gray_active =>
    intro x hx
    rcases List.mem_cons.mp hx with rfl | hx
    · exact (hact x).mpr (.inl rfl)
    · exact (hact x).mpr (.inr (h.gray_active x hx))
  case done_scc =>
    intro x y hx hy
    rw [enter_done] at hx hy
    rw [enter_component, enter_component]
    exact h.done_scc x y hx hy
  case done_stack =>
    intro x hx hs
    rw [enter_done] at hx
    have hs := ((enter_onStack x).mp hs).resolve_left (hne (h.done_disc x hx))
    obtain ⟨hsink, huniq⟩ := h.done_stack x hx hs
    refine ⟨hsink, fun y hy => huniq y ?_⟩
    rwa [enter_component, enter_component] at hy
  case done_sink =>
    intro x hx hsink hs
    rw [enter_done] at hx
    obtain ⟨y, hy, hc⟩ := h.done_sink x hx hsink (fun hs' => hs ((enter_onStack x).mpr (.inr hs')))
    exact ⟨y, hy, by rw [enter_component, enter_component, hc]⟩

/-! ### Lowering -/

theorem lowerLow_nodes_ne (st : SccState) {x y : Nat} (h : x ≠ v) :
    (st.lowerLow v y).nodes x = st.nodes x := by
  unfold lowerLow setNode
  split <;> simp [h]

/-- Only `low` of the source changes, to the smaller value. -/
theorem lowerLow_nodes_self (st : SccState) (v y : Nat) :
    (st.lowerLow v y).nodes v =
      { st.nodes v with low := min (st.nodes v).low (st.nodes y).low } := by
  unfold lowerLow setNode
  split
  next h => simp [Nat.min_eq_right (Nat.le_of_lt h)]
  next h => simp [Nat.min_eq_left (Nat.not_lt.mp h)]

theorem lowerLow_fields (st : SccState) (v y : Nat) :
    (st.lowerLow v y).dfnStack = st.dfnStack ∧ (st.lowerLow v y).dfnTop = st.dfnTop ∧
      (st.lowerLow v y).dfn = st.dfn ∧ (st.lowerLow v y).component = st.component := by
  unfold lowerLow setNode
  split <;> exact ⟨rfl, rfl, rfl, rfl⟩

/-- Every field but `low` of the source is kept. -/
theorem lowerLow_kept (st : SccState) (v y x : Nat) :
    ((st.lowerLow v y).nodes x).node = (st.nodes x).node ∧
      ((st.lowerLow v y).nodes x).dfn = (st.nodes x).dfn ∧
      ((st.lowerLow v y).nodes x).component = (st.nodes x).component ∧
      ((st.lowerLow v y).nodes x).stack = (st.nodes x).stack := by
  by_cases h : x = v
  · subst h
    rw [lowerLow_nodes_self]
    exact ⟨rfl, rfl, rfl, rfl⟩
  · rw [lowerLow_nodes_ne st h]
    exact ⟨rfl, rfl, rfl, rfl⟩

theorem lowerLow_low_le (st : SccState) (v y x : Nat) :
    ((st.lowerLow v y).nodes x).low ≤ (st.nodes x).low := by
  by_cases h : x = v
  · subst h
    rw [lowerLow_nodes_self]
    exact Nat.min_le_left _ _
  · rw [lowerLow_nodes_ne st h]

theorem lowerLow_active (st : SccState) (v y x : Nat) :
    (st.lowerLow v y).Active x ↔ st.Active x := by
  obtain ⟨-, hd, hc, -⟩ := lowerLow_kept st v y x
  simp only [Active, Disc, hd, hc]

theorem lowerLow_onStack (st : SccState) (v y x : Nat) :
    (st.lowerLow v y).OnStack x ↔ st.OnStack x := by
  obtain ⟨hs, ht, -, -⟩ := lowerLow_fields st v y
  simp only [OnStack, hs, ht]

theorem SccInv.lowerLow {y : Nat} (h : SccInv succ n st (v :: gray)) (he : Edge succ v y)
    (hy : st.Active y ∨ (st.nodes v).low ≤ (st.nodes y).low) :
    SccInv succ n (st.lowerLow v y) (v :: gray) := by
  obtain ⟨hs, ht, hn, hcomp⟩ := lowerLow_fields st v y
  have hd : ∀ x, ((st.lowerLow v y).nodes x).dfn = (st.nodes x).dfn :=
    fun x => (lowerLow_kept st v y x).2.1
  have hc : ∀ x, ((st.lowerLow v y).nodes x).component = (st.nodes x).component :=
    fun x => (lowerLow_kept st v y x).2.2.1
  have hp : ∀ x, ((st.lowerLow v y).nodes x).stack = (st.nodes x).stack :=
    fun x => (lowerLow_kept st v y x).2.2.2
  have hact := lowerLow_active st v y
  have hon := lowerLow_onStack st v y
  have hdisc : ∀ x, (st.lowerLow v y).Disc x ↔ st.Disc x := fun x => by rw [Disc, hd, Disc]
  have hdone : ∀ x, (st.lowerLow v y).Done x ↔ st.Done x := fun x => by rw [Done, hc, Done]
  constructor
  case low_le =>
    intro x hx
    rw [hact] at hx
    rw [hd]
    exact (lowerLow_low_le st v y x).trans (h.low_le x hx)
  case low_reach =>
    intro x hx
    rw [hact] at hx
    simp only [hact, hd]
    by_cases hxv : x = v
    · subst hxv
      rw [lowerLow_nodes_self]
      simp only
      rcases Nat.le_total (st.nodes x).low (st.nodes y).low with hle | hle
      · rw [Nat.min_eq_left hle]
        exact h.low_reach x hx
      · rw [Nat.min_eq_right hle]
        rcases hy with hy | hy
        · obtain ⟨w, hw, hwl, hr⟩ := h.low_reach y hy
          exact ⟨w, hw, hwl, hr.head he⟩
        · rw [← Nat.le_antisymm hy hle]
          exact h.low_reach x hx
    · rw [lowerLow_nodes_ne st hxv]
      exact h.low_reach x hx
  case low_lt =>
    intro x hx hg
    rw [hact] at hx
    rw [hd]
    exact lt_of_le_of_lt (lowerLow_low_le st v y x) (h.low_lt x hx hg)
  case low_edge =>
    intro x z hx hg hxz hz
    rw [hact] at hx hz
    rw [hd]
    exact (lowerLow_low_le st v y x).trans (h.low_edge x z hx hg hxz hz)
  all_goals simp only [hs, ht, hn, hcomp, hd, hc, hp, hact, hon, hdisc, hdone]
  case component_pos => exact h.component_pos
  case dfn_lt => exact h.dfn_lt
  case dfn_pos => exact h.dfn_pos
  case bound => exact h.bound
  case stk_disc => exact h.stk_disc
  case stk_pos => exact h.stk_pos
  case stk_lt => exact h.stk_lt
  case active_stk => exact h.active_stk
  case done_disc => exact h.done_disc
  case done_lt => exact h.done_lt
  case done_edge => exact h.done_edge
  case black_edge => exact h.black_edge
  case order_reach => exact h.order_reach
  case gray_active => exact h.gray_active
  case done_scc => exact h.done_scc
  case done_stack => exact h.done_stack
  case done_sink => exact h.done_sink

/-! ### Closing a call -/

/-- The call for `v` ends without a component for `v`. -/
theorem SccInv.stay (h : SccInv succ n st (v :: gray)) (hlow : (st.nodes v).low < (st.nodes v).dfn)
    (hedge : ∀ y, Edge succ v y → st.Disc y ∧ (st.Active y → (st.nodes v).low ≤ (st.nodes y).dfn)) :
    SccInv succ n st gray where
  component_pos := h.component_pos
  dfn_lt := h.dfn_lt
  dfn_pos := h.dfn_pos
  bound := h.bound
  stk_disc := h.stk_disc
  stk_pos := h.stk_pos
  stk_lt := h.stk_lt
  active_stk := h.active_stk
  done_disc := h.done_disc
  done_lt := h.done_lt
  done_edge := h.done_edge
  black_edge x y hx hg he := by
    by_cases hxv : x = v
    · exact (hedge y (hxv ▸ he)).1
    · exact h.black_edge x y hx (by simp [hxv, hg]) he
  order_reach := h.order_reach
  low_le := h.low_le
  low_reach := h.low_reach
  low_lt x hx hg := by
    by_cases hxv : x = v
    · exact hxv ▸ hlow
    · exact h.low_lt x hx (by simp [hxv, hg])
  low_edge x y hx hg he hy := by
    by_cases hxv : x = v
    · subst hxv; exact (hedge y he).2 hy
    · exact h.low_edge x y hx (by simp [hxv, hg]) he hy
  gray_active x hx := h.gray_active x (List.mem_cons_of_mem _ hx)
  done_scc := h.done_scc
  done_stack := h.done_stack
  done_sink := h.done_sink

theorem closeSink_nodes_self (st : SccState) (v : Nat) :
    (st.closeSink v).nodes v = { st.nodes v with component := st.component } := by
  simp [closeSink, setNode]

theorem closeSink_nodes_ne (st : SccState) {v x : Nat} (h : x ≠ v) :
    (st.closeSink v).nodes x = st.nodes x := by
  simp [closeSink, setNode, h]

theorem closeSink_dfn (st : SccState) (v x : Nat) :
    ((st.closeSink v).nodes x).dfn = (st.nodes x).dfn := by
  by_cases h : x = v
  · subst h; rw [closeSink_nodes_self]
  · rw [closeSink_nodes_ne st h]

theorem closeSink_stack (st : SccState) (v x : Nat) :
    ((st.closeSink v).nodes x).stack = (st.nodes x).stack := by
  by_cases h : x = v
  · subst h; rw [closeSink_nodes_self]
  · rw [closeSink_nodes_ne st h]

/-- The newest node has no edges: it gets its own component and stays on the stack. -/
theorem SccInv.closeSink (h : SccInv succ n st (v :: gray)) (hv : succ v = [])
    (hnew : ∀ x, st.Disc x → x ≠ v → (st.nodes x).dfn < (st.nodes v).dfn)
    (hg : v ∉ gray) : SccInv succ n (st.closeSink v) gray := by
  have hd := closeSink_dfn st v
  have hp := closeSink_stack st v
  have hact_v := h.gray_active v (List.mem_cons_self ..)
  have hself : ((st.closeSink v).nodes v).component = st.component := by
    rw [closeSink_nodes_self]
  have hC := h.component_pos
  have hact : ∀ x, (st.closeSink v).Active x ↔ x ≠ v ∧ st.Active x := by
    intro x
    by_cases hx : x = v
    · subst hx
      simp only [Active, hself, ne_eq, not_true_eq_false, false_and, iff_false]
      omega
    · simp [Active, Disc, closeSink_nodes_ne st hx, hx]
  have hdone : ∀ x, (st.closeSink v).Done x ↔ x = v ∨ st.Done x := by
    intro x
    by_cases hx : x = v
    · subst hx
      simp only [Done, hself, true_or, iff_true]
      omega
    · simp [Done, closeSink_nodes_ne st hx, hx]
  have hdisc : ∀ x, (st.closeSink v).Disc x ↔ st.Disc x := fun x => by rw [Disc, hd, Disc]
  have hon : ∀ x, (st.closeSink v).OnStack x ↔ st.OnStack x := fun x => Iff.rfl
  have hvd : ¬ st.Done v := not_done_of_active hact_v
  have hkeep : ∀ {x}, x ≠ v → ((st.closeSink v).nodes x) = st.nodes x :=
    fun hx => closeSink_nodes_ne st hx
  constructor
  case component_pos => exact Nat.succ_pos _
  case done_disc =>
    intro x hx
    rw [hdisc]
    rcases (hdone x).mp hx with rfl | hx
    · exact hact_v.1
    · exact h.done_disc x hx
  case done_lt =>
    intro x
    by_cases hx : x = v
    · rw [hx, hself]; exact Nat.lt_succ_self _
    · rw [hkeep hx]; exact Nat.lt_succ_of_lt (h.done_lt x)
  case done_edge =>
    intro x y hx he
    rw [hdone] at hx ⊢
    rcases hx with rfl | hx
    · simp [Edge, hv] at he
    · exact .inr (h.done_edge x y hx he)
  case black_edge =>
    intro x y hx hxg he
    rw [hdisc] at hx ⊢
    by_cases hxv : x = v
    · subst hxv; simp [Edge, hv] at he
    · exact h.black_edge x y hx (by simp [hxv, hxg]) he
  case low_reach =>
    intro x hx
    obtain ⟨hxv, hx⟩ := (hact x).mp hx
    obtain ⟨w, hw, hwl, hr⟩ := h.low_reach x hx
    refine ⟨w, (hact w).mpr ⟨?_, hw⟩, by rw [hd, hkeep hxv]; exact hwl, hr⟩
    intro hwv
    have hle := h.low_le x hx
    have hlt := hnew x hx.1 hxv
    rw [hwv] at hwl
    omega
  case low_lt =>
    intro x hx hxg
    obtain ⟨hxv, hx⟩ := (hact x).mp hx
    rw [hkeep hxv]
    exact h.low_lt x hx (by simp [hxv, hxg])
  case low_edge =>
    intro x y hx hxg he hy
    obtain ⟨hxv, hx⟩ := (hact x).mp hx
    rw [hkeep hxv, hd]
    exact h.low_edge x y hx (by simp [hxv, hxg]) he ((hact y).mp hy).2
  case low_le =>
    intro x hx
    obtain ⟨hxv, hx⟩ := (hact x).mp hx
    rw [hkeep hxv]
    exact h.low_le x hx
  case gray_active =>
    intro x hx
    exact (hact x).mpr ⟨fun hxv => hg (hxv ▸ hx), h.gray_active x (List.mem_cons_of_mem _ hx)⟩
  case done_scc =>
    intro x y hx hy hsx hsy
    have hxv : x ≠ v := fun he => hsx (he ▸ hv)
    have hyv : y ≠ v := fun he => hsy (he ▸ hv)
    rw [hkeep hxv, hkeep hyv]
    exact h.done_scc x y (((hdone x).mp hx).resolve_left hxv) (((hdone y).mp hy).resolve_left hyv)
      hsx hsy
  case done_stack =>
    intro x hx hs
    have hlt := h.done_lt
    rcases (hdone x).mp hx with rfl | hx
    · refine ⟨hv, fun y hy => ?_⟩
      by_contra hyx
      rw [hself, hkeep hyx] at hy
      have := hlt y
      omega
    · have hxv : x ≠ v := fun he => hvd (he ▸ hx)
      obtain ⟨hsink, huniq⟩ := h.done_stack x hx hs
      refine ⟨hsink, fun y hy => ?_⟩
      have hyv : y ≠ v := by
        rintro rfl
        rw [hself, hkeep hxv] at hy
        have := hlt x
        omega
      rw [hkeep hxv, hkeep hyv] at hy
      exact huniq y hy
  case done_sink =>
    intro x hx hsink hs
    rcases (hdone x).mp hx with rfl | hx
    · exact absurd (h.active_stk x hact_v) hs
    · have hxv : x ≠ v := fun he => hvd (he ▸ hx)
      obtain ⟨y, hy, hc⟩ := h.done_sink x hx hsink hs
      have hyv : y ≠ v := by
        intro hyv
        rw [hyv, hact_v.2] at hc
        exact hx hc.symm
      exact ⟨y, hy, by rw [hkeep hxv, hkeep hyv]; exact hc⟩
  case order_reach =>
    intro x y hx hy hle
    rw [hd, hd] at hle
    exact h.order_reach x y ((hact x).mp hx).2 hy hle
  case active_stk => exact fun x hx => h.active_stk x ((hact x).mp hx).2
  case dfn_pos => exact h.dfn_pos
  all_goals simp only [hd, hp, hdisc]
  case dfn_lt => exact h.dfn_lt
  case bound => exact h.bound
  case stk_disc => exact h.stk_disc
  case stk_pos => exact h.stk_pos
  case stk_lt => exact h.stk_lt

end Steps

end XSBEngine.CallGraph
