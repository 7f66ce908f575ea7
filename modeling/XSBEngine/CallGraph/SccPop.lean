import XSBEngine.CallGraph.SccTransitions

/-!
# Popping a component

The stack from a node with `low = dfn` upwards: its nodes with edges form one component,
and the loop of `call_graph_xsb.c:1594–1597` numbers all of them alike.
-/

namespace XSBEngine.CallGraph

open Relation SccState

section Pop

variable {succ : Nat → List Nat} {n : Nat} {st : SccState} {gray : List Nat} {v : Nat}

/-! ### The loop over the stack -/

theorem assignComponents_fields (st : SccState) (lo k : Nat) :
    (st.assignComponents lo k).dfnStack = st.dfnStack ∧
      (st.assignComponents lo k).dfnTop = st.dfnTop ∧
      (st.assignComponents lo k).dfn = st.dfn ∧
      (st.assignComponents lo k).component = st.component := by
  induction k generalizing st with
  | zero => exact ⟨rfl, rfl, rfl, rfl⟩
  | succ k ih => exact ih _

/-- The loop overwrites the component of the nodes between `lo` and `lo + k`. -/
theorem assignComponents_nodes (st : SccState) (lo k x : Nat) :
    ((∃ p, lo ≤ p ∧ p < lo + k ∧ st.dfnStack p = x) →
        (st.assignComponents lo k).nodes x = { st.nodes x with component := st.component }) ∧
      ((¬ ∃ p, lo ≤ p ∧ p < lo + k ∧ st.dfnStack p = x) →
        (st.assignComponents lo k).nodes x = st.nodes x) := by
  induction k generalizing st with
  | zero =>
    refine ⟨?_, fun _ => rfl⟩
    rintro ⟨p, hp, hp', -⟩
    omega
  | succ k ih =>
    obtain ⟨ih1, ih2⟩ := ih (st.setNode (st.dfnStack (lo + k))
      { st.nodes (st.dfnStack (lo + k)) with component := st.component })
    simp only [assignComponents]
    by_cases hlow : ∃ p, lo ≤ p ∧ p < lo + k ∧ st.dfnStack p = x
    · refine ⟨fun _ => ?_, fun hn => ?_⟩
      · rw [ih1 hlow]
        by_cases hx : x = st.dfnStack (lo + k) <;> simp [setNode, Function.update, hx]
      · obtain ⟨p, hp, hp', he⟩ := hlow
        exact absurd ⟨p, hp, by omega, he⟩ hn
    · rw [ih2 hlow]
      refine ⟨?_, fun hn => ?_⟩
      · rintro ⟨p, hp, hp', he⟩
        have hpk : p = lo + k := by
          by_contra hne
          exact hlow ⟨p, hp, by omega, he⟩
        subst hpk
        simp [setNode, he]
      · have hx : x ≠ st.dfnStack (lo + k) := fun he => hn ⟨lo + k, by omega, by omega, he.symm⟩
        simp [setNode, hx]

/-- The nodes on the stack from `v` upwards. -/
def Segment (st : SccState) (v x : Nat) : Prop :=
  st.OnStack x ∧ (st.nodes v).dfn ≤ (st.nodes x).dfn

theorem SccInv.segment_iff (h : SccInv succ n st gray) (hv : st.OnStack v) (x : Nat) :
    Segment st v x ↔
      ∃ p, (st.nodes v).stack ≤ p ∧
        p < (st.nodes v).stack + (st.dfnTop - (st.nodes v).stack) ∧ st.dfnStack p = x := by
  have hvt := (h.onStack_stack hv).1
  constructor
  · rintro ⟨hx, hle⟩
    obtain ⟨hxt, hxs⟩ := h.onStack_stack hx
    exact ⟨(st.nodes x).stack, (h.stack_le_iff hv hx).mpr hle, by omega, hxs⟩
  · rintro ⟨p, hp, hp', rfl⟩
    have hx : st.OnStack (st.dfnStack p) := ⟨p, by omega, rfl⟩
    refine ⟨hx, (h.stack_le_iff hv hx).mp ?_⟩
    rw [h.stk_pos p (by omega)]
    exact hp

theorem SccInv.pop_nodes_of_segment (h : SccInv succ n st gray) (hv : st.OnStack v) {x : Nat}
    (hx : Segment st v x) :
    (st.popComponent v).nodes x = { st.nodes x with component := st.component } :=
  (assignComponents_nodes st _ _ x).1 ((h.segment_iff hv x).mp hx)

theorem SccInv.pop_nodes_of_not_segment (h : SccInv succ n st gray) (hv : st.OnStack v) {x : Nat}
    (hx : ¬ Segment st v x) : (st.popComponent v).nodes x = st.nodes x :=
  (assignComponents_nodes st _ _ x).2 (fun hs => hx ((h.segment_iff hv x).mpr hs))

theorem pop_fields (st : SccState) (v : Nat) :
    (st.popComponent v).dfnStack = st.dfnStack ∧
      (st.popComponent v).dfnTop = (st.nodes v).stack ∧
      (st.popComponent v).dfn = st.dfn ∧
      (st.popComponent v).component = st.component + 1 := by
  obtain ⟨hs, -, hd, hc⟩ :=
    assignComponents_fields st (st.nodes v).stack (st.dfnTop - (st.nodes v).stack)
  exact ⟨hs, rfl, hd, by rw [popComponent, hc]⟩

/-- Every field but the component is kept. -/
theorem SccInv.pop_kept (h : SccInv succ n st gray) (hv : st.OnStack v) (x : Nat) :
    ((st.popComponent v).nodes x).node = (st.nodes x).node ∧
      ((st.popComponent v).nodes x).dfn = (st.nodes x).dfn ∧
      ((st.popComponent v).nodes x).low = (st.nodes x).low ∧
      ((st.popComponent v).nodes x).stack = (st.nodes x).stack := by
  by_cases hx : Segment st v x
  · rw [h.pop_nodes_of_segment hv hx]
    exact ⟨rfl, rfl, rfl, rfl⟩
  · rw [h.pop_nodes_of_not_segment hv hx]
    exact ⟨rfl, rfl, rfl, rfl⟩

/-- The stack afterwards holds what stood below `v`. -/
theorem SccInv.pop_onStack (h : SccInv succ n st gray) (hv : st.OnStack v) (x : Nat) :
    (st.popComponent v).OnStack x ↔ st.OnStack x ∧ ¬ Segment st v x := by
  obtain ⟨hs, ht, -, -⟩ := pop_fields st v
  have hvt := (h.onStack_stack hv).1
  simp only [OnStack, hs, ht]
  constructor
  · rintro ⟨p, hp, rfl⟩
    have hx : st.OnStack (st.dfnStack p) := ⟨p, by omega, rfl⟩
    refine ⟨hx, fun hseg => ?_⟩
    have := (h.stack_le_iff hv hx).mpr hseg.2
    rw [h.stk_pos p (by omega)] at this
    omega
  · rintro ⟨hx, hns⟩
    obtain ⟨hxt, hxs⟩ := h.onStack_stack hx
    refine ⟨(st.nodes x).stack, ?_, hxs⟩
    by_contra hle
    exact hns ⟨hx, (h.stack_le_iff hv hx).mp (Nat.not_lt.mp hle)⟩

/-! ### The popped segment -/

/-- The call for `v` has followed every edge and `low` of `v` is its own number. -/
structure PopReady (succ : Nat → List Nat) (st : SccState) (gray : List Nat) (v : Nat) : Prop where
  low_eq : (st.nodes v).low = (st.nodes v).dfn
  edges : succ v ≠ []
  low_min : ∀ x, st.Active x → (st.nodes v).dfn ≤ (st.nodes x).dfn →
    (st.nodes v).low ≤ (st.nodes x).low
  gray_lt : ∀ x ∈ gray, (st.nodes x).dfn < (st.nodes v).dfn
  followed : ∀ y, Edge succ v y →
    st.Disc y ∧ (st.Active y → (st.nodes v).low ≤ (st.nodes y).dfn)

/-- Edges out of the active part of the segment stay in the segment or end in finished
nodes. -/
theorem SccInv.segment_edge (h : SccInv succ n st (v :: gray)) (hp : PopReady succ st gray v)
    {x y : Nat} (hx : st.Active x) (hs : Segment st v x) (he : Edge succ x y) :
    Segment st v y ∨ st.Done y := by
  have hle : st.Active y → (st.nodes v).dfn ≤ (st.nodes y).dfn := by
    intro hy
    by_cases hxv : x = v
    · have := (hp.followed y (hxv ▸ he)).2 hy
      have := hp.low_eq
      omega
    · have hxg : x ∉ v :: gray := by
        rw [List.mem_cons, not_or]
        refine ⟨hxv, fun hg => ?_⟩
        have := hp.gray_lt x hg
        have := hs.2
        omega
      have := h.low_edge x y hx hxg he hy
      have := hp.low_min x hx hs.2
      have := hp.low_eq
      omega
  have hy : st.Disc y := by
    by_cases hxv : x = v
    · exact (hp.followed y (hxv ▸ he)).1
    · refine h.black_edge x y hx.1 ?_ he
      rw [List.mem_cons, not_or]
      refine ⟨hxv, fun hg => ?_⟩
      have := hp.gray_lt x hg
      have := hs.2
      omega
  rcases active_or_done hy with hy | hy
  · exact .inl ⟨h.active_stk y hy, hle hy⟩
  · exact .inr hy

/-- The nodes with edges in the segment are active. -/
theorem SccInv.segment_active (h : SccInv succ n st gray) {x : Nat} (hs : st.OnStack x)
    (hx : succ x ≠ []) : st.Active x := by
  rcases active_or_done (h.onStack_disc hs) with ha | hd
  · exact ha
  · exact absurd (h.done_stack x hd hs).1 hx

/-- The active nodes of the segment and `v` reach each other. -/
theorem SccInv.segment_reach (h : SccInv succ n st (v :: gray)) (hp : PopReady succ st gray v)
    {x : Nat} (hx : st.Active x) (hs : Segment st v x) : Reach succ v x ∧ Reach succ x v := by
  have hv := h.gray_active v (List.mem_cons_self ..)
  refine ⟨h.order_reach v x hv hs.1 hs.2, h.reach_down hv (fun y _ hlt hg => ?_) hx⟩
  rcases List.mem_cons.mp hg with rfl | hg
  · omega
  · have := hp.gray_lt y hg
    omega

theorem SccInv.pop (h : SccInv succ n st (v :: gray)) (hr : PopReady succ st gray v) :
    SccInv succ n (st.popComponent v) gray := by
  have hact_v := h.gray_active v (List.mem_cons_self ..)
  have hv := h.active_stk v hact_v
  have hvs : Segment st v v := ⟨hv, le_rfl⟩
  have hC := h.component_pos
  obtain ⟨hstk, htop, hdfn, hcomp⟩ := pop_fields st v
  have hvt := (h.onStack_stack hv).1
  have hd : ∀ x, ((st.popComponent v).nodes x).dfn = (st.nodes x).dfn :=
    fun x => (h.pop_kept hv x).2.1
  have hl : ∀ x, ((st.popComponent v).nodes x).low = (st.nodes x).low :=
    fun x => (h.pop_kept hv x).2.2.1
  have hp : ∀ x, ((st.popComponent v).nodes x).stack = (st.nodes x).stack :=
    fun x => (h.pop_kept hv x).2.2.2
  have hin : ∀ {x}, Segment st v x → ((st.popComponent v).nodes x).component = st.component :=
    fun hs => by rw [h.pop_nodes_of_segment hv hs]
  have hout : ∀ {x}, ¬ Segment st v x → (st.popComponent v).nodes x = st.nodes x :=
    fun hs => h.pop_nodes_of_not_segment hv hs
  have hdisc : ∀ x, (st.popComponent v).Disc x ↔ st.Disc x := fun x => by rw [Disc, hd, Disc]
  have hon := h.pop_onStack hv
  have hdone : ∀ x, (st.popComponent v).Done x ↔ Segment st v x ∨ st.Done x := by
    intro x
    by_cases hs : Segment st v x
    · simp only [Done, hin hs, hs, true_or, iff_true]
      omega
    · simp [Done, hout hs, hs]
  have hact : ∀ x, (st.popComponent v).Active x ↔ st.Active x ∧ ¬ Segment st v x := by
    intro x
    by_cases hs : Segment st v x
    · simp only [Active, hin hs, hs, not_true_eq_false, and_false, iff_false]
      omega
    · simp [Active, Disc, hout hs, hs]
  -- An active node outside the segment has a smaller number than `v`.
  have hbelow : ∀ {x}, st.Active x → ¬ Segment st v x → (st.nodes x).dfn < (st.nodes v).dfn := by
    intro x hx hs
    by_contra hle
    exact hs ⟨h.active_stk x hx, Nat.not_lt.mp hle⟩
  have hnot_gray : ∀ {x}, ¬ Segment st v x → x ∉ gray → x ∉ v :: gray := by
    intro x hs hg hm
    rcases List.mem_cons.mp hm with rfl | hm
    · exact hs hvs
    · exact hg hm
  constructor
  case component_pos => rw [hcomp]; exact Nat.succ_pos _
  case done_disc =>
    intro x hx
    rw [hdisc]
    exact ((hdone x).mp hx).elim (fun hs => h.onStack_disc hs.1) (h.done_disc x)
  case done_lt =>
    intro x
    rw [hcomp]
    by_cases hs : Segment st v x
    · rw [hin hs]; exact Nat.lt_succ_self _
    · rw [hout hs]; exact Nat.lt_succ_of_lt (h.done_lt x)
  case done_edge =>
    intro x y hx he
    rw [hdone] at hx ⊢
    by_cases hxd : st.Done x
    · exact .inr (h.done_edge x y hxd he)
    · have hs := hx.resolve_right hxd
      have hxa := (active_or_done (h.onStack_disc hs.1)).resolve_right hxd
      exact h.segment_edge hr hxa hs he
  case black_edge =>
    intro x y hx hg he
    rw [hdisc] at hx ⊢
    by_cases hxv : x = v
    · exact (hr.followed y (hxv ▸ he)).1
    · exact h.black_edge x y hx (by simp [hxv, hg]) he
  case active_stk =>
    intro x hx
    obtain ⟨hx, hs⟩ := (hact x).mp hx
    exact (hon x).mpr ⟨h.active_stk x hx, hs⟩
  case order_reach =>
    intro x y hx hy hle
    rw [hd, hd] at hle
    exact h.order_reach x y ((hact x).mp hx).1 ((hon y).mp hy).1 hle
  case low_le =>
    intro x hx
    rw [hd, hl]
    exact h.low_le x ((hact x).mp hx).1
  case low_reach =>
    intro x hx
    obtain ⟨hx, hs⟩ := (hact x).mp hx
    obtain ⟨w, hw, hwl, hr'⟩ := h.low_reach x hx
    refine ⟨w, (hact w).mpr ⟨hw, fun hws => ?_⟩, by rw [hd, hl]; exact hwl, hr'⟩
    have := h.low_le x hx
    have := hbelow hx hs
    have := hws.2
    omega
  case low_lt =>
    intro x hx hg
    obtain ⟨hx, hs⟩ := (hact x).mp hx
    rw [hd, hl]
    exact h.low_lt x hx (hnot_gray hs hg)
  case low_edge =>
    intro x y hx hg he hy
    obtain ⟨hx, hs⟩ := (hact x).mp hx
    rw [hd, hl]
    exact h.low_edge x y hx (hnot_gray hs hg) he ((hact y).mp hy).1
  case gray_active =>
    intro x hx
    refine (hact x).mpr ⟨h.gray_active x (List.mem_cons_of_mem _ hx), fun hs => ?_⟩
    have := hr.gray_lt x hx
    have := hs.2
    omega
  case done_scc =>
    have hmixed : ∀ x y, Segment st v x → ¬ Segment st v y → st.Done y → succ x ≠ [] →
        ¬ Reach succ y x := by
      intro x y hs _ hy hx hxy
      exact not_done_of_active (h.segment_active hs.1 hx) (h.done_reach hy hxy)
    intro x y hx hy hsx hsy
    have hlt := h.done_lt
    by_cases hxs : Segment st v x <;> by_cases hys : Segment st v y
    · rw [hin hxs, hin hys]
      obtain ⟨hvx, hxv⟩ := h.segment_reach hr (h.segment_active hxs.1 hsx) hxs
      obtain ⟨hvy, hyv⟩ := h.segment_reach hr (h.segment_active hys.1 hsy) hys
      exact iff_of_true rfl ⟨hxv.trans hvy, hyv.trans hvx⟩
    · rw [hin hxs, hout hys]
      have hyd := ((hdone y).mp hy).resolve_left hys
      exact iff_of_false (Nat.ne_of_gt (hlt y)) (fun hm => hmixed x y hxs hys hyd hsx hm.2)
    · rw [hout hxs, hin hys]
      have hxd := ((hdone x).mp hx).resolve_left hxs
      exact iff_of_false (Nat.ne_of_lt (hlt x)) (fun hm => hmixed y x hys hxs hxd hsy hm.1)
    · rw [hout hxs, hout hys]
      exact h.done_scc x y (((hdone x).mp hx).resolve_left hxs)
        (((hdone y).mp hy).resolve_left hys) hsx hsy
  case done_stack =>
    intro x hx hs
    obtain ⟨hxo, hxs⟩ := (hon x).mp hs
    obtain ⟨hsink, huniq⟩ := h.done_stack x (((hdone x).mp hx).resolve_left hxs) hxo
    refine ⟨hsink, fun y hy => ?_⟩
    have hys : ¬ Segment st v y := by
      intro hys
      rw [hin hys, hout hxs] at hy
      have := h.done_lt x
      omega
    rw [hout hxs, hout hys] at hy
    exact huniq y hy
  case done_sink =>
    intro x hx hsink hs
    by_cases hxs : Segment st v x
    · refine ⟨v, fun hvx => hr.edges (hvx ▸ hsink), ?_⟩
      rw [hin hvs, hin hxs]
    · have hxo : ¬ st.OnStack x := fun ho => hs ((hon x).mpr ⟨ho, hxs⟩)
      have hxd := ((hdone x).mp hx).resolve_left hxs
      obtain ⟨y, hyx, hy⟩ := h.done_sink x hxd hsink hxo
      have hys : ¬ Segment st v y := by
        intro hys
        have hyd : st.Done y := by rw [Done, hy]; exact hxd
        exact hyx.symm ((h.done_stack y hyd hys.1).2 x hy.symm)
      exact ⟨y, hyx, by rw [hout hxs, hout hys]; exact hy⟩
  case dfn_pos => rw [hdfn]; exact h.dfn_pos
  all_goals simp only [hd, hp, hdisc, hdfn, hstk, htop]
  case dfn_lt => exact h.dfn_lt
  case bound => exact h.bound
  case stk_disc => exact fun p hp => h.stk_disc p (hp.trans hvt)
  case stk_pos => exact fun p hp => h.stk_pos p (hp.trans hvt)
  case stk_lt => exact fun p q hpq hq => h.stk_lt p q hpq (hq.trans hvt)

end Pop

end XSBEngine.CallGraph
