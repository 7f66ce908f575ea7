import XSBEngine.Residual.Search

/-!
# The invariant of a right search

The components are right as long as every one that is closed is complete. A node may be closed while
its later delay lists are still to be followed.
-/

namespace XSBEngine.Residual

open CallGraph CallGraph.SccState List Relation ResidualAnswers

section Sound

variable {succ : Nat → List Nat} {n : Nat} {st st₀ st' : SccState} {gray : List Nat}
  {v x y z : Nat}

/-- A path over nodes other than `v`. -/
def Around (succ : Nat → List Nat) (v : Nat) : Nat → Nat → Prop :=
  ReflTransGen fun x y => Edge succ x y ∧ y ≠ v

/-- State of the search when the calls for the nodes of `gray` are open, some of which may have been
closed. -/
structure Sound (succ : Nat → List Nat) (st : SccState) (gray : List Nat) : Prop where
  dfn_lt : ∀ x, st.Disc x → (st.nodes x).dfn < st.dfn
  stk_lt : ∀ p q, p < q → q < st.dfnTop →
    (st.nodes (st.dfnStack p)).dfn < (st.nodes (st.dfnStack q)).dfn
  active_stk : ∀ x, st.Active x → st.OnStack x
  gray_disc : ∀ x ∈ gray, st.Disc x
  black_edge : ∀ x y, st.Disc x → x ∉ gray → Edge succ x y → st.Disc y
  order_reach : ∀ x y, st.Active x → st.Active y → (st.nodes x).dfn ≤ (st.nodes y).dfn →
    Reach succ x y
  gray_reach : ∀ x, ∀ u ∈ gray, st.Active x → (st.nodes x).dfn ≤ (st.nodes u).dfn → Reach succ x u
  low_le : ∀ x, st.Active x → (st.nodes x).low ≤ (st.nodes x).dfn
  low_reach : ∀ x, st.Active x →
    ∃ w, st.Active w ∧ (st.nodes w).dfn = (st.nodes x).low ∧ Reach succ x w
  low_lt : ∀ x, st.Active x → x ∉ gray → (st.nodes x).low < (st.nodes x).dfn
  low_edge : ∀ x y, st.Active x → x ∉ gray → Edge succ x y → st.Active y →
    (st.nodes x).low ≤ (st.nodes y).dfn
  around : ∀ x, ∀ u ∈ gray, st.Active u → st.Active x → (st.nodes u).dfn < (st.nodes x).dfn →
    (st.nodes x).low < (st.nodes u).dfn → (st.nodes u).low < (st.nodes u).dfn ∨
      ∃ w, st.Active w ∧ (st.nodes w).dfn < (st.nodes u).dfn ∧ Around succ u x w
  done_complete : ∀ x y, st.Done x → Reach succ x y → Reach succ y x → st.Done y
  done_scc : ∀ x y, st.Done x → st.Done y →
    ((st.nodes x).component = (st.nodes y).component ↔ Reach succ x y ∧ Reach succ y x)

/-! ### General facts -/

section

variable (h : Sound succ st gray)
include h

/-- Places on the stack are ordered by number. -/
theorem Sound.stack_le_iff (hst : Stacked n st) (hx : st.Active x)
    (hy : st.Active y) :
    (st.nodes x).stack ≤ (st.nodes y).stack ↔ (st.nodes x).dfn ≤ (st.nodes y).dfn := by
  obtain ⟨p, hp, rfl⟩ := h.active_stk x hx
  obtain ⟨q, hq, rfl⟩ := h.active_stk y hy
  rw [hst.stk_pos p hp, hst.stk_pos q hq]
  rcases Nat.lt_trichotomy p q with hpq | rfl | hpq
  · have := h.stk_lt p q hpq hq
    omega
  · simp
  · have := h.stk_lt q p hpq hp
    omega

theorem Sound.dfn_inj (hst : Stacked n st) (hx : st.Active x)
    (hy : st.Active y) (heq : (st.nodes x).dfn = (st.nodes y).dfn) : x = y := by
  have hle := (h.stack_le_iff hst hx hy).mpr heq.le
  have hge := (h.stack_le_iff hst hy hx).mpr heq.ge
  obtain ⟨p, hp, rfl⟩ := h.active_stk x hx
  obtain ⟨q, hq, rfl⟩ := h.active_stk y hy
  rw [hst.stk_pos p hp, hst.stk_pos q hq] at hle hge
  rw [Nat.le_antisymm hle hge]

/-- The nodes on the stack from `v` on are the active ones that are not older. -/
theorem Sound.above_iff (hst : Stacked n st) (hv : st.Active v) (x : Nat) :
    Above st v x ↔ st.Active x ∧ (st.nodes v).dfn ≤ (st.nodes x).dfn := by
  constructor
  · intro hx
    have hxa := hst.above_active hx
    refine ⟨hxa, (h.stack_le_iff hst hv hxa).mp ?_⟩
    obtain ⟨p, hp, hpt, rfl⟩ := hx
    rwa [hst.stk_pos p hpt]
  · rintro ⟨hx, hle⟩
    have hstack := (h.stack_le_iff hst hv hx).mpr hle
    obtain ⟨p, hp, rfl⟩ := h.active_stk x hx
    rw [hst.stk_pos p hp] at hstack
    exact ⟨p, hstack, hp, rfl⟩

/-- Following `low` downwards from an active node leads to the newest open call. -/
theorem Sound.reach_down {u : Nat} (hu : u ∈ gray)
    (hmax : ∀ x ∈ gray, (st.nodes x).dfn ≤ (st.nodes u).dfn) (hx : st.Active x) :
    Reach succ x u := by
  induction hd : (st.nodes x).dfn using Nat.strongRecOn generalizing x with
  | ind d ih =>
    by_cases hle : (st.nodes x).dfn ≤ (st.nodes u).dfn
    · exact h.gray_reach x u hu hx hle
    · have hlt := h.low_lt x hx fun hg => hle (hmax x hg)
      obtain ⟨w, hw, hwl, hr⟩ := h.low_reach x hx
      exact hr.trans (ih (st.nodes w).dfn (by omega) hw rfl)

end

/-- Without an open call no node is active. -/
theorem Sound.no_active (h : Sound succ st []) (x : Nat) : ¬st.Active x := by
  intro hx
  induction hd : (st.nodes x).dfn using Nat.strongRecOn generalizing x with
  | ind d ih =>
    have hlt := h.low_lt x hx not_mem_nil
    obtain ⟨w, hw, hwl, -⟩ := h.low_reach x hx
    exact ih (st.nodes w).dfn (by omega) w hw rfl

theorem Sound.active_reach (h : Sound succ st gray) (ho : Opens succ st gray v) (hx : st.Active x) :
    Reach succ x v := by
  rcases ho with rfl | ⟨u, hu, he, hmax⟩
  · exact absurd hx (h.no_active x)
  · exact (h.reach_down hu hmax hx).tail he

/-! ### Entering a node -/

theorem Sound.enter (h : Sound succ st gray) (hst : Stacked n st) (hv : ¬st.Disc v)
    (ho : Opens succ st gray v) : Sound succ (st.enter v) (v :: gray) := by
  have hvd : ¬st.Done v := fun hd => hv (hst.done_disc v hd)
  have hne : ∀ {x}, st.Disc x → x ≠ v := fun hx he => hv (he ▸ hx)
  have hold : ∀ {x}, st.Disc x → (st.enter v).nodes x = st.nodes x :=
    fun hx => enter_nodes_ne st (hne hx)
  have hself : ((st.enter v).nodes v).dfn = st.dfn := by rw [enter_nodes_self]
  have hlow : ((st.enter v).nodes v).low = st.dfn := by rw [enter_nodes_self]
  have hact := enter_active hst.dfn_pos hvd
  have hdisc := fun x => enter_disc (v := v) hst.dfn_pos x
  constructor
  case dfn_lt =>
    intro x hx
    rcases (hdisc x).mp hx with rfl | hx
    · rw [hself]; exact Nat.lt_succ_self _
    · rw [hold hx]; exact Nat.lt_succ_of_lt (h.dfn_lt x hx)
  case stk_lt =>
    intro p q hpq hq
    rcases Nat.lt_succ_iff_lt_or_eq.mp hq with hq | rfl
    · have hp : p < st.dfnTop := hpq.trans hq
      rw [enter_stk_lt st v hp, enter_stk_lt st v hq, hold (hst.stk_active p hp).1,
        hold (hst.stk_active q hq).1]
      exact h.stk_lt p q hpq hq
    · rw [enter_stk_lt st v hpq, enter_stk_top, hold (hst.stk_active p hpq).1, hself]
      exact h.dfn_lt _ (hst.stk_active p hpq).1
  case active_stk =>
    intro x hx
    rw [enter_onStack]
    exact ((hact x).mp hx).imp_right (h.active_stk x)
  case gray_disc =>
    intro x hx
    rw [hdisc]
    exact (mem_cons.mp hx).imp_right (h.gray_disc x)
  case black_edge =>
    intro x y hx hg he
    rw [mem_cons, not_or] at hg
    exact (hdisc y).mpr (.inr (h.black_edge x y (((hdisc x).mp hx).resolve_left hg.1) hg.2 he))
  case order_reach =>
    intro x y hx hy hle
    rcases (hact x).mp hx with rfl | hx
    · rcases (hact y).mp hy with rfl | hy
      · exact .refl
      · rw [hself, hold hy.1] at hle
        exact absurd (h.dfn_lt y hy.1) (by omega)
    · rcases (hact y).mp hy with hyv | hy
      · exact hyv ▸ h.active_reach ho hx
      · rw [hold hx.1, hold hy.1] at hle
        exact h.order_reach x y hx hy hle
  case gray_reach =>
    intro x u hu hx hle
    rcases mem_cons.mp hu with rfl | hu
    · rcases (hact x).mp hx with rfl | hx
      · exact .refl
      · exact h.active_reach ho hx
    · have hud := h.gray_disc u hu
      rcases (hact x).mp hx with rfl | hx
      · rw [hself, hold hud] at hle
        exact absurd (h.dfn_lt u hud) (by omega)
      · rw [hold hx.1, hold hud] at hle
        exact h.gray_reach x u hu hx hle
  case low_le =>
    intro x hx
    rcases (hact x).mp hx with rfl | hx
    · rw [hself, hlow]
    · rw [hold hx.1]; exact h.low_le x hx
  case low_reach =>
    intro x hx
    rcases (hact x).mp hx with rfl | hx
    · exact ⟨x, (hact x).mpr (.inl rfl), by rw [hself, hlow], .refl⟩
    · obtain ⟨w, hw, hwl, hr⟩ := h.low_reach x hx
      exact ⟨w, (hact w).mpr (.inr hw), by rw [hold hw.1, hold hx.1]; exact hwl, hr⟩
  case low_lt =>
    intro x hx hg
    rw [mem_cons, not_or] at hg
    have hx := ((hact x).mp hx).resolve_left hg.1
    rw [hold hx.1]
    exact h.low_lt x hx hg.2
  case low_edge =>
    intro x y hx hg he hy
    rw [mem_cons, not_or] at hg
    have hx := ((hact x).mp hx).resolve_left hg.1
    rcases (hact y).mp hy with hyv | hy
    · exact absurd (hyv ▸ h.black_edge x y hx.1 hg.2 he) hv
    · rw [hold hx.1, hold hy.1]
      exact h.low_edge x y hx hg.2 he hy
  case around =>
    intro x u hu hua hx hlt hlow'
    rcases (hact x).mp hx with rfl | hx
    · -- the new node has not been lowered
      rw [hself] at hlt
      rw [hlow] at hlow'
      omega
    rcases mem_cons.mp hu with huv | hu
    · rw [huv, hself, hold hx.1] at hlt
      exact absurd (h.dfn_lt x hx.1) (by omega)
    · have hud := h.gray_disc u hu
      have hua := ((hact u).mp hua).resolve_left (hne hud)
      rw [hold hud, hold hx.1] at hlt hlow'
      rw [hold hud]
      refine (h.around x u hu hua hx hlt hlow').imp_right ?_
      rintro ⟨w, hw, hwlt, hpath⟩
      exact ⟨w, (hact w).mpr (.inr hw), by rwa [hold hw.1], hpath⟩
  case done_complete =>
    intro x y hx hxy hyx
    rw [enter_done] at hx ⊢
    exact h.done_complete x y hx hxy hyx
  case done_scc =>
    intro x y hx hy
    rw [enter_done] at hx hy
    rw [enter_component, enter_component]
    exact h.done_scc x y hx hy

/-! ### Lowering -/

theorem lowerLow_self (h : (st.nodes v).low ≤ (st.nodes y).low) : st.lowerLow v y = st := by
  rw [SccState.lowerLow, if_neg (Nat.not_lt.mpr h)]

theorem Sound.lowerLow (h : Sound succ st (v :: gray)) (hst : Stacked n st) (hv : st.Active v)
    (he : Edge succ v y) (hy : st.Active y) : Sound succ (st.lowerLow v y) (v :: gray) := by
  obtain ⟨hs, ht, hn, hcomp⟩ := lowerLow_fields st v y
  have hd : ∀ x, ((st.lowerLow v y).nodes x).dfn = (st.nodes x).dfn :=
    fun x => (lowerLow_kept st v y x).2.1
  have hc : ∀ x, ((st.lowerLow v y).nodes x).component = (st.nodes x).component :=
    fun x => (lowerLow_kept st v y x).2.2.1
  have hact := lowerLow_active st v y
  have hon := lowerLow_onStack st v y
  have hdisc := lowerLow_disc st v y
  have hdone := lowerLow_done st v y
  have hle := lowerLow_low_le st v y
  constructor
  case low_le =>
    intro x hx
    rw [hact] at hx
    rw [hd]
    exact (hle x).trans (h.low_le x hx)
  case low_reach =>
    intro x hx
    rw [hact] at hx
    simp only [hact, hd]
    by_cases hxv : x = v
    · subst hxv
      rw [lowerLow_nodes_self]
      rcases Nat.le_total (st.nodes x).low (st.nodes y).low with hxy | hyx
      · simp only [Nat.min_eq_left hxy]
        exact h.low_reach x hx
      · simp only [Nat.min_eq_right hyx]
        obtain ⟨w, hw, hwl, hr⟩ := h.low_reach y hy
        exact ⟨w, hw, hwl, hr.head he⟩
    · rw [lowerLow_nodes_ne st hxv]
      exact h.low_reach x hx
  case low_lt =>
    intro x hx hg
    rw [hact] at hx
    rw [hd]
    exact (hle x).trans_lt (h.low_lt x hx hg)
  case low_edge =>
    intro x z hx hg hxz hz
    rw [hact] at hx hz
    rw [hd]
    exact (hle x).trans (h.low_edge x z hx hg hxz hz)
  case around =>
    intro x u hu hua hx hlt hlow
    rw [hact] at hua hx
    simp only [hact, hd] at hlt hlow ⊢
    have hold : (st.nodes x).low < (st.nodes u).dfn → ((st.lowerLow v y).nodes u).low <
        (st.nodes u).dfn ∨ ∃ w, st.Active w ∧ (st.nodes w).dfn < (st.nodes u).dfn ∧
          Around succ u x w := by
      intro hlow'
      exact (h.around x u hu hua hx hlt hlow').imp_left fun hul => (hle u).trans_lt hul
    by_cases hxv : x = v
    · subst hxv
      rw [lowerLow_nodes_self] at hlow
      simp only at hlow
      rcases Nat.lt_or_ge (st.nodes x).low (st.nodes u).dfn with hlow' | hge
      · exact hold hlow'
      · -- the smaller value comes from `y`
        have hylow : (st.nodes y).low < (st.nodes u).dfn := by omega
        have hyu : y ≠ u → Around succ u x y := fun hne => .single ⟨he, hne⟩
        rcases Nat.lt_trichotomy (st.nodes y).dfn (st.nodes u).dfn with hlt' | heq | hgt
        · exact .inr ⟨y, hy, hlt', hyu fun he => by rw [he] at hlt'; omega⟩
        · have hyeq := h.dfn_inj hst hy hua heq
          rw [hyeq] at hylow
          exact .inl ((hle u).trans_lt hylow)
        · rcases h.around y u hu hua hy hgt hylow with hul | ⟨w, hw, hwlt, hpath⟩
          · exact .inl ((hle u).trans_lt hul)
          · exact .inr ⟨w, hw, hwlt, hpath.head ⟨he, fun he => by rw [he] at hgt; omega⟩⟩
    · rw [lowerLow_nodes_ne st hxv] at hlow
      exact hold hlow
  all_goals simp only [hs, ht, hn, hd, hc, hact, hon, hdisc, hdone]
  case dfn_lt => exact h.dfn_lt
  case stk_lt => exact h.stk_lt
  case active_stk => exact h.active_stk
  case gray_disc => exact h.gray_disc
  case black_edge => exact h.black_edge
  case order_reach => exact h.order_reach
  case gray_reach => exact h.gray_reach
  case done_complete => exact h.done_complete
  case done_scc => exact h.done_scc

/-! ### Closing a call -/

/-- The call for `v` ends. -/
theorem Sound.leave (h : Sound succ st (v :: gray))
    (hlow : st.Active v → (st.nodes v).low < (st.nodes v).dfn)
    (hedge : ∀ y, Edge succ v y → Followed st v y) : Sound succ st gray where
  dfn_lt := h.dfn_lt
  stk_lt := h.stk_lt
  active_stk := h.active_stk
  gray_disc x hx := h.gray_disc x (mem_cons_of_mem v hx)
  black_edge x y hx hg he := by
    by_cases hxv : x = v
    · exact (hedge y (hxv ▸ he)).1
    · exact h.black_edge x y hx (by simp [hxv, hg]) he
  order_reach := h.order_reach
  gray_reach x u hu := h.gray_reach x u (mem_cons_of_mem v hu)
  low_le := h.low_le
  low_reach := h.low_reach
  low_lt x hx hg := by
    by_cases hxv : x = v
    · exact hxv ▸ hlow (hxv ▸ hx)
    · exact h.low_lt x hx (by simp [hxv, hg])
  low_edge x y hx hg he hy := by
    by_cases hxv : x = v
    · subst hxv; exact (hedge y he).2 hy
    · exact h.low_edge x y hx (by simp [hxv, hg]) he hy
  around x u hu := h.around x u (mem_cons_of_mem v hu)
  done_complete := h.done_complete
  done_scc := h.done_scc

/-- The component of `v` is complete when it is closed. -/
theorem Sound.close (h : Sound succ st (v :: gray)) (hst : Stacked n st) (hv : st.Active v)
    (hgray : ∀ x ∈ gray, (st.nodes x).dfn < (st.nodes v).dfn)
    (hscc : ∀ u, Reach succ u v → Reach succ v u → Above st v u) :
    Sound succ (closeComponent st v) (v :: gray) := by
  obtain ⟨hs, ht, hn, hcomp⟩ := closeComponent_fields st v
  have hpos := hst.component_pos
  have hd : ∀ x, ((closeComponent st v).nodes x).dfn = (st.nodes x).dfn :=
    fun x => (closeComponent_kept st v x).2.1
  have hl : ∀ x, ((closeComponent st v).nodes x).low = (st.nodes x).low :=
    fun x => (closeComponent_kept st v x).2.2.1
  have hact := closeComponent_active hpos v
  have hdisc := closeComponent_disc st v
  have hdone := closeComponent_done hpos v
  have habove := h.above_iff hst hv
  have hmax : ∀ x ∈ v :: gray, (st.nodes x).dfn ≤ (st.nodes v).dfn := by
    intro x hx
    rcases mem_cons.mp hx with rfl | hx
    · exact le_rfl
    · exact (hgray x hx).le
  -- An active node that is not closed is older than `v`.
  have hbelow : ∀ {x}, st.Active x → ¬Above st v x → (st.nodes x).dfn < (st.nodes v).dfn := by
    intro x hx hna
    by_contra hle
    exact hna ((habove x).mpr ⟨hx, Nat.not_lt.mp hle⟩)
  have hkeep : ∀ {w}, st.Active w → (st.nodes w).dfn < (st.nodes v).dfn →
      (closeComponent st v).Active w := by
    intro w hw hlt
    refine (hact w).mpr ⟨hw, fun ha => ?_⟩
    have := ((habove w).mp ha).2
    omega
  constructor
  case dfn_lt =>
    intro x hx
    rw [hd, hn]
    exact h.dfn_lt x ((hdisc x).mp hx)
  case stk_lt =>
    intro p q hpq hq
    rw [ht] at hq
    rw [hs, hd, hd]
    exact h.stk_lt p q hpq (by omega)
  case active_stk =>
    intro x hx
    obtain ⟨hx, hna⟩ := (hact x).mp hx
    obtain ⟨p, hp, rfl⟩ := h.active_stk x hx
    refine ⟨p, ?_, by rw [hs]⟩
    rw [ht]
    by_contra hge
    exact hna ⟨p, by omega, hp, rfl⟩
  case gray_disc => exact fun x hx => (hdisc x).mpr (h.gray_disc x hx)
  case black_edge =>
    intro x y hx hg he
    rw [hdisc] at hx ⊢
    exact h.black_edge x y hx hg he
  case order_reach =>
    intro x y hx hy hle
    rw [hd, hd] at hle
    exact h.order_reach x y ((hact x).mp hx).1 ((hact y).mp hy).1 hle
  case gray_reach =>
    intro x u hu hx hle
    rw [hd, hd] at hle
    exact h.gray_reach x u hu ((hact x).mp hx).1 hle
  case low_le =>
    intro x hx
    rw [hd, hl]
    exact h.low_le x ((hact x).mp hx).1
  case low_reach =>
    intro x hx
    obtain ⟨hx, hna⟩ := (hact x).mp hx
    obtain ⟨w, hw, hwl, hr⟩ := h.low_reach x hx
    have := h.low_le x hx
    have := hbelow hx hna
    exact ⟨w, hkeep hw (by omega), by rw [hd, hl]; exact hwl, hr⟩
  case low_lt =>
    intro x hx hg
    rw [hd, hl]
    exact h.low_lt x ((hact x).mp hx).1 hg
  case low_edge =>
    intro x y hx hg he hy
    rw [hd, hl]
    exact h.low_edge x y ((hact x).mp hx).1 hg he ((hact y).mp hy).1
  case around =>
    intro x u hu hua hx hlt hlow
    obtain ⟨hua, huna⟩ := (hact u).mp hua
    obtain ⟨hx, hna⟩ := (hact x).mp hx
    rw [hd, hd] at hlt
    rw [hl, hd] at hlow
    rw [hl, hd]
    refine (h.around x u hu hua hx hlt hlow).imp_right ?_
    rintro ⟨w, hw, hwlt, hpath⟩
    have := hbelow hua huna
    exact ⟨w, hkeep hw (by omega), by rw [hd]; exact hwlt, hpath⟩
  case done_complete =>
    intro x y hx hxy hyx
    rw [hdone] at hx ⊢
    rcases hx with hx | hx
    · have hvx := h.order_reach v x hv ((habove x).mp hx).1 ((habove x).mp hx).2
      have hxv := h.reach_down mem_cons_self hmax ((habove x).mp hx).1
      exact .inl (hscc y (hyx.trans hxv) (hvx.trans hxy))
    · exact .inr (h.done_complete x y hx hxy hyx)
  case done_scc =>
    have hmixed : ∀ x y, Above st v x → st.Done y → ¬(Reach succ x y ∧ Reach succ y x) := by
      rintro x y hx hy ⟨hxy, hyx⟩
      exact not_done_of_active ((habove x).mp hx).1 (h.done_complete y x hy hyx hxy)
    intro x y hx hy
    have hlt := hst.done_lt
    rw [hdone] at hx hy
    by_cases hxa : Above st v x <;> by_cases hya : Above st v y
    · rw [closeComponent_above hxa, closeComponent_above hya]
      have hreach : ∀ z, Above st v z → Reach succ v z ∧ Reach succ z v := fun z hz =>
        ⟨h.order_reach v z hv ((habove z).mp hz).1 ((habove z).mp hz).2,
          h.reach_down mem_cons_self hmax ((habove z).mp hz).1⟩
      exact iff_of_true rfl ⟨(hreach x hxa).2.trans (hreach y hya).1,
        (hreach y hya).2.trans (hreach x hxa).1⟩
    · rw [closeComponent_above hxa, closeComponent_not_above hya]
      exact iff_of_false (Nat.ne_of_gt (hlt y)) (hmixed x y hxa (hy.resolve_left hya))
    · rw [closeComponent_not_above hxa, closeComponent_above hya]
      exact iff_of_false (Nat.ne_of_lt (hlt x)) fun hm =>
        hmixed y x hya (hx.resolve_left hxa) hm.symm
    · rw [closeComponent_not_above hxa, closeComponent_not_above hya]
      exact h.done_scc x y (hx.resolve_left hxa) (hy.resolve_left hya)

/-- Closing a component that is not complete splits it. -/
theorem Stacked.split_close (hst : Stacked n st) (hv : Above st v v) {u : Nat}
    (hu : ¬Above st v u) (huv : Reach succ u v) (hvu : Reach succ v u) :
    Split succ (closeComponent st v) := by
  refine ⟨u, v, huv, hvu, (closeComponent_done hst.component_pos v v).mpr (.inl hv), ?_⟩
  rw [closeComponent_above hv, closeComponent_not_above hu]
  exact Nat.ne_of_lt (hst.done_lt u)

end Sound

end XSBEngine.Residual
