import XSBEngine.Residual.Loops

/-!
# The ends of the delay lists

At the end of the first delay list the component of a node is closed, split, or stays open until the
call for an older node is finished. The ends of the later lists change nothing.
-/

namespace XSBEngine.Residual

open CallGraph CallGraph.SccState List Relation ResidualAnswers

section Closing

variable {succ first : Nat → List Nat} {order : List Nat} {n : Nat} {st st₀ st1 st' : SccState}
  {gray : List Nat} {v u w x y z : Nat} {node : Nat → Nat} {bound : Nat}
  {visit : SccState → Nat → Option SccState} {next : List Nat → Nat → List Nat} {ys : List Nat}

/-- State between two delay lists of `v`, after the first one. -/
def BetweenLists (succ first : Nat → List Nat) (order gray : List Nat) (v : Nat)
    (st₀ st : SccState) : Prop :=
  (OpenLoop succ first order gray v st₀ st ∧ (st.nodes v).low < (st.nodes v).dfn ∧
      FirstDecides succ first order v) ∨
    ShutLoop succ first order gray v st₀ st

theorem OpenLoop.start (h : Start succ n node gray v st₀) (ho : Opens succ st₀ gray v) :
    OpenLoop succ first order gray v st₀ (st₀.enter v) where
  sound := h.sound.enter h.stacked h.new ho
  active := by
    rw [enter_active h.stacked.dfn_pos fun hd => h.new (h.stacked.done_disc v hd)]
    exact .inl rfl
  low_min x hx hx0 := by
    rw [((enter_disc h.stacked.dfn_pos x).mp hx.1).resolve_right hx0]
  decided x hx hx0 hxv :=
    absurd (((enter_disc h.stacked.dfn_pos x).mp hx).resolve_right hx0) hxv

theorem FirstPhase.start (h : Start succ n node gray v st₀) :
    FirstPhase succ v ys st₀ (st₀.enter v) where
  new x hx hx0 hxv := absurd (((enter_disc h.stacked.dfn_pos x).mp hx).resolve_right hx0) hxv
  low hlow := by
    rw [enter_nodes_self] at hlow
    exact absurd hlow (Nat.lt_irrefl _)

theorem followed_endOfDl (h : Followed st v z) (hst : Stacked n st) (y : Nat) :
    Followed (endOfDl st y) v z := by
  rw [Residual.endOfDl]
  split
  next =>
    refine ⟨(closeComponent_disc st y z).mpr h.1, fun hz => ?_⟩
    rw [(closeComponent_kept st y v).2.2.1, (closeComponent_kept st y z).2.1]
    exact h.2 ((closeComponent_active hst.component_pos y z).mp hz).1
  next => exact h

/-! ### The first list -/

section

variable (h : OpenLoop succ first order gray v st₀ st)
include h

/-- A node of the component of `v` that the first list leads to is still active, when `low` of `v`
has not been lowered. -/
theorem OpenLoop.above (hstart : Start succ n node gray v st₀) (hrun : Running succ n v st₀ st)
    (hys : ∀ y ∈ ys, Edge succ v y ∧ Followed st v y)
    (hlow : (st.nodes v).low = (st.nodes v).dfn) (hu : Avoiding succ v ys u)
    (huv : Reach succ u v) : Above st v u := by
  have habove := h.sound.above_iff hrun.stacked h.active
  -- nothing of the component is done
  have hactive : ∀ {x}, st.Disc x → Reach succ v x → Reach succ x v → st.Active x := by
    intro x hx hvx hxv
    exact (active_or_done hx).resolve_right fun hd =>
      not_done_of_active h.active (h.sound.done_complete x v hd hxv hvx)
  obtain ⟨w, hw, hwv, hpath⟩ := hu
  obtain ⟨hvw, hwf⟩ := hys w hw
  suffices hgoal : u ≠ v ∧ Reach succ v u ∧ Above st v u from hgoal.2.2
  induction hpath with
  | refl =>
    have hwa := hactive hwf.1 (.single hvw) huv
    exact ⟨hwv, .single hvw, (habove w).mpr ⟨hwa, hlow ▸ hwf.2 hwa⟩⟩
  | @tail b c _ hbc ih =>
    obtain ⟨hbv, hvb, hba⟩ := ih (huv.head hbc.1)
    obtain ⟨hbact, hle⟩ := (habove b).mp hba
    have hbg : b ∉ v :: gray := by
      rw [mem_cons, not_or]
      refine ⟨hbv, fun hg => ?_⟩
      have := hstart.gray_lt hrun b hg
      omega
    have hb0 : ¬st₀.Disc b := fun hb0 => by
      have := hstart.older hrun hb0
      omega
    have hvc := hvb.tail hbc.1
    have hca := hactive (h.sound.black_edge b c hbact.1 hbg hbc.1) hvc huv
    refine ⟨hbc.2, hvc, (habove c).mpr ⟨hca, ?_⟩⟩
    calc (st.nodes v).dfn = (st.nodes v).low := hlow.symm
      _ ≤ (st.nodes b).low := h.low_min b hbact hb0
      _ ≤ (st.nodes c).dfn := h.sound.low_edge b c hbact hbg hbc.1 hca

/-- An older active node that the first list leads to. -/
theorem OpenLoop.decides_of_low
    (hfirst : FirstPhase succ v (first v) st₀ st) (hag : Agrees order st)
    (hlow : (st.nodes v).low < (st.nodes v).dfn) : FirstDecides succ first order v := by
  obtain ⟨w, hw, hlt, hpath⟩ := hfirst.low hlow
  refine .inr ⟨w, h.sound.order_reach w v hw h.active hlt.le, ?_, hpath⟩
  rw [hag w hw.1, hag v h.active.1] at hlt
  exact Nat.lt_of_add_lt_add_right hlt

section

variable (hstart : Start succ n node gray v st₀)
include hstart

theorem OpenLoop.close (hrun : Running succ n v st₀ st)
    (hfirst : FirstPhase succ v (first v) st₀ st)
    (hlow : (st.nodes v).low = (st.nodes v).dfn)
    (hscc : ∀ u, Reach succ u v → Reach succ v u → Above st v u) :
    ShutLoop succ first order gray v st₀ (closeComponent st v) := by
  have habove := h.sound.above_iff hrun.stacked h.active
  obtain ⟨-, hdfn, hlow', -⟩ := closeComponent_kept st v v
  constructor
  case sound => exact h.sound.close hrun.stacked h.active (hstart.gray_lt hrun) hscc
  case done =>
    rw [closeComponent_done hrun.stacked.component_pos]
    exact .inl ((habove v).mpr ⟨h.active, le_rfl⟩)
  case low_eq => rw [hdfn, hlow', hlow]
  case top => rw [(closeComponent_fields st v).2.1, hrun.stack_eq, Nat.min_eq_right hrun.frame.top]
  case decided =>
    intro x hx hx0
    rw [closeComponent_disc] at hx
    by_cases hxv : x = v
    · subst hxv
      refine .inl fun u hux hxu hne => ?_
      obtain ⟨hua, hle⟩ := (habove u).mp (hscc u hux hxu)
      refine hfirst.new u hua.1 (fun hu0 => ?_) hne
      have := hstart.older hrun hu0
      omega
    · exact h.decided x hx hx0 hxv

theorem OpenLoop.wrong (hrun : Running succ n v st₀ st)
    (hag : Agrees order st) (hys : ∀ y ∈ first v, Edge succ v y ∧ Followed st v y)
    (hlow : (st.nodes v).low = (st.nodes v).dfn)
    (hscc : ¬∀ u, Reach succ u v → Reach succ v u → Above st v u) :
    Wrong succ first order (closeComponent st v) := by
  have habove := h.sound.above_iff hrun.stacked h.active
  have hself : Above st v v := (habove v).mpr ⟨h.active, le_rfl⟩
  push Not at hscc
  obtain ⟨u, huv, hvu, hna⟩ := hscc
  refine ⟨hrun.stacked.split_close hself hna huv hvu, v,
    (closeComponent_disc st v v).mpr hrun.disc, ?_⟩
  rintro (hall | ⟨w, hwv, hbefore, hpath⟩)
  · have hne : u ≠ v := fun he => hna (he ▸ hself)
    exact hna (h.above hstart hrun hys hlow (hall u huv hvu hne) huv)
  · obtain ⟨hwa, hle⟩ := (habove w).mp (h.above hstart hrun hys hlow hpath hwv)
    rw [hag v hrun.disc, hag w hwa.1] at hle
    exact absurd hbefore (Nat.not_lt.mpr (Nat.le_of_succ_le_succ hle))

/-- The end of the first list. -/
theorem OpenLoop.endOfFirst (hrun : Running succ n v st₀ st)
    (hfirst : FirstPhase succ v (first v) st₀ st) (hag : Agrees order st)
    (hys : ∀ y ∈ first v, Edge succ v y ∧ Followed st v y) :
    BetweenLists succ first order gray v st₀ (endOfDl st v) ∨
      Wrong succ first order (endOfDl st v) := by
  rw [endOfDl]
  split
  next hlow =>
    by_cases hscc : ∀ u, Reach succ u v → Reach succ v u → Above st v u
    · exact .inl (.inr (h.close hstart hrun hfirst hlow hscc))
    · exact .inr (h.wrong hstart hrun hag hys hlow hscc)
  next hlow =>
    have hlt := Nat.lt_of_le_of_ne (h.sound.low_le v h.active) hlow
    exact .inl (.inl ⟨h, hlt, h.decides_of_low hfirst hag hlt⟩)

end

end

/-! ### The later lists -/

/-- Closing once more takes another number and nothing else. -/
theorem ShutLoop.close (h : ShutLoop succ first order gray v st₀ st)
    (hrun : Running succ n v st₀ st) :
    ShutLoop succ first order gray v st₀ (closeComponent st v) := by
  obtain ⟨hs, ht, hd, -⟩ := closeComponent_fields st v
  have hnodes : (closeComponent st v).nodes = st.nodes := by
    funext x
    refine closeComponent_not_above ?_
    rintro ⟨p, hp, hpt, -⟩
    rw [hrun.stack_eq, ← h.top] at hp
    omega
  have htop : (closeComponent st v).dfnTop = st.dfnTop := by
    rw [ht, hrun.stack_eq, ← h.top, Nat.min_self]
  have heq : closeComponent st v = { st with component := (closeComponent st v).component } := by
    rw [← hs, ← htop, ← hd, ← hnodes]
  rw [heq]
  exact ⟨⟨h.sound.dfn_lt, h.sound.stk_lt, h.sound.active_stk, h.sound.gray_disc,
    h.sound.black_edge, h.sound.order_reach, h.sound.gray_reach, h.sound.low_le,
    h.sound.low_reach, h.sound.low_lt, h.sound.low_edge, h.sound.around, h.sound.done_complete,
    h.sound.done_scc⟩, h.done, h.low_eq, h.top, h.decided⟩

theorem BetweenLists.endOfDl (h : BetweenLists succ first order gray v st₀ st)
    (hrun : Running succ n v st₀ st) :
    BetweenLists succ first order gray v st₀ (endOfDl st v) := by
  rw [Residual.endOfDl]
  rcases h with ⟨ho, hlow, hf⟩ | hs
  · rw [if_neg hlow.ne]
    exact .inl ⟨ho, hlow, hf⟩
  · rw [if_pos hs.low_eq]
    exact .inr (hs.close hrun)

theorem BetweenLists.followTargets (h : BetweenLists succ first order gray v st₀ st)
    (hstart : Start succ n node gray v st₀) (hrun : Running succ n v st₀ st)
    (hcalls : CallSpec succ n node bound visit next)
    (hsound : SoundSpec succ first order n node bound visit) (hb : undiscovered n st ≤ bound)
    (hys : ∀ y ∈ ys, Edge succ v y ∧ y < n)
    (hst : Residual.followTargets visit v ys st = some st') (hrun' : Running succ n v st₀ st')
    (hag : Agrees order st') :
    (BetweenLists succ first order gray v st₀ st' ∧ Follows v ys st st') ∨
      Wrong succ first order st' := by
  rcases h with ⟨ho, hlow, hf⟩ | hs
  · refine (ho.followTargets hstart hrun hcalls hsound hb hys hst hag).imp_left ?_
    rintro ⟨ho', hfol, -⟩
    refine ⟨.inl ⟨ho', ?_, hf⟩, hfol⟩
    rw [hrun'.dfn_eq, ← hrun.dfn_eq]
    exact hfol.low_le.trans_lt hlow
  · exact (hs.followTargets hstart hrun hcalls hsound hb hys hst hag).imp_left fun ⟨hs', hfol⟩ =>
      ⟨.inr hs', hfol⟩

/-- The lists after the first one. -/
theorem BetweenLists.followDls {dls : List (List Nat)}
    (h : BetweenLists succ first order gray v st₀ st)
    (hstart : Start succ n node gray v st₀) (hrun : Running succ n v st₀ st)
    (hcalls : CallSpec succ n node bound visit next)
    (hsound : SoundSpec succ first order n node bound visit) (hb : undiscovered n st ≤ bound)
    (hdls : ∀ y ∈ dls.flatten, Edge succ v y ∧ y < n)
    (hst : Residual.followDls visit v dls st = some st') (hag : Agrees order st') :
    (BetweenLists succ first order gray v st₀ st' ∧ Follows v dls.flatten st st') ∨
      Wrong succ first order st' := by
  induction dls generalizing st with
  | nil =>
    obtain rfl : st = st' := by simpa [Residual.followDls] using hst
    exact .inl ⟨h, .nil v st⟩
  | cons ys dls ih =>
    rw [flatten_cons] at hdls ⊢
    have hys := fun y hy => hdls y (mem_append_left _ hy)
    have hdls' := fun y hy => hdls y (mem_append_right _ hy)
    obtain ⟨st1, hst1, h1, hle1, -, -⟩ := hrun.followTargets hstart.new hstart.node hcalls hb hys
    have hb1 : undiscovered n (Residual.endOfDl st1 v) ≤ bound :=
      (undiscovered_endOfDl st1 v).trans_le (hle1.trans hb)
    obtain ⟨st2, hst2, -, hl2, -⟩ :=
      h1.endOfDl.followDls hstart.new hstart.node hcalls hb1 hdls'
    rw [Residual.followDls, foldlM_cons, hst1] at hst
    have hst : Residual.followDls visit v dls (Residual.endOfDl st1 v) = some st' := hst
    obtain rfl : st2 = st' := Option.some.inj (hst2.symm.trans hst)
    have hl1 := (Later.endOfDl h1.stacked v).trans hl2
    rcases h.followTargets hstart hrun hcalls hsound hb hys hst1 h1 (hag.later hl1) with
      ⟨hbet, hfol⟩ | hw
    · refine (ih (hbet.endOfDl h1) h1.endOfDl hb1 hdls' hst).imp_left fun hrest => ?_
      obtain ⟨hbet', hfol'⟩ := hrest
      refine ⟨hbet', ?_, ?_, ?_⟩
      · intro z hz
        rcases mem_append.mp hz with hz | hz
        · exact hfol'.kept z (followed_endOfDl (hfol.followed z hz) h1.stacked v)
        · exact hfol'.followed z hz
      · exact fun z hz => hfol'.kept z (followed_endOfDl (hfol.kept z hz) h1.stacked v)
      · refine hfol'.low_le.trans (le_of_eq_of_le ?_ hfol.low_le)
        rw [Residual.endOfDl]
        split
        · exact (closeComponent_kept st1 v v).2.2.1
        · rfl
    · exact .inr (hw.later hl1)

/-! ### The end of the call -/

theorem BetweenLists.returned (h : BetweenLists succ first order gray v st₀ st)
    (hstart : Start succ n node gray v st₀) (hrun : Running succ n v st₀ st)
    (hedge : ∀ y, Edge succ v y → Followed st v y) :
    Returned succ first order gray v st₀ st := by
  rcases h with ⟨ho, hlow, hf⟩ | hs
  · have hnd : ¬st.Done v := not_done_of_active ho.active
    constructor
    case sound => exact ho.sound.leave (fun _ => hlow) hedge
    case low_min => exact fun x hx hx0 => ⟨ho.active, ho.low_min x hx hx0⟩
    case done_low => exact fun hd => absurd hd hnd
    case done_top => exact fun hd => absurd hd hnd
    case decided =>
      intro x hx hx0
      by_cases hxv : x = v
      · exact hxv ▸ hf
      · exact ho.decided x hx hx0 hxv
  · constructor
    case sound => exact hs.sound.leave (fun ha => absurd hs.done (not_done_of_active ha)) hedge
    case low_min =>
      -- the stack holds no new node
      intro x hx hx0
      obtain ⟨p, hp, rfl⟩ := hs.sound.active_stk x hx
      rw [hs.top] at hp
      rw [hrun.frame.stk p hp] at hx0
      exact absurd (hstart.stacked.stk_active p hp).1 hx0
    case done_low => exact fun _ => hs.low_eq
    case done_top => exact fun _ => hs.top
    case decided => exact hs.decided

/-- The body of a call. -/
theorem Start.returned {rest : List (List Nat)} (hstart : Start succ n node gray v st₀)
    (ho : Opens succ st₀ gray v) (hcalls : CallSpec succ n node bound visit next)
    (hsound : SoundSpec succ first order n node bound visit)
    (hb : undiscovered n (st₀.enter v) ≤ bound)
    (hedges : ∀ y, Edge succ v y ↔ y ∈ (first v :: rest).flatten)
    (hbound : ∀ y, Edge succ v y → y < n)
    (hst : Residual.followDls visit v (first v :: rest) (st₀.enter v) = some st')
    (hag : Agrees order st') :
    Returned succ first order gray v st₀ st' ∨ Wrong succ first order st' := by
  have hrun : Running succ n v st₀ (st₀.enter v) :=
    .start hstart.stacked hstart.new hstart.bound
  have hys : ∀ y ∈ first v, Edge succ v y ∧ y < n := fun y hy => by
    have he := (hedges y).mpr (mem_append_left _ hy)
    exact ⟨he, hbound y he⟩
  have hdls : ∀ y ∈ rest.flatten, Edge succ v y ∧ y < n := fun y hy => by
    have he := (hedges y).mpr (mem_append_right _ hy)
    exact ⟨he, hbound y he⟩
  obtain ⟨st1, hst1, h1, hle1, -, -⟩ := hrun.followTargets hstart.new hstart.node hcalls hb hys
  have hb1 : undiscovered n (endOfDl st1 v) ≤ bound :=
    (undiscovered_endOfDl st1 v).trans_le (hle1.trans hb)
  obtain ⟨st2, hst2, h2, hl2, -⟩ := h1.endOfDl.followDls hstart.new hstart.node hcalls hb1 hdls
  rw [Residual.followDls, foldlM_cons, hst1] at hst
  have hst : Residual.followDls visit v rest (endOfDl st1 v) = some st' := hst
  obtain rfl : st2 = st' := Option.some.inj (hst2.symm.trans hst)
  have hl1 : Later succ st1 st2 := (Later.endOfDl h1.stacked v).trans hl2
  rcases (OpenLoop.start hstart ho).followTargets hstart hrun hcalls hsound hb hys hst1
    (hag.later hl1) with ⟨hopen, hfol, hphase⟩ | hw
  · rcases hopen.endOfFirst hstart h1 (hphase _ (List.Subset.refl _) (.start hstart))
      (hag.later hl1) (fun y hy => ⟨(hys y hy).1, hfol.followed y hy⟩) with hbet | hw
    · refine (hbet.followDls hstart h1.endOfDl hcalls hsound hb1 hdls hst hag).imp_left ?_
      rintro ⟨hbet', hfol'⟩
      refine hbet'.returned hstart h2 fun y hy => ?_
      rcases mem_append.mp ((hedges y).mp hy) with hy | hy
      · exact hfol'.kept y (followed_endOfDl (hfol.followed y hy) h1.stacked v)
      · exact hfol'.followed y hy
    · exact .inr (hw.later hl2)
  · exact .inr (hw.later hl1)

end Closing

end XSBEngine.Residual
