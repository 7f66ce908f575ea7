import XSBEngine.Residual.Sound

/-!
# The loops over delay lists

A call closes the component of its node at the end of the first delay list or not at all. Whether it
is complete then depends on what the first list leads to.
-/

namespace XSBEngine.Residual

open CallGraph CallGraph.SccState List Relation ResidualAnswers

section Loops

variable {succ first : Nat → List Nat} {order : List Nat} {n : Nat} {st st₀ st1 st' : SccState}
  {gray : List Nat} {v x y z : Nat} {node : Nat → Nat} {bound : Nat}
  {visit : SccState → Nat → Option SccState} {next : List Nat → Nat → List Nat}

/-- The numbers follow the order of the search. -/
def Agrees (order : List Nat) (st : SccState) : Prop :=
  ∀ x, st.Disc x → (st.nodes x).dfn = order.idxOf x + 1

/-- A component has been split, and the first delay list of a node does not decide. -/
def Wrong (succ first : Nat → List Nat) (order : List Nat) (st : SccState) : Prop :=
  Split succ st ∧ ∃ x, st.Disc x ∧ ¬FirstDecides succ first order x

theorem Agrees.later (h : Agrees order st') (hl : Later succ st st') : Agrees order st := by
  intro x hx
  rw [← hl.dfn x hx]
  exact h x (hl.disc hx)

theorem Wrong.later (h : Wrong succ first order st) (hl : Later succ st st') :
    Wrong succ first order st' := by
  obtain ⟨hs, x, hx, hf⟩ := h
  exact ⟨hl.split hs, x, hl.disc hx, hf⟩

/-- Outcome of a call for the undiscovered node `v` while everything is right. -/
structure Returned (succ first : Nat → List Nat) (order gray : List Nat) (v : Nat)
    (st₀ st : SccState) : Prop where
  sound : Sound succ st gray
  low_min : ∀ x, st.Active x → ¬st₀.Disc x → st.Active v ∧ (st.nodes v).low ≤ (st.nodes x).low
  done_low : st.Done v → (st.nodes v).low = (st.nodes v).dfn
  done_top : st.Done v → st.dfnTop = st₀.dfnTop
  decided : ∀ x, st.Disc x → ¬st₀.Disc x → FirstDecides succ first order x

/-- The state in which a call for `v` starts. -/
structure Start (succ : Nat → List Nat) (n : Nat) (node : Nat → Nat) (gray : List Nat) (v : Nat)
    (st₀ : SccState) : Prop where
  sound : Sound succ st₀ gray
  stacked : Stacked n st₀
  node : ∀ x, (st₀.nodes x).node = node x
  new : ¬st₀.Disc v
  bound : v < n

/-- What a call does from every right state in which no more than `bound` nodes are left. -/
def SoundSpec (succ first : Nat → List Nat) (order : List Nat) (n : Nat) (node : Nat → Nat)
    (bound : Nat) (visit : SccState → Nat → Option SccState) : Prop :=
  ∀ st gray v st', Start succ n node gray v st → Opens succ st gray v → undiscovered n st ≤ bound →
    visit st v = some st' → Agrees order st' →
      Returned succ first order gray v st st' ∨ Wrong succ first order st'

/-- State in the loops of a call for `v` that has not been closed. -/
structure OpenLoop (succ first : Nat → List Nat) (order gray : List Nat) (v : Nat)
    (st₀ st : SccState) : Prop where
  sound : Sound succ st (v :: gray)
  active : st.Active v
  low_min : ∀ x, st.Active x → ¬st₀.Disc x → (st.nodes v).low ≤ (st.nodes x).low
  decided : ∀ x, st.Disc x → ¬st₀.Disc x → x ≠ v → FirstDecides succ first order x

/-- What has been reached from the nodes of the first delay list. -/
structure FirstPhase (succ : Nat → List Nat) (v : Nat) (ys : List Nat) (st₀ st : SccState) :
    Prop where
  new : ∀ x, st.Disc x → ¬st₀.Disc x → x ≠ v → Avoiding succ v ys x
  low : (st.nodes v).low < (st.nodes v).dfn →
    ∃ w, st.Active w ∧ (st.nodes w).dfn < (st.nodes v).dfn ∧ Avoiding succ v ys w

/-- State in the loops of a call for `v` whose component has been closed. -/
structure ShutLoop (succ first : Nat → List Nat) (order gray : List Nat) (v : Nat)
    (st₀ st : SccState) : Prop where
  sound : Sound succ st (v :: gray)
  done : st.Done v
  low_eq : (st.nodes v).low = (st.nodes v).dfn
  top : st.dfnTop = st₀.dfnTop
  decided : ∀ x, st.Disc x → ¬st₀.Disc x → FirstDecides succ first order x

/-! ### General facts -/

section

variable (h : Start succ n node gray v st₀)
include h

section

variable (hrun : Running succ n v st₀ st)
include hrun

theorem Start.older (hx : st₀.Disc x) : (st.nodes x).dfn < (st.nodes v).dfn := by
  rw [hrun.frame.nodes x hx, hrun.dfn_eq]
  exact h.sound.dfn_lt x hx

theorem Start.gray_lt :
    ∀ x ∈ gray, (st.nodes x).dfn < (st.nodes v).dfn :=
  fun x hx => h.older hrun (h.sound.gray_disc x hx)

theorem Start.gray_le :
    ∀ x ∈ v :: gray, (st.nodes x).dfn ≤ (st.nodes v).dfn := by
  intro x hx
  rcases mem_cons.mp hx with rfl | hx
  · exact le_rfl
  · exact (h.gray_lt hrun x hx).le

/-- The call for a node to which an edge from `v` leads. -/
theorem Start.child (hs : Sound succ st (v :: gray)) (hy : ¬st.Disc y) (hyn : y < n) :
    Start succ n node (v :: gray) y st where
  sound := hs
  stacked := hrun.stacked
  node x := (hrun.frame.node x).trans (h.node x)
  new := hy
  bound := hyn

theorem Start.opens (he : Edge succ v y) : Opens succ st (v :: gray) y :=
  .inr ⟨v, mem_cons_self, he, h.gray_le hrun⟩

end

end

/-- A node of a frame is as it was. -/
theorem active_frame (hf : SccFrame succ y st st1) (hx : st.Disc x) :
    st1.Active x ↔ st.Active x := by
  rw [Active, Active, Disc, Disc, hf.nodes x hx]

/-- A path over undiscovered nodes does not pass a discovered one. -/
theorem Unseen.around (h : Unseen succ st y x) (hv : st.Disc v) : Around succ v y x := by
  induction h with
  | refl => exact .refl
  | tail _ hx ih => exact ih.tail ⟨hx.1, fun he => hx.2 (he ▸ hv)⟩

/-! ### One edge while the component is open -/

theorem OpenLoop.child (h : OpenLoop succ first order gray v st₀ st)
    (hrun : Running succ n v st₀ st) (he : Edge succ v y) (hy : ¬st.Disc y)
    (hc : Running succ n y st st1) (hr : Returned succ first order (v :: gray) y st st1) :
    OpenLoop succ first order gray v st₀ (st1.lowerLow v y) ∧ Followed (st1.lowerLow v y) v y ∧
      ∀ ys, y ∈ ys → FirstPhase succ v ys st₀ st →
        FirstPhase succ v ys st₀ (st1.lowerLow v y) := by
  have hsame := hc.frame.nodes v hrun.disc
  have hv1 := (active_frame hc.frame hrun.disc).mpr h.active
  have hlt : (st1.nodes v).dfn < (st1.nodes y).dfn := by
    rw [hsame, hc.dfn_eq]
    exact h.sound.dfn_lt v hrun.disc
  have hlow := h.sound.low_le v h.active
  have hyd := hc.disc
  have hyne : y ≠ v := fun he => hy (he ▸ hrun.disc)
  have hpath : ∀ x, st1.Disc x → ¬st.Disc x → ∀ ys, y ∈ ys → Avoiding succ v ys x := by
    intro x hx hxd ys hmem
    exact ⟨y, hmem, hyne, (hc.unseen x hx hxd).around hrun.disc⟩
  -- either the child is active, or `low` of `v` stays as it is
  have hcase : st1.Active y ∨ st1.lowerLow v y = st1 := by
    refine (active_or_done hyd).imp_right fun hd => lowerLow_self ?_
    rw [hr.done_low hd, hsame]
    rw [hsame] at hlt
    omega
  refine ⟨?_, ?_, ?_⟩
  · constructor
    case sound =>
      rcases hcase with hya | heq
      · exact hr.sound.lowerLow hc.stacked hv1 he hya
      · rw [heq]
        exact hr.sound
    case active => exact (lowerLow_active st1 v y v).mpr hv1
    case low_min =>
      intro x hx hx0
      rw [lowerLow_active] at hx
      by_cases hxv : x = v
      · rw [hxv]
      rw [lowerLow_nodes_ne st1 hxv]
      by_cases hxd : st.Disc x
      · refine (lowerLow_low_le st1 v y v).trans ?_
        rw [hsame, hc.frame.nodes x hxd]
        exact h.low_min x ((active_frame hc.frame hxd).mp hx) hx0
      · rw [lowerLow_nodes_self]
        exact (Nat.min_le_right _ _).trans (hr.low_min x hx hxd).2
    case decided =>
      intro x hx hx0 hxv
      rw [lowerLow_disc] at hx
      by_cases hxd : st.Disc x
      · exact h.decided x hxd hx0 hxv
      · exact hr.decided x hx hxd
  · refine ⟨(lowerLow_disc st1 v y y).mpr hyd, fun hya => ?_⟩
    rw [lowerLow_active] at hya
    rw [lowerLow_nodes_self, (lowerLow_kept st1 v y y).2.1]
    exact (Nat.min_le_right _ _).trans (hr.sound.low_le y hya)
  · intro ys hmem hfirst
    constructor
    case new =>
      intro x hx hx0 hxv
      rw [lowerLow_disc] at hx
      by_cases hxd : st.Disc x
      · exact hfirst.new x hxd hx0 hxv
      · exact hpath x hx hxd ys hmem
    case low =>
      intro hlow'
      simp only [(lowerLow_kept st1 v y _).2.1, lowerLow_active] at hlow' ⊢
      by_cases hold : (st.nodes v).low < (st.nodes v).dfn
      · obtain ⟨w, hw, hwlt, hpath⟩ := hfirst.low hold
        refine ⟨w, (active_frame hc.frame hw.1).mpr hw, ?_, hpath⟩
        rw [hsame, hc.frame.nodes w hw.1]
        exact hwlt
      · rcases hcase with hya | heq
        · rw [lowerLow_nodes_self] at hlow'
          simp only [hsame] at hlow' hlt
          have hylow : (st1.nodes y).low < (st1.nodes v).dfn := by
            rw [hsame]
            omega
          rcases hr.sound.around y v mem_cons_self hv1 hya (by rwa [hsame]) hylow with
            hul | ⟨w, hw, hwlt, hpath⟩
          · rw [hsame] at hul
            exact absurd hul hold
          · exact ⟨w, hw, hwlt, y, hmem, hyne, hpath⟩
        · rw [heq, hsame] at hlow'
          exact absurd hlow' hold

theorem OpenLoop.lowerLow (h : OpenLoop succ first order gray v st₀ st)
    (hrun : Running succ n v st₀ st) (he : Edge succ v y) (hy : st.Active y)
    (hlt : (st.nodes y).dfn < (st.nodes v).dfn) :
    OpenLoop succ first order gray v st₀ (st.lowerLow v y) ∧ Followed (st.lowerLow v y) v y ∧
      ∀ ys, y ∈ ys → FirstPhase succ v ys st₀ st →
        FirstPhase succ v ys st₀ (st.lowerLow v y) := by
  refine ⟨?_, ?_, ?_⟩
  · constructor
    case sound => exact h.sound.lowerLow hrun.stacked h.active he hy
    case active => exact (lowerLow_active st v y v).mpr h.active
    case low_min =>
      intro x hx hx0
      rw [lowerLow_active] at hx
      by_cases hxv : x = v
      · rw [hxv]
      · rw [lowerLow_nodes_ne st hxv]
        exact (lowerLow_low_le st v y v).trans (h.low_min x hx hx0)
    case decided => exact fun x hx => h.decided x ((lowerLow_disc st v y x).mp hx)
  · refine ⟨(lowerLow_disc st v y y).mpr hy.1, fun _ => ?_⟩
    rw [lowerLow_nodes_self, (lowerLow_kept st v y y).2.1]
    exact (Nat.min_le_right _ _).trans (h.sound.low_le y hy)
  · intro ys hmem hfirst
    have hyne : y ≠ v := fun he => by rw [he] at hlt; omega
    constructor
    case new => exact fun x hx => hfirst.new x ((lowerLow_disc st v y x).mp hx)
    case low =>
      intro _
      simp only [(lowerLow_kept st v y _).2.1, lowerLow_active]
      exact ⟨y, hy, hlt, y, hmem, hyne, .refl⟩

/-! ### One edge after the component has been closed -/

/-- No edge from a closed node leads to an active node. -/
theorem ShutLoop.not_active (hs : Sound succ st (v :: gray)) (hv : st.Done v)
    (hmax : ∀ x ∈ v :: gray, (st.nodes x).dfn ≤ (st.nodes v).dfn) (he : Edge succ v y) :
    ¬st.Active y := by
  intro hy
  have hyv := hs.reach_down mem_cons_self hmax hy
  exact not_done_of_active hy (hs.done_complete v y hv (.single he) hyv)

theorem ShutLoop.child (h : ShutLoop succ first order gray v st₀ st)
    (hstart : Start succ n node gray v st₀) (hrun : Running succ n v st₀ st)
    (he : Edge succ v y) (hy : ¬st.Disc y) (hc : Running succ n y st st1)
    (hr : Returned succ first order (v :: gray) y st st1) :
    ShutLoop succ first order gray v st₀ (st1.lowerLow v y) ∧
      Followed (st1.lowerLow v y) v y := by
  have hsame := hc.frame.nodes v hrun.disc
  have hdone : st1.Done v := by
    rw [Done, hsame]
    exact h.done
  have hyna := ShutLoop.not_active hr.sound hdone (hstart.gray_le (hrun.child he hy hc)) he
  have hyd := (active_or_done hc.disc).resolve_left hyna
  have hlt : (st1.nodes v).dfn < (st1.nodes y).dfn := by
    rw [hsame, hc.dfn_eq]
    exact h.sound.dfn_lt v hrun.disc
  have heq : st1.lowerLow v y = st1 := by
    apply lowerLow_self
    rw [hr.done_low hyd]
    rw [hsame] at hlt ⊢
    rw [h.low_eq]
    exact hlt.le
  rw [heq]
  refine ⟨?_, hc.disc, fun hya => absurd hya hyna⟩
  constructor
  case sound => exact hr.sound
  case done => exact hdone
  case low_eq => rw [hsame, h.low_eq]
  case top => rw [hr.done_top hyd, h.top]
  case decided =>
    intro x hx hx0
    by_cases hxd : st.Disc x
    · exact h.decided x hxd hx0
    · exact hr.decided x hx hxd

/-! ### The elements of a list -/

/-- The edges to `ys` have been followed. -/
structure Follows (v : Nat) (ys : List Nat) (st st' : SccState) : Prop where
  followed : ∀ y ∈ ys, Followed st' v y
  kept : ∀ z, Followed st v z → Followed st' v z
  low_le : (st'.nodes v).low ≤ (st.nodes v).low

theorem Follows.nil (v : Nat) (st : SccState) : Follows v [] st st :=
  ⟨fun _ hy => absurd hy not_mem_nil, fun _ => id, le_rfl⟩

theorem Follows.cons {ys : List Nat} (h : Follows v [y] st st1) (h' : Follows v ys st1 st') :
    Follows v (y :: ys) st st' where
  followed z hz := by
    rcases mem_cons.mp hz with rfl | hz
    · exact h'.kept z (h.followed z mem_cons_self)
    · exact h'.followed z hz
  kept z hz := h'.kept z (h.kept z hz)
  low_le := h'.low_le.trans h.low_le

theorem Follows.child (hv : st.Disc v) (hf : SccFrame succ y st st1)
    (hy : Followed (st1.lowerLow v y) v y) : Follows v [y] st (st1.lowerLow v y) where
  followed z hz := mem_singleton.mp hz ▸ hy
  kept z hz := (hz.frame hv hf).lowerLow
  low_le := (lowerLow_low_le st1 v y v).trans (by rw [hf.nodes v hv])

section Follow

variable (hstart : Start succ n node gray v st₀) (hrun : Running succ n v st₀ st)
  (hcalls : CallSpec succ n node bound visit next)
  (hsound : SoundSpec succ first order n node bound visit) (hb : undiscovered n st ≤ bound)

include hstart hrun hcalls hsound hb

theorem OpenLoop.followEdge (h : OpenLoop succ first order gray v st₀ st) (he : Edge succ v y)
    (hyn : y < n) (hst : CallGraph.followEdge visit v y st = some st')
    (hag : Agrees order st') :
    (OpenLoop succ first order gray v st₀ st' ∧ Follows v [y] st st' ∧
      ∀ ys, y ∈ ys → FirstPhase succ v ys st₀ st → FirstPhase succ v ys st₀ st') ∨
        Wrong succ first order st' := by
  rw [CallGraph.followEdge] at hst
  split at hst
  next hy =>
    have hyd : ¬st.Disc y := not_not.mpr hy
    obtain ⟨st1, hst1, hc, -⟩ := hcalls st y hrun.stacked
      (fun x => (hrun.frame.node x).trans (hstart.node x)) hyd hyn hb
    rw [hst1, Option.map_some, Option.some.injEq] at hst
    subst hst
    have hlater : Later succ st1 (st1.lowerLow v y) := .lowerLow st1 v y
    rcases hsound st (v :: gray) y st1 (hstart.child hrun h.sound hyd hyn)
      (hstart.opens hrun he) hb hst1 (hag.later hlater) with hr | hw
    · obtain ⟨ho, hf, hp⟩ := h.child hrun he hyd hc hr
      exact .inl ⟨ho, .child hrun.disc hc.frame hf, hp⟩
    · exact .inr (hw.later hlater)
  next hy =>
    split at hst
    next hact =>
      rw [Option.some.injEq] at hst
      subst hst
      obtain ⟨ho, hf, hp⟩ := h.lowerLow hrun he ⟨hy, hact.2⟩ hact.1
      refine .inl ⟨ho, ⟨fun z hz => mem_singleton.mp hz ▸ hf, fun z hz => hz.lowerLow, ?_⟩, hp⟩
      exact lowerLow_low_le st v y v
    next hnot =>
      rw [Option.some.injEq] at hst
      subst hst
      refine .inl ⟨h, ⟨fun z hz => ?_, fun z hz => hz, le_rfl⟩, fun _ _ hp => hp⟩
      rw [mem_singleton.mp hz]
      refine ⟨hy, fun ha => (h.sound.low_le v h.active).trans ?_⟩
      exact Nat.not_lt.mp fun hlt => hnot ⟨hlt, ha.2⟩

theorem ShutLoop.followEdge (h : ShutLoop succ first order gray v st₀ st)
    (he : Edge succ v y) (hyn : y < n) (hst : CallGraph.followEdge visit v y st = some st')
    (hag : Agrees order st') :
    (ShutLoop succ first order gray v st₀ st' ∧ Follows v [y] st st') ∨
      Wrong succ first order st' := by
  rw [CallGraph.followEdge] at hst
  split at hst
  next hy =>
    have hyd : ¬st.Disc y := not_not.mpr hy
    obtain ⟨st1, hst1, hc, -⟩ := hcalls st y hrun.stacked
      (fun x => (hrun.frame.node x).trans (hstart.node x)) hyd hyn hb
    rw [hst1, Option.map_some, Option.some.injEq] at hst
    subst hst
    have hlater : Later succ st1 (st1.lowerLow v y) := .lowerLow st1 v y
    rcases hsound st (v :: gray) y st1 (hstart.child hrun h.sound hyd hyn)
      (hstart.opens hrun he) hb hst1 (hag.later hlater) with hr | hw
    · obtain ⟨ho, hf⟩ := h.child hstart hrun he hyd hc hr
      exact .inl ⟨ho, .child hrun.disc hc.frame hf⟩
    · exact .inr (hw.later hlater)
  next hy =>
    have hyna := ShutLoop.not_active h.sound h.done (hstart.gray_le hrun) he
    rw [if_neg fun hact => hyna ⟨hy, hact.2⟩, Option.some.injEq] at hst
    subst hst
    refine .inl ⟨h, ⟨fun z hz => ?_, fun z hz => hz, le_rfl⟩⟩
    rw [mem_singleton.mp hz]
    exact ⟨hy, fun ha => absurd ha hyna⟩

variable {ys : List Nat}

theorem OpenLoop.followTargets (h : OpenLoop succ first order gray v st₀ st)
    (hys : ∀ y ∈ ys, Edge succ v y ∧ y < n) (hst : followTargets visit v ys st = some st')
    (hag : Agrees order st') :
    (OpenLoop succ first order gray v st₀ st' ∧ Follows v ys st st' ∧
      ∀ zs, ys ⊆ zs → FirstPhase succ v zs st₀ st → FirstPhase succ v zs st₀ st') ∨
        Wrong succ first order st' := by
  induction ys generalizing st with
  | nil =>
    obtain rfl : st = st' := by simpa [Residual.followTargets] using hst
    exact .inl ⟨h, .nil v st, fun _ _ hp => hp⟩
  | cons y ys ih =>
    obtain ⟨he, hyn⟩ := hys y mem_cons_self
    have hys' := fun z hz => hys z (mem_cons_of_mem y hz)
    obtain ⟨st1, hst1, h1, hle1, -, -⟩ := hrun.followEdge hstart.new hstart.node hcalls hb he hyn
    rw [Residual.followTargets, foldlM_cons, hst1] at hst
    obtain ⟨st2, hst2, -, -, hl2, -⟩ :=
      h1.followTargets hstart.new hstart.node hcalls (hle1.trans hb) hys'
    have hst : Residual.followTargets visit v ys st1 = some st' := hst
    obtain rfl : st2 = st' := Option.some.inj (hst2.symm.trans hst)
    rcases h.followEdge hstart hrun hcalls hsound hb he hyn hst1 (hag.later hl2) with
      ⟨ho, hf, hp⟩ | hw
    · refine (ih h1 (hle1.trans hb) ho hys' hst).imp_left fun hrest =>
        ⟨hrest.1, hf.cons hrest.2.1, fun zs hsub hz => ?_⟩
      rw [cons_subset] at hsub
      exact hrest.2.2 zs hsub.2 (hp zs hsub.1 hz)
    · exact .inr (hw.later hl2)

theorem ShutLoop.followTargets (h : ShutLoop succ first order gray v st₀ st)
    (hys : ∀ y ∈ ys, Edge succ v y ∧ y < n) (hst : followTargets visit v ys st = some st')
    (hag : Agrees order st') :
    (ShutLoop succ first order gray v st₀ st' ∧ Follows v ys st st') ∨
      Wrong succ first order st' := by
  induction ys generalizing st with
  | nil =>
    obtain rfl : st = st' := by simpa [Residual.followTargets] using hst
    exact .inl ⟨h, .nil v st⟩
  | cons y ys ih =>
    obtain ⟨he, hyn⟩ := hys y mem_cons_self
    have hys' := fun z hz => hys z (mem_cons_of_mem y hz)
    obtain ⟨st1, hst1, h1, hle1, -, -⟩ := hrun.followEdge hstart.new hstart.node hcalls hb he hyn
    rw [Residual.followTargets, foldlM_cons, hst1] at hst
    obtain ⟨st2, hst2, -, -, hl2, -⟩ :=
      h1.followTargets hstart.new hstart.node hcalls (hle1.trans hb) hys'
    have hst : Residual.followTargets visit v ys st1 = some st' := hst
    obtain rfl : st2 = st' := Option.some.inj (hst2.symm.trans hst)
    rcases h.followEdge hstart hrun hcalls hsound hb he hyn hst1 (hag.later hl2) with
      ⟨ho, hf⟩ | hw
    · exact (ih h1 (hle1.trans hb) ho hys' hst).imp_left (.imp_right hf.cons)
    · exact .inr (hw.later hl2)

end Follow

end Loops

end XSBEngine.Residual
