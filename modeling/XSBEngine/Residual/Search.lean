import XSBEngine.Residual.AnsDepends

/-!
# Runs of the search through delay lists

What every call of `xsb_compute_ans_depends_scc` does, whether its components are right or not: it
returns, numbers the answers in depth-first order and leaves what has been numbered before alone.
-/

namespace XSBEngine.Residual

open CallGraph CallGraph.SccState List Relation ResidualAnswers

section Search

variable {succ : Nat → List Nat} {n : Nat} {st st₀ st' : SccState} {v y : Nat} {seen : List Nat}

/-- What holds of the stack and the numbers. -/
structure Stacked (n : Nat) (st : SccState) : Prop where
  component_pos : 0 < st.component
  dfn_pos : 0 < st.dfn
  bound : ∀ x, st.Disc x → x < n
  done_disc : ∀ x, st.Done x → st.Disc x
  done_lt : ∀ x, (st.nodes x).component < st.component
  stk_active : ∀ p < st.dfnTop, st.Active (st.dfnStack p)
  stk_pos : ∀ p < st.dfnTop, (st.nodes (st.dfnStack p)).stack = p

/-- The numbers follow the places in a list. -/
structure Numbered (seen : List Nat) (st : SccState) : Prop where
  nodup : seen.Nodup
  next : st.dfn = seen.length + 1
  disc : ∀ x, st.Disc x ↔ x ∈ seen
  number : ∀ x ∈ seen, (st.nodes x).dfn = seen.idxOf x + 1

/-- Two nodes of one component have different numbers, one of which is final. -/
def Split (succ : Nat → List Nat) (st : SccState) : Prop :=
  ∃ u x, Reach succ u x ∧ Reach succ x u ∧ st.Done x ∧
    (st.nodes u).component ≠ (st.nodes x).component

/-! ### Entering -/

theorem Stacked.enter (h : Stacked n st) (hv : ¬st.Disc v) (hvn : v < n) :
    Stacked n (st.enter v) := by
  have hvd : ¬st.Done v := fun hd => hv (h.done_disc v hd)
  have hold : ∀ {x}, st.Disc x → (st.enter v).nodes x = st.nodes x :=
    fun hx => enter_nodes_ne st fun he => hv (he ▸ hx)
  constructor
  case component_pos => exact h.component_pos
  case dfn_pos => exact Nat.succ_pos _
  case bound =>
    intro x hx
    rcases (enter_disc h.dfn_pos x).mp hx with rfl | hx
    · exact hvn
    · exact h.bound x hx
  case done_disc =>
    intro x hx
    rw [enter_disc h.dfn_pos]
    exact .inr (h.done_disc x ((enter_done st v x).mp hx))
  case done_lt =>
    intro x
    rw [enter_component]
    exact h.done_lt x
  case stk_active =>
    intro p hp
    rw [enter_active h.dfn_pos hvd]
    rcases Nat.lt_succ_iff_lt_or_eq.mp hp with hp | rfl
    · rw [enter_stk_lt st v hp]
      exact .inr (h.stk_active p hp)
    · exact .inl (enter_stk_top st v)
  case stk_pos =>
    intro p hp
    rcases Nat.lt_succ_iff_lt_or_eq.mp hp with hp | rfl
    · rw [enter_stk_lt st v hp, hold (h.stk_active p hp).1]
      exact h.stk_pos p hp
    · rw [enter_stk_top, enter_nodes_self]

theorem Numbered.enter (h : Numbered seen st) (hv : ¬st.Disc v) :
    Numbered (seen ++ [v]) (st.enter v) := by
  have hvs : v ∉ seen := fun hm => hv ((h.disc v).mpr hm)
  have hpos : 0 < st.dfn := by rw [h.next]; exact Nat.succ_pos _
  constructor
  case nodup =>
    refine nodup_append.mpr ⟨h.nodup, nodup_singleton v, fun x hx y hy he => hvs ?_⟩
    rwa [← mem_singleton.mp hy, ← he]
  case next =>
    show st.dfn + 1 = (seen ++ [v]).length + 1
    rw [h.next, length_append, length_singleton]
  case disc =>
    intro x
    rw [enter_disc hpos, h.disc, mem_append, mem_singleton, or_comm]
  case number =>
    intro x hx
    by_cases hxv : x = v
    · rw [hxv, enter_nodes_self, idxOf_append_of_notMem hvs, idxOf_cons_self, h.next]
    · have hxs : x ∈ seen := by simpa [hxv] using hx
      rw [enter_nodes_ne st hxv, idxOf_append_of_mem hxs]
      exact h.number x hxs

theorem Split.enter (h : Split succ st) : Split succ (st.enter v) := by
  obtain ⟨u, x, hux, hxu, hx, hne⟩ := h
  refine ⟨u, x, hux, hxu, (enter_done st v x).mpr hx, ?_⟩
  rwa [enter_component, enter_component]

/-! ### Lowering -/

theorem lowerLow_done (st : SccState) (v y x : Nat) : (st.lowerLow v y).Done x ↔ st.Done x := by
  rw [Done, Done, (lowerLow_kept st v y x).2.2.1]

theorem lowerLow_disc (st : SccState) (v y x : Nat) : (st.lowerLow v y).Disc x ↔ st.Disc x := by
  rw [Disc, Disc, (lowerLow_kept st v y x).2.1]

theorem Stacked.lowerLow (h : Stacked n st) (v y : Nat) : Stacked n (st.lowerLow v y) := by
  obtain ⟨hs, ht, hn, hc⟩ := lowerLow_fields st v y
  constructor
  case component_pos => rw [hc]; exact h.component_pos
  case dfn_pos => rw [hn]; exact h.dfn_pos
  case bound => exact fun x hx => h.bound x ((lowerLow_disc st v y x).mp hx)
  case done_disc =>
    intro x hx
    rw [lowerLow_disc]
    exact h.done_disc x ((lowerLow_done st v y x).mp hx)
  case done_lt =>
    intro x
    rw [hc, (lowerLow_kept st v y x).2.2.1]
    exact h.done_lt x
  case stk_active =>
    intro p hp
    rw [ht] at hp
    rw [lowerLow_active, hs]
    exact h.stk_active p hp
  case stk_pos =>
    intro p hp
    rw [ht] at hp
    rw [hs, (lowerLow_kept st v y _).2.2.2]
    exact h.stk_pos p hp

theorem Numbered.lowerLow (h : Numbered seen st) (v y : Nat) :
    Numbered seen (st.lowerLow v y) where
  nodup := h.nodup
  next := by rw [(lowerLow_fields st v y).2.2.1, h.next]
  disc x := by rw [lowerLow_disc, h.disc]
  number x hx := by rw [(lowerLow_kept st v y x).2.1, h.number x hx]

theorem Split.lowerLow (h : Split succ st) (v y : Nat) : Split succ (st.lowerLow v y) := by
  obtain ⟨u, x, hux, hxu, hx, hne⟩ := h
  refine ⟨u, x, hux, hxu, (lowerLow_done st v y x).mpr hx, ?_⟩
  rwa [(lowerLow_kept st v y u).2.2.1, (lowerLow_kept st v y x).2.2.1]

/-! ### Closing a component -/

/-- The node is at a place of the stack from that of `v` on. -/
def Above (st : SccState) (v x : Nat) : Prop :=
  ∃ p, (st.nodes v).stack ≤ p ∧ p < st.dfnTop ∧ st.dfnStack p = x

theorem above_iff (st : SccState) (v x : Nat) :
    Above st v x ↔ ∃ p, (st.nodes v).stack ≤ p ∧
      p < (st.nodes v).stack + (st.dfnTop - (st.nodes v).stack) ∧ st.dfnStack p = x := by
  refine exists_congr fun p => ⟨fun h => ?_, fun h => ?_⟩
  · exact ⟨h.1, by omega, h.2.2⟩
  · exact ⟨h.1, by omega, h.2.2⟩

theorem closeComponent_above {x : Nat} (h : Above st v x) :
    (closeComponent st v).nodes x = { st.nodes x with component := st.component } :=
  (assignComponents_nodes st _ _ x).1 ((above_iff st v x).mp h)

theorem closeComponent_not_above {x : Nat} (h : ¬Above st v x) :
    (closeComponent st v).nodes x = st.nodes x :=
  (assignComponents_nodes st _ _ x).2 fun hs => h ((above_iff st v x).mpr hs)

theorem closeComponent_fields (st : SccState) (v : Nat) :
    (closeComponent st v).dfnStack = st.dfnStack ∧
      (closeComponent st v).dfnTop = min st.dfnTop (st.nodes v).stack ∧
      (closeComponent st v).dfn = st.dfn ∧
      (closeComponent st v).component = st.component + 1 := by
  obtain ⟨hs, -, hd, hc⟩ := pop_fields st v
  exact ⟨hs, rfl, hd, hc⟩

/-- Every field but the component is kept. -/
theorem closeComponent_kept (st : SccState) (v x : Nat) :
    ((closeComponent st v).nodes x).node = (st.nodes x).node ∧
      ((closeComponent st v).nodes x).dfn = (st.nodes x).dfn ∧
      ((closeComponent st v).nodes x).low = (st.nodes x).low ∧
      ((closeComponent st v).nodes x).stack = (st.nodes x).stack := by
  by_cases h : Above st v x
  · rw [closeComponent_above h]
    exact ⟨rfl, rfl, rfl, rfl⟩
  · rw [closeComponent_not_above h]
    exact ⟨rfl, rfl, rfl, rfl⟩

theorem closeComponent_disc (st : SccState) (v x : Nat) :
    (closeComponent st v).Disc x ↔ st.Disc x := by
  rw [Disc, Disc, (closeComponent_kept st v x).2.1]

theorem closeComponent_done (hpos : 0 < st.component) (v x : Nat) :
    (closeComponent st v).Done x ↔ Above st v x ∨ st.Done x := by
  by_cases h : Above st v x
  · simp only [Done, closeComponent_above h, h, true_or, iff_true]
    exact Nat.ne_of_gt hpos
  · simp only [Done, closeComponent_not_above h, h, false_or]

theorem closeComponent_active (hpos : 0 < st.component) (v x : Nat) :
    (closeComponent st v).Active x ↔ st.Active x ∧ ¬Above st v x := by
  by_cases h : Above st v x
  · simp only [Active, closeComponent_above h, h, not_true_eq_false, and_false, iff_false]
    exact fun hx => Nat.ne_of_gt hpos hx.2
  · simp only [Active, Disc, closeComponent_not_above h, h, not_false_eq_true, and_true]

theorem Stacked.above_active (h : Stacked n st) {x : Nat} (hx : Above st v x) : st.Active x := by
  obtain ⟨p, -, hp, rfl⟩ := hx
  exact h.stk_active p hp

theorem Stacked.close (h : Stacked n st) (v : Nat) : Stacked n (closeComponent st v) := by
  obtain ⟨hs, ht, hn, hc⟩ := closeComponent_fields st v
  have hbelow : ∀ p, p < min st.dfnTop (st.nodes v).stack → ¬Above st v (st.dfnStack p) := by
    rintro p hp ⟨q, hq, hqt, he⟩
    have hpq : p = q := by
      rw [← h.stk_pos p (by omega), ← h.stk_pos q hqt, he]
    omega
  constructor
  case component_pos => rw [hc]; exact Nat.succ_pos _
  case dfn_pos => rw [hn]; exact h.dfn_pos
  case bound => exact fun x hx => h.bound x ((closeComponent_disc st v x).mp hx)
  case done_disc =>
    intro x hx
    rw [closeComponent_disc]
    exact ((closeComponent_done h.component_pos v x).mp hx).elim
      (fun ha => (h.above_active ha).1) (h.done_disc x)
  case done_lt =>
    intro x
    rw [hc]
    by_cases hx : Above st v x
    · rw [closeComponent_above hx]
      exact Nat.lt_succ_self _
    · rw [closeComponent_not_above hx]
      exact Nat.lt_succ_of_lt (h.done_lt x)
  case stk_active =>
    intro p hp
    rw [ht] at hp
    rw [hs, closeComponent_active h.component_pos]
    exact ⟨h.stk_active p (by omega), hbelow p hp⟩
  case stk_pos =>
    intro p hp
    rw [ht] at hp
    rw [hs, (closeComponent_kept st v _).2.2.2]
    exact h.stk_pos p (by omega)

theorem Numbered.close (h : Numbered seen st) (v : Nat) :
    Numbered seen (closeComponent st v) where
  nodup := h.nodup
  next := by rw [(closeComponent_fields st v).2.2.1, h.next]
  disc x := by rw [closeComponent_disc, h.disc]
  number x hx := by rw [(closeComponent_kept st v x).2.1, h.number x hx]

/-- Final numbers stay different: a new one is greater than all of them. -/
theorem Split.close (h : Split succ st) (hst : Stacked n st) (v : Nat) :
    Split succ (closeComponent st v) := by
  obtain ⟨u, x, hux, hxu, hx, hne⟩ := h
  have hxa : ¬Above st v x := fun ha => hx (hst.above_active ha).2
  refine ⟨u, x, hux, hxu, (closeComponent_done hst.component_pos v x).mpr (.inr hx), ?_⟩
  rw [closeComponent_not_above hxa]
  by_cases hu : Above st v u
  · rw [closeComponent_above hu]
    exact Nat.ne_of_gt (hst.done_lt x)
  · rwa [closeComponent_not_above hu]

/-! ### Calls -/

/-- What a later state keeps. -/
structure Later (succ : Nat → List Nat) (st st' : SccState) : Prop where
  dfn : ∀ x, st.Disc x → (st'.nodes x).dfn = (st.nodes x).dfn
  split : Split succ st → Split succ st'

theorem Later.refl (st : SccState) : Later succ st st := ⟨fun _ _ => rfl, id⟩

theorem Later.disc (h : Later succ st st') {x : Nat} (hx : st.Disc x) : st'.Disc x := by
  rw [Disc, h.dfn x hx]
  exact hx

theorem Later.trans {st'' : SccState} (h : Later succ st st') (h' : Later succ st' st'') :
    Later succ st st'' where
  dfn x hx := (h'.dfn x (h.disc hx)).trans (h.dfn x hx)
  split hs := h'.split (h.split hs)

theorem Later.lowerLow (st : SccState) (v y : Nat) : Later succ st (st.lowerLow v y) where
  dfn x _ := (lowerLow_kept st v y x).2.1
  split hs := hs.lowerLow v y

theorem Later.close (h : Stacked n st) (v : Nat) : Later succ st (closeComponent st v) where
  dfn x _ := (closeComponent_kept st v x).2.1
  split hs := hs.close h v

/-- A path over nodes that have not been discovered. -/
def Unseen (succ : Nat → List Nat) (st : SccState) : Nat → Nat → Prop :=
  ReflTransGen fun x y => Edge succ x y ∧ ¬st.Disc y

theorem Unseen.mono (h : Unseen succ st v y) (hd : ∀ x, st₀.Disc x → st.Disc x) :
    Unseen succ st₀ v y := by
  induction h with
  | refl => exact .refl
  | tail _ hx ih => exact ih.tail ⟨hx.1, fun hx0 => hx.2 (hd _ hx0)⟩

/-- State inside the loops of a call for `v` that started in `st₀`. -/
structure Running (succ : Nat → List Nat) (n : Nat) (v : Nat) (st₀ st : SccState) : Prop where
  stacked : Stacked n st
  frame : SccFrame succ v st₀ st
  pushed : ∀ p, st₀.dfnTop ≤ p → p < st.dfnTop → ¬st₀.Disc (st.dfnStack p)
  disc : st.Disc v
  dfn_eq : (st.nodes v).dfn = st₀.dfn
  stack_eq : (st.nodes v).stack = st₀.dfnTop
  later : Later succ st₀ st
  unseen : ∀ x, st.Disc x → ¬st₀.Disc x → Unseen succ st₀ v x

theorem Running.start (h : Stacked n st₀) (hv : ¬st₀.Disc v) (hvn : v < n) :
    Running succ n v st₀ (st₀.enter v) where
  stacked := h.enter hv hvn
  frame := enter_frame hv
  pushed p hp hpt := by
    have hpeq : p = st₀.dfnTop := Nat.le_antisymm (Nat.lt_succ_iff.mp hpt) hp
    rw [hpeq, enter_stk_top]
    exact hv
  disc := (enter_disc h.dfn_pos v).mpr (.inl rfl)
  dfn_eq := by rw [enter_nodes_self]
  stack_eq := by rw [enter_nodes_self]
  later := by
    refine ⟨fun x hx => ?_, Split.enter⟩
    have hframe : SccFrame succ v st₀ (st₀.enter v) := enter_frame hv
    rw [hframe.nodes x hx]
  unseen x hx hx0 := by
    rw [((enter_disc h.dfn_pos x).mp hx).resolve_right hx0]
    exact .refl

theorem Running.lowerLow (h : Running succ n v st₀ st) (hv : ¬st₀.Disc v) (y : Nat) :
    Running succ n v st₀ (st.lowerLow v y) where
  stacked := h.stacked.lowerLow v y
  frame := h.frame.lowerLow hv
  pushed p hp hpt := by
    obtain ⟨hs, ht, -, -⟩ := lowerLow_fields st v y
    rw [ht] at hpt
    rw [hs]
    exact h.pushed p hp hpt
  disc := (lowerLow_disc st v y v).mpr h.disc
  dfn_eq := by rw [(lowerLow_kept st v y v).2.1, h.dfn_eq]
  stack_eq := by rw [(lowerLow_kept st v y v).2.2.2, h.stack_eq]
  later := h.later.trans (.lowerLow st v y)
  unseen x hx hx0 := h.unseen x ((lowerLow_disc st v y x).mp hx) hx0

/-- A call from the loop. -/
theorem Running.child (h : Running succ n v st₀ st) (he : Edge succ v y) (hy : ¬st.Disc y)
    (hc : Running succ n y st st') : Running succ n v st₀ st' where
  stacked := hc.stacked
  frame := h.frame.trans (.single he) hc.frame
  pushed p hp hpt := by
    by_cases hlt : p < st.dfnTop
    · rw [hc.frame.stk p hlt]
      exact h.pushed p hp hlt
    · exact fun hx => hc.pushed p (Nat.not_lt.mp hlt) hpt (h.frame.disc hx)
  disc := hc.frame.disc h.disc
  dfn_eq := by rw [hc.frame.nodes v h.disc, h.dfn_eq]
  stack_eq := by rw [hc.frame.nodes v h.disc, h.stack_eq]
  later := h.later.trans hc.later
  unseen x hx hx0 := by
    by_cases hxd : st.Disc x
    · exact h.unseen x hxd hx0
    · have hpath := (hc.unseen x hx hxd).mono fun _ => h.later.disc
      exact hpath.head ⟨he, fun hy0 => hy (h.later.disc hy0)⟩

theorem Running.close (h : Running succ n v st₀ st) :
    Running succ n v st₀ (closeComponent st v) := by
  obtain ⟨hs, ht, hn, -⟩ := closeComponent_fields st v
  have htop : (closeComponent st v).dfnTop = st₀.dfnTop := by
    rw [ht, h.stack_eq, Nat.min_eq_right h.frame.top]
  have hkept := closeComponent_kept st v
  constructor
  case stacked => exact h.stacked.close v
  case frame =>
    constructor
    case nodes =>
      intro x hx
      have hxa : ¬Above st v x := by
        rintro ⟨p, hp, hpt, rfl⟩
        exact h.pushed p (h.stack_eq ▸ hp) hpt hx
      rw [closeComponent_not_above hxa, h.frame.nodes x hx]
    case top => rw [htop]
    case stk => rw [hs]; exact h.frame.stk
    case dfn => rw [hn]; exact h.frame.dfn
    case node => exact fun x => (hkept x).1.trans (h.frame.node x)
    case fresh =>
      intro x hx hx0
      rw [(hkept x).2.1]
      exact h.frame.fresh x ((closeComponent_disc st v x).mp hx) hx0
  case pushed =>
    intro p hp hpt
    omega
  case disc => exact (closeComponent_disc st v v).mpr h.disc
  case dfn_eq => rw [(hkept v).2.1, h.dfn_eq]
  case stack_eq => rw [(hkept v).2.2.2, h.stack_eq]
  case later => exact h.later.trans (.close h.stacked v)
  case unseen => exact fun x hx => h.unseen x ((closeComponent_disc st v x).mp hx)

/-! ### The loops -/

/-- The end of a delay list. -/
def endOfDl (st : SccState) (v : Nat) : SccState :=
  if (st.nodes v).low = (st.nodes v).dfn then closeComponent st v else st

/-- The elements of a delay list that lead to the nodes `ys`. -/
def followTargets (visit : SccState → Nat → Option SccState) (v : Nat) (ys : List Nat)
    (st : SccState) : Option SccState :=
  ys.foldlM (fun st y => followEdge visit v y st) st

/-- What a call does in every state in which no more than `bound` nodes are left. -/
def CallSpec (succ : Nat → List Nat) (n : Nat) (node : Nat → Nat) (bound : Nat)
    (visit : SccState → Nat → Option SccState) (order : List Nat → Nat → List Nat) : Prop :=
  ∀ st v, Stacked n st → (∀ x, (st.nodes x).node = node x) → ¬st.Disc v → v < n →
    undiscovered n st ≤ bound → ∃ st', visit st v = some st' ∧ Running succ n v st st' ∧
      ∀ seen, Numbered seen st → Numbered (order seen v) st'

variable {node : Nat → Nat} {bound : Nat} {visit : SccState → Nat → Option SccState}
  {order : List Nat → Nat → List Nat} {ys : List Nat}

/-- The next node of the order. -/
def meet (order : List Nat → Nat → List Nat) (seen : List Nat) (y : Nat) : List Nat :=
  if y ∈ seen then seen else order seen y

theorem undiscovered_lowerLow (st : SccState) (v y : Nat) :
    undiscovered n (st.lowerLow v y) = undiscovered n st := by
  simp only [undiscovered, (lowerLow_kept st v y _).2.1]

theorem Running.followEdge (h : Running succ n v st₀ st) (hv : ¬st₀.Disc v)
    (hnode : ∀ x, (st₀.nodes x).node = node x) (hvisit : CallSpec succ n node bound visit order)
    (hb : undiscovered n st ≤ bound) (he : Edge succ v y) (hyn : y < n) :
    ∃ st', CallGraph.followEdge visit v y st = some st' ∧ Running succ n v st₀ st' ∧
      undiscovered n st' ≤ undiscovered n st ∧ Later succ st st' ∧
      ∀ seen, Numbered seen st → Numbered (meet order seen y) st' := by
  rw [CallGraph.followEdge]
  split
  next hy =>
    have hyd : ¬st.Disc y := not_not.mpr hy
    obtain ⟨st', hst', hc, hseen⟩ := hvisit st y h.stacked
      (fun x => (h.frame.node x).trans (hnode x)) hyd hyn hb
    refine ⟨st'.lowerLow v y, by rw [hst', Option.map_some], (h.child he hyd hc).lowerLow hv y, ?_,
      hc.later.trans (.lowerLow st' v y), fun seen hs => ?_⟩
    · rw [undiscovered_lowerLow]
      exact undiscovered_mono hc.frame
    · rw [meet, if_neg fun hm => hyd ((hs.disc y).mpr hm)]
      exact (hseen seen hs).lowerLow v y
  next hy =>
    have hmeet : ∀ seen, Numbered seen st → meet order seen y = seen :=
      fun seen hs => if_pos ((hs.disc y).mp hy)
    split
    next =>
      refine ⟨_, rfl, h.lowerLow hv y, (undiscovered_lowerLow st v y).le, .lowerLow st v y,
        fun seen hs => ?_⟩
      rw [hmeet seen hs]
      exact hs.lowerLow v y
    next =>
      refine ⟨st, rfl, h, le_rfl, .refl st, fun seen hs => ?_⟩
      rwa [hmeet seen hs]

theorem Running.followTargets (h : Running succ n v st₀ st) (hv : ¬st₀.Disc v)
    (hnode : ∀ x, (st₀.nodes x).node = node x) (hvisit : CallSpec succ n node bound visit order)
    (hb : undiscovered n st ≤ bound) (hys : ∀ y ∈ ys, Edge succ v y ∧ y < n) :
    ∃ st', followTargets visit v ys st = some st' ∧ Running succ n v st₀ st' ∧
      undiscovered n st' ≤ undiscovered n st ∧ Later succ st st' ∧
      ∀ seen, Numbered seen st → Numbered (ys.foldl (meet order) seen) st' := by
  induction ys generalizing st with
  | nil => exact ⟨st, rfl, h, le_rfl, .refl st, fun _ hs => hs⟩
  | cons y ys ih =>
    obtain ⟨he, hyn⟩ := hys y mem_cons_self
    obtain ⟨st1, hst1, h1, hle1, hl1, hs1⟩ := h.followEdge hv hnode hvisit hb he hyn
    obtain ⟨st2, hst2, h2, hle2, hl2, hs2⟩ :=
      ih h1 (hle1.trans hb) fun z hz => hys z (mem_cons_of_mem y hz)
    refine ⟨st2, ?_, h2, hle2.trans hle1, hl1.trans hl2, fun seen hs => hs2 _ (hs1 seen hs)⟩
    rw [Residual.followTargets, foldlM_cons, hst1]
    exact hst2

theorem Running.endOfDl (h : Running succ n v st₀ st) : Running succ n v st₀ (endOfDl st v) := by
  rw [Residual.endOfDl]
  split
  next => exact h.close
  next => exact h

theorem Later.endOfDl (h : Stacked n st) (v : Nat) : Later succ st (endOfDl st v) := by
  rw [Residual.endOfDl]
  split
  next => exact .close h v
  next => exact .refl st

theorem Numbered.endOfDl (h : Numbered seen st) (v : Nat) : Numbered seen (endOfDl st v) := by
  rw [Residual.endOfDl]
  split
  next => exact h.close v
  next => exact h

theorem undiscovered_endOfDl (st : SccState) (v : Nat) :
    undiscovered n (endOfDl st v) = undiscovered n st := by
  rw [endOfDl]
  split
  next => simp only [undiscovered, (closeComponent_kept st v _).2.1]
  next => rfl

/-- The loop over delay lists. -/
def followDls (visit : SccState → Nat → Option SccState) (v : Nat) (dls : List (List Nat))
    (st : SccState) : Option SccState :=
  dls.foldlM (fun st ys => (followTargets visit v ys st).map (endOfDl · v)) st

theorem Running.followDls {dls : List (List Nat)} (h : Running succ n v st₀ st)
    (hv : ¬st₀.Disc v) (hnode : ∀ x, (st₀.nodes x).node = node x)
    (hvisit : CallSpec succ n node bound visit order) (hb : undiscovered n st ≤ bound)
    (hdls : ∀ y ∈ dls.flatten, Edge succ v y ∧ y < n) :
    ∃ st', followDls visit v dls st = some st' ∧ Running succ n v st₀ st' ∧
      Later succ st st' ∧ ∀ seen, Numbered seen st →
        Numbered (dls.flatten.foldl (meet order) seen) st' := by
  induction dls generalizing st with
  | nil => exact ⟨st, rfl, h, .refl st, fun _ hs => hs⟩
  | cons ys dls ih =>
    rw [flatten_cons] at hdls ⊢
    obtain ⟨st1, hst1, h1, hle1, hl1, hs1⟩ := h.followTargets hv hnode hvisit hb
      fun y hy => hdls y (mem_append_left _ hy)
    obtain ⟨st2, hst2, h2, hl2, hs2⟩ := ih h1.endOfDl ((undiscovered_endOfDl st1 v).trans_le
      (hle1.trans hb)) fun y hy => hdls y (mem_append_right _ hy)
    refine ⟨st2, ?_, h2, hl1.trans ((Later.endOfDl h1.stacked v).trans hl2), fun seen hs => ?_⟩
    · rw [Residual.followDls, foldlM_cons, hst1]
      exact hst2
    · rw [foldl_append]
      exact hs2 _ ((hs1 seen hs).endOfDl v)

end Search

end XSBEngine.Residual
