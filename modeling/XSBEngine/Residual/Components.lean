import XSBEngine.Residual.Closing

/-!
# When the components are right

`get_residual_sccs` always returns. Its numbers are those of the strongly connected components
exactly when the first delay list of every answer decides.
-/

namespace XSBEngine.Residual

open CallGraph CallGraph.SccState List Relation ResidualAnswers

/-! ### Edges between places -/

section Places

variable (r : ResidualAnswers) (hnd : r.listterm.Nodup) (hcl : r.dependencies.Closed)

include hnd hcl

/-- The hash table holds the places of the answers that a listed answer depends on. -/
theorem searchSome_ansLeaf {i : Nat} (hi : i < r.listterm.length) {de : DelayElement}
    (hde : de ∈ (r.asiDlList (r.listterm.getD i 0)).all.flatten) :
    searchSome (nodeTable r.dependencies).1 (r.ansLeaf de) = r.indexOf de := by
  have hmem : r.listterm.getD i 0 ∈ r.listterm := by simp [hi]
  have hin : r.ansLeaf de ∈ r.listterm := hcl _ hmem _ (mem_map_of_mem hde)
  have hlt : r.listterm.idxOf (r.ansLeaf de) < r.dependencies.listterm.length :=
    idxOf_lt_length_iff.mpr hin
  have hplace := (nodeTable_spec r.dependencies hnd).2 (r.listterm.idxOf (r.ansLeaf de)) hlt
  have hget : r.dependencies.listterm[r.listterm.idxOf (r.ansLeaf de)] = r.ansLeaf de :=
    getElem_idxOf hlt
  rw [hget] at hplace
  exact hplace

theorem targets_eq_succs {i : Nat} (hi : i < r.listterm.length) :
    r.targets i = succs r.dependencies (nodeTable r.dependencies).1 i := by
  rw [succs, dependencies, List.map_map]
  exact map_congr_left fun de hde => (searchSome_ansLeaf r hnd hcl hi hde).symm

theorem targets_lt {i j : Nat} (hi : i < r.listterm.length) (he : Edge r.targets i j) :
    j < r.listterm.length := by
  rw [Edge, targets_eq_succs r hnd hcl hi] at he
  exact ((edge_iff hnd hcl hi j).mp he).1

theorem reach_lt {i j : Nat} (hi : i < r.listterm.length) (hr : Reach r.targets i j) :
    j < r.listterm.length := by
  induction hr with
  | refl => exact hi
  | tail _ he ih => exact targets_lt r hnd hcl ih he

theorem targets_reach_iff {i j : Nat} (hi : i < r.listterm.length) (hj : j < r.listterm.length) :
    Reach r.targets i j ↔ r.dependencies.Reaches (r.listterm[i]) (r.listterm[j]) := by
  refine Iff.trans ⟨fun hr => ?_, fun hr => ?_⟩ (reach_iff (g := r.dependencies) hnd hcl hi hj)
  · clear hj
    induction hr with
    | refl => exact .refl
    | tail hr he ih =>
      rw [Edge, targets_eq_succs r hnd hcl (reach_lt r hnd hcl hi hr)] at he
      exact ih.tail he
  · suffices hgen : Reach r.targets i j ∧ j < r.listterm.length from hgen.1
    clear hj
    induction hr with
    | refl => exact ⟨.refl, hi⟩
    | tail _ he ih =>
      rw [Edge, ← targets_eq_succs r hnd hcl ih.2] at he
      exact ⟨ih.1.tail he, targets_lt r hnd hcl ih.2 he⟩

/-- The loops over the delay lists of a listed answer follow the places of the answers. -/
theorem foldlM_followDl {i : Nat} (hi : i < r.listterm.length)
    (visit : SccState → Nat → Option SccState) (st : SccState) :
    (r.asiDlList (r.listterm.getD i 0)).all.foldlM
        (followDl r (nodeTable r.dependencies).1 visit i) st =
      followDls visit i ((r.asiDlList (r.listterm.getD i 0)).all.map (·.map r.indexOf)) st := by
  have hlists : ∀ dls : List (List DelayElement),
      (∀ de ∈ dls.flatten, searchSome (nodeTable r.dependencies).1 (r.ansLeaf de) = r.indexOf de) →
      ∀ st, dls.foldlM (followDl r (nodeTable r.dependencies).1 visit i) st =
        followDls visit i (dls.map (·.map r.indexOf)) st := by
    intro dls
    induction dls with
    | nil => exact fun _ _ => rfl
    | cons dl dls ih =>
      intro hplace st
      rw [flatten_cons] at hplace
      have hdl : ∀ des : List DelayElement, (∀ de ∈ des, de ∈ dl) → ∀ st,
          des.foldlM (fun st de => CallGraph.followEdge visit i
            (searchSome (nodeTable r.dependencies).1 (r.ansLeaf de)) st) st =
            followTargets visit i (des.map r.indexOf) st := by
        intro des
        induction des with
        | nil => exact fun _ _ => rfl
        | cons de des ihd =>
          intro hsub st
          rw [followTargets, map_cons, foldlM_cons, foldlM_cons,
            hplace de (mem_append_left _ (hsub de mem_cons_self))]
          refine bind_congr fun st => ?_
          exact ihd (fun de hde => hsub de (mem_cons_of_mem _ hde)) st
      have hend : followDl r (nodeTable r.dependencies).1 visit i st dl =
          (followTargets visit i (dl.map r.indexOf) st).map (endOfDl · i) := by
        rw [followDl, hdl dl (fun _ => id) st]
        cases followTargets visit i (dl.map r.indexOf) st with
        | none => rfl
        | some st1 =>
          simp only [Option.bind_eq_bind, Option.bind_some, Option.map_some, endOfDl]
          split
          · rfl
          · rfl
      rw [followDls, map_cons, foldlM_cons, foldlM_cons, hend]
      refine bind_congr fun st => ?_
      exact ih (fun de hde => hplace de (mem_append_right _ hde)) st
  exact hlists _ (fun de hde => searchSome_ansLeaf r hnd hcl hi hde) st

end Places

/-! ### The recursion -/

section Recursion

variable (r : ResidualAnswers) (hnd : r.listterm.Nodup) (hcl : r.dependencies.Closed)

include hnd hcl

/-- Every call returns, and meets the answers in depth-first order. -/
theorem ansDependsScc_callSpec (depth : Nat) :
    CallSpec r.targets r.listterm.length (r.listterm.getD · 0) depth
      (xsbComputeAnsDependsScc r (nodeTable r.dependencies).1 depth)
      (visitOrder r.targets depth) := by
  induction depth with
  | zero =>
    intro st v _ _ hv hvn hb
    have := undiscovered_pos hvn hv
    omega
  | succ depth ih =>
    intro st v h hnode hv hvn hb
    have hself : ((st.enter v).nodes v).node = r.listterm.getD v 0 := by
      rw [enter_nodes_self]
      exact hnode v
    have hb' : undiscovered r.listterm.length (st.enter v) ≤ depth := by
      have := undiscovered_enter hvn hv h.dfn_pos
      omega
    have hflat : ((r.asiDlList (r.listterm.getD v 0)).all.map (·.map r.indexOf)).flatten =
        r.targets v := map_flatten.symm
    have henter : Running r.targets r.listterm.length v st (st.enter v) := .start h hv hvn
    have hdls : ∀ y ∈ ((r.asiDlList (r.listterm.getD v 0)).all.map (·.map r.indexOf)).flatten,
        Edge r.targets v y ∧ y < r.listterm.length := fun y hy => by
      rw [hflat] at hy
      exact ⟨hy, targets_lt r hnd hcl hvn hy⟩
    obtain ⟨st', hst', hrun, -, hseen⟩ := henter.followDls hv hnode ih hb' hdls
    refine ⟨st', ?_, hrun, fun seen hs => ?_⟩
    · rw [xsbComputeAnsDependsScc, hself, foldlM_followDl r hnd hcl hvn, hst']
    · have := hseen _ (hs.enter hv)
      rw [hflat] at this
      exact this

theorem ansDependsScc_soundSpec (order : List Nat) (depth : Nat) :
    SoundSpec r.targets r.firstTargets order r.listterm.length (r.listterm.getD · 0) depth
      (xsbComputeAnsDependsScc r (nodeTable r.dependencies).1 depth) := by
  induction depth with
  | zero =>
    intro st gray v st' h _ hb
    have := undiscovered_pos h.bound h.new
    omega
  | succ depth ih =>
    intro st gray v st' h ho hb hst hag
    have hself : ((st.enter v).nodes v).node = r.listterm.getD v 0 := by
      rw [enter_nodes_self]
      exact h.node v
    have hb' : undiscovered r.listterm.length (st.enter v) ≤ depth := by
      have := undiscovered_enter h.bound h.new h.stacked.dfn_pos
      omega
    rw [xsbComputeAnsDependsScc, hself, foldlM_followDl r hnd hcl h.bound] at hst
    refine h.returned ho (ansDependsScc_callSpec r hnd hcl depth) ih hb' (fun y => ?_)
      (fun y => targets_lt r hnd hcl h.bound) hst hag
    exact iff_of_eq (congrArg (y ∈ ·) map_flatten)

end Recursion

/-! ### The calls from every answer -/

section Roots

variable {succ first : Nat → List Nat} {order : List Nat} {n : Nat} {st st' : SccState}

/-- Every closed component is complete, and the first lists of the answers met decide. -/
def Right (succ first : Nat → List Nat) (order : List Nat) (st : SccState) : Prop :=
  Sound succ st [] ∧ ∀ x, st.Disc x → FirstDecides succ first order x

theorem Stacked.init (g : IncrGraph) : Stacked n (initialState g) := by
  constructor
  all_goals simp [Disc, Done, initialState]

theorem Numbered.init (g : IncrGraph) : Numbered [] (initialState g) := by
  constructor
  all_goals simp [Disc, initialState]

theorem Right.init (g : IncrGraph) : Right succ first order (initialState g) := by
  refine ⟨?_, fun x hx => absurd rfl hx⟩
  constructor
  all_goals simp [Disc, Done, Active, initialState]

theorem residualLoop_runs (r : ResidualAnswers) (hnd : r.listterm.Nodup)
    (hcl : r.dependencies.Closed) (len : Nat) :
    ∀ i st, i + len = r.listterm.length → Stacked r.listterm.length st →
      (∀ x, (st.nodes x).node = r.listterm.getD x 0) → (∀ x < i, st.Disc x) →
      ∃ st', residualLoop r (nodeTable r.dependencies).1 r.listterm.length
          (List.range' i len) st = some st' ∧
        Stacked r.listterm.length st' ∧ (∀ x < r.listterm.length, st'.Disc x) ∧
        Later r.targets st st' ∧
        (∀ seen, Numbered seen st → Numbered ((List.range' i len).foldl
          (meet (visitOrder r.targets r.listterm.length)) seen) st') ∧
        ∀ order, Right r.targets r.firstTargets order st → Agrees order st' →
          Right r.targets r.firstTargets order st' ∨
            Wrong r.targets r.firstTargets order st' := by
  induction len with
  | zero =>
    intro i st hi h _ hdisc
    obtain rfl : i = r.listterm.length := by omega
    exact ⟨st, rfl, h, hdisc, .refl st, fun _ => id, fun _ hr _ => .inl hr⟩
  | succ len ih =>
    intro i st hi h hnode hdisc
    simp only [List.range'_succ, residualLoop, foldl_cons]
    split
    next hd =>
      have hnew : ¬st.Disc i := not_not.mpr hd
      have hb : undiscovered r.listterm.length st ≤ r.listterm.length := by
        refine (Finset.card_filter_le _ _).trans ?_
        rw [Finset.card_range]
      obtain ⟨st1, hst1, hrun, hseen⟩ := ansDependsScc_callSpec r hnd hcl r.listterm.length st i h
        hnode hnew (by omega) hb
      obtain ⟨st', hst', hstk, hall, hl, hseen', hright⟩ := ih (i + 1) st1 (by omega) hrun.stacked
        (fun x => (hrun.frame.node x).trans (hnode x)) (fun x hx => by
          rcases Nat.lt_succ_iff_lt_or_eq.mp hx with hx | rfl
          · exact hrun.later.disc (hdisc x hx)
          · exact hrun.disc)
      refine ⟨st', by simp only [hst1, Option.bind_eq_bind, Option.bind_some, hst'], hstk, hall,
        hrun.later.trans hl, fun seen hs => ?_, fun order hr hag => ?_⟩
      · rw [meet, if_neg fun hm => hnew ((hs.disc i).mpr hm)]
        exact hseen' _ (hseen seen hs)
      · have hstart : Start r.targets r.listterm.length (r.listterm.getD · 0) [] i st :=
          ⟨hr.1, h, hnode, hnew, by omega⟩
        rcases ansDependsScc_soundSpec r hnd hcl order _ st [] i st1 hstart (.inl rfl) hb hst1
          (hag.later hl) with hret | hw
        · refine hright order ⟨hret.sound, fun x hx => ?_⟩ hag
          by_cases hx0 : st.Disc x
          · exact hr.2 x hx0
          · exact hret.decided x hx hx0
        · exact .inr (hw.later hl)
    next hd =>
      obtain ⟨st', hst', hstk, hall, hl, hseen', hright⟩ := ih (i + 1) st (by omega) h hnode
        (fun x hx => by
          rcases Nat.lt_succ_iff_lt_or_eq.mp hx with hx | rfl
          · exact hdisc x hx
          · exact hd)
      refine ⟨st', hst', hstk, hall, hl, fun seen hs => ?_, hright⟩
      rw [meet, if_pos ((hs.disc i).mp hd)]
      exact hseen' seen hs

/-- A search that ended right has found the components. -/
theorem Right.components (h : Right succ first order st) (hdisc : ∀ x < n, st.Disc x) :
    ∀ i < n, ∀ j < n, (st.nodes i).component = (st.nodes j).component ↔
      Reach succ i j ∧ Reach succ j i := by
  have hdone : ∀ x < n, st.Done x := fun x hx =>
    (active_or_done (hdisc x hx)).resolve_left (h.1.no_active x)
  exact fun i hi j hj => h.1.done_scc i j (hdone i hi) (hdone j hj)

end Roots

/-- `get_residual_sccs` returns, and numbers the components of the answers exactly when the first
delay list of every answer leads, without passing the answer, to all other answers of its component
or to one of them that the search has met before. -/
theorem getResidualSccs_partitions_iff (r : ResidualAnswers) (hnd : r.listterm.Nodup)
    (hcl : r.dependencies.Closed) :
    ∃ st, r.getResidualSccs = some st ∧ (PartitionsSccs r.dependencies st ↔
      ∀ v < r.listterm.length, FirstDecides r.targets r.firstTargets
        (searchOrder r.targets r.listterm.length) v) := by
  have hlen : (nodeTable r.dependencies).2 = r.listterm.length := (nodeTable_spec _ hnd).1
  obtain ⟨st, hst, hstk, hall, -, hseen, hright⟩ := residualLoop_runs r hnd hcl r.listterm.length 0
    (initialState r.dependencies) (Nat.zero_add _) (.init _) (fun _ => rfl)
    fun x hx => absurd hx (Nat.not_lt_zero x)
  refine ⟨st, ?_, ?_⟩
  · simp only [getResidualSccs, hlen, range_eq_range']
    exact hst
  have hpart : PartitionsSccs r.dependencies st ↔
      ∀ i < r.listterm.length, ∀ j < r.listterm.length,
        (st.nodes i).component = (st.nodes j).component ↔
          Reach r.targets i j ∧ Reach r.targets j i := by
    refine forall₄_congr fun i hi j hj => ?_
    rw [targets_reach_iff r hnd hcl hi hj, targets_reach_iff r hnd hcl hj hi]
    rfl
  have hag : Agrees (searchOrder r.targets r.listterm.length) st := by
    have hs := hseen [] (.init _)
    rw [← range_eq_range'] at hs
    exact fun x hx => hs.number x ((hs.disc x).mp hx)
  rw [hpart]
  rcases hright _ (.init _) hag with hr | ⟨⟨u, x, hux, hxu, hx, hne⟩, y, hy, hyf⟩
  · exact iff_of_true (hr.components hall) fun v hv => hr.2 v (hall v hv)
  · have hxn := hstk.bound x (hstk.done_disc x hx)
    refine iff_of_false (fun hcomp => hne ?_) fun hf => hyf (hf y (hstk.bound y hy))
    exact (hcomp u (reach_lt r hnd hcl hxn hxu) x hxn).mpr ⟨hux, hxu⟩

/-- Answers 10, 20 and 30 of the subgoals 1, 2 and 3 of
`a :- tnot(b). a :- c. b :- tnot(b). c :- a.` -/
def threeAnswers : ResidualAnswers where
  listterm := [10, 20, 30]
  asiDlList leaf :=
    if leaf = 10 then ⟨[⟨none, 2⟩], [[⟨some 30, 3⟩]]⟩
    else if leaf = 20 then ⟨[⟨none, 2⟩], []⟩
    else ⟨[⟨some 10, 1⟩], []⟩
  ansRootChild subgoal := 10 * subgoal

theorem threeAnswers_closed : threeAnswers.dependencies.Closed := by
  show ∀ leaf ∈ threeAnswers.listterm, ∀ leaf' ∈ threeAnswers.dependencies.outedges leaf,
    leaf' ∈ threeAnswers.listterm
  decide

/-- The characterisation at `threeAnswers`. -/
theorem threeAnswers_partitions_iff :
    ∃ st, threeAnswers.getResidualSccs = some st ∧
      (PartitionsSccs threeAnswers.dependencies st ↔
        ∀ v < 3, FirstDecides threeAnswers.targets threeAnswers.firstTargets
          (searchOrder threeAnswers.targets 3) v) :=
  getResidualSccs_partitions_iff threeAnswers (by decide) threeAnswers_closed

/-- The component of answer 10 is closed before its second delay list leads to 30. -/
theorem threeAnswers_split :
    ¬∀ r : ResidualAnswers, r.listterm.Nodup → r.dependencies.Closed →
      ∃ st, r.getResidualSccs = some st ∧ PartitionsSccs r.dependencies st := by
  intro h
  obtain ⟨st, hst, hpart⟩ := h threeAnswers (by decide) threeAnswers_closed
  have hcomp : threeAnswers.getResidualSccs.map (fun st =>
      ((st.nodes 0).component, (st.nodes 2).component)) = some (2, 3) := by decide
  rw [hst, Option.map_some, Option.some.injEq, Prod.mk.injEq] at hcomp
  have hne : (st.nodes 0).component ≠ (st.nodes 2).component := by
    rw [hcomp.1, hcomp.2]
    decide
  have hforth : threeAnswers.dependencies.Reaches 10 30 := .single (by decide)
  have hback : threeAnswers.dependencies.Reaches 30 10 := .single (by decide)
  exact hne ((hpart 0 (by decide) 2 (by decide)).mpr ⟨hforth, hback⟩)

end XSBEngine.Residual
