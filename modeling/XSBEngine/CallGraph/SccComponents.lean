import Mathlib
import XSBEngine.CallGraph.SccRun

/-!
# The computed partition

What the component numbers of `get_incr_sccs` are: the strongly connected components of the
nodes with edges, and for a node without edges a component of its own exactly when no node
listed before it leads to it.
-/

namespace XSBEngine.CallGraph

open List Relation SccState

/-! ### The recursion -/

/-- Every call terminates within the nesting allowed by the undiscovered nodes and keeps the
invariant. -/
theorem xsbComputeScc_spec (g : IncrGraph) (hasht : HashTable) (n : Nat)
    (hclosed : ∀ x y, x < n → Edge (succs g hasht) x y → y < n) (depth : Nat) :
    VisitSpec (succs g hasht) n (g.listterm.getD · 0) depth (xsbComputeScc g hasht depth) := by
  induction depth with
  | zero =>
    intro st gray v _ _ hv hvn _ hb
    have := undiscovered_pos hvn hv
    omega
  | succ depth ih =>
    intro st gray v h hnode hv hvn ho hb
    have hl := SccLoop.start h hv hvn ho
    have hself : ((st.enter v).nodes v).node = g.listterm.getD v 0 := by
      rw [enter_nodes_self]
      exact hnode v
    have hb' : undiscovered n (st.enter v) ≤ depth := by
      have := undiscovered_enter hvn hv h.dfn_pos
      omega
    simp only [xsbComputeScc, hself]
    split
    next hpos =>
      have hne : succs g hasht v ≠ [] := by
        simpa [succs, length_pos_iff] using hpos
      obtain ⟨st', hst', hl', hf, -⟩ := hl.fold h hv hnode ih hb' (searchSome hasht)
        (g.outedges (g.listterm.getD v 0)) (fun sf hsf => by
          have he : Edge (succs g hasht) v (searchSome hasht sf) := mem_map_of_mem hsf
          exact ⟨he, hclosed v _ hvn he⟩)
      have hf' : ∀ y, Edge (succs g hasht) v y → Followed st' v y := by
        intro y hy
        obtain ⟨sf, hsf, rfl⟩ := mem_map.mp hy
        exact hf sf hsf
      simp only [hst', Option.bind_eq_bind, Option.bind_some]
      split
      next hlow => exact ⟨_, rfl, hl'.post_pop h hne hf' hlow⟩
      next hlow => exact ⟨_, rfl, hl'.post_stay hne hf' hlow⟩
    next hzero =>
      have hnil : succs g hasht v = [] := by
        simpa [succs, length_pos_iff] using hzero
      exact ⟨_, rfl, hl.post_sink h hv hnil⟩

/-! ### The calls from every node -/

section Roots

variable {succ : Nat → List Nat} {n : Nat} {st st' : SccState}

/-- State after the calls from the nodes below `i`. -/
structure RootInv (succ : Nat → List Nat) (n i : Nat) (st : SccState) : Prop where
  inv : SccInv succ n st []
  disc : ∀ x, st.Disc x ↔ ∃ k < i, Reach succ k x
  stack : ∀ x, st.OnStack x ↔ succ x = [] ∧ x < i ∧ ∀ k < x, ¬ Reach succ k x

/-- A node that was discovered before changes nothing. -/
theorem RootInv.skip {i : Nat} (h : RootInv succ n i st) (hi : st.Disc i) :
    RootInv succ n (i + 1) st where
  inv := h.inv
  disc x := by
    rw [h.disc]
    constructor
    · rintro ⟨k, hk, hr⟩
      exact ⟨k, Nat.lt_succ_of_lt hk, hr⟩
    · rintro ⟨k, hk, hr⟩
      rcases Nat.lt_succ_iff_lt_or_eq.mp hk with hk | rfl
      · exact ⟨k, hk, hr⟩
      · obtain ⟨j, hj, hr'⟩ := (h.disc k).mp hi
        exact ⟨j, hj, hr'.trans hr⟩
  stack x := by
    rw [h.stack]
    refine ⟨fun ⟨hs, hx, hr⟩ => ⟨hs, Nat.lt_succ_of_lt hx, hr⟩, fun ⟨hs, hx, hr⟩ => ⟨hs, ?_, hr⟩⟩
    rcases Nat.lt_succ_iff_lt_or_eq.mp hx with hx | rfl
    · exact hx
    · obtain ⟨j, hj, hr'⟩ := (h.disc x).mp hi
      exact absurd hr' (hr j hj)

/-- Without an open call the discovered nodes are closed under reachability. -/
theorem SccInv.disc_reach (h : SccInv succ n st []) {x y : Nat} (hx : st.Disc x)
    (hr : Reach succ x y) : st.Disc y := by
  induction hr with
  | refl => exact hx
  | tail _ he ih => exact h.black_edge _ _ ih (by simp) he

/-- A call from an undiscovered node. -/
theorem RootInv.visit {i : Nat} (h : RootInv succ n i st) (hi : ¬ st.Disc i)
    (hp : SccPost succ n [] i st st') : RootInv succ n (i + 1) st' where
  inv := hp.inv
  disc x := by
    constructor
    · intro hx
      by_cases hx0 : st.Disc x
      · obtain ⟨k, hk, hr⟩ := (h.disc x).mp hx0
        exact ⟨k, Nat.lt_succ_of_lt hk, hr⟩
      · exact ⟨i, Nat.lt_succ_self i, (hp.frame.fresh x hx hx0).2⟩
    · rintro ⟨k, hk, hr⟩
      rcases Nat.lt_succ_iff_lt_or_eq.mp hk with hk | rfl
      · exact hp.frame.disc ((h.disc x).mpr ⟨k, hk, hr⟩)
      · exact hp.inv.disc_reach hp.disc hr
  stack x := by
    have hnew : ∀ k < i, ¬ Reach succ k i := fun k hk hr => hi ((h.disc i).mpr ⟨k, hk, hr⟩)
    by_cases hs : succ i = []
    · rw [hp.stack_sink hs, h.stack]
      constructor
      · rintro (rfl | ⟨hsx, hx, hr⟩)
        · exact ⟨hs, Nat.lt_succ_self x, hnew⟩
        · exact ⟨hsx, Nat.lt_succ_of_lt hx, hr⟩
      · rintro ⟨hsx, hx, hr⟩
        rcases Nat.lt_succ_iff_lt_or_eq.mp hx with hx | rfl
        · exact .inr ⟨hsx, hx, hr⟩
        · exact .inl rfl
    · have hd := (active_or_done hp.disc).resolve_left (hp.inv.no_active i)
      rw [hp.stack_done hs hd, h.stack]
      refine ⟨fun ⟨hsx, hx, hr⟩ => ⟨hsx, Nat.lt_succ_of_lt hx, hr⟩, fun ⟨hsx, hx, hr⟩ =>
        ⟨hsx, ?_, hr⟩⟩
      rcases Nat.lt_succ_iff_lt_or_eq.mp hx with hx | rfl
      · exact hx
      · exact absurd hsx hs

/-- A node without edges reaches only itself. -/
theorem sink_reach {x y : Nat} (hx : succ x = []) (hr : Reach succ x y) : y = x := by
  rcases hr.cases_head with rfl | ⟨z, hz, -⟩
  · rfl
  · simp [Edge, hx] at hz

/-- Every node is finished after the last call. -/
theorem RootInv.done (h : RootInv succ n n st) {x : Nat} (hx : x < n) : st.Done x :=
  (active_or_done ((h.disc x).mpr ⟨x, hx, .refl⟩)).resolve_left (h.inv.no_active x)

/-- The final numbering is the partition into strongly connected components exactly when no
node without edges is reachable from a node listed before it. -/
theorem RootInv.partition_iff (h : RootInv succ n n st) :
    (∀ i < n, ∀ j < n, (st.nodes i).component = (st.nodes j).component ↔
        Reach succ i j ∧ Reach succ j i) ↔
      ∀ t < n, succ t = [] → ∀ k < t, ¬ Reach succ k t := by
  constructor
  · intro hpart t ht hs k hk hr
    have hoff : ¬ st.OnStack t := fun ho => ((h.stack t).mp ho).2.2 k hk hr
    obtain ⟨y, hyt, hy⟩ := h.inv.done_sink t (h.done ht) hs hoff
    have hyd : st.Done y := by rw [Done, hy]; exact h.done ht
    have hyn := h.inv.bound y (h.inv.done_disc y hyd)
    exact hyt (sink_reach hs ((hpart t ht y hyn).mp hy.symm).1)
  · intro hcond
    -- A sink is alone in its component, in the numbering and in the graph.
    have hsink : ∀ x < n, succ x = [] → ∀ y, (st.nodes y).component = (st.nodes x).component ↔
        Reach succ x y ∧ Reach succ y x := by
      intro x hx hs y
      have ho : st.OnStack x := (h.stack x).mpr ⟨hs, hx, hcond x hx hs⟩
      constructor
      · intro hy
        rw [(h.inv.done_stack x (h.done hx) ho).2 y hy]
        exact ⟨.refl, .refl⟩
      · rintro ⟨hr, -⟩
        rw [sink_reach hs hr]
    intro i hi j hj
    by_cases hsi : succ i = []
    · rw [eq_comm, hsink i hi hsi]
    by_cases hsj : succ j = []
    · rw [hsink j hj hsj, and_comm]
    · exact h.inv.done_scc i j (h.done hi) (h.done hj) hsi hsj

/-- The invariant before the first call. -/
theorem RootInv.init (g : IncrGraph) : RootInv succ n 0 (initialState g) where
  inv := by
    constructor
    all_goals simp [Disc, Done, Active, initialState]
  disc x := by simp [Disc, initialState]
  stack x := by simp [OnStack, initialState]

end Roots

/-- All calls return, and leave the state described by `RootInv`. -/
theorem sccLoop_spec (g : IncrGraph) (hasht : HashTable) (n : Nat)
    (hclosed : ∀ x y, x < n → Edge (succs g hasht) x y → y < n) (len : Nat) :
    ∀ i st, i + len = n → RootInv (succs g hasht) n i st →
      (∀ x, (st.nodes x).node = g.listterm.getD x 0) →
      ∃ st', sccLoop g hasht n (List.range' i len) st = some st' ∧
        RootInv (succs g hasht) n n st' := by
  induction len with
  | zero =>
    intro i st hi h _
    obtain rfl : i = n := by omega
    exact ⟨st, rfl, h⟩
  | succ len ih =>
    intro i st hi h hnode
    simp only [List.range'_succ, sccLoop]
    split
    next hd =>
      have hb : undiscovered n st ≤ n := by
        refine (Finset.card_filter_le _ _).trans ?_
        rw [Finset.card_range]
      obtain ⟨st', hst', hp⟩ := xsbComputeScc_spec g hasht n hclosed n st [] i h.inv hnode
        (not_not.mpr hd) (by omega) (.inl rfl) hb
      simp only [hst', Option.bind_eq_bind, Option.bind_some]
      exact ih (i + 1) st' (by omega) (h.visit (not_not.mpr hd) hp)
        (fun x => (hp.frame.node x).trans (hnode x))
    next hd => exact ih (i + 1) st (by omega) (h.skip hd) hnode

/-! ### The node table -/

private theorem searchSome_absent {hasht : HashTable} {key : Nat}
    (h : ∀ p ∈ hasht, p.1 ≠ key) : searchSome hasht key = 0 := by
  have hnone : hasht.lookup key = none := by
    rw [lookup_eq_none_iff]
    exact fun p hp => by simpa using (h p hp).symm
  simp [searchSome, hnone]

private theorem searchSome_insert_ne {hasht : HashTable} {key key' value : Nat} (h : key' ≠ key) :
    searchSome (insertSome hasht key value) key' = searchSome hasht key' := by
  simp [searchSome, insertSome, lookup_cons, beq_false_of_ne h]

private theorem searchSome_insert_self (hasht : HashTable) (key value : Nat) :
    searchSome (insertSome hasht key value) key = value := by
  simp [searchSome, insertSome]

/-- Listed nodes without duplicates are numbered in the order of the list. -/
theorem insertNodes_spec (nodes : List Nat) (hasht : HashTable) (num : Nat)
    (hnd : nodes.Nodup) (hnew : ∀ p ∈ hasht, p.1 ∉ nodes) :
    (insertNodes nodes hasht num).2 = num + nodes.length ∧
      (∀ i (hi : i < nodes.length),
        searchSome (insertNodes nodes hasht num).1 nodes[i] = num + i) ∧
      ∀ x ∉ nodes, searchSome (insertNodes nodes hasht num).1 x = searchSome hasht x := by
  induction nodes generalizing hasht num with
  | nil => exact ⟨rfl, fun i hi => absurd hi (by simp), fun x _ => rfl⟩
  | cons node rest ih =>
    obtain ⟨hnotin, hrest⟩ := nodup_cons.mp hnd
    have habs : searchSome hasht node = 0 :=
      searchSome_absent fun p hp he => hnew p hp (he ▸ mem_cons_self ..)
    obtain ⟨hlen, hin, hout⟩ := ih (insertSome hasht node num) (num + 1) hrest (by
      intro p hp hm
      rcases mem_cons.mp hp with rfl | hp
      · exact hnotin hm
      · exact hnew p hp (mem_cons_of_mem _ hm))
    simp only [insertNodes, habs, if_true]
    refine ⟨by rw [hlen, length_cons]; omega, fun i hi => ?_, fun x hx => ?_⟩
    · cases i with
      | zero =>
        rw [getElem_cons_zero, hout node hnotin, searchSome_insert_self]
        rfl
      | succ i =>
        rw [getElem_cons_succ, hin i (by simpa using hi)]
        omega
    · rw [mem_cons, not_or] at hx
      rw [hout x hx.2, searchSome_insert_ne hx.1]

/-- The table of `get_incr_sccs` maps every listed node to its index. -/
theorem nodeTable_spec (g : IncrGraph) (hnd : g.listterm.Nodup) :
    (nodeTable g).2 = g.listterm.length ∧
      ∀ i (hi : i < g.listterm.length), searchSome (nodeTable g).1 g.listterm[i] = i := by
  unfold nodeTable
  split
  next hnil => simp [hnil]
  next first rest hcons =>
    rw [hcons] at hnd
    obtain ⟨hnotin, hrest⟩ := nodup_cons.mp hnd
    obtain ⟨hlen, hin, hout⟩ := insertNodes_spec rest (insertSome [] first 0) 1 hrest (by
      intro p hp
      rw [mem_singleton.mp hp]
      exact hnotin)
    refine ⟨by rw [hlen, hcons, length_cons, Nat.add_comm], fun i hi => ?_⟩
    simp only [hcons] at hi ⊢
    cases i with
    | zero => rw [getElem_cons_zero, hout first hnotin, searchSome_insert_self]
    | succ i => rw [getElem_cons_succ, hin i (by simpa using hi), Nat.add_comm]

/-! ### Subgoals -/

/-- The list is closed under outgoing edges. -/
def IncrGraph.Closed (g : IncrGraph) : Prop :=
  ∀ sf ∈ g.listterm, ∀ sf' ∈ g.outedges sf, sf' ∈ g.listterm

/-- Reachability between incremental subgoals. -/
def IncrGraph.Reaches (g : IncrGraph) : Nat → Nat → Prop :=
  ReflTransGen fun sf sf' => sf' ∈ g.outedges sf

/-- Edges between indices are edges between the listed subgoals. -/
theorem edge_iff {g : IncrGraph} (hnd : g.listterm.Nodup) (hcl : g.Closed) {i : Nat}
    (hi : i < g.listterm.length) (j : Nat) :
    Edge (succs g (nodeTable g).1) i j ↔
      ∃ hj : j < g.listterm.length, g.listterm[j] ∈ g.outedges g.listterm[i] := by
  obtain ⟨-, hidx⟩ := nodeTable_spec g hnd
  have hnode : g.listterm.getD i 0 = g.listterm[i] := by simp [hi]
  simp only [Edge, succs, mem_map, hnode]
  constructor
  · rintro ⟨sf, hsf, rfl⟩
    obtain ⟨k, hk, rfl⟩ := getElem_of_mem (hcl _ (getElem_mem hi) sf hsf)
    rw [hidx k hk]
    exact ⟨hk, hsf⟩
  · rintro ⟨hj, hm⟩
    exact ⟨_, hm, hidx j hj⟩

theorem succs_eq_nil {g : IncrGraph} {i : Nat} (hi : i < g.listterm.length) :
    succs g (nodeTable g).1 i = [] ↔ g.outedges g.listterm[i] = [] := by
  simp [succs, List.getElem?_eq_getElem hi]

/-- Reachability between indices is reachability between the listed subgoals. -/
theorem reach_iff {g : IncrGraph} (hnd : g.listterm.Nodup) (hcl : g.Closed) {i j : Nat}
    (hi : i < g.listterm.length) (hj : j < g.listterm.length) :
    Reach (succs g (nodeTable g).1) i j ↔ g.Reaches g.listterm[i] g.listterm[j] := by
  constructor
  · intro hr
    have hgen : ∃ hj' : j < g.listterm.length, g.Reaches g.listterm[i] g.listterm[j] := by
      clear hj
      induction hr with
      | refl => exact ⟨hi, .refl⟩
      | tail _ he ih =>
        obtain ⟨hb, hr⟩ := ih
        obtain ⟨hc, hm⟩ := (edge_iff hnd hcl hb _).mp he
        exact ⟨hc, hr.tail hm⟩
    exact hgen.2
  · intro hr
    have hgen : ∀ sf, g.Reaches g.listterm[i] sf →
        ∃ k, ∃ hk : k < g.listterm.length, g.listterm[k] = sf ∧
          Reach (succs g (nodeTable g).1) i k := by
      intro sf hsf
      induction hsf with
      | refl => exact ⟨i, hi, rfl, .refl⟩
      | tail _ he ih =>
        obtain ⟨k, hk, rfl, hr⟩ := ih
        obtain ⟨m, hm, rfl⟩ := getElem_of_mem (hcl _ (getElem_mem hk) _ he)
        exact ⟨m, hm, rfl, hr.tail ((edge_iff hnd hcl hk m).mpr ⟨hm, he⟩)⟩
    obtain ⟨k, hk, hkj, hr⟩ := hgen _ hr
    rwa [(hnd.getElem_inj_iff).mp hkj] at hr

/-- The component numbers that `get_incr_sccs` leaves in the node array are the partition of
the listed subgoals into strongly connected components. -/
def PartitionsSccs (g : IncrGraph) (st : SccState) : Prop :=
  ∀ i (hi : i < g.listterm.length) j (hj : j < g.listterm.length),
    (st.nodes i).component = (st.nodes j).component ↔
      g.Reaches g.listterm[i] g.listterm[j] ∧ g.Reaches g.listterm[j] g.listterm[i]

/-- A subgoal without outgoing edges is listed before everything that leads to it. -/
def SinksFirst (g : IncrGraph) : Prop :=
  ∀ t (ht : t < g.listterm.length), g.outedges g.listterm[t] = [] →
    ∀ k (hk : k < g.listterm.length), k < t → ¬ g.Reaches g.listterm[k] g.listterm[t]

/-- `get_incr_sccs` returns, and numbers the strongly connected components exactly when the
subgoals without outgoing edges come first. -/
theorem getIncrSccs_partitions_iff (g : IncrGraph) (hnd : g.listterm.Nodup) (hcl : g.Closed) :
    ∃ st, getIncrSccs g = some st ∧ (PartitionsSccs g st ↔ SinksFirst g) := by
  obtain ⟨hlen, -⟩ := nodeTable_spec g hnd
  have hclosed : ∀ x y, x < g.listterm.length → Edge (succs g (nodeTable g).1) x y →
      y < g.listterm.length := fun x y hx he => ((edge_iff hnd hcl hx y).mp he).1
  obtain ⟨st, hst, hinv⟩ := sccLoop_spec g (nodeTable g).1 g.listterm.length hclosed
    g.listterm.length 0 (initialState g) (Nat.zero_add _) (RootInv.init g) (fun _ => rfl)
  refine ⟨st, ?_, ?_⟩
  · rw [getIncrSccs, hlen, range_eq_range']
    exact hst
  · have hpart : PartitionsSccs g st ↔
        ∀ i < g.listterm.length, ∀ j < g.listterm.length,
          (st.nodes i).component = (st.nodes j).component ↔
            Reach (succs g (nodeTable g).1) i j ∧ Reach (succs g (nodeTable g).1) j i := by
      refine forall₄_congr fun i hi j hj => ?_
      rw [reach_iff hnd hcl hi hj, reach_iff hnd hcl hj hi]
    have hcond : SinksFirst g ↔ ∀ t < g.listterm.length, succs g (nodeTable g).1 t = [] →
        ∀ k < t, ¬ Reach (succs g (nodeTable g).1) k t := by
      refine forall₂_congr fun t ht => ?_
      rw [succs_eq_nil ht]
      refine forall_congr' fun _ => ⟨fun h k hk => ?_, fun h k hk hkt => ?_⟩
      · rw [reach_iff hnd hcl (hk.trans ht) ht]
        exact h k (hk.trans ht) hk
      · rw [← reach_iff hnd hcl hk ht]
        exact h k hkt
    rw [hpart, hcond]
    exact hinv.partition_iff

/-- Subgoals 10 and 20 with one edge from 10 to 20. -/
def twoSubgoals : IncrGraph where
  listterm := [10, 20]
  outedges sf := if sf = 10 then [20] else []

theorem twoSubgoals_closed : twoSubgoals.Closed := by
  intro sf hsf sf' hsf'
  simp only [twoSubgoals] at hsf hsf' ⊢
  split at hsf' <;> simp_all

/-- The characterisation at `twoSubgoals`. -/
theorem twoSubgoals_partitions_iff :
    ∃ st, getIncrSccs twoSubgoals = some st ∧
      (PartitionsSccs twoSubgoals st ↔ SinksFirst twoSubgoals) :=
  getIncrSccs_partitions_iff twoSubgoals (by decide) twoSubgoals_closed

/-- Both subgoals of `twoSubgoals` get component 2, and nothing leads from 20 to 10. -/
theorem twoSubgoals_merged :
    ¬ ∀ g : IncrGraph, g.listterm.Nodup → g.Closed →
      ∃ st, getIncrSccs g = some st ∧ PartitionsSccs g st := by
  intro h
  obtain ⟨st, hst, hpart⟩ := h twoSubgoals (by decide) twoSubgoals_closed
  have hcomp : (getIncrSccs twoSubgoals).map (fun st =>
      ((st.nodes 0).component, (st.nodes 1).component)) = some (2, 2) := by decide
  rw [hst, Option.map_some, Option.some.injEq, Prod.mk.injEq] at hcomp
  obtain ⟨-, hback⟩ := (hpart 0 (by decide) 1 (by decide)).mp (hcomp.1.trans hcomp.2.symm)
  rcases hback.cases_head with he | ⟨sf, hsf, -⟩
  · exact absurd he (by decide)
  · exact absurd hsf (by simp [twoSubgoals])

end XSBEngine.CallGraph
