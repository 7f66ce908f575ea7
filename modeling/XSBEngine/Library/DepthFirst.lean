import Mathlib

/-!
# Depth-first search

A search over a graph of edge lists that marks the nodes it visits, repeated from every node of
a list. The last root reaches a component that nothing leaves in the transposed graph.
-/

namespace XSBEngine.Library.DepthFirst

open Function List Relation

variable {α : Type*} [DecidableEq α]

/-- An edge of a graph of edge lists. -/
def Edge (edges : α → List α) (x y : α) : Prop := y ∈ edges x

/-- Mark a node and search from the targets of its edges that are not marked. -/
def visit (edges : α → List α) : Nat → α → (α → Bool) → Option (α → Bool)
  | 0, _, _ => none
  | fuel + 1, u, visited =>
    (edges u).foldlM
      (fun visited v => if visited v then some visited else visit edges fuel v visited)
      (update visited u true)

/-- Search from every node of a list that is not marked yet, with the last root. -/
def visitAll (edges : α → List α) (fuel : Nat) (order : List α) (visited : α → Bool) :
    Option ((α → Bool) × Option α) :=
  order.foldlM
    (fun r u =>
      if r.1 u then some r else (visit edges fuel u r.1).map fun visited => (visited, some u))
    (visited, none)

/-- The marks while the edges of `u` are followed. -/
structure Following (edges : α → List α) (u : α) (visited visited' : α → Bool) : Prop where
  mono : ∀ x, visited x = true → visited' x = true
  root : visited' u = true
  sound : ∀ x, visited' x = true → visited x = true ∨ ReflTransGen (Edge edges) u x
  closed : ∀ x, x ≠ u → visited' x = true → visited x = false →
    ∀ y ∈ edges x, visited' y = true

/-- What a search from `u` does to the marks. -/
structure VisitSpec (edges : α → List α) (u : α) (visited visited' : α → Bool) : Prop extends
    Following edges u visited visited' where
  targets : ∀ y ∈ edges u, visited' y = true

variable {edges : α → List α} {visited visited1 visited' : α → Bool} {nodes : Finset α}
  {u v : α} {fuel : Nat}

/-- The nodes that are not marked. -/
def unvisited (nodes : Finset α) (visited : α → Bool) : Finset α :=
  nodes.filter (visited · = false)

omit [DecidableEq α] in
theorem unvisited_mono (h : ∀ x, visited x = true → visited' x = true) :
    unvisited nodes visited' ⊆ unvisited nodes visited := by
  intro x hx
  obtain ⟨hn, hv⟩ := Finset.mem_filter.mp hx
  refine Finset.mem_filter.mpr ⟨hn, Bool.eq_false_iff.mpr fun ht => ?_⟩
  rw [h x ht] at hv
  cases hv

omit [DecidableEq α] in
theorem unvisited_card_lt (h : ∀ x, visited x = true → visited' x = true) (hu : u ∈ nodes)
    (hv : visited u = false) (hv' : visited' u = true) :
    (unvisited nodes visited').card < (unvisited nodes visited).card := by
  apply Finset.card_lt_card
  refine ⟨unvisited_mono h, fun hsub => ?_⟩
  have := (Finset.mem_filter.mp (hsub (Finset.mem_filter.mpr ⟨hu, hv⟩))).2
  rw [hv'] at this
  cases this

/-- A search starts by marking its root. -/
theorem Following.start (edges : α → List α) (u : α) (visited : α → Bool) :
    Following edges u visited (update visited u true) where
  mono x hx := by
    by_cases hxu : x = u
    · rw [hxu, update_self]
    · rw [update_of_ne hxu]
      exact hx
  root := update_self ..
  sound x hx := by
    by_cases hxu : x = u
    · exact .inr (hxu ▸ .refl)
    · rw [update_of_ne hxu] at hx
      exact .inl hx
  closed x hxu hx hx' := by
    rw [update_of_ne hxu, hx'] at hx
    cases hx

omit [DecidableEq α] in
/-- One more edge is followed. -/
theorem Following.follow (h : Following edges u visited visited1) (hv : v ∈ edges u)
    (hs : VisitSpec edges v visited1 visited') : Following edges u visited visited' where
  mono x hx := hs.mono x (h.mono x hx)
  root := hs.mono u h.root
  sound x hx := by
    rcases hs.sound x hx with hx | hx
    · exact h.sound x hx
    · exact .inr (hx.head hv)
  closed x hxu hx hx' y hy := by
    by_cases hx1 : visited1 x = true
    · exact hs.mono y (h.closed x hxu hx1 hx' y hy)
    · by_cases hxv : x = v
      · subst hxv
        exact hs.targets y hy
      · exact hs.closed x hxv hx (Bool.eq_false_iff.mpr hx1) y hy

omit [DecidableEq α] in
/-- The searches from some targets, each of which ends. -/
theorem follow_targets {search : α → (α → Bool) → Option (α → Bool)} {targets : List α}
    (hsearch : ∀ v ∈ edges u, ∀ visited1, Following edges u visited visited1 →
      visited1 v = false → ∃ visited', search v visited1 = some visited' ∧
        VisitSpec edges v visited1 visited')
    (hsub : ∀ v ∈ targets, v ∈ edges u) (h : Following edges u visited visited1) :
    ∃ visited', targets.foldlM (fun visited v => if visited v then some visited
        else search v visited) visited1 = some visited' ∧
      Following edges u visited visited' ∧ (∀ x, visited1 x = true → visited' x = true) ∧
      ∀ v ∈ targets, visited' v = true := by
  induction targets generalizing visited1 with
  | nil => exact ⟨visited1, rfl, h, fun x hx => hx, by simp⟩
  | cons v rest ih =>
    have hv := hsub v mem_cons_self
    have hrest : ∀ w ∈ rest, w ∈ edges u := fun w hw => hsub w (mem_cons_of_mem _ hw)
    simp only [foldlM_cons, forall_mem_cons]
    by_cases hvv : visited1 v = true
    · rw [if_pos hvv]
      obtain ⟨visited', hrun, hf, hmono, htargets⟩ := ih hrest h
      exact ⟨visited', hrun, hf, hmono, hmono v hvv, htargets⟩
    · rw [if_neg hvv]
      obtain ⟨visited2, hrun2, hspec⟩ := hsearch v hv visited1 h (Bool.eq_false_iff.mpr hvv)
      obtain ⟨visited', hrun, hf, hmono, htargets⟩ := ih hrest (h.follow hv hspec)
      refine ⟨visited', ?_, hf, fun x hx => hmono x (hspec.mono x hx), hmono v hspec.root, htargets⟩
      rw [hrun2]
      exact hrun

/-- A search ends when there are no more unmarked nodes than fuel. -/
theorem visit_spec (hnodes : ∀ x ∈ nodes, ∀ y ∈ edges x, y ∈ nodes) (hu : u ∈ nodes)
    (hv : visited u = false) (hfuel : (unvisited nodes visited).card ≤ fuel) :
    ∃ visited', visit edges fuel u visited = some visited' ∧
      VisitSpec edges u visited visited' := by
  induction fuel generalizing u visited with
  | zero =>
    have hmem : u ∈ unvisited nodes visited := Finset.mem_filter.mpr ⟨hu, hv⟩
    rw [Finset.card_eq_zero.mp (Nat.le_zero.mp hfuel)] at hmem
    exact absurd hmem (Finset.notMem_empty u)
  | succ fuel ih =>
    have hsearch : ∀ v ∈ edges u, ∀ visited1, Following edges u visited visited1 →
        visited1 v = false → ∃ visited', visit edges fuel v visited1 = some visited' ∧
          VisitSpec edges v visited1 visited' := by
      intro v hve visited1 hf hvv
      have hlt := unvisited_card_lt hf.mono hu hv hf.root
      exact ih (hnodes u hu v hve) hvv (by omega)
    obtain ⟨visited', hrun, hf, -, htargets⟩ :=
      follow_targets hsearch (fun v hv => hv) (Following.start edges u visited)
    exact ⟨visited', hrun, hf, htargets⟩

/-- Marks that no edge leaves. -/
def Closed (edges : α → List α) (visited : α → Bool) : Prop :=
  ∀ x, visited x = true → ∀ y ∈ edges x, visited y = true

omit [DecidableEq α] in
theorem Closed.reach (h : Closed edges visited) (hu : visited u = true)
    (hr : ReflTransGen (Edge edges) u v) : visited v = true := by
  induction hr with
  | refl => exact hu
  | tail _ he ih => exact h _ ih _ he

omit [DecidableEq α] in
theorem VisitSpec.isClosed (h : VisitSpec edges u visited visited') (hc : Closed edges visited) :
    Closed edges visited' := by
  intro x hx y hy
  by_cases hv : visited x = true
  · exact h.mono y (hc x hv y hy)
  · by_cases hxu : x = u
    · subst hxu
      exact h.targets y hy
    · exact h.closed x hxu hx (Bool.eq_false_iff.mpr hv) y hy

/-- The last root of a search from every node: a closed set of marks without it, and from it all
the others. -/
structure LastRoot (edges : α → List α) (order : List α) (u : α) : Prop where
  mem : u ∈ order
  marks : ∃ earlier : α → Bool, Closed edges earlier ∧ earlier u = false ∧
    ∀ x ∈ order, earlier x = true ∨ ReflTransGen (Edge edges) u x

/-- The search from every node has a last root. -/
theorem visitAll_spec (hnodes : ∀ x ∈ nodes, ∀ y ∈ edges x, y ∈ nodes) {order : List α}
    (horder : ∀ x ∈ order, x ∈ nodes) (hne : order ≠ []) (hfuel : nodes.card ≤ fuel)
    (hclean : ∀ x ∈ order, visited x = false) (hclosed : Closed edges visited) :
    ∃ visited' u, visitAll edges fuel order visited = some (visited', some u) ∧
      LastRoot edges order u ∧ ∀ x, visited' x = true →
        visited x = true ∨ ∃ r ∈ order, ReflTransGen (Edge edges) r x := by
  have hcard : ∀ visited : α → Bool, (unvisited nodes visited).card ≤ fuel :=
    fun visited => (Finset.card_filter_le _ _).trans hfuel
  -- The state after a part of the list: the last root and the marks before its search.
  suffices hpart : ∀ done, done <+: order → ∃ visited' m,
      visitAll edges fuel done visited = some (visited', m) ∧ Closed edges visited' ∧
      (∀ x ∈ done, visited' x = true) ∧
      (∀ x, visited' x = true → visited x = true ∨ ∃ r ∈ done, ReflTransGen (Edge edges) r x) ∧
      ((done = [] ∧ visited' = visited) ∨ ∃ u, m = some u ∧ u ∈ done ∧
        ∃ earlier : α → Bool, Closed edges earlier ∧ earlier u = false ∧
          ∀ x, visited' x = true → earlier x = true ∨ ReflTransGen (Edge edges) u x) by
    obtain ⟨visited', m, hrun, -, hall, hsound, hlast⟩ := hpart order (prefix_refl _)
    rcases hlast with ⟨hnil, -⟩ | ⟨u, rfl, hu, earlier, hc, hf, hr⟩
    · exact absurd hnil hne
    · exact ⟨visited', u, hrun, ⟨hu, earlier, hc, hf, fun x hx => hr x (hall x hx)⟩, hsound⟩
  intro done
  induction done using List.reverseRecOn with
  | nil =>
    exact fun _ => ⟨visited, none, rfl, hclosed, by simp, fun x hx => .inl hx, .inl ⟨rfl, rfl⟩⟩
  | append_singleton done w ih =>
    intro hpre
    obtain ⟨visited1, m, hrun, hc1, hall, hsound, hlast⟩ := ih ((prefix_append _ _).trans hpre)
    have hw : w ∈ order := hpre.subset (by simp)
    have hstep : visitAll edges fuel (done ++ [w]) visited =
        if visited1 w then some (visited1, m)
        else (visit edges fuel w visited1).map fun visited => (visited, some w) := by
      rw [visitAll, foldlM_append]
      rw [visitAll] at hrun
      rw [hrun]
      simp only [foldlM_cons, foldlM_nil, Option.bind_eq_bind, Option.bind_some]
      exact Option.bind_fun_some _
    rw [hstep]
    by_cases hvw : visited1 w = true
    · rw [if_pos hvw]
      refine ⟨visited1, m, rfl, hc1, ?_, ?_, ?_⟩
      · intro x hx
        rcases mem_append.mp hx with hx | hx
        · exact hall x hx
        · rw [mem_singleton.mp hx]
          exact hvw
      · intro x hx
        rcases hsound x hx with hx | ⟨r, hr, hx⟩
        · exact .inl hx
        · exact .inr ⟨r, mem_append_left _ hr, hx⟩
      · rcases hlast with ⟨-, rfl⟩ | ⟨u, rfl, hu, hearlier⟩
        · rw [hclean w hw] at hvw
          cases hvw
        · exact .inr ⟨u, rfl, mem_append_left _ hu, hearlier⟩
    · rw [if_neg hvw]
      obtain ⟨visited2, hrun2, hspec⟩ :=
        visit_spec hnodes (horder w hw) (Bool.eq_false_iff.mpr hvw) (hcard visited1)
      refine ⟨visited2, some w, by rw [hrun2]; rfl, hspec.isClosed hc1, ?_, ?_, ?_⟩
      · intro x hx
        rcases mem_append.mp hx with hx | hx
        · exact hspec.mono x (hall x hx)
        · rw [mem_singleton.mp hx]
          exact hspec.root
      · intro x hx
        rcases hspec.sound x hx with hx | hx
        · rcases hsound x hx with hx | ⟨r, hr, hx⟩
          · exact .inl hx
          · exact .inr ⟨r, mem_append_left _ hr, hx⟩
        · exact .inr ⟨w, by simp, hx⟩
      · exact .inr ⟨w, rfl, by simp, visited1, hc1, Bool.eq_false_iff.mpr hvw, hspec.sound⟩

/-- Edge lists of a graph and of the one with its edges turned round. -/
def Transposed (edges edges' : α → List α) : Prop :=
  ∀ x y, (edges x).count y = (edges' y).count x

variable {edges' : α → List α}

theorem Transposed.edge_iff (h : Transposed edges edges') {x y : α} :
    Edge edges x y ↔ Edge edges' y x := by
  rw [Edge, Edge, ← count_pos_iff, h x y, count_pos_iff]

theorem Transposed.reach (h : Transposed edges edges')
    (hr : ReflTransGen (Edge edges) u v) : ReflTransGen (Edge edges') v u := by
  induction hr with
  | refl => exact .refl
  | tail _ he ih => exact ih.head (h.edge_iff.mp he)

/-- What the last root of a search reaches over the transposed edges reaches it in turn. -/
theorem LastRoot.returns {order : List α} (h : LastRoot edges order u)
    (ht : Transposed edges' edges) (hv : v ∈ order) (hr : ReflTransGen (Edge edges') u v) :
    ReflTransGen (Edge edges') v u := by
  obtain ⟨earlier, hc, hu, hall⟩ := h.marks
  rcases hall v hv with hv | hv
  · rw [hc.reach hv (ht.reach hr)] at hu
    cases hu
  · exact Transposed.reach (fun x y => (ht y x).symm) hv

end XSBEngine.Library.DepthFirst
