import XSBEngine.Library.DepthFirst

/-!
# Post-order

A depth-first search that lists a node when the search from its targets has ended. A node on no
cycle comes after all that it reaches.
-/

namespace XSBEngine.Library.PostOrder

open Function List Relation

variable {α : Type*}

/-- An edge to a node that is not marked. -/
def Fresh (edges : α → List α) (visited : α → Bool) (x y : α) : Prop :=
  y ∈ edges x ∧ visited y = false

/-- The nodes that are reached over nodes that are not marked. -/
def Reach (edges : α → List α) (visited : α → Bool) : α → α → Prop :=
  ReflTransGen (Fresh edges visited)

variable [DecidableEq α]

/-- Mark a node, search from its targets and list the node, the last one first. -/
def visit (edges : α → List α) :
    Nat → α → (α → Bool) × List α → Option ((α → Bool) × List α)
  | 0, _, _ => none
  | fuel + 1, u, s =>
    if s.1 u then some s
    else ((edges u).foldlM (fun s v => visit edges fuel v s) (update s.1 u true, s.2)).map
      fun s => (s.1, u :: s.2)

/-- The marks and the nodes listed by a search, in the order in which they were listed. -/
structure Listed (edges : α → List α) (visited visited' : α → Bool) (l : List α) : Prop where
  nodup : l.Nodup
  marks : ∀ x, visited' x = true ↔ visited x = true ∨ x ∈ l
  fresh : ∀ x ∈ l, visited x = false
  closed : ∀ x ∈ l, ∀ y ∈ edges x, visited' y = true
  order : ∀ x ∈ l, ∀ y ∈ edges x, y ∈ l → ∀ z ∈ l, l.idxOf x ≤ l.idxOf z →
    l.idxOf z ≤ l.idxOf y → Reach edges visited y z

/-- The marks and the nodes listed while the targets of `u` are searched. -/
structure Searching (edges : α → List α) (u : α) (visited visited' : α → Bool) (l : List α) :
    Prop where
  nodup : l.Nodup
  marks : ∀ x, visited' x = true ↔ visited x = true ∨ x = u ∨ x ∈ l
  fresh : ∀ x ∈ l, visited x = false ∧ x ≠ u
  closed : ∀ x ∈ l, ∀ y ∈ edges x, visited' y = true
  order : ∀ x ∈ l, ∀ y ∈ edges x, y ∈ l → ∀ z ∈ l, l.idxOf x ≤ l.idxOf z →
    l.idxOf z ≤ l.idxOf y → Reach edges visited y z
  sound : ∀ x ∈ l, Reach edges visited u x

variable {edges : α → List α} {visited visited1 visited' : α → Bool} {l l' : List α}
  {u v x y z : α} {fuel : Nat} {nodes : Finset α}

omit [DecidableEq α] in
theorem Reach.mono (h : Reach edges visited1 x y)
    (hmono : ∀ x, visited x = true → visited1 x = true) : Reach edges visited x y := by
  induction h with
  | refl => exact .refl
  | tail _ he ih =>
    refine ih.tail ⟨he.1, Bool.eq_false_iff.mpr fun hv => ?_⟩
    have := hmono _ hv
    rw [he.2] at this
    cases this

/-- The place of a node of the first part of a list. -/
theorem idxOf_append_left (l' : List α) (h : x ∈ l) : (l ++ l').idxOf x < l.length := by
  rw [idxOf_append_of_mem h]
  exact idxOf_lt_length_of_mem h

/-- The place of a node of the second part of a list. -/
theorem length_le_idxOf_append (l' : List α) (h : x ∉ l) : l.length ≤ (l ++ l').idxOf x := by
  rw [idxOf_append_of_notMem h]
  exact Nat.le_add_right ..

namespace Searching

/-- A search starts by marking its root. -/
theorem start (edges : α → List α) (u : α) (visited : α → Bool) :
    Searching edges u visited (update visited u true) [] where
  nodup := nodup_nil
  marks x := by
    by_cases hx : x = u
    · simp [hx]
    · simp [hx]
  fresh := by simp
  closed := by simp
  order := by simp
  sound := by simp

section

variable (h : Searching edges u visited visited1 l)
include h

theorem mono (x : α) (hx : visited x = true) :
    visited1 x = true :=
  (h.marks x).mpr (.inl hx)

/-- The search from one target. -/
theorem follow (hv : v ∈ edges u)
    (hl : Listed edges visited1 visited' l')
    (hs : ∀ x ∈ l', visited1 v = false ∧ Reach edges visited1 v x) :
    Searching edges u visited visited' (l ++ l') := by
  have hfresh : ∀ x ∈ l', visited x = false ∧ x ≠ u ∧ x ∉ l := by
    intro x hx
    have hx1 := hl.fresh x hx
    refine ⟨Bool.eq_false_iff.mpr fun hv => ?_, fun hu => ?_, fun hmem => ?_⟩
    · rw [h.mono x hv] at hx1
      cases hx1
    · rw [(h.marks x).mpr (.inr (.inl hu))] at hx1
      cases hx1
    · rw [(h.marks x).mpr (.inr (.inr hmem))] at hx1
      cases hx1
  constructor
  case nodup =>
    refine nodup_append.mpr ⟨h.nodup, hl.nodup, fun x hx y hy hxy => ?_⟩
    exact (hfresh y hy).2.2 (hxy ▸ hx)
  case marks =>
    intro x
    rw [hl.marks, h.marks, mem_append]
    tauto
  case fresh =>
    intro x hx
    rcases mem_append.mp hx with hx | hx
    · exact h.fresh x hx
    · exact ⟨(hfresh x hx).1, (hfresh x hx).2.1⟩
  case closed =>
    intro x hx y hy
    rcases mem_append.mp hx with hx | hx
    · exact (hl.marks y).mpr (.inl (h.closed x hx y hy))
    · exact hl.closed x hx y hy
  case order =>
    intro x hx y hy hyl z hz hxz hzy
    rcases mem_append.mp hx with hx | hx
    · -- What is listed first has edges to marked nodes only, so the whole stretch is in `l`.
      have hyl1 : y ∈ l := by
        rcases mem_append.mp hyl with hyl | hyl
        · exact hyl
        · have hmarked := h.closed x hx y hy
          rw [hl.fresh y hyl] at hmarked
          cases hmarked
      have hzl : z ∈ l := by
        by_contra hzl
        have h1 := length_le_idxOf_append l' hzl
        have h2 := idxOf_append_left l' hyl1
        omega
      rw [idxOf_append_of_mem hx, idxOf_append_of_mem hzl] at hxz
      rw [idxOf_append_of_mem hzl, idxOf_append_of_mem hyl1] at hzy
      exact h.order x hx y hy hyl1 z hzl hxz hzy
    · have hxl := length_le_idxOf_append l' (hfresh x hx).2.2
      have hzl : z ∉ l := by
        intro hzl
        have := idxOf_append_left l' hzl
        omega
      have hyl1 : y ∉ l := by
        intro hyl
        have := idxOf_append_left l' hyl
        omega
      rw [idxOf_append_of_notMem (hfresh x hx).2.2, idxOf_append_of_notMem hzl] at hxz
      rw [idxOf_append_of_notMem hzl, idxOf_append_of_notMem hyl1] at hzy
      have hyl' := (mem_append.mp hyl).resolve_left hyl1
      have hzl' := (mem_append.mp hz).resolve_left hzl
      exact (hl.order x hx y hy hyl' z hzl' (by omega) (by omega)).mono h.mono
  case sound =>
    intro x hx
    rcases mem_append.mp hx with hx | hx
    · exact h.sound x hx
    · obtain ⟨hvv, hreach⟩ := hs x hx
      refine (hreach.mono h.mono).head ⟨hv, Bool.eq_false_iff.mpr fun hmark => ?_⟩
      rw [h.mono v hmark] at hvv
      cases hvv

/-- The root is listed when its targets are searched. -/
theorem finish (hu : visited u = false)
    (htargets : ∀ y ∈ edges u, visited1 y = true) :
    Listed edges visited visited1 (l ++ [u]) := by
  have hul : u ∉ l := fun hmem => (h.fresh u hmem).2 rfl
  have hlast : (l ++ [u]).idxOf u = l.length := by
    rw [idxOf_append_of_notMem hul, idxOf_cons_self, Nat.add_zero]
  constructor
  case nodup =>
    refine nodup_append.mpr ⟨h.nodup, nodup_singleton u, fun x hx y hy hxy => hul ?_⟩
    rw [← mem_singleton.mp hy, ← hxy]
    exact hx
  case marks =>
    intro x
    rw [h.marks, mem_append, mem_singleton, or_comm (a := x = u)]
  case fresh =>
    intro x hx
    rcases mem_append.mp hx with hx | hx
    · exact (h.fresh x hx).1
    · rw [mem_singleton.mp hx]
      exact hu
  case closed =>
    intro x hx y hy
    rcases mem_append.mp hx with hx | hx
    · exact h.closed x hx y hy
    · rw [mem_singleton.mp hx] at hy
      exact htargets y hy
  case order =>
    intro x hx y hy hyl z hz hxz hzy
    by_cases hyu : y = u
    · rw [hyu]
      rcases mem_append.mp hz with hz | hz
      · exact h.sound z hz
      · rw [mem_singleton.mp hz]
        exact .refl
    · have hyl1 : y ∈ l := by simpa [hyu] using hyl
      have hlt := idxOf_append_left [u] hyl1
      have hmem : ∀ w ∈ l ++ [u], (l ++ [u]).idxOf w < l.length → w ∈ l := by
        intro w hw hwlt
        rcases mem_append.mp hw with hw | hw
        · exact hw
        · rw [mem_singleton.mp hw, hlast] at hwlt
          exact absurd hwlt (Nat.lt_irrefl _)
      have hxl := hmem x hx (by omega)
      have hzl := hmem z hz (by omega)
      rw [idxOf_append_of_mem hxl, idxOf_append_of_mem hzl] at hxz
      rw [idxOf_append_of_mem hzl, idxOf_append_of_mem hyl1] at hzy
      exact h.order x hxl y hy hyl1 z hzl hxz hzy

end

end Searching

namespace Listed

theorem mono (h : Listed edges visited visited' l) (x : α) (hx : visited x = true) :
    visited' x = true :=
  (h.marks x).mpr (.inl hx)

/-- Nothing is listed. -/
theorem nil (edges : α → List α) (visited : α → Bool) : Listed edges visited visited [] where
  nodup := nodup_nil
  marks x := by simp
  fresh := by simp
  closed := by simp
  order := by simp

section

variable (h : Listed edges visited visited' l)
include h

/-- What a listed node reaches is listed. -/
theorem reach (hx : x ∈ l) (hr : Reach edges visited x y) :
    y ∈ l := by
  induction hr with
  | refl => exact hx
  | tail _ he ih =>
    rcases (h.marks _).mp (h.closed _ ih _ he.1) with hv | hmem
    · rw [he.2] at hv
      cases hv
    · exact hmem

/-- A node on no cycle comes after all that it reaches. -/
theorem idxOf_lt (hx : x ∈ l)
    (hcycle : ¬ TransGen (Fresh edges visited) x x)
    (hr : TransGen (Fresh edges visited) x y) : l.idxOf y < l.idxOf x := by
  have hplace : ∀ w, w ∈ l → TransGen (Fresh edges visited) x w → ∀ v ∈ l,
      Fresh edges visited v w → l.idxOf v ≤ l.idxOf x → l.idxOf w < l.idxOf x := by
    intro w hw hxw v hv hvw hle
    by_contra hlt
    exact hcycle (hxw.trans_left (h.order v hv w hvw.1 hw x hx hle (by omega)))
  induction hr with
  | single he => exact hplace _ (h.reach hx (.single he)) (.single he) x hx he (Nat.le_refl _)
  | @tail v w hv he ih =>
    have hvl := h.reach hx hv.to_reflTransGen
    exact hplace w (h.reach hvl (.single he)) (hv.tail he) v hvl he (Nat.le_of_lt ih)

/-- In the list itself. -/
theorem precedes (hx : x ∈ l)
    (hcycle : ¬ TransGen (Fresh edges visited) x x)
    (hr : TransGen (Fresh edges visited) x y) : [y, x].Sublist l := by
  have hlt := h.idxOf_lt hx hcycle hr
  have hy : y ∈ l.take (l.idxOf x) :=
    mem_take_iff_idxOf_lt (h.reach hx hr.to_reflTransGen) |>.mpr hlt
  have hdrop : l.drop (l.idxOf x) = x :: l.drop (l.idxOf x + 1) := by
    rw [drop_eq_getElem_cons (idxOf_lt_length_of_mem hx), getElem_idxOf]
  rw [← take_append_drop (l.idxOf x) l, hdrop]
  exact (singleton_sublist.mpr hy).append ((nil_sublist _).cons_cons x)

end

end Listed

/-- The searches from some targets, each of which ends. -/
theorem visit_targets {n : Nat} {targets : List α}
    (hsearch : ∀ v ∈ edges u, ∀ visited1 l, (∀ x, visited x = true → visited1 x = true) →
      visited1 u = true → ∃ visited' l', visit edges n v (visited1, l) =
        some (visited', l'.reverse ++ l) ∧ Listed edges visited1 visited' l' ∧
        visited' v = true ∧ ∀ x ∈ l', visited1 v = false ∧ Reach edges visited1 v x)
    (hsub : ∀ v ∈ targets, v ∈ edges u) (h : Searching edges u visited visited1 l)
    (base : List α) : ∃ visited' l', targets.foldlM (fun s v => visit edges n v s)
        (visited1, l.reverse ++ base) = some (visited', l'.reverse ++ base) ∧
      Searching edges u visited visited' l' ∧ (∀ x, visited1 x = true → visited' x = true) ∧
      ∀ v ∈ targets, visited' v = true := by
  induction targets generalizing visited1 l with
  | nil => exact ⟨visited1, l, rfl, h, fun _ hx => hx, by simp⟩
  | cons v rest ih =>
    obtain ⟨visited2, l2, hrun2, hl2, hv2, hs2⟩ := hsearch v (hsub v mem_cons_self) visited1
      (l.reverse ++ base) h.mono ((h.marks u).mpr (.inr (.inl rfl)))
    obtain ⟨visited', l', hrun, hsearching, hmono, htargets⟩ := ih
      (fun w hw => hsub w (mem_cons_of_mem v hw))
      (h.follow (hsub v mem_cons_self) hl2 hs2)
    refine ⟨visited', l', ?_, hsearching, fun x hx => hmono x (hl2.mono x hx), ?_⟩
    · rw [foldlM_cons, hrun2, ← append_assoc, ← reverse_append]
      exact hrun
    · exact forall_mem_cons.mpr ⟨hmono v hv2, htargets⟩

/-- A search ends when there are fewer unmarked nodes than fuel. -/
theorem visit_spec (hnodes : ∀ x ∈ nodes, ∀ y ∈ edges x, y ∈ nodes) (hu : u ∈ nodes)
    (hfuel : (DepthFirst.unvisited nodes visited).card < fuel) (base : List α) :
    ∃ visited' l, visit edges fuel u (visited, base) = some (visited', l.reverse ++ base) ∧
      Listed edges visited visited' l ∧ visited' u = true ∧
      ∀ x ∈ l, visited u = false ∧ Reach edges visited u x := by
  induction fuel generalizing u visited base with
  | zero => exact absurd hfuel (Nat.not_lt_zero _)
  | succ fuel ih =>
    by_cases hv : visited u = true
    · exact ⟨visited, [], by rw [visit, if_pos hv]; rfl, Listed.nil edges visited, hv, by simp⟩
    · have hv' := Bool.eq_false_iff.mpr hv
      obtain ⟨visited', l, hrun, hs, hmono, htargets⟩ := visit_targets (n := fuel)
        (fun v hve visited1 l1 hmono hroot => by
          have hlt := DepthFirst.unvisited_card_lt hmono hu hv' hroot
          exact ih (hnodes u hu v hve) (by omega) l1)
        (fun v hve => hve) (Searching.start edges u visited) base
      refine ⟨visited', l ++ [u], ?_, hs.finish hv' htargets,
        hmono u (update_self ..), fun x hx => ⟨hv', ?_⟩⟩
      · rw [visit, if_neg hv]
        rw [reverse_nil, nil_append] at hrun
        rw [hrun, reverse_append]
        rfl
      · rcases mem_append.mp hx with hx | hx
        · exact hs.sound x hx
        · rw [mem_singleton.mp hx]
          exact .refl

end XSBEngine.Library.PostOrder
