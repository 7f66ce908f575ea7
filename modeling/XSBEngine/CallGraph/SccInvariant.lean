import Mathlib
import XSBEngine.CallGraph.Scc

/-!
# Invariant of the component search

The invariant of `xsb_compute_scc` between two steps: the stack, the `low` numbers and the
components assigned so far. A node without edges is numbered but stays on the stack, so the
stack mixes active nodes with finished sinks.
-/

namespace XSBEngine.CallGraph

open Relation

/-- Indices of the nodes an edge of the node with this index leads to. -/
def succs (g : IncrGraph) (hasht : HashTable) (i : Nat) : List Nat :=
  (g.outedges (g.listterm.getD i 0)).map (searchSome hasht)

section Search

variable (succ : Nat → List Nat) (n : Nat)

/-- The edge relation of a successor function. -/
def Edge (x y : Nat) : Prop := y ∈ succ x

/-- Reachability along edges. -/
abbrev Reach : Nat → Nat → Prop := ReflTransGen (Edge succ)

namespace SccState

/-- A node is discovered when it has a number. -/
def Disc (st : SccState) (x : Nat) : Prop := (st.nodes x).dfn ≠ 0

/-- A node is finished when it has a component. -/
def Done (st : SccState) (x : Nat) : Prop := (st.nodes x).component ≠ 0

/-- A node is active while it is discovered and not finished. -/
def Active (st : SccState) (x : Nat) : Prop := st.Disc x ∧ (st.nodes x).component = 0

/-- A node stands below the top of the stack. -/
def OnStack (st : SccState) (x : Nat) : Prop := ∃ p < st.dfnTop, st.dfnStack p = x

end SccState

open SccState

/-- State of the search when the calls for the nodes of `gray` are open. -/
structure SccInv (st : SccState) (gray : List Nat) : Prop where
  component_pos : 0 < st.component
  dfn_lt : ∀ x, st.Disc x → (st.nodes x).dfn < st.dfn
  dfn_pos : 0 < st.dfn
  bound : ∀ x, st.Disc x → x < n
  stk_disc : ∀ p < st.dfnTop, st.Disc (st.dfnStack p)
  stk_pos : ∀ p < st.dfnTop, (st.nodes (st.dfnStack p)).stack = p
  stk_lt : ∀ p q, p < q → q < st.dfnTop →
    (st.nodes (st.dfnStack p)).dfn < (st.nodes (st.dfnStack q)).dfn
  active_stk : ∀ x, st.Active x → st.OnStack x
  done_disc : ∀ x, st.Done x → st.Disc x
  done_lt : ∀ x, (st.nodes x).component < st.component
  done_edge : ∀ x y, st.Done x → Edge succ x y → st.Done y
  black_edge : ∀ x y, st.Disc x → x ∉ gray → Edge succ x y → st.Disc y
  order_reach : ∀ x y, st.Active x → st.OnStack y → (st.nodes x).dfn ≤ (st.nodes y).dfn →
    Reach succ x y
  low_le : ∀ x, st.Active x → (st.nodes x).low ≤ (st.nodes x).dfn
  low_reach : ∀ x, st.Active x →
    ∃ w, st.Active w ∧ (st.nodes w).dfn = (st.nodes x).low ∧ Reach succ x w
  low_lt : ∀ x, st.Active x → x ∉ gray → (st.nodes x).low < (st.nodes x).dfn
  low_edge : ∀ x y, st.Active x → x ∉ gray → Edge succ x y → st.Active y →
    (st.nodes x).low ≤ (st.nodes y).dfn
  gray_active : ∀ x ∈ gray, st.Active x
  done_scc : ∀ x y, st.Done x → st.Done y → succ x ≠ [] → succ y ≠ [] →
    ((st.nodes x).component = (st.nodes y).component ↔ Reach succ x y ∧ Reach succ y x)
  done_stack : ∀ x, st.Done x → st.OnStack x →
    succ x = [] ∧ ∀ y, (st.nodes y).component = (st.nodes x).component → y = x
  done_sink : ∀ x, st.Done x → succ x = [] → ¬ st.OnStack x →
    ∃ y, y ≠ x ∧ (st.nodes y).component = (st.nodes x).component

/-- What a call for `v` leaves alone and what it adds. -/
structure SccFrame (v : Nat) (st st' : SccState) : Prop where
  nodes : ∀ x, st.Disc x → st'.nodes x = st.nodes x
  top : st.dfnTop ≤ st'.dfnTop
  stk : ∀ p < st.dfnTop, st'.dfnStack p = st.dfnStack p
  dfn : st.dfn ≤ st'.dfn
  node : ∀ x, (st'.nodes x).node = (st.nodes x).node
  fresh : ∀ x, st'.Disc x → ¬ st.Disc x → st.dfn ≤ (st'.nodes x).dfn ∧ Reach succ v x

/-- Outcome of a call for the undiscovered node `v`. -/
structure SccPost (gray : List Nat) (v : Nat) (st st' : SccState) : Prop where
  inv : SccInv succ n st' gray
  frame : SccFrame succ v st st'
  disc : st'.Disc v
  dfn_eq : (st'.nodes v).dfn = st.dfn
  low_min : ∀ x, st'.Active x → ¬ st.Disc x →
    st'.Active v ∧ (st'.nodes v).low ≤ (st'.nodes x).low
  done_low : st'.Done v → (st'.nodes v).low = (st'.nodes v).dfn
  stack_sink : succ v = [] → ∀ x, st'.OnStack x ↔ x = v ∨ st.OnStack x
  stack_done : succ v ≠ [] → st'.Done v → ∀ x, st'.OnStack x ↔ st.OnStack x

variable {succ n} {st st' : SccState} {gray : List Nat} {v : Nat}

/-! ### General facts -/

theorem SccState.not_done_of_active {x : Nat} (h : st.Active x) : ¬ st.Done x := fun hd => hd h.2

theorem SccState.active_or_done {x : Nat} (h : st.Disc x) : st.Active x ∨ st.Done x := by
  by_cases hc : (st.nodes x).component = 0
  · exact .inl ⟨h, hc⟩
  · exact .inr hc

section

variable (h : SccInv succ n st gray)
include h

theorem SccInv.onStack_stack {x : Nat} (hx : st.OnStack x) :
    (st.nodes x).stack < st.dfnTop ∧ st.dfnStack (st.nodes x).stack = x := by
  obtain ⟨p, hp, rfl⟩ := hx
  rw [h.stk_pos p hp]
  exact ⟨hp, rfl⟩

/-- Places on the stack are ordered by number. -/
theorem SccInv.stack_le_iff {x y : Nat} (hx : st.OnStack x)
    (hy : st.OnStack y) :
    (st.nodes x).stack ≤ (st.nodes y).stack ↔ (st.nodes x).dfn ≤ (st.nodes y).dfn := by
  obtain ⟨p, hp, rfl⟩ := hx
  obtain ⟨q, hq, rfl⟩ := hy
  rw [h.stk_pos p hp, h.stk_pos q hq]
  rcases Nat.lt_trichotomy p q with hpq | rfl | hpq
  · have := h.stk_lt p q hpq hq
    omega
  · simp
  · have := h.stk_lt q p hpq hp
    omega

theorem SccInv.onStack_disc {x : Nat} (hx : st.OnStack x) :
    st.Disc x := by
  obtain ⟨p, hp, rfl⟩ := hx
  exact h.stk_disc p hp

/-- Nodes reachable from a finished node are finished. -/
theorem SccInv.done_reach {x y : Nat} (hx : st.Done x)
    (hr : Reach succ x y) : st.Done y := by
  induction hr with
  | refl => exact hx
  | tail _ he ih => exact h.done_edge _ _ ih he

/-- Following `low` downwards from an active node ends at `u`, when every active node above
`u` is black. -/
theorem SccInv.reach_down {u : Nat} (hu : st.Active u)
    (hg : ∀ x, st.Active x → (st.nodes u).dfn < (st.nodes x).dfn → x ∉ gray)
    {x : Nat} (hx : st.Active x) : Reach succ x u := by
  induction hd : (st.nodes x).dfn using Nat.strongRecOn generalizing x with
  | ind d ih =>
    by_cases hle : (st.nodes x).dfn ≤ (st.nodes u).dfn
    · exact h.order_reach x u hx (h.active_stk u hu) hle
    · have hlt := h.low_lt x hx (hg x hx (by omega))
      obtain ⟨w, hw, hwl, hr⟩ := h.low_reach x hx
      exact hr.trans (ih (st.nodes w).dfn (by omega) hw rfl)

end

/-- Without an open call no node is active. -/
theorem SccInv.no_active (h : SccInv succ n st []) (x : Nat) : ¬ st.Active x := by
  intro hx
  induction hd : (st.nodes x).dfn using Nat.strongRecOn generalizing x with
  | ind d ih =>
    have hlt := h.low_lt x hx (by simp)
    obtain ⟨w, hw, hwl, -⟩ := h.low_reach x hx
    exact ih (st.nodes w).dfn (by omega) w hw rfl

end Search

end XSBEngine.CallGraph
