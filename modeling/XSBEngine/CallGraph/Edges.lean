import Mathlib
import XSBEngine.Library.System

/-!
# Edges of the incremental dependency graph

The two representations of the edges and the operations on them,
`XSB/emu/call_graph_xsb.c:205–230, 271–459, 537–573`, with the step in which the node of a call that
is evaluated again takes over the edges of the old one, `XSB/emu/slginsts_xsb_i.h:358–376`.
-/

namespace XSBEngine.CallGraph

open Function List Option

/-- `OUTEDGE`: the node, and the hash table of the nodes that depend on it. A node is given by its
`id`, which is its key. -/
structure Outedge where
  callnode : Nat
  hasht : List Nat

/-- The fields of `CALL_NODE` that hold the edges. The list `inedges` is one of pointers to
`OUTEDGE` records. -/
structure CallNode where
  inedges : List Nat
  outedges : Nat
  outcount : Nat

/-- The nodes, the records of out-edges and `current_call_edge_count_gl`. -/
structure IncrDepGraph where
  node : Nat → CallNode
  outedge : Nat → Outedge
  edgeCount : Int

/-- How many values the bit field `outcount` has. -/
def outcountRange : Nat := 2 ^ 14

namespace IncrDepGraph

/-- The table of a node. -/
def table (g : IncrDepGraph) (cn : Nat) : List Nat := (g.outedge (g.node cn).outedges).hasht

/-- `makecallnode` and `initoutedges`. -/
def newCallNode (g : IncrDepGraph) (cn out : Nat) : IncrDepGraph :=
  { g with node := update g.node cn ⟨[], out, 0⟩,
           outedge := update g.outedge out ⟨cn, []⟩ }

/-- The list of the in-edges of a node is changed. -/
def setInedges (g : IncrDepGraph) (cn : Nat) (l : List Nat) : IncrDepGraph :=
  { g with node := update g.node cn { g.node cn with inedges := l } }

/-- The count of the out-edges of a node is changed. -/
def setOutcount (g : IncrDepGraph) (cn n : Nat) : IncrDepGraph :=
  { g with node := update g.node cn { g.node cn with outcount := n % outcountRange } }

/-- The table of a record is changed. -/
def setHasht (g : IncrDepGraph) (out : Nat) (t : List Nat) : IncrDepGraph :=
  { g with outedge := update g.outedge out { g.outedge out with hasht := t } }

/-- The count of the edges is changed. -/
def addEdgeCount (g : IncrDepGraph) (n : Int) : IncrDepGraph :=
  { g with edgeCount := g.edgeCount + n }

/-- `addcalledge`. -/
def addcalledge (g : IncrDepGraph) (fromcn tocn : Nat) : IncrDepGraph :=
  if tocn ∈ g.table fromcn then g
  else
    let out := (g.node fromcn).outedges
    let g := g.setHasht out ((g.outedge out).hasht ++ [tocn])
    let g := g.setInedges tocn (out :: (g.node tocn).inedges)
    let g := g.addEdgeCount 1
    g.setOutcount fromcn ((g.node fromcn).outcount + 1)

/-- The node of a call takes over the out-edges of its old node. -/
def takeOver (g : IncrDepGraph) (cn old : Nat) : IncrDepGraph :=
  let out := (g.node old).outedges
  { g with node := update g.node cn ⟨[], out, (g.node old).outcount⟩,
           outedge := update g.outedge out { g.outedge out with callnode := cn } }

/-- A node is taken out of a table, and the counts go down. -/
def dropOutedge (g : IncrDepGraph) (out key : Nat) : IncrDepGraph :=
  let g := g.setHasht out ((g.outedge out).hasht.erase key)
  let source := (g.outedge out).callnode
  (g.setOutcount source ((g.node source).outcount + (outcountRange - 1))).addEdgeCount (-1)

/-- `remove_some` with the changes of the counts. The key has to be in the table. -/
def removeOutedge (g : IncrDepGraph) (out key : Nat) : Option IncrDepGraph :=
  if key ∈ (g.outedge out).hasht then some (g.dropOutedge out key) else none

/-- The loop over the in-edges of a node, with or without those from the node itself. -/
def removeInedges (g : IncrDepGraph) (skipOwn : Bool) (cn : Nat) : Option IncrDepGraph :=
  (g.node cn).inedges.foldlM (fun g out =>
    if skipOwn ∧ (g.outedge out).callnode = cn then some g else g.removeOutedge out cn) g

/-- `delete_dependency_edges`. The list of the node is left as it is. -/
def deleteDependencyEdges (g : IncrDepGraph) (callnode : Nat) : Option IncrDepGraph :=
  g.removeInedges true callnode

/-- `deallocate_previous_call`, before the node is freed. -/
def deallocatePreviousCall (g : IncrDepGraph) (callnode : Nat) : Option IncrDepGraph :=
  g.removeInedges false callnode

/-- An out-edge is taken out of the list of its target. -/
def removeInedge (g : IncrDepGraph) (callnode cnItr : Nat) : IncrDepGraph :=
  let g := if cnItr ≠ callnode then
      g.setInedges cnItr
        ((g.node cnItr).inedges.eraseP fun out => (g.outedge out).callnode = callnode)
    else g
  g.addEdgeCount (-1)

/-- `deleteoutedges`. The table is left as it is. -/
def deleteoutedges (g : IncrDepGraph) (callnode : Nat) : IncrDepGraph :=
  let t := g.table callnode
  let g := t.foldl (fun g cnItr => g.removeInedge callnode cnItr) g
  if t = [] then g else g.setOutcount callnode 0

/-- `deletecallnode`, before the node is freed. -/
def deletecallnode (g : IncrDepGraph) (callnode : Nat) : Option IncrDepGraph :=
  if (g.node callnode).outcount = 0 then some g else none

/-- A node is detached, `XSB/emu/tr_utils.c:4918–4920`. -/
def detachCallNode (g : IncrDepGraph) (callnode : Nat) : Option IncrDepGraph := do
  let g ← (g.deleteoutedges callnode).deleteDependencyEdges callnode
  g.deletecallnode callnode

end IncrDepGraph

/-! ### Fields -/

namespace IncrDepGraph

variable (g : IncrDepGraph) (cn out n x : Nat) (l : List Nat) (z : Int)

@[simp] theorem node_setInedges_self : (g.setInedges cn l).node cn =
    { g.node cn with inedges := l } :=
  update_self ..

theorem node_setInedges_of_ne (h : x ≠ cn) : (g.setInedges cn l).node x = g.node x :=
  update_of_ne h ..

@[simp] theorem outedges_setInedges :
    ((g.setInedges cn l).node x).outedges = (g.node x).outedges := by
  by_cases hx : x = cn
  · simp [setInedges, hx]
  · simp [setInedges, hx]

@[simp] theorem outcount_setInedges :
    ((g.setInedges cn l).node x).outcount = (g.node x).outcount := by
  by_cases hx : x = cn
  · simp [setInedges, hx]
  · simp [setInedges, hx]

@[simp] theorem inedges_setOutcount :
    ((g.setOutcount cn n).node x).inedges = (g.node x).inedges := by
  by_cases hx : x = cn
  · simp [setOutcount, hx]
  · simp [setOutcount, hx]

@[simp] theorem outedges_setOutcount :
    ((g.setOutcount cn n).node x).outedges = (g.node x).outedges := by
  by_cases hx : x = cn
  · simp [setOutcount, hx]
  · simp [setOutcount, hx]

theorem outcount_setOutcount : ((g.setOutcount cn n).node x).outcount =
    if x = cn then n % outcountRange else (g.node x).outcount := by
  by_cases hx : x = cn
  · simp [setOutcount, hx]
  · simp [setOutcount, hx]

theorem node_setOutcount_of_ne (h : x ≠ cn) : (g.setOutcount cn n).node x = g.node x :=
  update_of_ne h ..

@[simp] theorem callnode_setHasht :
    ((g.setHasht out l).outedge x).callnode = (g.outedge x).callnode := by
  by_cases hx : x = out
  · simp [setHasht, hx]
  · simp [setHasht, hx]

theorem hasht_setHasht : ((g.setHasht out l).outedge x).hasht =
    if x = out then l else (g.outedge x).hasht := by
  by_cases hx : x = out
  · simp [setHasht, hx]
  · simp [setHasht, hx]

@[simp] theorem node_setHasht : (g.setHasht out l).node = g.node := rfl

@[simp] theorem node_addEdgeCount : (g.addEdgeCount z).node = g.node := rfl

@[simp] theorem outedge_addEdgeCount : (g.addEdgeCount z).outedge = g.outedge := rfl

@[simp] theorem outedge_setInedges : (g.setInedges cn l).outedge = g.outedge := rfl

@[simp] theorem outedge_setOutcount : (g.setOutcount cn n).outedge = g.outedge := rfl

@[simp] theorem edgeCount_setInedges : (g.setInedges cn l).edgeCount = g.edgeCount := rfl

@[simp] theorem edgeCount_setOutcount : (g.setOutcount cn n).edgeCount = g.edgeCount := rfl

@[simp] theorem edgeCount_setHasht : (g.setHasht out l).edgeCount = g.edgeCount := rfl

@[simp] theorem edgeCount_addEdgeCount : (g.addEdgeCount z).edgeCount = g.edgeCount + z := rfl

theorem outedge_dropOutedge_of_ne (h : x ≠ out) :
    (g.dropOutedge out cn).outedge x = g.outedge x :=
  update_of_ne h ..

theorem outedge_removeInedge : (g.removeInedge cn x).outedge = g.outedge := by
  rw [removeInedge]
  split
  next => rfl
  next => rfl

theorem node_dropOutedge_of_ne (h : x ≠ (g.outedge out).callnode) :
    (g.dropOutedge out cn).node x = g.node x := by
  rw [dropOutedge, node_addEdgeCount, node_setOutcount_of_ne _ _ _ _ (by simpa using h),
    node_setHasht]

theorem outedges_addcalledge (tocn : Nat) :
    ((g.addcalledge cn tocn).node x).outedges = (g.node x).outedges := by
  unfold addcalledge
  split
  next => rfl
  next => simp

/-- The loop over the in-edges of a node takes nothing but that node out of the tables. -/
theorem removeInedges_frame {skipOwn : Bool} {g g' : IncrDepGraph} {cn : Nat}
    (hrun : g.removeInedges skipOwn cn = some g') :
    (∀ x, (g'.node x).outedges = (g.node x).outedges) ∧
      ∀ o x, x ≠ cn → (x ∈ (g'.outedge o).hasht ↔ x ∈ (g.outedge o).hasht) := by
  rw [removeInedges] at hrun
  generalize (g.node cn).inedges = l at hrun
  induction l generalizing g with
  | nil =>
    cases hrun
    exact ⟨fun _ => rfl, fun _ _ _ => Iff.rfl⟩
  | cons out l ih =>
    rw [foldlM_cons] at hrun
    obtain ⟨g1, hstep, hrun⟩ := bind_eq_some_iff.mp hrun
    obtain ⟨houts, hmem⟩ := ih hrun
    split at hstep
    next =>
      cases hstep
      exact ⟨houts, hmem⟩
    next =>
      rw [removeOutedge] at hstep
      split at hstep
      next =>
        cases hstep
        constructor
        · intro x
          rw [houts]
          simp [dropOutedge]
        · intro o x hx
          rw [hmem o x hx, dropOutedge, outedge_addEdgeCount, outedge_setOutcount, hasht_setHasht]
          split
          next ho => rw [mem_erase_of_ne hx, ho]
          next => rfl
      next => cases hstep

end IncrDepGraph

/-! ### The invariant -/

/-- The two representations of the edges agree. The nodes in use are those that are `current`, and
old ones that wait for `deallocate_previous_call`. -/
structure EdgesOK (g : IncrDepGraph) (current live : Finset Nat) : Prop where
  sub : current ⊆ live
  owner : ∀ a ∈ current, (g.outedge (g.node a).outedges).callnode = a
  inedges : ∀ b ∈ live, ∀ o ∈ (g.node b).inedges, ∃ a ∈ current, o = (g.node a).outedges
  table : ∀ a ∈ current, ∀ b ∈ g.table a, b ∈ live
  nodup : ∀ a ∈ current, (g.table a).Nodup
  symmetric : ∀ a ∈ current, ∀ b ∈ live,
    (g.node b).inedges.count (g.node a).outedges = (g.table a).count b
  outcount : ∀ a ∈ current, (g.node a).outcount = (g.table a).length % outcountRange
  edgeCount : g.edgeCount = ∑ a ∈ current, ((g.table a).length : Int)

variable {g g' h : IncrDepGraph} {current live : Finset Nat} {a b cn old out o : Nat} {l : List Nat}

namespace EdgesOK

section

variable (hok : EdgesOK g current live)
include hok

/-- Two nodes have different records. -/
theorem eq_of_outedges (ha : a ∈ current) (hb : b ∈ current)
    (heq : (g.node a).outedges = (g.node b).outedges) : a = b := by
  rw [← hok.owner a ha, heq, hok.owner b hb]

theorem mem_table_iff (ha : a ∈ current) (hb : b ∈ live) :
    b ∈ g.table a ↔ (g.node a).outedges ∈ (g.node b).inedges := by
  rw [← count_pos_iff, ← hok.symmetric a ha b hb, count_pos_iff]

theorem inedges_nodup (hb : b ∈ live) : (g.node b).inedges.Nodup := by
  apply nodup_iff_count_le_one.mpr
  intro o
  by_cases ho : o ∈ (g.node b).inedges
  · obtain ⟨a, ha, rfl⟩ := hok.inedges b hb o ho
    rw [hok.symmetric a ha b hb]
    exact nodup_iff_count_le_one.mp (hok.nodup a ha) b
  · rw [count_eq_zero_of_not_mem ho]
    exact Nat.zero_le 1

/-- The invariant is about the nodes in use and their records only. -/
theorem congr (hnode : ∀ b ∈ live, g'.node b = g.node b)
    (hout : ∀ a ∈ current, g'.outedge (g.node a).outedges = g.outedge (g.node a).outedges)
    (hcount : g'.edgeCount = g.edgeCount) : EdgesOK g' current live := by
  have hcur : ∀ a ∈ current, g'.node a = g.node a := fun a ha => hnode a (hok.sub ha)
  have htable : ∀ a ∈ current, g'.table a = g.table a := by
    intro a ha
    rw [IncrDepGraph.table, hcur a ha, hout a ha]
    rfl
  constructor
  case sub => exact hok.sub
  case owner =>
    intro a ha
    rw [hcur a ha, hout a ha]
    exact hok.owner a ha
  case inedges =>
    intro b hb o ho
    rw [hnode b hb] at ho
    obtain ⟨a, ha, rfl⟩ := hok.inedges b hb o ho
    exact ⟨a, ha, by rw [hcur a ha]⟩
  case table =>
    intro a ha
    rw [htable a ha]
    exact hok.table a ha
  case nodup =>
    intro a ha
    rw [htable a ha]
    exact hok.nodup a ha
  case symmetric =>
    intro a ha b hb
    rw [hnode b hb, hcur a ha, htable a ha]
    exact hok.symmetric a ha b hb
  case outcount =>
    intro a ha
    rw [hcur a ha, htable a ha]
    exact hok.outcount a ha
  case edgeCount =>
    rw [hcount, hok.edgeCount]
    apply Finset.sum_congr rfl
    intro a ha
    rw [htable a ha]

end

end EdgesOK

/-! ### One edge more or less -/

/-- What changes when a table, a list of in-edges and the counts are changed by one edge. -/
structure EdgeChange (g g' : IncrDepGraph) (a b : Nat) (t l : List Nat) : Prop where
  outedges : ∀ x, (g'.node x).outedges = (g.node x).outedges
  inedges : (g'.node b).inedges = l
  inedges_ne : ∀ x, x ≠ b → (g'.node x).inedges = (g.node x).inedges
  hasht : (g'.outedge (g.node a).outedges).hasht = t
  hasht_ne : ∀ o, o ≠ (g.node a).outedges → (g'.outedge o).hasht = (g.outedge o).hasht
  callnode : ∀ o, (g'.outedge o).callnode = (g.outedge o).callnode
  outcount : (g'.node a).outcount % outcountRange = t.length % outcountRange
  outcount_lt : (g'.node a).outcount < outcountRange
  outcount_ne : ∀ x, x ≠ a → (g'.node x).outcount = (g.node x).outcount
  edgeCount : g'.edgeCount = g.edgeCount + (t.length - (g.table a).length : Int)

namespace EdgesOK

variable {t : List Nat}

section

variable (hok : EdgesOK g current live)
include hok

/-- The invariant is kept if the table and the list agree again. -/
theorem change (ha : a ∈ current) (hb : b ∈ live)
    (hchange : EdgeChange g g' a b t l) (ht : ∀ x ∈ t, x ∈ live) (hnodup : t.Nodup)
    (hl : ∀ o ∈ l, o = (g.node a).outedges ∨ o ∈ (g.node b).inedges)
    (hcount : l.count (g.node a).outedges = t.count b)
    (hother : ∀ o, o ≠ (g.node a).outedges → l.count o = (g.node b).inedges.count o)
    (htother : ∀ x, x ≠ b → t.count x = (g.table a).count x) : EdgesOK g' current live := by
  have htable : g'.table a = t := by
    rw [IncrDepGraph.table, hchange.outedges, hchange.hasht]
  have htable_ne : ∀ x ∈ current, x ≠ a → g'.table x = g.table x := by
    intro x hx hxa
    rw [IncrDepGraph.table, hchange.outedges,
      hchange.hasht_ne _ fun heq => hxa (hok.eq_of_outedges hx ha heq)]
    rfl
  constructor
  case sub => exact hok.sub
  case owner =>
    intro x hx
    rw [hchange.outedges, hchange.callnode]
    exact hok.owner x hx
  case inedges =>
    intro x hx o ho
    have ho' : o = (g.node a).outedges ∨ o ∈ (g.node x).inedges := by
      by_cases hxb : x = b
      · subst hxb
        rw [hchange.inedges] at ho
        exact hl o ho
      · rw [hchange.inedges_ne x hxb] at ho
        exact Or.inr ho
    rcases ho' with rfl | ho'
    · exact ⟨a, ha, (hchange.outedges a).symm⟩
    · obtain ⟨y, hy, rfl⟩ := hok.inedges x hx o ho'
      exact ⟨y, hy, (hchange.outedges y).symm⟩
  case table =>
    intro x hx y hy
    by_cases hxa : x = a
    · rw [hxa, htable] at hy
      exact ht y hy
    · rw [htable_ne x hx hxa] at hy
      exact hok.table x hx y hy
  case nodup =>
    intro x hx
    by_cases hxa : x = a
    · rw [hxa, htable]
      exact hnodup
    · rw [htable_ne x hx hxa]
      exact hok.nodup x hx
  case symmetric =>
    intro x hx y hy
    rw [hchange.outedges]
    by_cases hyb : y = b
    · subst hyb
      rw [hchange.inedges]
      by_cases hxa : x = a
      · rw [hxa, htable, hcount]
      · rw [htable_ne x hx hxa, hother _ fun heq => hxa (hok.eq_of_outedges hx ha heq)]
        exact hok.symmetric x hx y hy
    · rw [hchange.inedges_ne y hyb, hok.symmetric x hx y hy]
      by_cases hxa : x = a
      · rw [hxa, htable, htother y hyb]
      · rw [htable_ne x hx hxa]
  case outcount =>
    intro x hx
    by_cases hxa : x = a
    · rw [hxa, htable, ← hchange.outcount, Nat.mod_eq_of_lt hchange.outcount_lt]
    · rw [hchange.outcount_ne x hxa, htable_ne x hx hxa]
      exact hok.outcount x hx
  case edgeCount =>
    rw [hchange.edgeCount, hok.edgeCount, ← Finset.add_sum_erase current _ ha,
      ← Finset.add_sum_erase current (fun a => ((g'.table a).length : Int)) ha, htable]
    have hrest : ∑ x ∈ current.erase a, ((g'.table x).length : Int) =
        ∑ x ∈ current.erase a, ((g.table x).length : Int) := by
      apply Finset.sum_congr rfl
      intro x hx
      rw [htable_ne x (Finset.mem_of_mem_erase hx) (Finset.ne_of_mem_erase hx)]
    rw [hrest]
    omega

/-- `addcalledge` keeps the invariant. -/
theorem addcalledge (ha : a ∈ current) (hb : b ∈ live) :
    EdgesOK (g.addcalledge a b) current live := by
  unfold IncrDepGraph.addcalledge
  split
  next => exact hok
  next hnew =>
    have hcount : (g.table a).count b = 0 := count_eq_zero_of_not_mem hnew
    apply hok.change (t := g.table a ++ [b])
      (l := (g.node a).outedges :: (g.node b).inedges) ha hb
    · constructor
      case outedges => simp
      case inedges => simp
      case inedges_ne =>
        intro x hx
        simp [IncrDepGraph.node_setInedges_of_ne _ _ _ _ hx]
      case hasht => simp [IncrDepGraph.hasht_setHasht, IncrDepGraph.table]
      case hasht_ne =>
        intro o ho
        simp [IncrDepGraph.hasht_setHasht, ho]
      case callnode => simp
      case outcount =>
        simp only [IncrDepGraph.outcount_setOutcount, if_true, IncrDepGraph.node_addEdgeCount,
          IncrDepGraph.outcount_setInedges, IncrDepGraph.node_setHasht, hok.outcount a ha,
          length_append, length_singleton, Nat.mod_mod, Nat.mod_add_mod]
      case outcount_lt =>
        simp only [IncrDepGraph.outcount_setOutcount, if_true]
        exact Nat.mod_lt _ (by decide)
      case outcount_ne =>
        intro x hx
        simp [IncrDepGraph.outcount_setOutcount, hx]
      case edgeCount =>
        simp only [IncrDepGraph.edgeCount_setOutcount, IncrDepGraph.edgeCount_addEdgeCount,
          IncrDepGraph.edgeCount_setInedges, IncrDepGraph.edgeCount_setHasht, length_append,
          length_singleton]
        omega
    · intro x hx
      rcases mem_append.mp hx with hx | hx
      · exact hok.table a ha x hx
      · rw [mem_singleton.mp hx]
        exact hb
    · exact nodup_append.mpr ⟨hok.nodup a ha, nodup_singleton b, fun x hx y hy => by
        rw [mem_singleton.mp hy]
        exact ne_of_mem_of_not_mem hx hnew⟩
    · exact fun o ho => mem_cons.mp ho
    · rw [count_cons_self, hok.symmetric a ha b hb, count_append,
        count_singleton_self]
    · intro o ho
      rw [count_cons_of_ne (Ne.symm ho)]
    · intro x hx
      rw [count_append, count_singleton, if_neg (by simpa using Ne.symm hx), Nat.add_zero]

theorem mem_table_addcalledge (ha : a ∈ current) {x y : Nat}
    (hx : x ∈ current) :
    y ∈ (g.addcalledge a b).table x ↔ y ∈ g.table x ∨ x = a ∧ y = b := by
  unfold IncrDepGraph.addcalledge
  split
  next hmem =>
    constructor
    · exact Or.inl
    · rintro (hy | ⟨rfl, rfl⟩)
      · exact hy
      · exact hmem
  next =>
    simp only [IncrDepGraph.table, IncrDepGraph.outedge_setOutcount,
      IncrDepGraph.outedges_setOutcount, IncrDepGraph.outedge_addEdgeCount,
      IncrDepGraph.node_addEdgeCount, IncrDepGraph.outedge_setInedges,
      IncrDepGraph.outedges_setInedges, IncrDepGraph.node_setHasht, IncrDepGraph.hasht_setHasht]
    by_cases hxa : x = a
    · simp [hxa]
    · rw [if_neg fun heq => hxa (hok.eq_of_outedges hx ha heq)]
      simp [hxa]

/-- One edge is removed from both representations. -/
theorem dropOutedge (ha : a ∈ current) (hb : b ∈ live)
    (hmem : b ∈ g.table a) :
    EdgesOK ((g.dropOutedge (g.node a).outedges b).setInedges b
      ((g.node b).inedges.erase (g.node a).outedges)) current live := by
  have howner := hok.owner a ha
  have hlength : ((g.table a).erase b).length + 1 = (g.table a).length := by
    rw [length_erase_of_mem hmem]
    exact Nat.succ_pred_eq_of_pos (length_pos_of_mem hmem)
  apply hok.change (t := (g.table a).erase b)
    (l := (g.node b).inedges.erase (g.node a).outedges) ha hb
  · constructor
    case outedges => simp [IncrDepGraph.dropOutedge]
    case inedges => simp
    case inedges_ne =>
      intro x hx
      simp [IncrDepGraph.dropOutedge, IncrDepGraph.node_setInedges_of_ne _ _ _ _ hx]
    case hasht => simp [IncrDepGraph.dropOutedge, IncrDepGraph.hasht_setHasht, IncrDepGraph.table]
    case hasht_ne =>
      intro o ho
      simp [IncrDepGraph.dropOutedge, IncrDepGraph.hasht_setHasht, ho]
    case callnode => simp [IncrDepGraph.dropOutedge]
    case outcount =>
      simp only [IncrDepGraph.dropOutedge, IncrDepGraph.outcount_setInedges,
        IncrDepGraph.node_addEdgeCount, IncrDepGraph.callnode_setHasht, howner,
        IncrDepGraph.outcount_setOutcount, if_true, IncrDepGraph.node_setHasht,
        hok.outcount a ha, Nat.mod_mod]
      unfold outcountRange
      omega
    case outcount_lt =>
      simp only [IncrDepGraph.dropOutedge, IncrDepGraph.outcount_setInedges,
        IncrDepGraph.node_addEdgeCount, IncrDepGraph.callnode_setHasht, howner,
        IncrDepGraph.outcount_setOutcount, if_true]
      exact Nat.mod_lt _ (by decide)
    case outcount_ne =>
      intro x hx
      simp [IncrDepGraph.dropOutedge, IncrDepGraph.outcount_setOutcount, howner, hx]
    case edgeCount =>
      simp only [IncrDepGraph.dropOutedge, IncrDepGraph.edgeCount_setInedges,
        IncrDepGraph.edgeCount_addEdgeCount, IncrDepGraph.edgeCount_setOutcount,
        IncrDepGraph.edgeCount_setHasht]
      omega
  · exact fun x hx => hok.table a ha x (mem_of_mem_erase hx)
  · exact (hok.nodup a ha).erase b
  · exact fun o ho => Or.inr (mem_of_mem_erase ho)
  · rw [count_erase_self, count_erase_self, hok.symmetric a ha b hb]
  · intro o ho
    exact count_erase_of_ne ho
  · intro x hx
    exact count_erase_of_ne hx

end

end EdgesOK

/-! ### The loops over the in-edges -/

/-- Two graphs that agree but for one node and, if it has one, its record. -/
structure AgreeExcept (g h : IncrDepGraph) (cn : Nat) (own : Option Nat) : Prop where
  node : ∀ x, x ≠ cn → h.node x = g.node x
  outedge : ∀ o, own ≠ some o → h.outedge o = g.outedge o
  edgeCount : h.edgeCount = g.edgeCount

/-- The same edge is dropped in both graphs. -/
theorem AgreeExcept.dropOutedge {own : Option Nat} (hagree : AgreeExcept g h cn own)
    (hout : h.outedge out = g.outedge out) (hsource : (g.outedge out).callnode = a) (hne : a ≠ cn) :
    AgreeExcept (g.dropOutedge out cn) ((h.dropOutedge out cn).setInedges cn l) cn own := by
  constructor
  case node =>
    intro x hx
    rw [IncrDepGraph.node_setInedges_of_ne _ _ _ _ hx]
    simp only [IncrDepGraph.dropOutedge, IncrDepGraph.node_addEdgeCount,
      IncrDepGraph.callnode_setHasht, hout, hsource, IncrDepGraph.node_setHasht,
      hagree.node a hne]
    by_cases hxa : x = a
    · simp [IncrDepGraph.setOutcount, hxa, hagree.node a hne]
    · rw [IncrDepGraph.node_setOutcount_of_ne _ _ _ _ hxa,
        IncrDepGraph.node_setOutcount_of_ne _ _ _ _ hxa]
      exact hagree.node x hx
  case outedge =>
    intro o ho
    by_cases hoo : o = out
    · simp [IncrDepGraph.dropOutedge, IncrDepGraph.setHasht, hoo, hout]
    · simp only [IncrDepGraph.outedge_setInedges]
      rw [h.outedge_dropOutedge_of_ne _ _ _ hoo, g.outedge_dropOutedge_of_ne _ _ _ hoo]
      exact hagree.outedge o ho
  case edgeCount =>
    simp [IncrDepGraph.dropOutedge, hagree.edgeCount]

/-- Two conditions that agree on a list erase the same element. -/
private theorem eraseP_congr {α : Type*} {p q : α → Bool} {l : List α}
    (h : ∀ x ∈ l, p x = q x) : l.eraseP p = l.eraseP q := by
  induction l with
  | nil => rfl
  | cons x l ih =>
    rw [eraseP_cons, eraseP_cons, h x mem_cons_self,
      ih fun y hy => h y (mem_cons_of_mem x hy)]

/-- An edge is taken out of the list of its target, unless that is the node itself. -/
theorem AgreeExcept.removeInedge (hagree : AgreeExcept g h a (some (h.node a).outedges))
    (hok : EdgesOK h current live) (ha : a ∈ current) (hb : b ∈ live)
    (hcallnode : (g.outedge (h.node a).outedges).callnode = a) :
    AgreeExcept (g.removeInedge a b) ((h.dropOutedge (h.node a).outedges b).setInedges b
      ((h.node b).inedges.erase (h.node a).outedges)) a (some (h.node a).outedges) := by
  have herase : b ≠ a → (g.node b).inedges.eraseP (fun out => (g.outedge out).callnode = a) =
      (h.node b).inedges.erase (h.node a).outedges := by
    intro hba
    rw [erase_eq_eraseP, ← hagree.node b hba]
    apply eraseP_congr
    intro o ho
    obtain ⟨x, hx, rfl⟩ := hok.inedges b hb o ho
    by_cases hxa : x = a
    · rw [hxa, hcallnode, beq_self_eq_true, decide_eq_true rfl]
    · have hne : (h.node x).outedges ≠ (h.node a).outedges := fun heq =>
        hxa (hok.eq_of_outedges hx ha heq)
      rw [← hagree.outedge _ (by simpa using hne.symm), hok.owner x hx,
        beq_eq_false_iff_ne.mpr hne.symm]
      exact decide_eq_false hxa
  have howner := hok.owner a ha
  constructor
  case node =>
    intro x hx
    have hdrop : (h.dropOutedge (h.node a).outedges b).node x = g.node x := by
      rw [h.node_dropOutedge_of_ne _ _ _ (by rwa [howner]), hagree.node x hx]
    rw [IncrDepGraph.removeInedge]
    split
    next hba =>
      by_cases hxb : x = b
      · subst hxb
        rw [IncrDepGraph.node_addEdgeCount, IncrDepGraph.node_setInedges_self,
          IncrDepGraph.node_setInedges_self, hdrop, herase hx]
      · rw [IncrDepGraph.node_setInedges_of_ne _ _ _ _ hxb, hdrop, IncrDepGraph.node_addEdgeCount,
          IncrDepGraph.node_setInedges_of_ne _ _ _ _ hxb]
    next hba =>
      have hxb : x ≠ b := fun heq => hba (heq ▸ hx)
      rw [IncrDepGraph.node_setInedges_of_ne _ _ _ _ hxb, hdrop]
      rfl
  case outedge =>
    intro o ho
    have hoo : o ≠ (h.node a).outedges := fun heq => ho (by rw [heq])
    rw [IncrDepGraph.outedge_setInedges, h.outedge_dropOutedge_of_ne _ _ _ hoo,
      hagree.outedge o ho, g.outedge_removeInedge]
  case edgeCount =>
    rw [IncrDepGraph.removeInedge]
    split
    next => simp [IncrDepGraph.dropOutedge, hagree.edgeCount]
    next => simp [IncrDepGraph.dropOutedge, hagree.edgeCount]

namespace EdgesOK

/-- The loop empties the list of in-edges of a node in the sense of the invariant, while the list
in the graph stays as it is. -/
theorem removeInedges (own : Option Nat) (skipOwn : Bool) (hok : EdgesOK h current live)
    (hcn : cn ∈ live) (hagree : AgreeExcept g h cn own)
    (hl : (h.node cn).inedges = l.filter fun o => own ≠ some o)
    (hown : ∀ a ∈ current, own ≠ some (h.node a).outedges → a ≠ cn)
    (hskip : ∀ o, (skipOwn = true ∧ (g.outedge o).callnode = cn ∧ o ∈ l) ↔ own = some o ∧ o ∈ l) :
    ∃ g1 h1, l.foldlM (fun g out => if skipOwn ∧ (g.outedge out).callnode = cn then some g
        else g.removeOutedge out cn) g = some g1 ∧
      EdgesOK h1 current live ∧ AgreeExcept g1 h1 cn own ∧ (h1.node cn).inedges = [] ∧
      g1.node cn = g.node cn ∧ (∀ x, (h1.node x).outedges = (h.node x).outedges) ∧
      ∀ o, own = some o → h1.outedge o = h.outedge o := by
  induction l generalizing g h with
  | nil => exact ⟨g, h, rfl, hok, hagree, hl, rfl, fun _ => rfl, fun _ _ => rfl⟩
  | cons o l ih =>
    rw [foldlM_cons]
    by_cases hown' : own = some o
    · -- an edge from the node itself
      have hs := (hskip o).mpr ⟨hown', mem_cons_self⟩
      rw [if_pos ⟨hs.1, hs.2.1⟩]
      rw [filter_cons_of_neg (by simp [hown'])] at hl
      apply ih hok hagree hl hown
      intro o'
      constructor
      · rintro ⟨h1, h2, h3⟩
        exact ⟨((hskip o').mp ⟨h1, h2, mem_cons_of_mem o h3⟩).1, h3⟩
      · rintro ⟨h1, h2⟩
        have := (hskip o').mpr ⟨h1, mem_cons_of_mem o h2⟩
        exact ⟨this.1, this.2.1, h2⟩
    · have hns : ¬ (skipOwn = true ∧ (g.outedge o).callnode = cn) := fun hc =>
        hown' ((hskip o).mp ⟨hc.1, hc.2, mem_cons_self⟩).1
      rw [if_neg hns]
      rw [filter_cons_of_pos (by simpa using hown')] at hl
      have ho : o ∈ (h.node cn).inedges := hl ▸ mem_cons_self
      obtain ⟨a, ha, rfl⟩ := hok.inedges cn hcn o ho
      have hacn := hown a ha hown'
      have hmem : cn ∈ h.table a := (hok.mem_table_iff ha hcn).mpr ho
      have hdrop := hok.dropOutedge ha hcn hmem
      rw [hl, erase_cons_head] at hdrop
      have hout := hagree.outedge _ hown'
      have hmem' : cn ∈ (g.outedge (h.node a).outedges).hasht := by
        rw [← hout]
        exact hmem
      have hsource : (g.outedge (h.node a).outedges).callnode = a := by
        rw [← hout]
        exact hok.owner a ha
      rw [IncrDepGraph.removeOutedge, if_pos hmem']
      obtain ⟨g1, h1, hrun, hok1, hagree1, hnil, hnode, houts, hrec⟩ := ih hdrop
        (hagree.dropOutedge hout hsource hacn) (by simp)
          (by simpa [IncrDepGraph.dropOutedge] using hown)
        (by
          intro o
          simp only [IncrDepGraph.dropOutedge, IncrDepGraph.outedge_addEdgeCount,
            IncrDepGraph.outedge_setOutcount, IncrDepGraph.callnode_setHasht]
          constructor
          · rintro ⟨h1, h2, h3⟩
            exact ⟨((hskip o).mp ⟨h1, h2, mem_cons_of_mem _ h3⟩).1, h3⟩
          · rintro ⟨h1, h2⟩
            have := (hskip o).mpr ⟨h1, mem_cons_of_mem _ h2⟩
            exact ⟨this.1, this.2.1, h2⟩)
      refine ⟨g1, h1, hrun, hok1, hagree1, hnil, ?_, ?_, ?_⟩
      · rw [hnode, g.node_dropOutedge_of_ne _ _ _ (by rw [hsource]; exact hacn.symm)]
      · intro x
        rw [houts]
        simp [IncrDepGraph.dropOutedge]
      · intro o ho
        rw [hrec o ho]
        apply h.outedge_dropOutedge_of_ne
        rintro rfl
        exact hown' ho

/-- The loop over a table takes the edges out of the lists of the targets, but for the edge to the
node itself. In the sense of the invariant the table is empty after it. -/
theorem deleteoutedges_loop (hok : EdgesOK h current live) (ha : a ∈ current)
    (hagree : AgreeExcept g h a (some (h.node a).outedges))
    (hcallnode : (g.outedge (h.node a).outedges).callnode = a) (ht : h.table a = l) :
    ∃ h1, EdgesOK h1 current live ∧ h1.table a = [] ∧
      AgreeExcept (l.foldl (fun g b => g.removeInedge a b) g) h1 a (some (h.node a).outedges) ∧
      (∀ x, (h1.node x).outedges = (h.node x).outedges) ∧
      (h1.node a).inedges.filter (· ≠ (h.node a).outedges) =
        (h.node a).inedges.filter (· ≠ (h.node a).outedges) ∧
      (l.foldl (fun g b => g.removeInedge a b) g).node a = g.node a ∧
      (l.foldl (fun g b => g.removeInedge a b) g).outedge = g.outedge := by
  induction l generalizing g h with
  | nil => exact ⟨h, hok, ht, hagree, fun _ => rfl, rfl, rfl, rfl⟩
  | cons b l ih =>
    have hmem : b ∈ h.table a := by
      rw [ht]
      exact mem_cons_self
    have hb := hok.table a ha b hmem
    have hdrop := hok.dropOutedge ha hb hmem
    have hstep : AgreeExcept (g.removeInedge a b)
      ((h.dropOutedge (h.node a).outedges b).setInedges b
        ((h.node b).inedges.erase (h.node a).outedges)) a (some (h.node a).outedges) :=
      hagree.removeInedge hok ha hb hcallnode
    obtain ⟨h1, hok1, ht1, hagree1, houts, hfilter, hnode, houtedge⟩ := ih hdrop
      (by simpa [IncrDepGraph.dropOutedge] using hstep)
      (by simpa [IncrDepGraph.dropOutedge, g.outedge_removeInedge] using hcallnode)
      (by
        rw [IncrDepGraph.table] at ht
        simp [IncrDepGraph.table, IncrDepGraph.dropOutedge, IncrDepGraph.hasht_setHasht, ht])
    simp only [IncrDepGraph.dropOutedge, IncrDepGraph.outedges_setInedges,
      IncrDepGraph.node_addEdgeCount, IncrDepGraph.outedges_setOutcount,
      IncrDepGraph.node_setHasht] at hagree1 houts hfilter
    refine ⟨h1, hok1, ht1, hagree1, houts, ?_, ?_, ?_⟩
    · rw [hfilter]
      by_cases hab : a = b
      · subst hab
        rw [IncrDepGraph.node_setInedges_self, (hok.inedges_nodup hb).erase_eq_filter,
          List.filter_filter]
        apply filter_congr
        simp
      · rw [IncrDepGraph.node_setInedges_of_ne _ _ _ _ hab]
        simp
    · rw [foldl_cons, hnode, IncrDepGraph.removeInedge]
      split
      next hne => exact IncrDepGraph.node_setInedges_of_ne _ _ _ _ hne.symm
      next => rfl
    · rw [foldl_cons, houtedge, g.outedge_removeInedge]

/-- `deleteoutedges` in the sense of the invariant. -/
theorem deleteoutedges (hok : EdgesOK g current live) (hcn : cn ∈ current) :
    ∃ h, EdgesOK h current live ∧ h.table cn = [] ∧
      AgreeExcept (g.deleteoutedges cn) h cn (some (g.node cn).outedges) ∧
      (∀ x, (h.node x).outedges = (g.node x).outedges) ∧
      (h.node cn).inedges = (g.node cn).inedges.filter (· ≠ (g.node cn).outedges) ∧
      ((g.deleteoutedges cn).node cn).inedges = (g.node cn).inedges ∧
      ((g.deleteoutedges cn).node cn).outcount = 0 ∧
      (g.deleteoutedges cn).outedge = g.outedge := by
  obtain ⟨h, hok1, ht, hagree, houts, hfilter, hnode, houtedge⟩ := hok.deleteoutedges_loop
    (g := g) hcn ⟨fun _ _ => rfl, fun _ _ => rfl, rfl⟩ (hok.owner cn hcn) rfl
  have hown : (g.node cn).outedges ∉ (h.node cn).inedges := by
    rw [← houts, ← hok1.mem_table_iff hcn (hok.sub hcn), ht]
    exact not_mem_nil
  have hinedges : (h.node cn).inedges = (g.node cn).inedges.filter (· ≠ (g.node cn).outedges) := by
    rw [← hfilter]
    symm
    apply filter_eq_self.mpr
    intro o ho
    exact decide_eq_true (ne_of_mem_of_not_mem ho hown)
  rw [IncrDepGraph.deleteoutedges]
  split
  next hnil =>
    have hcount : (g.node cn).outcount = 0 := by
      rw [hok.outcount cn hcn, hnil]
      rfl
    refine ⟨h, hok1, ht, hagree, houts, hinedges, ?_, ?_, houtedge⟩
    · rw [hnode]
    · rw [hnode, hcount]
  next =>
    refine ⟨h, hok1, ht, ?_, houts, hinedges, ?_, ?_, houtedge⟩
    · constructor
      case node =>
        intro x hx
        rw [IncrDepGraph.node_setOutcount_of_ne _ _ _ _ hx]
        exact hagree.node x hx
      case outedge => exact hagree.outedge
      case edgeCount => exact hagree.edgeCount
    · rw [IncrDepGraph.inedges_setOutcount, hnode]
    · rw [IncrDepGraph.outcount_setOutcount, if_pos rfl, Nat.zero_mod]

/-! ### The nodes -/

section

variable (hok : EdgesOK g current live)
include hok

theorem node_newCallNode (hcn : cn ∉ live)
    (hout : ∀ a ∈ current, (g.node a).outedges ≠ out) :
    (∀ b ∈ live, (g.newCallNode cn out).node b = g.node b) ∧ (g.newCallNode cn out).table cn = [] ∧
      ∀ a ∈ current, (g.newCallNode cn out).table a = g.table a := by
  have hnode : ∀ b ∈ live, (g.newCallNode cn out).node b = g.node b := fun b hb =>
    update_of_ne (ne_of_mem_of_not_mem hb hcn) ..
  refine ⟨hnode, ?_, ?_⟩
  · simp [IncrDepGraph.table, IncrDepGraph.newCallNode]
  · intro a ha
    rw [IncrDepGraph.table, hnode a (hok.sub ha)]
    exact congrArg Outedge.hasht (update_of_ne (hout a ha) ..)

/-- A new node has no edges. -/
theorem newCallNode (hcn : cn ∉ live)
    (hout : ∀ a ∈ current, (g.node a).outedges ≠ out) :
    EdgesOK (g.newCallNode cn out) (insert cn current) (insert cn live) := by
  obtain ⟨hnode, htable, -⟩ := hok.node_newCallNode hcn hout
  have hself : (g.newCallNode cn out).node cn = ⟨[], out, 0⟩ := update_self ..
  have hrec : (g.newCallNode cn out).outedge out = ⟨cn, []⟩ := update_self ..
  have hok' : EdgesOK (g.newCallNode cn out) current live :=
    hok.congr hnode (fun a ha => update_of_ne (hout a ha) ..) rfl
  have hcur : cn ∉ current := fun hc => hcn (hok.sub hc)
  constructor
  case sub => exact Finset.insert_subset_insert cn hok.sub
  case owner =>
    refine (Finset.forall_mem_insert ..).mpr ⟨?_, hok'.owner⟩
    rw [hself, hrec]
  case inedges =>
    refine (Finset.forall_mem_insert ..).mpr ⟨?_, ?_⟩
    · simp [hself]
    · intro b hb o ho
      obtain ⟨a, ha, heq⟩ := hok'.inedges b hb o ho
      exact ⟨a, Finset.mem_insert_of_mem ha, heq⟩
  case table =>
    refine (Finset.forall_mem_insert ..).mpr ⟨?_, ?_⟩
    · simp [htable]
    · exact fun a ha b hb => Finset.mem_insert_of_mem (hok'.table a ha b hb)
  case nodup =>
    refine (Finset.forall_mem_insert ..).mpr ⟨?_, hok'.nodup⟩
    rw [htable]
    exact nodup_nil
  case symmetric =>
    intro a ha b hb
    rcases Finset.mem_insert.mp ha with rfl | hcura
    · rw [htable, hself]
      rcases Finset.mem_insert.mp hb with rfl | hb
      · rw [hself]
        rfl
      · rw [hnode b hb]
        apply count_eq_zero_of_not_mem
        intro ho
        obtain ⟨x, hx, heq⟩ := hok.inedges b hb _ ho
        exact hout x hx heq.symm
    · rcases Finset.mem_insert.mp hb with rfl | hb
      · rw [hself, count_nil,
          count_eq_zero_of_not_mem fun hb => hcn (hok'.table a hcura _ hb)]
      · exact hok'.symmetric a hcura b hb
  case outcount =>
    refine (Finset.forall_mem_insert ..).mpr ⟨?_, hok'.outcount⟩
    rw [hself, htable]
    rfl
  case edgeCount =>
    rw [Finset.sum_insert hcur, htable, hok'.edgeCount]
    simp

theorem node_takeOver (hcn : cn ∉ live) (old : Nat) :
    (∀ b ∈ live, (g.takeOver cn old).node b = g.node b) ∧
      (g.takeOver cn old).node cn = ⟨[], (g.node old).outedges, (g.node old).outcount⟩ ∧
      (g.takeOver cn old).table cn = g.table old ∧
      ∀ a ∈ current, (g.takeOver cn old).table a = g.table a := by
  have hnode : ∀ b ∈ live, (g.takeOver cn old).node b = g.node b := fun b hb =>
    update_of_ne (ne_of_mem_of_not_mem hb hcn) ..
  have hself : (g.takeOver cn old).node cn = ⟨[], (g.node old).outedges, (g.node old).outcount⟩ :=
    update_self ..
  have hhasht : ∀ o, ((g.takeOver cn old).outedge o).hasht = (g.outedge o).hasht := by
    intro o
    by_cases ho : o = (g.node old).outedges
    · simp [IncrDepGraph.takeOver, ho]
    · simp [IncrDepGraph.takeOver, ho]
  refine ⟨hnode, hself, ?_, ?_⟩
  · rw [IncrDepGraph.table, hself, hhasht]
    rfl
  · intro a ha
    rw [IncrDepGraph.table, hnode a (hok.sub ha), hhasht]
    rfl

/-- The new node of a call has the out-edges of the old one, which keeps its in-edges. -/
theorem takeOver (hold : old ∈ current) (hcn : cn ∉ live) :
    EdgesOK (g.takeOver cn old) (insert cn (current.erase old)) (insert cn live) := by
  obtain ⟨hnode, hself, htable, hother⟩ := hok.node_takeOver hcn old
  have hcallnode : ∀ a ∈ current.erase old,
      ((g.takeOver cn old).outedge (g.node a).outedges).callnode = a := by
    intro a ha
    have hne : (g.node a).outedges ≠ (g.node old).outedges := fun heq =>
      Finset.ne_of_mem_erase ha (hok.eq_of_outedges (Finset.mem_of_mem_erase ha) hold heq)
    have hrec : (g.takeOver cn old).outedge (g.node a).outedges = g.outedge (g.node a).outedges :=
      update_of_ne hne ..
    rw [hrec]
    exact hok.owner a (Finset.mem_of_mem_erase ha)
  have hcur : ∀ a ∈ current.erase old, (g.takeOver cn old).node a = g.node a := fun a ha =>
    hnode a (hok.sub (Finset.mem_of_mem_erase ha))
  have htable_ne : ∀ a ∈ current.erase old, (g.takeOver cn old).table a = g.table a := fun a ha =>
    hother a (Finset.mem_of_mem_erase ha)
  constructor
  case sub =>
    exact Finset.insert_subset_insert cn ((Finset.erase_subset old current).trans hok.sub)
  case owner =>
    refine (Finset.forall_mem_insert ..).mpr ⟨?_, ?_⟩
    · rw [hself]
      simp [IncrDepGraph.takeOver]
    · intro a ha
      rw [hcur a ha]
      exact hcallnode a ha
  case inedges =>
    refine (Finset.forall_mem_insert ..).mpr ⟨?_, ?_⟩
    · simp [hself]
    · intro b hb o ho
      rw [hnode b hb] at ho
      obtain ⟨a, ha, rfl⟩ := hok.inedges b hb o ho
      by_cases hao : a = old
      · exact ⟨cn, Finset.mem_insert_self .., by rw [hself, hao]⟩
      · have ha' := Finset.mem_erase.mpr ⟨hao, ha⟩
        exact ⟨a, Finset.mem_insert_of_mem ha', by rw [hcur a ha']⟩
  case table =>
    refine (Finset.forall_mem_insert ..).mpr ⟨?_, ?_⟩
    · rw [htable]
      exact fun b hb => Finset.mem_insert_of_mem (hok.table old hold b hb)
    · intro a ha b hb
      rw [htable_ne a ha] at hb
      exact Finset.mem_insert_of_mem (hok.table a (Finset.mem_of_mem_erase ha) b hb)
  case nodup =>
    refine (Finset.forall_mem_insert ..).mpr ⟨?_, ?_⟩
    · rw [htable]
      exact hok.nodup old hold
    · intro a ha
      rw [htable_ne a ha]
      exact hok.nodup a (Finset.mem_of_mem_erase ha)
  case symmetric =>
    intro a ha b hb
    have hsym : ∃ x ∈ current, ((g.takeOver cn old).node a).outedges = (g.node x).outedges ∧
        (g.takeOver cn old).table a = g.table x := by
      rcases Finset.mem_insert.mp ha with rfl | ha
      · exact ⟨old, hold, by rw [hself], htable⟩
      · exact ⟨a, Finset.mem_of_mem_erase ha, by rw [hcur a ha], htable_ne a ha⟩
    obtain ⟨x, hx, hout, ht⟩ := hsym
    rw [hout, ht]
    rcases Finset.mem_insert.mp hb with rfl | hb
    · rw [hself, count_nil, count_eq_zero_of_not_mem fun hb => hcn (hok.table x hx b hb)]
    · rw [hnode b hb]
      exact hok.symmetric x hx b hb
  case outcount =>
    refine (Finset.forall_mem_insert ..).mpr ⟨?_, ?_⟩
    · rw [hself, htable]
      exact hok.outcount old hold
    · intro a ha
      rw [hcur a ha, htable_ne a ha]
      exact hok.outcount a (Finset.mem_of_mem_erase ha)
  case edgeCount =>
    have hfresh : cn ∉ current.erase old := fun hc => hcn (hok.sub (Finset.mem_of_mem_erase hc))
    rw [Finset.sum_insert hfresh, htable]
    calc (g.takeOver cn old).edgeCount
      _ = ((g.table old).length : Int) + ∑ a ∈ current.erase old, ((g.table a).length : Int) := by
        rw [Finset.add_sum_erase current (fun a => ((g.table a).length : Int)) hold]
        exact hok.edgeCount
      _ = _ := by
        apply congrArg
        apply Finset.sum_congr rfl
        intro a ha
        rw [htable_ne a ha]

/-- A node without edges is freed. -/
theorem free (hcn : cn ∈ live) (hl : (g.node cn).inedges = [])
    (ht : cn ∈ current → g.table cn = []) : EdgesOK g (current.erase cn) (live.erase cn) := by
  constructor
  case sub => exact Finset.erase_subset_erase cn hok.sub
  case owner => exact fun a ha => hok.owner a (Finset.mem_of_mem_erase ha)
  case inedges =>
    intro b hb o ho
    obtain ⟨a, ha, rfl⟩ := hok.inedges b (Finset.mem_of_mem_erase hb) o ho
    apply Exists.intro a
    refine ⟨Finset.mem_erase.mpr ⟨?_, ha⟩, rfl⟩
    rintro rfl
    have hmem := (hok.mem_table_iff ha (Finset.mem_of_mem_erase hb)).mpr ho
    simp [ht ha] at hmem
  case table =>
    intro a ha b hb
    have ha' := Finset.mem_of_mem_erase ha
    have hb' := hok.table a ha' b hb
    apply Finset.mem_erase.mpr ⟨_, hb'⟩
    rintro rfl
    have hmem := (hok.mem_table_iff ha' hb').mp hb
    simp [hl] at hmem
  case nodup => exact fun a ha => hok.nodup a (Finset.mem_of_mem_erase ha)
  case symmetric =>
    exact fun a ha b hb =>
      hok.symmetric a (Finset.mem_of_mem_erase ha) b (Finset.mem_of_mem_erase hb)
  case outcount => exact fun a ha => hok.outcount a (Finset.mem_of_mem_erase ha)
  case edgeCount =>
    rw [hok.edgeCount]
    symm
    apply Finset.sum_subset (Finset.erase_subset cn current)
    intro a ha hne
    have hacn : a = cn := by
      by_contra hacn
      exact hne (Finset.mem_erase.mpr ⟨hacn, ha⟩)
    subst hacn
    rw [ht ha]
    rfl

/-- `deallocate_previous_call` keeps the invariant, and it finds the keys. -/
theorem deallocatePreviousCall (hcn : cn ∈ live)
    (hold : cn ∉ current) : ∃ g1, g.deallocatePreviousCall cn = some g1 ∧
      EdgesOK g1 current (live.erase cn) := by
  obtain ⟨g1, h1, hrun, hok1, hagree, hnil, -, -, -⟩ := hok.removeInedges none false (g := g)
    (l := (g.node cn).inedges) hcn
    ⟨fun _ _ => rfl, fun _ _ => rfl, rfl⟩ (by simp) (fun a ha _ heq => hold (heq ▸ ha)) (by simp)
  refine ⟨g1, hrun, ?_⟩
  have hfree := hok1.free hcn hnil (fun hcur => absurd hcur hold)
  rw [Finset.erase_eq_of_notMem hold] at hfree
  apply hfree.congr
  · exact fun b hb => (hagree.node b (Finset.ne_of_mem_erase hb)).symm
  · exact fun a _ => (hagree.outedge _ (by simp)).symm
  · exact hagree.edgeCount.symm

/-- `deleteoutedges`, `delete_dependency_edges` and `deletecallnode` keep the invariant, and they do
not abort. -/
theorem detachCallNode (hcn : cn ∈ current) :
    ∃ g1, g.detachCallNode cn = some g1 ∧ EdgesOK g1 (current.erase cn) (live.erase cn) := by
  have hlive := hok.sub hcn
  obtain ⟨h, hok1, ht, hagree, houts, hinedges, hin, hcount, houtedge⟩ := hok.deleteoutedges hcn
  have hcallnode : ∀ o ∈ (g.node cn).inedges,
      (g.outedge o).callnode = cn ↔ (g.node cn).outedges = o := by
    intro o ho
    obtain ⟨x, hx, rfl⟩ := hok.inedges cn hlive o ho
    rw [hok.owner x hx]
    exact ⟨fun heq => by rw [heq], fun heq => (hok.eq_of_outedges hcn hx heq).symm⟩
  obtain ⟨g1, h1, hrun, hok2, hagree1, hnil, hnode, houts1, hrec⟩ := hok1.removeInedges
    (some (g.node cn).outedges) true (g := g.deleteoutedges cn)
    (l := (g.node cn).inedges) hlive hagree (by rw [hinedges]; apply filter_congr; simp [eq_comm])
    (by
      rintro a ha hne rfl
      exact hne (by rw [houts]))
    (by
      intro o
      rw [houtedge]
      constructor
      · rintro ⟨-, heq, ho⟩
        exact ⟨congrArg some ((hcallnode o ho).mp heq), ho⟩
      · rintro ⟨heq, ho⟩
        exact ⟨rfl, (hcallnode o ho).mpr (some.inj heq), ho⟩)
  have hrun' : (g.deleteoutedges cn).deleteDependencyEdges cn = some g1 := by
    rw [IncrDepGraph.deleteDependencyEdges, IncrDepGraph.removeInedges, hin]
    exact hrun
  have hzero : (g1.node cn).outcount = 0 := by
    rw [hnode, hcount]
  refine ⟨g1, ?_, ?_⟩
  · rw [IncrDepGraph.detachCallNode, hrun', bind_eq_bind, bind_some,
      IncrDepGraph.deletecallnode, if_pos hzero]
  · have ht1 : h1.table cn = [] := by
      rw [IncrDepGraph.table, houts1, houts, hrec _ rfl, ← houts]
      exact ht
    apply (hok2.free hlive hnil fun _ => ht1).congr
    · exact fun b hb => (hagree1.node b (Finset.ne_of_mem_erase hb)).symm
    · intro a ha
      apply (hagree1.outedge _ _).symm
      intro heq
      apply Finset.ne_of_mem_erase ha
      apply hok2.eq_of_outedges (Finset.mem_of_mem_erase ha) hcn
      rw [← some.inj heq, houts1, houts]
    · exact hagree1.edgeCount.symm

end

end EdgesOK

/-! ### Runs -/

/-- The operations on the graph. -/
inductive EdgeEvent where
  | newCallNode (cn out : Nat)
  | addcalledge (fromcn tocn : Nat)
  | takeOver (cn old : Nat)
  | deallocatePreviousCall (callnode : Nat)
  | detachCallNode (callnode : Nat)

/-- The graph with the nodes in use. Those that are not `current` are old ones, to be given to
`deallocate_previous_call`. -/
structure EdgeRun where
  graph : IncrDepGraph
  current : Finset Nat
  live : Finset Nat

/-- The empty graph. -/
def EdgeRun.start : EdgeRun := ⟨⟨fun _ => ⟨[], 0, 0⟩, fun _ => ⟨0, []⟩, 0⟩, ∅, ∅⟩

/-- One operation. A node or record that is allocated is not in use. -/
inductive EdgeRun.Step : EdgeRun → EdgeEvent → EdgeRun → Prop where
  | newCallNode {g : IncrDepGraph} {current live : Finset Nat} {cn out : Nat} (hcn : cn ∉ live)
      (hout : ∀ a ∈ current, (g.node a).outedges ≠ out) :
      Step ⟨g, current, live⟩ (.newCallNode cn out)
        ⟨g.newCallNode cn out, insert cn current, insert cn live⟩
  | addcalledge {g : IncrDepGraph} {current live : Finset Nat} {a b : Nat} (ha : a ∈ current)
      (hb : b ∈ live) :
      Step ⟨g, current, live⟩ (.addcalledge a b) ⟨g.addcalledge a b, current, live⟩
  | takeOver {g : IncrDepGraph} {current live : Finset Nat} {cn old : Nat} (hold : old ∈ current)
      (hcn : cn ∉ live) :
      Step ⟨g, current, live⟩ (.takeOver cn old)
        ⟨g.takeOver cn old, insert cn (current.erase old), insert cn live⟩
  | deallocatePreviousCall {g g' : IncrDepGraph} {current live : Finset Nat} {cn : Nat}
      (hcn : cn ∈ live) (hold : cn ∉ current) (hrun : g.deallocatePreviousCall cn = some g') :
      Step ⟨g, current, live⟩ (.deallocatePreviousCall cn) ⟨g', current, live.erase cn⟩
  | detachCallNode {g g' : IncrDepGraph} {current live : Finset Nat} {cn : Nat} (hcn : cn ∈ current)
      (hrun : g.detachCallNode cn = some g') :
      Step ⟨g, current, live⟩ (.detachCallNode cn) ⟨g', current.erase cn, live.erase cn⟩

/-- The runs of the operations on the graph. -/
def edgeSystem : Library.System EdgeRun EdgeEvent := ⟨(· = EdgeRun.start), EdgeRun.Step⟩

/-- The two representations agree after every operation. -/
theorem edgeSystem_invariant :
    edgeSystem.Invariant fun s => EdgesOK s.graph s.current s.live := by
  constructor
  case init =>
    rintro _ rfl
    constructor <;> simp [EdgeRun.start]
  case step =>
    rintro _ _ _ hok (⟨hcn, hout⟩ | ⟨ha, hb⟩ | ⟨hold, hcn⟩ | ⟨hcn, hold, hrun⟩ | ⟨hcn, hrun⟩)
    · exact EdgesOK.newCallNode hok hcn hout
    · exact EdgesOK.addcalledge hok ha hb
    · exact EdgesOK.takeOver hok hold hcn
    · obtain ⟨g1, hrun1, hok1⟩ := EdgesOK.deallocatePreviousCall hok hcn hold
      rw [some.inj (hrun.symm.trans hrun1)]
      exact hok1
    · obtain ⟨g1, hrun1, hok1⟩ := EdgesOK.detachCallNode hok hcn
      rw [some.inj (hrun.symm.trans hrun1)]
      exact hok1

/-- In every state that is reached, a node is in a table exactly if the record of the table is in
its list, once; the counts are the numbers of the edges, the one of a node as long as its bit field
holds it; and no operation aborts. -/
theorem reachable_edges {s : EdgeRun} (hs : edgeSystem.Reachable s) :
    (∀ a ∈ s.current, ∀ b ∈ s.live, (s.graph.node b).inedges.count (s.graph.node a).outedges =
      if b ∈ s.graph.table a then 1 else 0) ∧
    (∀ a ∈ s.current, (s.graph.table a).Nodup ∧ ∀ b ∈ s.graph.table a, b ∈ s.live) ∧
    (∀ b ∈ s.live, ∀ o ∈ (s.graph.node b).inedges,
      (s.graph.outedge o).callnode ∈ s.current ∧
        (s.graph.node (s.graph.outedge o).callnode).outedges = o) ∧
    (∀ a ∈ s.current, (s.graph.table a).length < outcountRange →
      (s.graph.node a).outcount = (s.graph.table a).length) ∧
    s.graph.edgeCount = ∑ a ∈ s.current, ((s.graph.table a).length : Int) ∧
    (∀ cn ∈ s.live, cn ∉ s.current → (s.graph.deallocatePreviousCall cn).isSome) ∧
    ∀ cn ∈ s.current, (s.graph.detachCallNode cn).isSome := by
  have hok := edgeSystem_invariant.holds hs
  refine ⟨?_, ?_, ?_, ?_, hok.edgeCount, ?_, ?_⟩
  · intro a ha b hb
    rw [hok.symmetric a ha b hb]
    split
    next hmem => exact count_eq_one_of_mem (hok.nodup a ha) hmem
    next hmem => exact count_eq_zero_of_not_mem hmem
  · exact fun a ha => ⟨hok.nodup a ha, hok.table a ha⟩
  · intro b hb o ho
    obtain ⟨a, ha, rfl⟩ := hok.inedges b hb o ho
    rw [hok.owner a ha]
    exact ⟨ha, rfl⟩
  · intro a ha hlt
    rw [hok.outcount a ha, Nat.mod_eq_of_lt hlt]
  · intro cn hcn hold
    obtain ⟨g1, hrun, -⟩ := EdgesOK.deallocatePreviousCall hok hcn hold
    rw [hrun]
    rfl
  · intro cn hcn
    obtain ⟨g1, hrun, -⟩ := EdgesOK.detachCallNode hok hcn
    rw [hrun]
    rfl

/-- Two nodes with an edge and a loop, of which the source is evaluated again. -/
theorem reevaluated_edges : ∃ s : EdgeRun, edgeSystem.Reachable s ∧ s.graph.table 2 = [1, 0] ∧
    (s.graph.node 1).inedges.count (s.graph.node 2).outedges = 1 := by
  have h0 : edgeSystem.Reachable EdgeRun.start := .init rfl
  have h₁ := h0.step (e := EdgeEvent.newCallNode 0 0) (.newCallNode (by decide) (by decide))
  have h₂ := h₁.step (e := EdgeEvent.newCallNode 1 1) (.newCallNode (by decide) (by decide))
  have h3 := h₂.step (e := EdgeEvent.addcalledge 0 1) (.addcalledge (by decide) (by decide))
  have h4 := h3.step (e := EdgeEvent.addcalledge 0 0) (.addcalledge (by decide) (by decide))
  have h5 := h4.step (e := EdgeEvent.takeOver 2 0) (.takeOver (by decide) (by decide))
  exact ⟨_, h5, by decide, (reachable_edges h5).1 2 (by decide) 1 (by decide)⟩

/-- `delete_dependency_edges` alone leaves the list of the node as it is. -/
theorem deleteDependencyEdges_leaves_inedges :
    ∃ g, (((EdgeRun.start.graph.newCallNode 0 0).newCallNode 1 1).addcalledge 0 1
        ).deleteDependencyEdges 1 = some g ∧
      1 ∉ g.table 0 ∧ (g.node 0).outedges ∈ (g.node 1).inedges :=
  ⟨_, rfl, by decide, by decide⟩

end XSBEngine.CallGraph
