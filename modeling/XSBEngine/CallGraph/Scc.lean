import Mathlib

/-!
# Components of the incremental dependency graph

Model of `get_incr_sccs` and `xsb_compute_scc`, `XSB/emu/call_graph_xsb.c:1483–1602`.
Arrays are functions of their index, read only below the number of listed nodes.
The hash table of Clark's library is the finite map of its insertions.
-/

namespace XSBEngine.CallGraph

open Function

/-- Entry of the node array; `SCCNode` of `tr_utils.h:160`. -/
structure SCCNode where
  node : Nat
  dfn : Nat
  component : Nat
  low : Nat
  stack : Nat
  deriving DecidableEq, Repr

/-- What `xsb_compute_scc` reads and writes through its pointer arguments. -/
structure SccState where
  nodes : Nat → SCCNode
  dfnStack : Nat → Nat
  dfnTop : Nat
  dfn : Nat
  component : Nat

/-- Hash table from subgoal frames to indices of the node array, last insertion first. -/
abbrev HashTable := List (Nat × Nat)

/-- `search_some`: the stored index, and `NULL`, which is index 0, for an absent key. -/
def searchSome (hasht : HashTable) (key : Nat) : Nat := (hasht.lookup key).getD 0

/-- `insert_some`. -/
def insertSome (hasht : HashTable) (key value : Nat) : HashTable := (key, value) :: hasht

/-- The incremental subgoals passed by `get_incr_sccs_1` and, for every subgoal frame, the
goals of the call nodes in its `outedges` table in the order of the iterator. -/
structure IncrGraph where
  listterm : List Nat
  outedges : Nat → List Nat

/-- Insertion of the listed nodes after the first one, each unless it is found,
`call_graph_xsb.c:1500–1509`. The result is the table and `node_num`. -/
def insertNodes : List Nat → HashTable → Nat → HashTable × Nat
  | [], hasht, num => (hasht, num)
  | node :: rest, hasht, num =>
    if searchSome hasht node = 0 then insertNodes rest (insertSome hasht node num) (num + 1)
    else insertNodes rest hasht num

namespace SccState

/-- Overwrite one entry of the node array. -/
def setNode (st : SccState) (i : Nat) (entry : SCCNode) : SccState :=
  { st with nodes := update st.nodes i entry }

/-- Number a new node and push it, `call_graph_xsb.c:1571–1574`. -/
def enter (st : SccState) (nodeFrom : Nat) : SccState :=
  { nodes := update st.nodes nodeFrom
      { st.nodes nodeFrom with low := st.dfn, dfn := st.dfn, stack := st.dfnTop }
    dfnStack := update st.dfnStack st.dfnTop nodeFrom
    dfnTop := st.dfnTop + 1
    dfn := st.dfn + 1
    component := st.component }

/-- Take over the `low` of `nodeTo` when it is smaller. -/
def lowerLow (st : SccState) (nodeFrom nodeTo : Nat) : SccState :=
  if (st.nodes nodeTo).low < (st.nodes nodeFrom).low then
    st.setNode nodeFrom { st.nodes nodeFrom with low := (st.nodes nodeTo).low }
  else st

/-- The loop of `call_graph_xsb.c:1594`, from `lo + n - 1` down to `lo`. -/
def assignComponents (st : SccState) (lo : Nat) : Nat → SccState
  | 0 => st
  | n + 1 =>
    assignComponents (st.setNode (st.dfnStack (lo + n))
      { st.nodes (st.dfnStack (lo + n)) with component := st.component }) lo n

/-- Give the stack from `nodeFrom` upwards one component and pop it,
`call_graph_xsb.c:1594–1598`. -/
def popComponent (st : SccState) (nodeFrom : Nat) : SccState :=
  let lo := (st.nodes nodeFrom).stack
  let st' := st.assignComponents lo (st.dfnTop - lo)
  { st' with component := st'.component + 1, dfnTop := lo }

/-- The branch of a node without edges, `call_graph_xsb.c:1601`: it gets a component of its
own and stays on the stack. -/
def closeSink (st : SccState) (nodeFrom : Nat) : SccState :=
  { st.setNode nodeFrom { st.nodes nodeFrom with component := st.component } with
    component := st.component + 1 }

end SccState

/-- One edge of the loop of `call_graph_xsb.c:1579–1591`, with `visit` for the recursive
call. -/
def followEdge (visit : SccState → Nat → Option SccState) (nodeFrom nodeTo : Nat)
    (st : SccState) : Option SccState :=
  if (st.nodes nodeTo).dfn = 0 then
    (visit st nodeTo).map (SccState.lowerLow · nodeFrom nodeTo)
  else if (st.nodes nodeTo).dfn < (st.nodes nodeFrom).dfn ∧ (st.nodes nodeTo).component = 0 then
    some (st.lowerLow nodeFrom nodeTo)
  else some st

/-- `xsb_compute_scc`, `call_graph_xsb.c:1559–1602`. The first argument bounds the nesting
of recursive calls. -/
def xsbComputeScc (g : IncrGraph) (hasht : HashTable) : Nat → SccState → Nat → Option SccState
  | 0, _, _ => none
  | depth + 1, st, nodeFrom =>
    let st := st.enter nodeFrom
    let edges := g.outedges (st.nodes nodeFrom).node
    if 0 < edges.length then do
      let st ← edges.foldlM (fun st sf =>
        followEdge (xsbComputeScc g hasht depth) nodeFrom (searchSome hasht sf) st) st
      if (st.nodes nodeFrom).low = (st.nodes nodeFrom).dfn then some (st.popComponent nodeFrom)
      else some st
    else some (st.closeSink nodeFrom)

/-- The calls from every undiscovered node, `call_graph_xsb.c:1547–1551`, for the indices
from `i` on. -/
def sccLoop (g : IncrGraph) (hasht : HashTable) (depth : Nat) :
    List Nat → SccState → Option SccState
  | [], st => some st
  | i :: rest, st =>
    if (st.nodes i).dfn = 0 then do
      let st ← xsbComputeScc g hasht depth st i
      sccLoop g hasht depth rest st
    else sccLoop g hasht depth rest st

/-- The hash table and `node_num` of `get_incr_sccs`, `call_graph_xsb.c:1490–1510`. -/
def nodeTable (g : IncrGraph) : HashTable × Nat :=
  match g.listterm with
  | [] => ([], 0)
  | first :: rest => insertNodes rest (insertSome [] first 0) 1

/-- The arrays and counters before the first call, `call_graph_xsb.c:1511–1546`. -/
def initialState (g : IncrGraph) : SccState where
  nodes i := { node := g.listterm.getD i 0, dfn := 0, component := 0, low := 0, stack := 0 }
  dfnStack _ := 0
  dfnTop := 0
  dfn := 1
  component := 1

/-- The component numbering of `get_incr_sccs`. A nesting of `node_num` calls is enough. -/
def getIncrSccs (g : IncrGraph) : Option SccState :=
  sccLoop g (nodeTable g).1 (nodeTable g).2 (List.range (nodeTable g).2) (initialState g)

end XSBEngine.CallGraph
