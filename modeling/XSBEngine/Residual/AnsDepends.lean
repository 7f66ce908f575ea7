import XSBEngine.CallGraph.SccComponents

/-!
# Components of the residual program

Model of `get_residual_sccs` and `xsb_compute_ans_depends_scc`, `XSB/emu/tr_utils.c:5556–5688`, on
the node array, the stack and the hash table of the components of subgoals.
-/

namespace XSBEngine.Residual

open CallGraph

/-- An element of a delay list: the answer of a positive one, and the subgoal. -/
structure DelayElement where
  deAnsSubst : Option Nat
  deSubgoal : Nat
  deriving DecidableEq, Repr

/-- The delay lists of a conditional answer, of which there is at least one. -/
structure DelayLists where
  first : List DelayElement
  rest : List (List DelayElement)

/-- The list from the first one on, along `dl_next`. -/
def DelayLists.all (dls : DelayLists) : List (List DelayElement) := dls.first :: dls.rest

/-- The conditional answers passed by `get_residual_sccs`, their delay lists, and the child of the
root of the answer trie of a subgoal. -/
structure ResidualAnswers where
  listterm : List Nat
  asiDlList : Nat → DelayLists
  ansRootChild : Nat → Nat

namespace ResidualAnswers

/-- The answer an element depends on, `tr_utils.c:5578–5588`. -/
def ansLeaf (r : ResidualAnswers) (de : DelayElement) : Nat :=
  de.deAnsSubst.getD (r.ansRootChild de.deSubgoal)

/-- The answers with the elements of all their delay lists as edges. -/
def dependencies (r : ResidualAnswers) : IncrGraph where
  listterm := r.listterm
  outedges leaf := (r.asiDlList leaf).all.flatten.map r.ansLeaf

/-- The place of an answer in the list. -/
def indexOf (r : ResidualAnswers) (de : DelayElement) : Nat := r.listterm.idxOf (r.ansLeaf de)

/-- The places of the answers in the first delay list of the answer at a place. -/
def firstTargets (r : ResidualAnswers) (i : Nat) : List Nat :=
  (r.asiDlList (r.listterm.getD i 0)).first.map r.indexOf

/-- The places of the answers in all its delay lists. -/
def targets (r : ResidualAnswers) (i : Nat) : List Nat :=
  (r.asiDlList (r.listterm.getD i 0)).all.flatten.map r.indexOf

/-- The stack from `nodeFrom` upwards gets one component and is popped, if there is any,
`tr_utils.c:5603–5607`. -/
def closeComponent (st : SccState) (nodeFrom : Nat) : SccState :=
  { st.popComponent nodeFrom with dfnTop := min st.dfnTop (st.nodes nodeFrom).stack }

/-- One delay list of `nodeFrom`, `tr_utils.c:5576–5608`. -/
def followDl (r : ResidualAnswers) (hasht : HashTable) (visit : SccState → Nat → Option SccState)
    (nodeFrom : Nat) (st : SccState) (dl : List DelayElement) : Option SccState := do
  let st ← dl.foldlM (fun st de =>
    followEdge visit nodeFrom (searchSome hasht (r.ansLeaf de)) st) st
  if (st.nodes nodeFrom).low = (st.nodes nodeFrom).dfn then some (closeComponent st nodeFrom)
  else some st

/-- `xsb_compute_ans_depends_scc`. The first argument bounds the nesting of recursive calls. -/
def xsbComputeAnsDependsScc (r : ResidualAnswers) (hasht : HashTable) :
    Nat → SccState → Nat → Option SccState
  | 0, _, _ => none
  | depth + 1, st, nodeFrom =>
    let st := st.enter nodeFrom
    (r.asiDlList (st.nodes nodeFrom).node).all.foldlM
      (followDl r hasht (xsbComputeAnsDependsScc r hasht depth) nodeFrom) st

/-- The calls from every undiscovered node, `tr_utils.c:5678–5682`. -/
def residualLoop (r : ResidualAnswers) (hasht : HashTable) (depth : Nat) :
    List Nat → SccState → Option SccState
  | [], st => some st
  | i :: rest, st =>
    if (st.nodes i).dfn = 0 then do
      let st ← xsbComputeAnsDependsScc r hasht depth st i
      residualLoop r hasht depth rest st
    else residualLoop r hasht depth rest st

/-- The component numbering of `get_residual_sccs`. The hash table and the arrays are filled as in
`get_incr_sccs`. -/
def getResidualSccs (r : ResidualAnswers) : Option SccState :=
  let table := nodeTable r.dependencies
  residualLoop r table.1 table.2 (List.range table.2) (initialState r.dependencies)

end ResidualAnswers

/-! ### Depth-first order -/

/-- The nodes in the order a depth-first search meets them, continued from a node. -/
def visitOrder (succ : Nat → List Nat) : Nat → List Nat → Nat → List Nat
  | 0, seen, _ => seen
  | depth + 1, seen, v =>
    (succ v).foldl (fun seen y => if y ∈ seen then seen else visitOrder succ depth seen y)
      (seen ++ [v])

/-- The nodes below `n` in the order a depth-first search from each of them meets them. -/
def searchOrder (succ : Nat → List Nat) (n : Nat) : List Nat :=
  (List.range n).foldl (fun seen i => if i ∈ seen then seen else visitOrder succ n seen i) []

/-- `x` is met before `y`. -/
def Before (order : List Nat) (x y : Nat) : Prop := order.idxOf x < order.idxOf y

/-- `y` is reached from one of the nodes of a list without passing `v`. -/
def Avoiding (succ : Nat → List Nat) (v : Nat) (first : List Nat) (y : Nat) : Prop :=
  ∃ w ∈ first, w ≠ v ∧ Relation.ReflTransGen (fun x y => Edge succ x y ∧ y ≠ v) w y

/-- The first delay list of a node leads, without passing the node, to all other nodes of its
component, or to one of them that the search has met before. -/
def FirstDecides (succ first : Nat → List Nat) (order : List Nat) (v : Nat) : Prop :=
  (∀ u, Reach succ u v → Reach succ v u → u ≠ v → Avoiding succ v (first v) u) ∨
    ∃ u, Reach succ u v ∧ Before order u v ∧ Avoiding succ v (first v) u

end XSBEngine.Residual
