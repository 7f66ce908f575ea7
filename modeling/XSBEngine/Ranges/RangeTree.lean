import Mathlib

/-!
# Range trees

`XSB/lib/range_trees.P:172–347`: a search tree that is kept as facts `rt/6` for its nodes and facts
`rtval/4` for the keys in its leaves. Terms are compared by the standard order.
-/

namespace XSBEngine.Ranges

open Function

/-! ### Facts -/

/-- The identifiers of nodes and leaves: numbers, and `[1]` for the first leaf of a tree. -/
inductive Ptr
  | num (n : Nat)
  | one

namespace Ptr

/-- Numbers precede `[1]`. -/
def rank : Ptr → WithTop Nat
  | num n => n
  | one => ⊤

theorem rank_inj : Injective rank := by
  intro a b h
  cases a <;> cases b <;> simp_all [rank]

instance : LinearOrder Ptr := LinearOrder.lift' rank rank_inj

/-- The identifier of the root. -/
def root : Ptr := num 0

end Ptr

/-- `p(LO,HI,Ptr)`: an interval and what keeps its keys. -/
@[ext] structure Node (κ : Type*) where
  lo : κ
  hi : κ
  ptr : Ptr
deriving DecidableEq

/-- `rt(TreeId,NodeId,Leaf,LO,HI,NodePtr)`, for one tree. -/
structure Rt (κ : Type*) where
  id : Ptr
  leaf : Bool
  node : Node κ
deriving DecidableEq

/-- `rtval(TreeId,NodeId,Key,Vals)`, for one tree. -/
structure RtVal (κ ν : Type*) where
  id : Ptr
  key : κ
  vals : List ν
deriving DecidableEq

/-- The facts of one tree, with the counter `_rt_ptr` that all trees share. -/
structure Tree (κ ν : Type*) where
  rt : List (Rt κ)
  rtval : List (RtVal κ ν)
  next : Nat

/-- The order in which facts are found, which depends on the tries that index them. -/
structure Enumeration (κ ν : Type*) where
  rt : List (Rt κ) → List (Rt κ)
  rtval : List (RtVal κ ν) → List (RtVal κ ν)
  perm_rt : ∀ l, (rt l).Perm l
  perm_rtval : ∀ l, (rtval l).Perm l

/-- Why a goal has no result: it fails, or the bound on the depth of calls is reached. -/
inductive Halt
  | fails
  | bound
deriving DecidableEq

/-- `max_node_size`. -/
def maxNodeSize : Nat := 7

section Database

variable {κ ν : Type*} [LinearOrder κ] [LinearOrder ν]

namespace Tree

/-- `asserta` of a fact of `rt/6`. A trie keeps a fact once. -/
def assertRt (f : Rt κ) (t : Tree κ ν) : Tree κ ν := { t with rt := t.rt.insert f }

/-- `retract` of a fact of `rt/6`. -/
def retractRt (f : Rt κ) (t : Tree κ ν) : Tree κ ν := { t with rt := t.rt.erase f }

def assertVal (r : RtVal κ ν) (t : Tree κ ν) : Tree κ ν := { t with rtval := t.rtval.insert r }

def retractVal (r : RtVal κ ν) (t : Tree κ ν) : Tree κ ν := { t with rtval := t.rtval.erase r }

/-- `retractall(rtval(TreeId,Ptr,Key,_))`. -/
def retractallVal (ptr : Ptr) (key : κ) (t : Tree κ ν) : Tree κ ν :=
  { t with rtval := t.rtval.filter fun r => ¬(r.id = ptr ∧ r.key = key) }

/-- `mygensym`: the tree after it, and the number. -/
def mygensym (t : Tree κ ν) : Tree κ ν × Ptr := ({ t with next := t.next + 1 }, .num (t.next + 1))

end Tree

namespace Enumeration

variable (e : Enumeration κ ν)

/-- The solutions of `rt(TreeId,Id,Leaf,LO,HI,Ptr)`. -/
def nodes (t : Tree κ ν) (id : Ptr) : List (Rt κ) := (e.rt t.rt).filter fun f => f.id = id

/-- The solutions of `rtval(TreeId,Ptr,Key,Vals)`. -/
def values (t : Tree κ ν) (ptr : Ptr) : List (RtVal κ ν) :=
  (e.rtval t.rtval).filter fun r => r.id = ptr

end Enumeration

/-- `sort/2`, where `rank` gives the standard order. -/
def sort {α β : Type*} [DecidableEq α] [LinearOrder β] (rank : α → β) (l : List α) : List α :=
  (l.insertionSort fun a b => rank a ≤ rank b).dedup

/-- Terms `p(LO,HI,Ptr)` are compared by their arguments. -/
def Node.rank (p : Node κ) : κ ×ₗ κ ×ₗ Ptr := toLex (p.lo, toLex (p.hi, p.ptr))

/-- Terms `Key-Vals` are compared by their arguments. -/
def pairRank (p : κ × List ν) : κ ×ₗ List ν := toLex p

/-- `split_n`. -/
def splitN {α : Type*} : Nat → List α → Option (List α × List α)
  | 0, r => some ([], r)
  | _ + 1, [] => none
  | k + 1, x :: l => (splitN k l).map fun (r, f) => (x :: r, f)

/-! ### Insertion -/

section Insertion

variable (e : Enumeration κ ν)

/-- The nodes get another identifier. -/
def moveNodes (leaf : Bool) (newId : Ptr) (nodes : List (Node κ)) (t : Tree κ ν) : Tree κ ν :=
  nodes.foldl (fun t p => t.assertRt ⟨newId, leaf, p⟩) t

/-- `split_tree` at the root. -/
def splitRoot (leaf : Bool) (id : Ptr) (sNodes firstNodes lastNodes : List (Node κ))
    (t : Tree κ ν) : Except Halt (Tree κ ν) :=
  let t := sNodes.foldl (fun t p => t.retractRt ⟨id, leaf, p⟩) t
  let (t, newId₁) := t.mygensym
  let (t, newId₂) := t.mygensym
  let t := moveNodes leaf newId₁ firstNodes t
  let t := moveNodes leaf newId₂ lastNodes t
  match firstNodes, lastNodes, lastNodes.getLast? with
  | p :: _, q :: _, some r =>
    .ok ((t.assertRt ⟨.root, false, ⟨p.lo, q.lo, newId₁⟩⟩).assertRt
      ⟨.root, false, ⟨q.lo, r.hi, newId₂⟩⟩)
  | _, _, _ => .error .fails

/-- What `split_tree` does elsewhere, before the parent is updated. -/
def splitInner (leaf : Bool) (id : Ptr) (firstNodes : List (Node κ)) (t : Tree κ ν) :
    Tree κ ν × Ptr :=
  let t := firstNodes.foldl (fun t p => t.retractRt ⟨id, leaf, p⟩) t
  let (t, newId) := t.mygensym
  (moveNodes leaf newId firstNodes t, newId)

/-- The interval of a node is divided at `mid`. -/
def divideNode (f : Rt κ) (lo mid : κ) (newPtr : Ptr) (t : Tree κ ν) : Tree κ ν :=
  ((t.retractRt f).assertRt { f with node := { f.node with lo := mid } }).assertRt
    { f with node := ⟨lo, mid, newPtr⟩ }

/-- `update_parent`, with `split_tree`. -/
def updateParent : List Ptr → κ → κ → Ptr → Ptr → Tree κ ν → Except Halt (Tree κ ν)
  | path, lo, mid, id, newPtr, t =>
    match (e.nodes t id).find? fun f => f.node.lo ≤ lo ∧ mid ≤ f.node.hi with
    | none => .error .fails
    | some f =>
      let t := divideNode f lo mid newPtr t
      let nodes := (e.nodes t id).map Rt.node
      if nodes.length ≤ maxNodeSize then .ok t
      else
        let sNodes := sort Node.rank nodes
        match splitN (nodes.length / 2) sNodes with
        | none => .error .fails
        | some (firstNodes, lastNodes) =>
          match path with
          | [] => splitRoot f.leaf id sNodes firstNodes lastNodes t
          | parId :: restPath =>
            let (t, newId) := splitInner f.leaf id firstNodes t
            match sNodes, lastNodes with
            | p :: _, q :: _ => updateParent restPath p.lo q.lo parId newId t
            | _, _ => .error .fails

/-- `split_leaves`. -/
def splitLeaves (ptr : Ptr) (keyVals : List (κ × List ν)) (numVals : Nat) (loKey : κ)
    (parId : Ptr) (path : List Ptr) (t : Tree κ ν) : Except Halt (Tree κ ν) :=
  match splitN (numVals / 2) (sort pairRank keyVals) with
  | none => .error .fails
  | some (firstKeyVals, lastKeyVals) =>
    let t := firstKeyVals.foldl (fun t p => t.retractVal ⟨ptr, p.1, p.2⟩) t
    let (t, newPtr) := t.mygensym
    let t := firstKeyVals.foldl (fun t p => t.assertVal ⟨newPtr, p.1, p.2⟩) t
    match lastKeyVals with
    | [] => .error .fails
    | (midKey, _) :: _ => updateParent e path loKey midKey parId newPtr t

/-- `add_to_range_tree`, in a leaf. -/
def addToLeaf (f : Rt κ) (path : List Ptr) (key : κ) (val : ν) (t : Tree κ ν) :
    Except Halt (Tree κ ν) :=
  let ptr := f.node.ptr
  match (e.values t ptr).find? fun r => r.key = key with
  | some r =>
    if val ∈ r.vals then .ok t
    else .ok ((t.retractallVal ptr key).assertVal ⟨ptr, key, val :: r.vals⟩)
  | none =>
    let t := t.assertVal ⟨ptr, key, [val]⟩
    let kVals := (e.values t ptr).map fun r => (r.key, r.vals)
    if kVals.length ≤ maxNodeSize then .ok t
    else splitLeaves e ptr kVals kVals.length f.node.lo f.id path t

/-- `add_to_range_tree`. The bound is on the depth of calls. -/
def addToRangeTree : Nat → Ptr → List Ptr → κ → ν → Tree κ ν → Except Halt (Tree κ ν)
  | 0, _, _, _, _, _ => .error .bound
  | n + 1, id, path, key, val, t =>
    match (e.nodes t id).find? fun f => f.node.lo ≤ key ∧ key ≤ f.node.hi ∧ key ≠ f.node.hi with
    | none => .error .fails
    | some f =>
      if f.leaf then addToLeaf e f path key val t
      else addToRangeTree n f.node.ptr (id :: path) key val t

end Insertion

/-! ### Deletion -/

section Deletion

variable (e : Enumeration κ ν)

/-- The first result among those of the solutions of a goal. -/
def firstOf {α β : Type*} (goal : α → Except Halt β) : List α → Except Halt β
  | [] => .error .fails
  | x :: xs =>
    match goal x with
    | .error .fails => firstOf goal xs
    | r => r

/-- `delete_uni`. -/
def deleteUni (val : ν) (vals : List ν) : List ν := vals.filter fun v => val ≠ v

/-- `delete_from_range_tree`, in a leaf. There is no value where it is a variable. -/
def deleteFromLeaf (ptr : Ptr) (key : κ) (val : Option ν) (t : Tree κ ν) : Tree κ ν :=
  match val with
  | none => t.retractallVal ptr key
  | some v =>
    ((e.values t ptr).filter fun r => r.key = key).foldl (fun t r =>
      let newVals := deleteUni v r.vals
      let t := t.retractallVal ptr key
      if newVals = [] then t else t.assertVal ⟨ptr, key, newVals⟩) t

/-- `delete_from_range_tree`. -/
def deleteFromRangeTree : Nat → Ptr → κ → Option ν → Tree κ ν → Except Halt (Tree κ ν)
  | 0, _, _, _, _ => .error .bound
  | n + 1, id, key, val, t =>
    firstOf (fun f =>
      if f.node.lo ≤ key ∧ key ≤ f.node.hi ∧ key ≠ f.node.hi then
        if f.leaf then .ok (deleteFromLeaf e f.node.ptr key val t)
        else deleteFromRangeTree n f.node.ptr key val t
      else .error .fails) (e.nodes t id)

end Deletion

/-! ### Retrieval -/

section Retrieval

variable (e : Enumeration κ ν)

/-- The argument for the key: a ground term, or the test that a key unifies with the argument. -/
inductive KeyArg (κ : Type*)
  | ground (key : κ)
  | pattern (unifies : κ → Bool)

/-- The key unifies with the argument. -/
def KeyArg.unifies : KeyArg κ → κ → Bool
  | ground key, k => key = k
  | pattern unifies, k => unifies k

/-- The solutions below the nodes, up to the one that is cut to. -/
def getFromNodes (lo hi : κ) (sub : Rt κ → Option (List (κ × List ν))) :
    List (Rt κ) → Option (List (κ × List ν))
  | [] => some []
  | f :: fs =>
    if f.node.lo ≤ hi ∧ lo ≤ f.node.hi then
      if f.node.lo ≤ lo ∧ hi ≤ f.node.hi ∧ hi ≠ f.node.hi then sub f
      else (sub f).bind fun l => (getFromNodes lo hi sub fs).map (l ++ ·)
    else getFromNodes lo hi sub fs

/-- The solutions in a leaf. -/
def getFromLeaf (lo hi : κ) (key : KeyArg κ) (t : Tree κ ν) (ptr : Ptr) : List (κ × List ν) :=
  ((e.values t ptr).filter fun r => key.unifies r.key ∧ lo ≤ r.key ∧ r.key ≤ hi).map
    fun r => (r.key, r.vals)

/-- `get_from_range_tree_vals`. -/
def getFromRangeTreeVals (lo hi : κ) (key : KeyArg κ) (t : Tree κ ν) :
    Nat → Ptr → Option (List (κ × List ν))
  | 0, _ => none
  | n + 1, id =>
    getFromNodes lo hi (fun f =>
      if f.leaf then some (getFromLeaf e lo hi key t f.node.ptr)
      else getFromRangeTreeVals lo hi key t n f.node.ptr) (e.nodes t id)

/-- `get_from_range_tree`: all solutions for the key and the value. -/
def getFromRangeTree (n : Nat) (lo hi : κ) (key : KeyArg κ) (t : Tree κ ν) :
    Option (List (κ × ν)) :=
  if lo ≤ hi then
    let vals :=
      match key with
      | .ground k =>
        if lo ≤ k ∧ k ≤ hi then getFromRangeTreeVals e k k key t n .root else some []
      | .pattern _ => getFromRangeTreeVals e lo hi key t n .root
    vals.map fun l => l.flatMap fun p => p.2.map fun v => (p.1, v)
  else some []

end Retrieval

/-! ### Trees -/

/-- The trees by their handles, and the counter. -/
structure Store (τ κ ν : Type*) where
  rt : τ → List (Rt κ)
  rtval : τ → List (RtVal κ ν)
  next : Nat

namespace Store

variable {τ : Type*} [DecidableEq τ]

/-- No trees, and the first value of the counter. -/
def start : Store τ κ ν := ⟨fun _ => [], fun _ => [], 5⟩

def tree (s : Store τ κ ν) (i : τ) : Tree κ ν := ⟨s.rt i, s.rtval i, s.next⟩

def put (s : Store τ κ ν) (i : τ) (t : Tree κ ν) : Store τ κ ν :=
  ⟨update s.rt i t.rt, update s.rtval i t.rtval, t.next⟩

end Store

/-- `init_range_tree`. -/
def initRangeTree (minValue maxValue : κ) (t : Tree κ ν) : Tree κ ν :=
  ⟨[⟨.root, true, ⟨minValue, maxValue, .one⟩⟩], [], t.next⟩

/-- `delete_range_tree`. -/
def deleteRangeTree (t : Tree κ ν) : Tree κ ν := ⟨[], [], t.next⟩

/-- The operations that change a tree. -/
inductive Op (κ ν : Type*)
  | init
  | add (key : κ) (val : ν)
  | delete (key : κ) (val : Option ν)
  | drop

/-- An operation on one tree. -/
def Op.exec (e : Enumeration κ ν) (minValue maxValue : κ) (n : Nat) :
    Op κ ν → Tree κ ν → Except Halt (Tree κ ν)
  | init, t => .ok (initRangeTree minValue maxValue t)
  | add key val, t => addToRangeTree e n .root [] key val t
  | delete key val, t => deleteFromRangeTree e n .root key val t
  | drop, t => .ok (deleteRangeTree t)

/-- A sequence of operations. One that fails changes nothing. -/
def run {τ : Type*} [DecidableEq τ] (e : Enumeration κ ν) (minValue maxValue : κ) (n : Nat) :
    List (τ × Op κ ν) → Store τ κ ν → Option (Store τ κ ν)
  | [], s => some s
  | (i, op) :: ops, s =>
    match op.exec e minValue maxValue n (s.tree i) with
    | .ok t => run e minValue maxValue n ops (s.put i t)
    | .error .fails => run e minValue maxValue n ops s
    | .error .bound => none

end Database

end XSBEngine.Ranges
