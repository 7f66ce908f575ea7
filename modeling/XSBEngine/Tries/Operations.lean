import XSBEngine.Tries.Node

/-!
# Operations on basic tries

Insertion of one symbol below a node (`XSB/emu/tries.c:447–629`) and deletion of branches
(`XSB/emu/tr_utils.c:1021–1217`).
-/

namespace XSBEngine.Tries

/-! ### New nodes -/

/-- `TN_SetInstr`, `trie_internals.h:104`. -/
def tnSetInstr (symbol : Symbol) (intrn : Bool) (trieType : Byte) : Byte :=
  match symbol.tag with
  | .struct => if intrn then trieTryNumcon else trieTryStr
  | .int => trieTryNumcon
  | .string => trieTryNumcon
  | .float => trieTryNumcon
  | .trieVar =>
    if isNewTrieVar symbol then trieTryVar
    else if isNewTrieAttv symbol then trieTryAttv
    else if trieType = basicAnswerTrieTT then variantTrieTryVal
    else trieTryVal
  | .list => if intrn then trieTryNumcon else trieTryList

namespace Trie

/-- `TN_ResetInstrCPs`, `trie_internals.h:142`, with the chain the node is put before. -/
def resetInstrCPs (t : Trie) (head : BTNptr) : List BTNptr → Trie
  | sibling :: _ => t.modify sibling (BTN.mapInstr rotateInstrCP)
  | [] => t.modify head (BTN.mapInstr fun instr => instr - 2)

/-- `new_btn`, `tries.c:324`, through `TN_Init`. The interned item is absent when it is 0. -/
def newBtn (t : Trie) (trieType nodeType : Byte) (item : Symbol) (intrn : Option Symbol)
    (parent : BTNptr) (sibling : List BTNptr) : Trie × BTNptr :=
  let (t, p) := t.allocateStruct
  let t :=
    if nodeType ≠ trieRootNT then
      (t.modify p fun n => { n with instr := tnSetInstr item intrn.isSome trieType }).resetInstrCPs
        p sibling
    else t.modify p fun n => { n with instr := trieRoot }
  (t.modify p fun n =>
    { n with
      status := validNodeStatus
      trieType := trieType
      nodeType := nodeType
      symbol := intrn.getD item
      parent := parent
      child := .chain []
      free := false }, p)

/-- `newBasicTrie` assigned to the root variable. -/
def newBasicTrie (t : Trie) (symbol : Symbol) (trieType : Byte) : Trie :=
  let (t, p) := t.newBtn trieType trieRootNT symbol none 0 []
  { t with root := p }

/-! ### Insertion -/

/-- The search loop of `IsInsibling`: the node with this symbol, and the number of nodes
passed. -/
def searchSibling (t : Trie) (symbol : Symbol) : List BTNptr → Option BTNptr × Nat
  | [] => (none, 0)
  | p :: rest =>
    if (t.node p).symbol = symbol then (some p, 0)
    else ((t.searchSibling symbol rest).1, (t.searchSibling symbol rest).2 + 1)

/-- What `IsInsibling` leaves in its arguments. -/
structure Insibling where
  trie : Trie
  wherefrom : List BTNptr
  found : Bool
  node : BTNptr
  count : Nat

/-- `IsInsibling`, `tries.c:413`. -/
def isInsibling (t : Trie) (wherefrom : List BTNptr) (item : Symbol) (intrn : Option Symbol)
    (trieType : Byte) (paren : BTNptr) : Insibling :=
  match t.searchSibling (intrn.getD item) wherefrom with
  | (some p, count) => ⟨t, wherefrom, true, p, count⟩
  | (none, count) =>
    let (t, p) := t.newBtn trieType interiorNT item intrn paren wherefrom
    ⟨t, p :: wherefrom, false, p, count + 1⟩

/-- `TrieHT_InsertNode`, `trie_internals.h:598`. -/
def trieHTInsertNode (t : Trie) (bucketArray : List (List BTNptr)) (hashSeed : Nat) (p : BTNptr) :
    Trie × List (List BTNptr) :=
  let b := trieHash (t.node p).symbol hashSeed
  match bucketArray.getD b [] with
  | [] => (t.modify p (BTN.mapInstr forceInstrCPtoNOCP), bucketArray.set b [p])
  | q :: rest =>
    ((t.modify p (BTN.mapInstr forceInstrCPtoTRY)).modify q (BTN.mapInstr rotateInstrCP),
      bucketArray.set b (p :: q :: rest))

/-- `TrieHT_INIT_SIZE`. -/
def trieHTInitSize : Nat := 64

/-- `MAX_SIBLING_LEN`. -/
def maxSiblingLen : Nat := 8

/-- `BUCKET_CONTENT_THRESHOLD`. -/
def bucketContentThreshold : Nat := maxSiblingLen / 2

/-- The loop of `hashify_children` over the former chain. -/
def hashifyLoop (nodes : List BTNptr) (t : Trie) (tablebase : List (List BTNptr))
    (hashseed : Nat) : Trie × List (List BTNptr) :=
  nodes.foldl (fun (t, tablebase) btn =>
    let (t, tablebase) := t.trieHTInsertNode tablebase hashseed btn
    (t.modify btn BTN.makeHashedNode, tablebase)) (t, tablebase)

/-- `hashify_children`, `tries.c:542`. `New_BTHT` sets the number of contents to
`MAX_SIBLING_LEN + 1`. -/
def hashifyChildren (t : Trie) (parent : BTNptr) : Trie :=
  let (t, tablebase) := hashifyLoop (t.node parent).child.nodes t
    (List.replicate trieHTInitSize []) (trieHTInitSize - 1)
  t.setChild parent (.hash { numContents := maxSiblingLen + 1, buckets := tablebase })

/-- The inner loop of `expand_trie_ht`: move the nodes of one bucket. -/
def rehashBucket (nodes : List BTNptr) (t : Trie) (bucketArray : List (List BTNptr))
    (mask : Nat) : Trie × List (List BTNptr) :=
  nodes.foldl (fun (t, bucketArray) curNode => t.trieHTInsertNode bucketArray mask curNode)
    (t, bucketArray)

/-- The loop of `expand_trie_ht` over the lower buckets. -/
def rehashLoop (lower : List Nat) (t : Trie) (bucketArray : List (List BTNptr)) (mask : Nat) :
    Trie × List (List BTNptr) :=
  lower.foldl (fun (t, bucketArray) bucket =>
    rehashBucket (bucketArray.getD bucket []) t (bucketArray.set bucket []) mask) (t, bucketArray)

/-- `expand_trie_ht`, `tries.c:596`, for the table below `parent`. -/
def expandTrieHt (t : Trie) (parent : BTNptr) (ht : BTHT) : Trie :=
  let newSize := ht.numBuckets <<< 1
  let (t, bucketArray) := rehashLoop (List.range ht.numBuckets) t
    (ht.buckets ++ List.replicate (newSize - ht.numBuckets) []) (newSize - 1)
  t.setChild parent (.hash { ht with buckets := bucketArray })

/-- What an insertion leaves in `Found` and `Paren`. -/
structure ChkIns where
  trie : Trie
  found : Bool
  node : BTNptr

/-- Common text of `one_btn_chk_ins` and `one_interned_node_chk_ins`. The flag says whether a
long chain is hashed and a full table expanded. -/
def nodeChkIns (expand : Bool) (t : Trie) (paren : BTNptr) (item : Symbol)
    (intrn : Option Symbol) (trieType : Byte) : ChkIns :=
  match (t.node paren).child with
  | .chain [] =>
    let (t, p) := t.newBtn trieType interiorNT item intrn paren []
    ⟨t.setChild paren (.chain [p]), false, p⟩
  | .hash ht =>
    let symbol := intrn.getD item
    let r := t.isInsibling (ht.bucket symbol) item intrn trieType paren
    if r.found then ⟨r.trie, true, r.node⟩
    else
      let t := r.trie.modify r.node BTN.makeHashedNode
      let ht := { ht.setBucket symbol r.wherefrom with numContents := ht.numContents + 1 }
      let t := t.setChild paren (.hash ht)
      if expand ∧ r.count > bucketContentThreshold ∧ ht.numContents > ht.numBuckets then
        ⟨t.expandTrieHt paren ht, false, r.node⟩
      else ⟨t, false, r.node⟩
  | .chain (q :: rest) =>
    let r := t.isInsibling (q :: rest) item intrn trieType paren
    let t := r.trie.setChild paren (.chain r.wherefrom)
    if expand ∧ r.count > maxSiblingLen then ⟨t.hashifyChildren paren, r.found, r.node⟩
    else ⟨t, r.found, r.node⟩

/-- `one_btn_chk_ins`, `tries.c:506`. -/
def oneBtnChkIns (t : Trie) (paren : BTNptr) (item : Symbol) (intrn : Option Symbol)
    (trieType : Byte) : ChkIns :=
  nodeChkIns true t paren item intrn trieType

/-- `one_interned_node_chk_ins`, `tries.c:2551`. -/
def oneInternedNodeChkIns (expand : Bool) (t : Trie) (paren : BTNptr) (item : Symbol)
    (trieType : Byte) : ChkIns :=
  nodeChkIns expand t paren item none trieType

/-- `TN_UpgradeInstrTypeToSUCCESS`. No symbol of the model is an interned string. -/
def upgradeInstrTypeToSuccess (constTag : Bool) (instr : Byte) : Byte :=
  if constTag then instr + 4 else instr

/-- Maintenance of a new leaf, `tries.c:2757`, with whether the last tag is that of a
constant. -/
def markNewLeaf (t : Trie) (leaf : BTNptr) (constTag : Bool) : Trie :=
  t.modify leaf fun n => n.makeLeafNode.mapInstr (upgradeInstrTypeToSuccess constTag)

/-! ### Deletion -/

/-- The location `hook` of `delete_branch`: the root variable or a child field. -/
inductive Hook where
  | root
  | child (p : BTNptr)
  deriving DecidableEq

/-- What the hook points to. -/
def hookChild (t : Trie) : Hook → Child
  | .root => .chain [t.root]
  | .child p => (t.node p).child

/-- Overwrite the table a hook points to. -/
def setHookTable (t : Trie) (hook : Hook) (ht : BTHT) : Trie :=
  match hook with
  | .root => t
  | .child p => t.setChild p (.hash ht)

/-- `*hook = 0`. -/
def clearHook (t : Trie) : Hook → Trie
  | .root => { t with root := 0 }
  | .child p => t.setChild p (.chain [])

/-- `set_parent_and_node_hook`, `tr_utils.c:1032`. -/
def setParentAndNodeHook (t : Trie) (current : BTNptr) (rootHook : Hook) : BTNptr × Hook :=
  let par :=
    if (t.node current).isTrieRoot then 0
    else if (t.node current).parent ≠ 0 ∧ rootHook = .child (t.node current).parent then 0
    else (t.node current).parent
  (par, if par = 0 then rootHook else .child par)

/-- Deallocation guarded by the test for `FREE_TRIE_NODE_MARK`. -/
def deallocateOnce (t : Trie) (p : BTNptr) : Trie :=
  if (t.node p).free then t else t.deallocateStruct p

/-- The nodes behind a node of a chain, `BTN_Sibling`. -/
def siblingsAfter (node : BTNptr) (chain : List BTNptr) : List BTNptr :=
  (chain.dropWhile (· ≠ node)).tail

/-- The search loop of `get_prev_sibl`. -/
def prevSibl (node : BTNptr) : List BTNptr → Option BTNptr
  | [] => none
  | [_] => none
  | p :: q :: rest => if q = node then some p else prevSibl node (q :: rest)

/-- The chain or bucket that holds a node. -/
def siblingChain (t : Trie) (p : BTNptr) : List BTNptr :=
  match (t.node (t.node p).parent).child with
  | .chain nodes => nodes
  | .hash ht => ht.bucket (t.node p).symbol

/-- Overwrite the chain or bucket that holds a node; the contents of a table are counted down. -/
def setSiblingChain (t : Trie) (p : BTNptr) (nodes : List BTNptr) : Trie :=
  match (t.node (t.node p).parent).child with
  | .chain _ => t.setChild (t.node p).parent (.chain nodes)
  | .hash ht =>
    t.setChild (t.node p).parent
      (.hash { ht.setBucket (t.node p).symbol nodes with numContents := ht.numContents - 1 })

/-- The end of `delete_branch`, `tr_utils.c:1149–1181`: unlink a node that has siblings. A run
into `xsb_abort` or through a null pointer has no result. -/
def deleteLowest (t : Trie) (current : BTNptr) (hook : Hook) : Option Trie :=
  if current = 0 then some (t.clearHook hook)
  else if cpType (t.node current).instr = tryInstr then
    match siblingsAfter current (t.siblingChain current) with
    | [] => none
    | sibling :: rest =>
      let t := t.modify sibling (BTN.mapInstr fun instr => instr - 1)
      some ((t.setSiblingChain current (sibling :: rest)).deallocateOnce current)
  else
    match prevSibl current (t.siblingChain current) with
    | none => none
    | some prev =>
      let t := t.setSiblingChain current ((t.siblingChain current).erase current)
      let t :=
        if cpType (t.node current).instr = trustInstr then
          t.modify prev (BTN.mapInstr fun instr => instr - 2)
        else t
      some (t.deallocateOnce current)

/-- The loop of `delete_branch`, `tr_utils.c:1101–1147`, up a path without branches. The first
argument bounds the iterations. -/
def deleteLoop : Nat → Trie → BTNptr → Hook → Option Trie
  | 0, _, _, _ => none
  | fuel + 1, t, current, hook =>
    if current ≠ 0 ∧
        (cpType (t.node current).instr = nocpInstr ∨ (t.node current).isTrieRoot) then
      let (parent, curHook) := t.setParentAndNodeHook current hook
      match t.hookChild curHook with
      | .hash ht =>
        let ht :=
          { ht.setBucket (t.node current).symbol [] with numContents := ht.numContents - 1 }
        let t := t.setHookTable curHook ht
        if 0 < ht.numContents then some (t.deallocateOnce current)
        else if (t.node current).free then some t
        else deleteLoop fuel (t.deallocateStruct current) parent hook
      | .chain _ =>
        if (t.node current).free then some t
        else deleteLoop fuel (t.deallocateStruct current) parent hook
    else t.deleteLowest current hook

/-- `delete_branch`, `tr_utils.c:1088`. No path is longer than the number of records. -/
def deleteBranch (t : Trie) (lowestNodeInBranch : BTNptr) (hook : Hook) : Option Trie :=
  deleteLoop (t.nextStruct + 1) t lowestNodeInBranch hook

/-- `safe_delete_branch`, `tr_utils.c:1185`. -/
def safeDeleteBranch (t : Trie) (lowestNodeInBranch : BTNptr) : Trie :=
  t.modify lowestNodeInBranch fun n =>
    { n with status := n.instr, instr := (n.instr &&& 0x3) ||| trieNoCpFail }

/-- `undelete_branch`, `tr_utils.c:1195`. -/
def undeleteBranch (t : Trie) (lowestNodeInBranch : BTNptr) : Trie :=
  if (t.node lowestNodeInBranch).isDeletedNode then
    t.modify lowestNodeInBranch fun n =>
      { n with instr := (0x3 &&& n.instr) ||| (~~~0x3 &&& n.status), status := validNodeStatus }
  else t

end Trie

end XSBEngine.Tries
