import Mathlib

/-!
# Basic trie nodes

Data of `XSB/emu/tries.h` and `XSB/emu/trie_internals.h`: node records with their
instruction and status bytes, hash tables, and the structure manager that hands out node
addresses. A sibling chain is the list of its nodes in the order of the sibling links, and
the header of a hash table is stored in the child field that points to it.
-/

namespace XSBEngine.Tries

/-- One byte of `InstrPlusType`. -/
abbrev Byte := BitVec 8

/-! ### Symbols -/

/-- The tags a symbol of a trie node can have. `TN_SetInstr` aborts on every other tag. -/
inductive SymbolTag where
  | trieVar
  | struct
  | int
  | list
  | string
  | float
  deriving DecidableEq, Repr

/-- A tagged word, with the bits above the tag as `val`. -/
structure Symbol where
  tag : SymbolTag
  val : Nat
  deriving DecidableEq, Repr

/-- `NEW_TRIEVAR_TAG`, `trie_internals.h:398`. -/
def newTrieVarTag : Nat := 0x10000

/-- `NEW_TRIEATTV_TAG`. -/
def newTrieAttvTag : Nat := 0x20000

/-- `TRIEVAR_INDEX_MASK`. -/
def trieVarIndexMask : Nat := 0xffff

/-- `EncodeNewTrieVar`. -/
def encodeNewTrieVar (index : Nat) : Symbol := ⟨.trieVar, index ||| newTrieVarTag⟩

/-- `EncodeNewTrieAttv`. -/
def encodeNewTrieAttv (index : Nat) : Symbol := ⟨.trieVar, index ||| newTrieAttvTag⟩

/-- `EncodeTrieVar`. -/
def encodeTrieVar (index : Nat) : Symbol := ⟨.trieVar, index⟩

/-- `EncodeTrieList`: the bare tag. -/
def encodeTrieList : Symbol := ⟨.list, 0⟩

/-- `EncodeTriePSC`, the word that refers to a PSC record. -/
def encodeTriePSC (psc : Nat) : Symbol := ⟨.struct, psc⟩

/-- `DecodeTrieVar`. -/
def decodeTrieVar (symbol : Symbol) : Nat := symbol.val &&& trieVarIndexMask

/-- `IsNewTrieVar`. -/
def isNewTrieVar (symbol : Symbol) : Bool := symbol.val &&& newTrieVarTag != 0

/-- `IsNewTrieAttv`. -/
def isNewTrieAttv (symbol : Symbol) : Bool := symbol.val &&& newTrieAttvTag != 0

/-- `TrieHash`, `trie_internals.h:525`. -/
def trieHash (symbol : Symbol) (hashSeed : Nat) : Nat :=
  if symbol.tag = .trieVar then 0 else symbol.val &&& hashSeed

theorem trieHash_le (symbol : Symbol) (hashSeed : Nat) : trieHash symbol hashSeed ≤ hashSeed := by
  unfold trieHash
  split
  · exact Nat.zero_le _
  · exact Nat.and_le_right

/-! ### Instructions -/

/-- Opcodes of `inst_xsb.h:240–293` that node maintenance stores. -/
def trieTryAttv : Byte := 0x5e
def trieTryStr : Byte := 0x62
def trieTryList : Byte := 0x66
def trieTryVar : Byte := 0x6a
def trieTryVal : Byte := 0x6e
def trieTryNumcon : Byte := 0x72
def trieRoot : Byte := 0x7d
def variantTrieTryVal : Byte := 0x8a
def trieNoCpFail : Byte := 0x90

/-- `TN_InstrCPType`, the choice point bits. -/
def cpType (instr : Byte) : Byte := instr &&& 0x3

/-- The bits of an instruction above the choice point bits. -/
def instrKind (instr : Byte) : Byte := instr &&& ~~~0x3

/-- `TN_RotateInstrCPtoRETRYorTRUST`. -/
def rotateInstrCP (instr : Byte) : Byte := instr + 1

/-- `TN_ForceInstrCPtoNOCP`. -/
def forceInstrCPtoNOCP (instr : Byte) : Byte := instr &&& ~~~0x3

/-- `TN_ForceInstrCPtoTRY`. -/
def forceInstrCPtoTRY (instr : Byte) : Byte := (instr &&& ~~~0x3) ||| 0x2

/-- `Contains_NOCP_Instr`, `Contains_TRUST_Instr`, `Contains_TRY_Instr` and
`Contains_RETRY_Instr` compare the choice point bits with these. -/
def nocpInstr : Byte := 0
def trustInstr : Byte := 1
def tryInstr : Byte := 2
def retryInstr : Byte := 3

/-! ### Node types -/

/-- `TRIE_ROOT_NT` and the other members of `Types_of_Trie_Nodes` that nodes have. -/
def trieRootNT : Byte := 0x08
def interiorNT : Byte := 0x00
def hashedNodeMask : Byte := 0x01
def leafNodeMask : Byte := 0x02

/-- `BASIC_ANSWER_TRIE_TT`, `CALL_TRIE_TT` and `INTERN_TRIE_TT`. -/
def basicAnswerTrieTT : Byte := 0x05
def callTrieTT : Byte := 0x06
def internTrieTT : Byte := 0x01

/-- `VALID_NODE_STATUS`. -/
def validNodeStatus : Byte := 0

/-! ### Records -/

/-- Address of a trie node; 0 is `NULL`. -/
abbrev BTNptr := Nat

/-- Header of a hash table, `BTHTptr`. The number of buckets is the length of the array. -/
structure BTHT where
  numContents : Int
  buckets : List (List BTNptr)
  deriving DecidableEq

/-- What the child field of a node points to. -/
inductive Child where
  | chain (nodes : List BTNptr)
  | hash (ht : BTHT)
  deriving DecidableEq

/-- `BasicTrieNode`. A record on the free list of the structure manager has `free` set: its
second word is `FREE_TRIE_NODE_MARK`. -/
structure BTN where
  instr : Byte
  status : Byte
  trieType : Byte
  nodeType : Byte
  child : Child
  parent : BTNptr
  symbol : Symbol
  free : Bool
  deriving DecidableEq

/-- The trie memory: node records, the free list and the next unused record of the structure
manager, and the variable that holds the root of the trie. -/
structure Trie where
  node : BTNptr → BTN
  freeList : List BTNptr
  nextStruct : BTNptr
  root : BTNptr

namespace BTHT

/-- `BTHT_NumBuckets`. -/
def numBuckets (ht : BTHT) : Nat := ht.buckets.length

/-- `BTHT_GetHashSeed`. -/
def hashSeed (ht : BTHT) : Nat := ht.numBuckets - 1

/-- The chain at `CalculateBucketForSymbol`. -/
def bucket (ht : BTHT) (symbol : Symbol) : List BTNptr :=
  ht.buckets.getD (trieHash symbol ht.hashSeed) []

/-- Overwrite the chain at `CalculateBucketForSymbol`. -/
def setBucket (ht : BTHT) (symbol : Symbol) (nodes : List BTNptr) : BTHT :=
  { ht with buckets := ht.buckets.set (trieHash symbol ht.hashSeed) nodes }

end BTHT

/-- All nodes below a child field. -/
def Child.nodes : Child → List BTNptr
  | .chain nodes => nodes
  | .hash ht => ht.buckets.flatten

namespace BTN

/-- `IsTrieRoot`. -/
def isTrieRoot (n : BTN) : Bool := n.nodeType == trieRootNT

/-- `IsLeafNode`. -/
def isLeafNode (n : BTN) : Bool := n.nodeType &&& leafNodeMask != 0

/-- `IsDeletedNode`. -/
def isDeletedNode (n : BTN) : Bool := n.status != validNodeStatus

/-- `MakeHashedNode`. -/
def makeHashedNode (n : BTN) : BTN := { n with nodeType := n.nodeType ||| hashedNodeMask }

/-- `MakeLeafNode`. -/
def makeLeafNode (n : BTN) : BTN := { n with nodeType := n.nodeType ||| leafNodeMask }

/-- Change the instruction byte. -/
def mapInstr (f : Byte → Byte) (n : BTN) : BTN := { n with instr := f n.instr }

end BTN

namespace Trie

/-- Overwrite the record at an address. -/
def modify (t : Trie) (p : BTNptr) (f : BTN → BTN) : Trie :=
  { t with node := Function.update t.node p (f (t.node p)) }

/-- Overwrite the child field of a node. -/
def setChild (t : Trie) (p : BTNptr) (child : Child) : Trie :=
  t.modify p fun n => { n with child := child }

/-- `SM_AllocateStruct`, `struct_manager.h:372`. -/
def allocateStruct (t : Trie) : Trie × BTNptr :=
  match t.freeList with
  | p :: rest => ({ t with freeList := rest }, p)
  | [] => ({ t with nextStruct := t.nextStruct + 1 }, t.nextStruct)

/-- `SM_DeallocateStruct`: the first word of the record, which holds its instruction and type
bytes, becomes the link of the free list. -/
def deallocateStruct (t : Trie) (p : BTNptr) : Trie :=
  let link := t.freeList.headD 0
  { t.modify p fun n =>
      { n with
        instr := BitVec.ofNat 8 link
        status := BitVec.ofNat 8 (link / 0x100)
        trieType := BitVec.ofNat 8 (link / 0x10000)
        nodeType := BitVec.ofNat 8 (link / 0x1000000)
        free := true } with
    freeList := p :: t.freeList }

/-- A record in use. -/
def Live (t : Trie) (p : BTNptr) : Prop := (t.node p).free = false

instance (t : Trie) (p : BTNptr) : Decidable (t.Live p) :=
  inferInstanceAs (Decidable ((t.node p).free = false))

@[simp] theorem modify_node_self (t : Trie) (p : BTNptr) (f : BTN → BTN) :
    (t.modify p f).node p = f (t.node p) := by
  simp [modify]

theorem modify_node_ne (t : Trie) {p q : BTNptr} (f : BTN → BTN) (h : q ≠ p) :
    (t.modify p f).node q = t.node q := by
  simp [modify, h]

@[simp] theorem modify_freeList (t : Trie) (p : BTNptr) (f : BTN → BTN) :
    (t.modify p f).freeList = t.freeList := rfl

@[simp] theorem modify_nextStruct (t : Trie) (p : BTNptr) (f : BTN → BTN) :
    (t.modify p f).nextStruct = t.nextStruct := rfl

end Trie

end XSBEngine.Tries
