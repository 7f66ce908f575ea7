import XSBEngine.Tries.DeleteBranch

/-!
# Basic tries over whole runs

States of a basic trie that insertions, soft deletions, revivals and deletions reach from an
empty root. Chains stay short there, so `hashify_children` always meets nine nodes.
-/

namespace XSBEngine.Tries

open Trie

variable {t t' : Trie} {p q c : BTNptr}

/-! ### Changes of one record -/

/-- Changes of a leaf that keep its place in the trie: instruction kind, status, leaf flag. -/
structure RecordUpdate (a b : BTN) : Prop where
  cp : cpType a.instr = cpType b.instr
  nodeType : b.nodeType.toNat < 4 → a.nodeType.toNat < 4
  child : a.child = b.child
  parent : a.parent = b.parent
  symbol : a.symbol = b.symbol
  free : a.free = b.free

section Modify

variable {f : BTN → BTN} (hf : RecordUpdate (f (t.node p)) (t.node p))
include hf

theorem RecordUpdate.fields (q : BTNptr) : cpType ((t.modify p f).node q).instr =
      cpType (t.node q).instr ∧
    ((t.modify p f).node q).child = (t.node q).child ∧
    ((t.modify p f).node q).parent = (t.node q).parent ∧
    ((t.modify p f).node q).symbol = (t.node q).symbol ∧
    ((t.modify p f).node q).free = (t.node q).free := by
  by_cases hq : q = p
  · rw [hq, modify_node_self]
    exact ⟨hf.cp, hf.child, hf.parent, hf.symbol, hf.free⟩
  · rw [modify_node_ne t f hq]
    exact ⟨rfl, rfl, rfl, rfl, rfl⟩

theorem RecordUpdate.live_iff (q : BTNptr) : (t.modify p f).Live q ↔ t.Live q := by
  rw [Live, (hf.fields q).2.2.2.2, Live]

theorem RecordUpdate.atPath_iff {w : List Symbol} :
    AtPath (t.modify p f) w q ↔ AtPath t w q := by
  constructor
  · intro h
    induction h with
    | root hr => exact .root hr
    | @step w c _ hl hn ih =>
      rw [(hf.fields c).2.2.2.1]
      exact .step (by rw [← (hf.fields c).2.2.1]; exact ih) ((hf.live_iff c).mp hl) hn
  · intro h
    induction h with
    | root hr => exact .root hr
    | @step w c _ hl hn ih =>
      rw [← (hf.fields c).2.2.2.1]
      exact .step (by rw [(hf.fields c).2.2.1]; exact ih) ((hf.live_iff c).mpr hl) hn

end Modify

theorem TrieWF.modify (hwf : TrieWF t) (hp : t.Live p) (hpr : p ≠ t.root) {f : BTN → BTN}
    (hf : RecordUpdate (f (t.node p)) (t.node p)) : TrieWF (t.modify p f) := by
  have hrec := hf.fields
  have hlive := hf.live_iff
  have hroot : (t.modify p f).root = t.root := rfl
  have hne : ∀ q, q ≠ p → (t.modify p f).node q = t.node q := fun q hq => modify_node_ne t f hq
  have hcps : ∀ nodes, CpsOK t.node nodes → CpsOK (t.modify p f).node nodes := by
    intro nodes h i hi
    rw [(hrec _).1]
    exact h i hi
  have hsyms : ∀ nodes, symbolsOf (t.modify p f).node nodes = symbolsOf t.node nodes :=
    fun nodes => symbolsOf_congr fun c _ => (hrec c).2.2.2.1
  constructor
  case alloc => exact hwf.alloc.congr rfl rfl fun q => (hrec q).2.2.2.2
  case root_zero => exact fun h q hq => hwf.root_zero h q ((hlive q).mp hq)
  case root_live =>
    intro h
    rw [hroot, hlive, hne _ (Ne.symm hpr)]
    exact hwf.root_live h
  case node_type =>
    intro q hq hqr
    have hlt := hwf.node_type q ((hlive q).mp hq) hqr
    by_cases hqp : q = p
    · subst hqp
      rw [modify_node_self]
      exact hf.nodeType hlt
    · rw [hne q hqp]
      exact hlt
  case child_ok =>
    intro q hq
    have hok := hwf.child_ok q ((hlive q).mp hq)
    rw [(hrec q).2.1]
    cases hch : (t.node q).child with
    | chain nodes =>
      rw [hch] at hok
      exact ⟨hcps _ hok.1, (hsyms nodes).symm ▸ hok.2⟩
    | hash ht =>
      rw [hch] at hok
      refine ⟨fun b hb => hcps b (hok.1 b hb), fun i b hb c hc => ?_, (hsyms _).symm ▸ hok.2.2.1,
        hok.2.2.2⟩
      rw [(hrec c).2.2.2.1]
      exact hok.2.1 i b hb c hc
  case child_live =>
    intro q hq c hc
    rw [(hrec q).2.1] at hc
    rw [hlive, hroot, (hrec c).2.2.1]
    exact hwf.child_live q ((hlive q).mp hq) c hc
  case parent_child =>
    intro c hc hcr
    rw [hlive, (hrec c).2.2.1, (hrec _).2.1]
    exact hwf.parent_child c ((hlive c).mp hc) hcr
  case reach =>
    intro q hq
    obtain ⟨w, hw⟩ := hwf.reach q ((hlive q).mp hq)
    exact ⟨w, hf.atPath_iff.mpr hw⟩

/-- Soft deletion and the marking of a leaf keep the choice point bits and the type of a node. -/
theorem leaf_updates : ∀ b : Byte, cpType ((b &&& 0x3) ||| trieNoCpFail) = cpType b ∧
    cpType (b + 4) = cpType b ∧ (b.toNat < 4 → (b ||| leafNodeMask).toNat < 4) := by
  decide +kernel

theorem safeDelete_update (a : BTN) : RecordUpdate
    { a with status := a.instr, instr := (a.instr &&& 0x3) ||| trieNoCpFail } a :=
  ⟨(leaf_updates a.instr).1, id, rfl, rfl, rfl, rfl⟩

theorem undelete_update (a : BTN) : RecordUpdate
    { a with instr := (0x3 &&& a.instr) ||| (~~~0x3 &&& a.status), status := validNodeStatus }
    a := by
  have key : ∀ b s : Byte, cpType ((0x3 &&& b) ||| (~~~0x3 &&& s)) = cpType b := by
    intro b s
    unfold cpType
    ext i hi
    simp only [BitVec.getElem_and, BitVec.getElem_or, BitVec.getElem_not]
    cases (3#8)[i] <;> simp
  exact ⟨key _ _, id, rfl, rfl, rfl, rfl⟩

theorem markNewLeaf_update (a : BTN) (constTag : Bool) :
    RecordUpdate (a.makeLeafNode.mapInstr (upgradeInstrTypeToSuccess constTag)) a := by
  refine ⟨?_, (leaf_updates a.nodeType).2.2, rfl, rfl, rfl, rfl⟩
  cases constTag
  · rfl
  · exact (leaf_updates a.instr).2.1

theorem CountsExact.modify (h : CountsExact t) {f : BTN → BTN}
    (hf : RecordUpdate (f (t.node p)) (t.node p)) : CountsExact (t.modify p f) := by
  intro q hq
  by_cases hqp : q = p
  · subst hqp
    rw [Live, modify_node_self, hf.free] at hq
    rw [modify_node_self, hf.child]
    exact h q hq
  · rw [Live, modify_node_ne t f hqp] at hq
    rw [modify_node_ne t f hqp]
    exact h q hq

/-! ### The root -/

/-- The memory before any trie exists. -/
def emptyTrie : Trie where
  node _ :=
    { instr := 0, status := 0, trieType := 0, nodeType := 0, child := .chain [], parent := 0,
      symbol := ⟨.int, 0⟩, free := true }
  freeList := []
  nextStruct := 1
  root := 0

theorem emptyTrie_wf : TrieWF emptyTrie where
  alloc := ⟨Nat.one_pos, List.nodup_nil, by simp [emptyTrie], by simp [Live, emptyTrie]⟩
  root_zero := by simp [Live, emptyTrie]
  root_live h := absurd rfl h
  node_type := by simp [Live, emptyTrie]
  child_ok := by simp [Live, emptyTrie]
  child_live := by simp [Live, emptyTrie]
  parent_child := by simp [Live, emptyTrie]
  reach := by simp [Live, emptyTrie]

/-- `newBasicTrie` leaves a single node. -/
theorem newBasicTrie_spec (hwf : TrieWF t) (hr : t.root = 0) (symbol : Symbol) (trieType : Byte) :
    TrieWF (t.newBasicTrie symbol trieType) ∧ (t.newBasicTrie symbol trieType).root ≠ 0 ∧
      (∀ q, (t.newBasicTrie symbol trieType).Live q ↔ q = (t.newBasicTrie symbol trieType).root) ∧
      ((t.newBasicTrie symbol trieType).node (t.newBasicTrie symbol trieType).root).child =
        .chain [] := by
  obtain ⟨-, hne, hnode, -, hlt, hle, hnd, hfree⟩ := hwf.alloc.allocateStruct
  have hnolive := hwf.root_zero hr
  have hnt : ¬ trieRootNT ≠ trieRootNT := fun h => h rfl
  generalize ht' : t.newBasicTrie symbol trieType = t'
  have hroot : t'.root = t.allocateStruct.2 := by
    rw [← ht']
    simp [newBasicTrie, newBtn]
  have hself : t'.node t'.root =
      { instr := trieRoot, status := validNodeStatus, trieType := trieType,
        nodeType := trieRootNT, child := .chain [], parent := 0, symbol := symbol,
        free := false } := by
    rw [hroot, ← ht']
    simp [newBasicTrie, newBtn]
  have hother : ∀ q, q ≠ t'.root → t'.node q = t.node q := by
    intro q hq
    rw [hroot] at hq
    rw [← ht']
    simp only [newBasicTrie, newBtn, if_neg hnt]
    rw [modify_node_ne _ _ hq, modify_node_ne _ _ hq, hnode]
  have hlive : ∀ q, t'.Live q ↔ q = t'.root := by
    intro q
    by_cases hq : q = t'.root
    · rw [hq, Live, hself]
      simp
    · rw [Live, hother q hq]
      exact iff_of_false (hnolive q) hq
  have hfl : t'.freeList = t.allocateStruct.1.freeList := by
    rw [← ht']
    simp [newBasicTrie, newBtn]
  have hns : t'.nextStruct = t.allocateStruct.1.nextStruct := by
    rw [← ht']
    simp [newBasicTrie, newBtn]
  have hr0 : t'.root ≠ 0 := hroot ▸ hne
  refine ⟨?_, hr0, hlive, by rw [hself]⟩
  constructor
  case alloc =>
    constructor
    case next_pos => exact hns ▸ lt_of_lt_of_le hwf.alloc.next_pos hle
    case free_nodup => exact hfl ▸ hnd
    case free_free =>
      intro q hq
      rw [hfl] at hq
      obtain ⟨hqf, hqn⟩ := hfree q hq
      obtain ⟨-, hq0, hqlt⟩ := hwf.alloc.free_free q hqf
      rw [hlive, hroot]
      exact ⟨hqn, hq0, hns ▸ lt_of_lt_of_le hqlt hle⟩
    case live_lt =>
      intro q hq
      rw [(hlive q).mp hq]
      exact ⟨hr0, by rw [hns, hroot]; exact hlt⟩
  case root_zero => exact fun h => absurd h hr0
  case root_live => exact fun _ => ⟨(hlive _).mpr rfl, by rw [hself]; rfl, by rw [hself]⟩
  case node_type => exact fun q hq hqr => absurd ((hlive q).mp hq) hqr
  case child_ok =>
    intro q hq
    rw [(hlive q).mp hq, hself]
    exact childOK_nil _
  case child_live =>
    intro q hq c hc
    rw [(hlive q).mp hq, hself] at hc
    exact absurd hc List.not_mem_nil
  case parent_child => exact fun q hq hqr => absurd ((hlive q).mp hq) hqr
  case reach =>
    intro q hq
    rw [(hlive q).mp hq]
    exact ⟨[], .root hr0⟩

/-! ### Short chains -/

/-- No chain is longer than `MAX_SIBLING_LEN`. -/
def ShortChains (t : Trie) : Prop :=
  ∀ p nodes, t.Live p → (t.node p).child = .chain nodes → nodes.length ≤ maxSiblingLen

theorem searchSibling_lt {symbol : Symbol} {chain : List BTNptr}
    (h : (t.searchSibling symbol chain).1 = some q) :
    (t.searchSibling symbol chain).2 < chain.length := by
  induction chain with
  | nil => simp [searchSibling] at h
  | cons x rest ih =>
    unfold searchSibling at h ⊢
    split at h
    next hx => simp [hx]
    next hx =>
      rw [if_neg hx]
      exact Nat.succ_lt_succ (ih h)

/-- In a trie of short chains only chains of nine nodes are hashed. -/
theorem ShortChains.hashifyExact (h : ShortChains t) (hp : t.Live p) (expand : Bool)
    (symbol : Symbol) : HashifyExact expand t p symbol := by
  intro _ nodes hchain
  have hlen := h p nodes hp hchain
  cases hs : t.searchSibling symbol nodes with
  | mk found count =>
    cases found with
    | some q =>
      have hlt := searchSibling_lt (congrArg Prod.fst hs)
      rw [hs] at hlt
      intro hcount
      simp only at hlt
      omega
    | none =>
      intro hcount
      omega

/-- The chain below the parent after an insertion with hashing. -/
theorem nodeChkIns_chain (t : Trie) (paren : BTNptr) (item : Symbol) (intrn : Option Symbol)
    (trieType : Byte) {nodes : List BTNptr}
    (hshort : ∀ nodes, (t.node paren).child = .chain nodes → nodes.length ≤ maxSiblingLen)
    (h : ((nodeChkIns true t paren item intrn trieType).trie.node paren).child = .chain nodes) :
    nodes.length ≤ maxSiblingLen := by
  unfold nodeChkIns at h
  split at h
  next =>
    rw [setChild_self] at h
    cases h
    exact Nat.one_le_iff_ne_zero.mpr (by decide)
  next ht hhash =>
    simp only at h
    split at h
    next hf =>
      rcases isInsibling_cases t (ht.bucket (intrn.getD item)) item intrn trieType paren with
        ⟨x, count, -, hr⟩ | ⟨t₁, n, -, -, hr⟩
      · rw [hr] at h
        exact hshort _ h
      · rw [hr] at hf
        exact absurd hf (by simp)
    next =>
      split at h
      · rw [expandTrieHt, setChild_self] at h
        cases h
      · rw [setChild_self] at h
        cases h
  next x rest hchain =>
    simp only at h
    split at h
    next =>
      rw [hashifyChildren, setChild_self] at h
      cases h
    next hn =>
      rw [setChild_self] at h
      rcases isInsibling_cases t (x :: rest) item intrn trieType paren with
        ⟨y, count, -, hr⟩ | ⟨t₁, n, -, -, hr⟩
      · rw [hr] at h
        cases h
        exact hshort _ hchain
      · rw [hr] at h hn
        cases h
        simp only [true_and, not_lt] at hn
        exact hn

theorem ShortChains.chkIns (h : ShortChains t) (hwf : TrieWF t) {paren : BTNptr}
    (hp : t.Live paren) (item : Symbol) (intrn : Option Symbol) (trieType : Byte) :
    ShortChains (t.oneBtnChkIns paren item intrn trieType).trie := by
  have hspec : ChkInsSpec t paren (intrn.getD item) _
      (nodeChkIns true t paren item intrn trieType) :=
    nodeChkIns_spec _ hwf hp
  intro q nodes hq hchain
  by_cases hqp : q = paren
  · subst hqp
    exact nodeChkIns_chain t q item intrn trieType (fun nodes hc => h q nodes hp hc) hchain
  by_cases hql : t.Live q
  · rw [oneBtnChkIns, (hspec.kept q hql).2 hqp] at hchain
    exact h q nodes hql hchain
  · have hqn := ((hspec.live q).mp hq).resolve_left hql
    have hfound : (nodeChkIns true t paren item intrn trieType).found = false := by
      cases hf : (nodeChkIns true t paren item intrn trieType).found
      · rfl
      · exact absurd (hqn ▸ hspec.found.mp hf) hql
    rw [oneBtnChkIns, hqn, (hspec.new hfound).1] at hchain
    cases hchain
    exact Nat.zero_le _

theorem ShortChains.modify (h : ShortChains t) {f : BTN → BTN}
    (hf : RecordUpdate (f (t.node p)) (t.node p)) : ShortChains (t.modify p f) := by
  intro q nodes hq hchain
  by_cases hqp : q = p
  · subst hqp
    rw [modify_node_self, hf.child] at hchain
    rw [Live, modify_node_self, hf.free] at hq
    exact h q nodes hq hchain
  · rw [modify_node_ne t f hqp] at hchain
    rw [Live, modify_node_ne t f hqp] at hq
    exact h q nodes hq hchain

theorem ShortChains.delete (h : ShortChains t) (hd : DeleteSpec t t' c) : ShortChains t' := by
  intro q nodes hq hchain
  rcases hd.chain q nodes hq hchain with rfl | ⟨nodes', hn, hle⟩
  · exact Nat.zero_le _
  · exact hle.trans (h q nodes' (hd.sub q hq) hn)

/-! ### Runs -/

/-- A leaf: a node in use below the root that has no children. -/
def IsLeaf (t : Trie) (p : BTNptr) : Prop :=
  t.Live p ∧ p ≠ t.root ∧ (t.node p).child = .chain []

/-- The basic tries that can be built. -/
inductive Reachable : Trie → Prop where
  | empty : Reachable emptyTrie
  | newRoot {t : Trie} (symbol : Symbol) (trieType : Byte) :
      Reachable t → t.root = 0 → Reachable (t.newBasicTrie symbol trieType)
  | insert {t : Trie} (paren : BTNptr) (item : Symbol) (intrn : Option Symbol) (trieType : Byte) :
      Reachable t → t.Live paren → Reachable (t.oneBtnChkIns paren item intrn trieType).trie
  | newLeaf {t : Trie} (leaf : BTNptr) (constTag : Bool) :
      Reachable t → IsLeaf t leaf → Reachable (t.markNewLeaf leaf constTag)
  | safeDelete {t : Trie} (leaf : BTNptr) :
      Reachable t → IsLeaf t leaf → Reachable (t.safeDeleteBranch leaf)
  | undelete {t : Trie} (leaf : BTNptr) :
      Reachable t → IsLeaf t leaf → Reachable (t.undeleteBranch leaf)
  | delete {t t' : Trie} (leaf : BTNptr) (hook : Hook) :
      Reachable t → IsLeaf t leaf → HookFits t leaf hook → t.deleteBranch leaf hook = some t' →
      Reachable t'

/-- The invariant holds in every trie that can be built. -/
theorem Reachable.wf (h : Reachable t) : TrieWF t ∧ CountsExact t ∧ ShortChains t := by
  induction h with
  | empty =>
    exact ⟨emptyTrie_wf, by simp [CountsExact, Live, emptyTrie],
      by simp [ShortChains, Live, emptyTrie]⟩
  | newRoot symbol trieType _ hr ih =>
    obtain ⟨hwf, -, hlive, hchild⟩ := newBasicTrie_spec ih.1 hr symbol trieType
    refine ⟨hwf, fun q hq => ?_, fun q nodes hq hc => ?_⟩
    · rw [(hlive q).mp hq, hchild]
      trivial
    · rw [(hlive q).mp hq, hchild] at hc
      cases hc
      exact Nat.zero_le _
  | insert paren item intrn trieType _ hp ih =>
    exact ⟨(nodeChkIns_spec _ ih.1 hp).wf,
      nodeChkIns_countsExact ih.1 hp ih.2.1 (ih.2.2.hashifyExact hp true _),
      ih.2.2.chkIns ih.1 hp item intrn trieType⟩
  | @newLeaf t leaf constTag _ hl ih =>
    have hu := markNewLeaf_update (t.node leaf) constTag
    exact ⟨ih.1.modify hl.1 hl.2.1 hu, ih.2.1.modify hu, ih.2.2.modify hu⟩
  | @safeDelete t leaf _ hl ih =>
    have hu := safeDelete_update (t.node leaf)
    exact ⟨ih.1.modify hl.1 hl.2.1 hu, ih.2.1.modify hu, ih.2.2.modify hu⟩
  | @undelete t leaf _ hl ih =>
    unfold undeleteBranch
    split
    · have hu := undelete_update (t.node leaf)
      exact ⟨ih.1.modify hl.1 hl.2.1 hu, ih.2.1.modify hu, ih.2.2.modify hu⟩
    · exact ih
  | delete leaf hook _ hl hh hd ih =>
    obtain ⟨t', ht', hspec⟩ := deleteBranch_spec ih.1 ih.2.1 hl.1 hl.2.2 hh
    rw [hd] at ht'
    cases ht'
    exact ⟨hspec.wf, hspec.exact, ih.2.2.delete hspec⟩

/-- Every level of every reachable trie is in order, and every leaf can be deleted. -/
theorem reachable_levels_ok (h : Reachable t) :
    (∀ p, t.Live p → ChildOK t.node (t.node p).child ∧ CountOK (t.node p).child) ∧
      ∀ leaf hook, IsLeaf t leaf → HookFits t leaf hook →
        ∃ t', t.deleteBranch leaf hook = some t' := by
  obtain ⟨hwf, hcounts, -⟩ := h.wf
  refine ⟨fun p hp => ⟨hwf.child_ok p hp, hcounts p hp⟩, fun leaf hook hl hh => ?_⟩
  obtain ⟨t', ht', -⟩ := deleteBranch_spec hwf hcounts hl.1 hl.2.2 hh
  exact ⟨t', ht'⟩

/-- A root with a deleted leaf for the integer 7. -/
def deletedLeaf : Trie :=
  let t := emptyTrie.newBasicTrie ⟨.int, 0⟩ internTrieTT
  let r := t.oneBtnChkIns t.root ⟨.int, 7⟩ none internTrieTT
  r.trie.safeDeleteBranch r.node

theorem deletedLeaf_levels_ok :
    ChildOK deletedLeaf.node (.chain [2]) ∧ ∃ t', deletedLeaf.deleteBranch 2 .root = some t' := by
  have hroot : Reachable (emptyTrie.newBasicTrie ⟨.int, 0⟩ internTrieTT) :=
    .newRoot _ _ .empty rfl
  have hreach : Reachable deletedLeaf :=
    .safeDelete 2 (.insert 1 ⟨.int, 7⟩ none internTrieTT hroot rfl) ⟨rfl, by decide, rfl⟩
  obtain ⟨hok, hdel⟩ := reachable_levels_ok hreach
  exact ⟨(hok 1 rfl).1, hdel 2 .root ⟨rfl, by decide, rfl⟩ (.inl rfl)⟩

end XSBEngine.Tries
