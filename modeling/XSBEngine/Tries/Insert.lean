import XSBEngine.Tries.Table

/-!
# Insertion keeps the invariant

`one_btn_chk_ins` and `one_interned_node_chk_ins` find or add one child. Adding keeps the
invariant, except that hashing a chain is right only for a chain of nine nodes, the number
that `New_BTHT` writes down.
-/

namespace XSBEngine.Tries

open List Trie

variable {t t' : Trie} {p q paren : BTNptr} {item : Symbol} {intrn : Option Symbol}
  {trieType : Byte} {expand : Bool}

/-! ### Allocation -/

/-- The new record of `new_btn` for a node that is not a root. -/
def newRecord (trieType : Byte) (item : Symbol) (intrn : Option Symbol) (parent : BTNptr)
    (sibling : List BTNptr) : BTN where
  instr :=
    if sibling = [] then tnSetInstr item intrn.isSome trieType - 2
    else tnSetInstr item intrn.isSome trieType
  status := validNodeStatus
  trieType := trieType
  nodeType := interiorNT
  child := .chain []
  parent := parent
  symbol := intrn.getD item
  free := false

theorem tnSetInstr_try (symbol : Symbol) (intrn : Bool) (trieType : Byte) :
    cpType (tnSetInstr symbol intrn trieType) = tryInstr := by
  unfold tnSetInstr
  split <;> repeat' split
  all_goals decide

theorem newRecord_cpType (trieType : Byte) (item : Symbol) (intrn : Option Symbol)
    (parent : BTNptr) (sibling : List BTNptr) :
    cpType (newRecord trieType item intrn parent sibling).instr =
      if sibling = [] then nocpInstr else tryInstr := by
  have htry := tnSetInstr_try item intrn.isSome trieType
  unfold newRecord
  split
  · exact (sub_two_try htry).1
  · exact htry

theorem newRecord_kind (trieType : Byte) (item : Symbol) (intrn : Option Symbol)
    (parent : BTNptr) (sibling : List BTNptr) :
    instrKind (newRecord trieType item intrn parent sibling).instr =
      instrKind (tnSetInstr item intrn.isSome trieType) := by
  have htry := tnSetInstr_try item intrn.isSome trieType
  unfold newRecord
  split
  · exact (sub_two_try htry).2
  · rfl

/-- Effect of `new_btn` before a chain of nodes in use. -/
structure NewBtnSpec (t t' : Trie) (p : BTNptr) (rec : BTN) (sibling : List BTNptr) : Prop where
  fresh : ¬ t.Live p
  alloc : AllocOK t'
  root : t'.root = t.root
  record : t'.node p = rec
  head : ∀ q rest, sibling = q :: rest → t'.node q = (t.node q).mapInstr rotateInstrCP
  other : ∀ q, q ≠ p → sibling.head? ≠ some q → t'.node q = t.node q

theorem AllocOK.allocateStruct (h : AllocOK t) :
    ¬ t.Live t.allocateStruct.2 ∧ t.allocateStruct.2 ≠ 0 ∧ t.allocateStruct.1.node = t.node ∧
      t.allocateStruct.1.root = t.root ∧
      t.allocateStruct.2 < t.allocateStruct.1.nextStruct ∧
      t.nextStruct ≤ t.allocateStruct.1.nextStruct ∧
      t.allocateStruct.1.freeList.Nodup ∧
      ∀ q ∈ t.allocateStruct.1.freeList, q ∈ t.freeList ∧ q ≠ t.allocateStruct.2 := by
  unfold Trie.allocateStruct
  cases hf : t.freeList with
  | nil =>
    refine ⟨fun hl => absurd (h.live_lt _ hl).2 (lt_irrefl _), h.next_pos.ne', rfl, rfl,
      Nat.lt_succ_self _, Nat.le_succ _, by simp, fun q hq => by simp at hq⟩
  | cons p rest =>
    obtain ⟨hnl, hne, hlt⟩ := h.free_free p (by rw [hf]; exact mem_cons_self ..)
    have hnd := nodup_cons.mp (hf ▸ h.free_nodup)
    refine ⟨hnl, hne, rfl, rfl, hlt, Nat.le_refl _, hnd.2,
      fun q hq => ⟨mem_cons_of_mem _ hq, fun he => hnd.1 ?_⟩⟩
    have hqp : q = p := he
    exact hqp ▸ hq

variable {sibling : List BTNptr} {symbol : Symbol}

theorem newBtn_spec (h : AllocOK t) (hs : ∀ c ∈ sibling, t.Live c)
    (trieType : Byte) (item : Symbol) (intrn : Option Symbol) (parent : BTNptr) :
    NewBtnSpec t (t.newBtn trieType interiorNT item intrn parent sibling).1
      (t.newBtn trieType interiorNT item intrn parent sibling).2
      (newRecord trieType item intrn parent sibling) sibling := by
  obtain ⟨hnl, hne, hnode, hroot, hlt, hle, hnd, hfree⟩ := h.allocateStruct
  have hni : interiorNT ≠ trieRootNT := by decide
  have hqp : ∀ q ∈ sibling, q ≠ t.allocateStruct.2 := fun q hq he => hnl (he ▸ hs q hq)
  -- Records after the allocation, before the last assignment of `TN_Init`.
  have key : ∀ t₁ : Trie, t₁ = (if interiorNT ≠ trieRootNT then
      (t.allocateStruct.1.modify t.allocateStruct.2 fun n =>
        { n with instr := tnSetInstr item intrn.isSome trieType }).resetInstrCPs
          t.allocateStruct.2 sibling
      else t.allocateStruct.1.modify t.allocateStruct.2 fun n => { n with instr := trieRoot }) →
      (t₁.node t.allocateStruct.2).instr =
          (newRecord trieType item intrn parent sibling).instr ∧
        (∀ q rest, sibling = q :: rest → t₁.node q = (t.node q).mapInstr rotateInstrCP) ∧
        (∀ q, q ≠ t.allocateStruct.2 → sibling.head? ≠ some q → t₁.node q = t.node q) ∧
        t₁.root = t.root ∧ t₁.freeList = t.allocateStruct.1.freeList ∧
        t₁.nextStruct = t.allocateStruct.1.nextStruct := by
    intro t₁ ht1
    rw [if_pos hni] at ht1
    subst ht1
    cases sibling with
    | nil =>
      refine ⟨by simp [resetInstrCPs, BTN.mapInstr, newRecord], by simp, fun q hq _ => ?_, hroot,
        rfl, rfl⟩
      rw [resetInstrCPs, modify_node_ne _ _ hq, modify_node_ne _ _ hq, hnode]
    | cons s rest =>
      have hsp := hqp s (mem_cons_self ..)
      refine ⟨?_, fun q rest' he => ?_, fun q hq hh => ?_, hroot, rfl, rfl⟩
      · rw [resetInstrCPs, modify_node_ne _ _ (Ne.symm hsp), modify_node_self]
        simp [newRecord]
      · obtain ⟨rfl, -⟩ := List.cons.inj he
        rw [resetInstrCPs, modify_node_self, modify_node_ne _ _ hsp, hnode]
      · have hqs : q ≠ s := fun he => hh (by rw [he]; rfl)
        rw [resetInstrCPs, modify_node_ne _ _ hqs, modify_node_ne _ _ hq, hnode]
  unfold newBtn
  simp only
  generalize ht1 : (if interiorNT ≠ trieRootNT then _ else _ : Trie) = t₁
  obtain ⟨hinstr, hhead, hother, hr, hfl, hns⟩ := key t₁ ht1.symm
  have hlive : ∀ q, q ≠ t.allocateStruct.2 → ((t₁.node q).free = (t.node q).free) := by
    intro q hq
    by_cases hh : sibling.head? = some q
    · obtain ⟨rest, rfl⟩ := List.head?_eq_some_iff.mp hh
      rw [hhead q rest rfl]
      rfl
    · rw [hother q hq hh]
  constructor
  case fresh => exact hnl
  case root => exact hr
  case record =>
    rw [modify_node_self, hinstr]
    rfl
  case head =>
    intro q rest he
    rw [modify_node_ne _ _ (hqp q (by rw [he]; exact mem_cons_self ..)), hhead q rest he]
  case other =>
    intro q hq hh
    rw [modify_node_ne _ _ hq, hother q hq hh]
  case alloc =>
    constructor
    case next_pos =>
      rw [modify_nextStruct, hns]
      exact lt_of_lt_of_le h.next_pos hle
    case free_nodup => rw [modify_freeList, hfl]; exact hnd
    case free_free =>
      intro q hq
      rw [modify_freeList, hfl] at hq
      obtain ⟨hqf, hqn⟩ := hfree q hq
      obtain ⟨hql, hq0, hqlt⟩ := h.free_free q hqf
      refine ⟨?_, hq0, by rw [modify_nextStruct, hns]; exact lt_of_lt_of_le hqlt hle⟩
      rw [Live, modify_node_ne _ _ hqn, hlive q hqn]
      exact hql
    case live_lt =>
      intro q hq
      rw [modify_nextStruct, hns]
      by_cases hqn : q = t.allocateStruct.2
      · rw [hqn]; exact ⟨hne, hlt⟩
      · rw [Live, modify_node_ne _ _ hqn, hlive q hqn] at hq
        exact ⟨(h.live_lt q hq).1, lt_of_lt_of_le (h.live_lt q hq).2 hle⟩

/-! ### Searching a chain -/

theorem searchSibling_some {chain : List BTNptr}
    (h : (t.searchSibling symbol chain).1 = some p) : p ∈ chain ∧ (t.node p).symbol = symbol := by
  induction chain with
  | nil => simp [searchSibling] at h
  | cons q rest ih =>
    unfold searchSibling at h
    split at h
    next hq =>
      obtain rfl : q = p := by simpa using h
      exact ⟨mem_cons_self .., hq⟩
    next =>
      obtain ⟨hm, hs⟩ := ih h
      exact ⟨mem_cons_of_mem _ hm, hs⟩

theorem searchSibling_none {chain : List BTNptr}
    (h : (t.searchSibling symbol chain).1 = none) :
    (∀ c ∈ chain, (t.node c).symbol ≠ symbol) ∧
      (t.searchSibling symbol chain).2 = chain.length := by
  induction chain with
  | nil => exact ⟨by simp, rfl⟩
  | cons q rest ih =>
    unfold searchSibling at h ⊢
    split at h
    next => simp at h
    next hq =>
      obtain ⟨hs, hc⟩ := ih h
      rw [if_neg hq]
      refine ⟨fun c hc' => ?_, by rw [hc]; rfl⟩
      rcases mem_cons.mp hc' with rfl | hc'
      · exact hq
      · exact hs c hc'

/-! ### Adding a child -/

theorem AllocOK.congr (h : AllocOK t) (hf : t'.freeList = t.freeList)
    (hn : t'.nextStruct = t.nextStruct) (hl : ∀ q, (t'.node q).free = (t.node q).free) :
    AllocOK t' where
  next_pos := by rw [hn]; exact h.next_pos
  free_nodup := by rw [hf]; exact h.free_nodup
  free_free q hq := by
    rw [hf] at hq
    rw [hn, Live, hl]
    exact h.free_free q hq
  live_lt q hq := by
    rw [hn]
    rw [Live, hl] at hq
    exact h.live_lt q hq

theorem setChild_free (t : Trie) (p q : BTNptr) (child : Child) :
    ((t.setChild p child).node q).free = (t.node q).free := by
  by_cases h : q = p
  · subst h; rw [setChild, modify_node_self]
  · rw [setChild, modify_node_ne _ _ h]

theorem AllocOK.setChild (h : AllocOK t) (p : BTNptr) (child : Child) :
    AllocOK (t.setChild p child) :=
  h.congr rfl rfl (setChild_free t p · child)

theorem setChild_self (t : Trie) (p : BTNptr) (child : Child) :
    (t.setChild p child).node p = { t.node p with child := child } := by
  rw [setChild, modify_node_self]

theorem setChild_ne (t : Trie) {p q : BTNptr} (child : Child) (h : q ≠ p) :
    (t.setChild p child).node q = t.node q := by
  rw [setChild, modify_node_ne _ _ h]

/-- The new record up to the hashed flag. -/
structure Added (t t₁ : Trie) (n : BTNptr) (rec : BTN) (sibling : List BTNptr) : Prop where
  fresh : ¬ t.Live n
  alloc : AllocOK t₁
  root : t₁.root = t.root
  record : SameNode (t₁.node n) rec
  instr : (t₁.node n).instr = rec.instr
  head : ∀ q rest, sibling = q :: rest → t₁.node q = (t.node q).mapInstr rotateInstrCP
  other : ∀ q, q ≠ n → sibling.head? ≠ some q → t₁.node q = t.node q

theorem NewBtnSpec.added {rec : BTN} (h : NewBtnSpec t t' p rec sibling) :
    Added t t' p rec sibling where
  fresh := h.fresh
  alloc := h.alloc
  root := h.root
  record := h.record ▸ .refl _
  instr := h.record ▸ rfl
  head := h.head
  other := h.other

theorem NewBtnSpec.added_hashed {rec : BTN}
    (h : NewBtnSpec t t' p rec sibling) (hs : ∀ c ∈ sibling, t.Live c) :
    Added t (t'.modify p BTN.makeHashedNode) p rec sibling where
  fresh := h.fresh
  alloc := by
    refine h.alloc.congr rfl rfl fun q => ?_
    by_cases hq : q = p
    · subst hq; rw [modify_node_self]; rfl
    · rw [modify_node_ne _ _ hq]
  root := h.root
  record := by rw [modify_node_self, h.record]; exact .makeHashed _
  instr := by rw [modify_node_self, h.record]; rfl
  head q rest he := by
    have hq : q ≠ p := fun hqp => h.fresh (hqp ▸ hs q (by rw [he]; exact mem_cons_self ..))
    rw [modify_node_ne _ _ hq, h.head q rest he]
  other q hq hh := by rw [modify_node_ne _ _ hq, h.other q hq hh]

section Adding

variable {t₁ : Trie} {n : BTNptr} {sib : List BTNptr} {child : Child}

section

variable (h : Added t t₁ n (newRecord trieType item intrn paren sib) sib)
include h

/-- The head of the old chain keeps its record. -/
theorem Added.same (hc : CpsOK t.node sib) (hq : q ≠ n) : SameNode (t₁.node q) (t.node q) := by
  by_cases hh : sib.head? = some q
  · obtain ⟨rest, rfl⟩ := List.head?_eq_some_iff.mp hh
    rw [h.head q rest rfl]
    refine .mapInstr ?_
    have := hc.head
    split at this
    · exact (rotate_nocp this).2
    · exact (rotate_try this).2
  · rw [h.other q hq hh]
    exact .refl _

/-- The choice point bits of the longer chain. -/
theorem Added.cps (hc : CpsOK t.node sib) (hs : ∀ c ∈ sib, t.Live c) (hnd : sib.Nodup) :
    CpsOK t₁.node (n :: sib) := by
  have hcp := newRecord_cpType trieType item intrn paren sib
  rw [← h.instr] at hcp
  cases sib with
  | nil => exact .single (by simpa using hcp)
  | cons q rest =>
    refine hc.push (by simpa using hcp) (by rw [h.head q rest rfl]; rfl) fun c hc' => ?_
    have hcq : c ≠ q := fun he => (nodup_cons.mp hnd).1 (he ▸ hc')
    have hcn : c ≠ n := fun he => h.fresh (he ▸ hs c (mem_cons_of_mem _ hc'))
    rw [h.other c hcn (by simpa using hcq.symm)]

end

/-- A new child is a change below one parent. -/
theorem Added.levelUpdate (hwf : TrieWF t) (hp : t.Live paren)
    (h : Added t t₁ n (newRecord trieType item intrn paren sib) sib) (hc : CpsOK t.node sib)
    (hsib : ∀ c ∈ sib, c ∈ (t.node paren).child.nodes)
    (hmem : ∀ q, q ∈ child.nodes ↔ q = n ∨ q ∈ (t.node paren).child.nodes) :
    LevelUpdate t (t₁.setChild paren child) paren := by
  have hpn : paren ≠ n := fun he => h.fresh (he ▸ hp)
  have hself := hwf.not_self_child hp
  have hnc : n ∉ (t.node paren).child.nodes := fun hm =>
    h.fresh (hwf.child_live paren hp n hm).1
  have hparen : t₁.node paren = t.node paren :=
    h.other paren hpn fun hh => hself (hsib paren (mem_of_head? hh))
  have hchild : ((t₁.setChild paren child).node paren).child = child := by rw [setChild_self]
  have hsame : ∀ q, q ≠ n → q ≠ paren →
      SameNode ((t₁.setChild paren child).node q) (t.node q) := fun q hqn hqp => by
    rw [setChild_ne _ _ hqp]
    exact h.same hc hqn
  have hrec : SameNode ((t₁.setChild paren child).node n)
      (newRecord trieType item intrn paren sib) := by
    rw [setChild_ne _ _ (Ne.symm hpn)]
    exact h.record
  constructor
  case parent_live => exact hp
  case root => exact h.root
  case live =>
    intro q
    rw [hchild, hmem]
    by_cases hqn : q = n
    · subst hqn
      simp only [Live, hrec.free, newRecord, true_or, implies_true, and_true, true_and, true_iff]
      exact .inr hnc
    · have hfree : (t₁.setChild paren child).Live q ↔ t.Live q := by
        rw [Live, setChild_free, (h.same hc hqn).free, Live]
      rw [hfree]
      simp only [hqn, false_or, and_not_self_iff, or_false]
      exact ⟨fun hl => ⟨hl, id⟩, And.left⟩
  case keep =>
    intro q hq hqp hqc
    have hqn : q ≠ n := fun he => h.fresh (he ▸ hq)
    rw [setChild_ne _ _ hqp]
    exact h.other q hqn fun hh => hqc (hsib q (mem_of_head? hh))
  case sibling =>
    intro q hq _
    exact hsame q (fun he => hnc (he ▸ hq)) (fun he => hself (he ▸ hq))
  case new =>
    intro q hq hq'
    rw [hchild, hmem] at hq
    obtain rfl := hq.resolve_right hq'
    exact ⟨h.fresh, hrec.parent, hrec.child, hrec.nodeType_lt (Nat.zero_lt_succ 3)⟩
  case gone =>
    intro q hq hq'
    rw [hchild, hmem] at hq'
    exact absurd (.inr hq) hq'
  case parent =>
    rw [setChild_self, hparen]

end Adding

/-! ### Moving children -/

/-- Children that only change places. -/
theorem Recoded.levelUpdate {t₁ : Trie} {child : Child} (hwf : TrieWF t) (hp : t.Live p)
    (h : Recoded t t₁ (t.node p).child.nodes)
    (hmem : ∀ q, q ∈ child.nodes ↔ q ∈ (t.node p).child.nodes) :
    LevelUpdate t (t₁.setChild p child) p := by
  have hself := hwf.not_self_child hp
  have hchild : ((t₁.setChild p child).node p).child = child := by rw [setChild_self]
  constructor
  case parent_live => exact hp
  case root => exact h.root
  case live =>
    intro q
    rw [hchild, hmem, Live, setChild_free, (h.same q).free]
    simp only [and_not_self_iff, or_false]
    exact ⟨fun hl => ⟨hl, id⟩, And.left⟩
  case keep =>
    intro q _ hqp hqc
    rw [setChild_ne _ _ hqp, h.other q hqc]
  case sibling =>
    intro q hq _
    have hqp : q ≠ p := fun he => hself (he ▸ hq)
    rw [setChild_ne _ _ hqp]
    exact h.same q
  case new =>
    intro q hq hq'
    rw [hchild, hmem] at hq
    exact absurd hq hq'
  case gone =>
    intro q hq hq'
    rw [hchild, hmem] at hq'
    exact absurd hq hq'
  case parent => rw [setChild_self, h.other p hself]

/-- A finished table is a level. -/
theorem TableInv.childOK {bs : List (List BTNptr)} {n : Nat} {content : List BTNptr} {num : Int}
    (h : TableInv t bs n (fun j c => trieHash (t.node c).symbol (n - 1) = j) content) (hn : 0 < n)
    (hsym : (symbolsOf t.node bs.flatten).Nodup) (hp : p ∉ bs.flatten) :
    ChildOK (t.setChild p (.hash { numContents := num, buckets := bs })).node
      (.hash { numContents := num, buckets := bs }) := by
  have hne : ∀ c ∈ bs.flatten, c ≠ p := fun c hc he => hp (he ▸ hc)
  refine ChildOK.congr ⟨h.cps, fun i b hb c hc => ?_, hsym, ?_⟩ ?_ ?_
  · rw [BTHT.hashSeed, BTHT.numBuckets, h.length]
    exact h.place i b hb c hc
  · rw [BTHT.numBuckets, h.length]
    exact hn
  · exact fun c hc => by rw [setChild_ne _ _ (hne c hc)]
  · exact fun c hc => by rw [setChild_ne _ _ (hne c hc)]

/-- Moving nodes keeps their symbols apart. -/
theorem Recoded.nodup_symbols {nodes nodes' content : List BTNptr} (h : Recoded t t' content)
    (hperm : nodes'.Perm nodes) (hnd : (symbolsOf t.node nodes).Nodup) :
    (symbolsOf t'.node nodes').Nodup := by
  rw [symbolsOf_congr fun c _ => (h.same c).symbol]
  exact (hperm.map _).nodup_iff.mpr hnd

/-- `hashify_children` on a chain of any length: the counter is nine. -/
theorem hashifyChildren_spec (hwf : TrieWF t) (hp : t.Live p) {nodes : List BTNptr}
    (hchain : (t.node p).child = .chain nodes) :
    LevelUpdate t (t.hashifyChildren p) p ∧
      ∃ ht, ((t.hashifyChildren p).node p).child = .hash ht ∧ ht.buckets.flatten.Perm nodes ∧
        ht.numContents = maxSiblingLen + 1 ∧ TrieWF (t.hashifyChildren p) := by
  have hok := hwf.child_ok p hp
  have hnd := hok.nodup
  rw [hchain] at hok hnd
  have hnodes : (t.node p).child.nodes = nodes := by rw [hchain]; rfl
  have hflat : (List.replicate trieHTInitSize ([] : List BTNptr)).flatten = [] := by
    rw [flatten_eq_nil_iff]
    exact fun l hl => eq_of_mem_replicate hl
  have hinit : TableInv t (List.replicate trieHTInitSize []) trieHTInitSize
      (fun i c => trieHash (t.node c).symbol (trieHTInitSize - 1) = i) [] := by
    refine ⟨length_replicate, fun b hb => ?_, fun i b hb c hc => ?_, by rw [hflat]⟩
    · rw [eq_of_mem_replicate hb]
      exact cpsOK_nil _
    · rw [eq_of_mem_replicate (mem_of_getElem? hb)] at hc
      simp at hc
  have hnd' : (nodes ++ []).Nodup := by rw [append_nil]; exact hnd
  obtain ⟨htab, hrec⟩ := hinit.hashifyLoop hnd' (by decide) (fun _ _ => rfl)
  rw [append_nil] at htab hrec
  have hperm := htab.perm.trans (reverse_perm _)
  unfold hashifyChildren
  rw [hnodes]
  simp only
  generalize hr : hashifyLoop nodes t (List.replicate trieHTInitSize []) (trieHTInitSize - 1) = r
    at htab hrec hperm
  have hrec' : Recoded t r.1 (t.node p).child.nodes := by rw [hnodes]; exact hrec
  have hu : LevelUpdate t (r.1.setChild p
      (.hash { numContents := maxSiblingLen + 1, buckets := r.2 })) p :=
    hrec'.levelUpdate hwf hp fun q => by rw [hnodes]; exact hperm.mem_iff
  refine ⟨hu, _, by rw [setChild_self], hperm, rfl, hu.wf hwf ?_ ?_⟩
  · exact (hwf.alloc.congr hrec.freeList hrec.nextStruct fun q => (hrec.same q).free).setChild _ _
  · rw [setChild_self]
    exact (htab.mono fun j _ c hc => by rw [(hrec.same c).symbol]; exact hc).childOK (by decide)
      (hrec.nodup_symbols hperm hok.2)
      (fun hm => hwf.not_self_child hp (hnodes ▸ hperm.mem_iff.mp hm))

/-- `expand_trie_ht` moves the nodes of a table to their buckets for the doubled size. -/
theorem expandTrieHt_spec (hwf : TrieWF t) (hp : t.Live p) {ht : BTHT}
    (hhash : (t.node p).child = .hash ht) :
    LevelUpdate t (t.expandTrieHt p ht) p ∧ TrieWF (t.expandTrieHt p ht) ∧
      ∃ ht', ((t.expandTrieHt p ht).node p).child = .hash ht' ∧
        ht'.buckets.flatten.Perm ht.buckets.flatten ∧ ht'.numContents = ht.numContents := by
  have hok := hwf.child_ok p hp
  have hnd := hok.nodup
  rw [hhash] at hok hnd
  obtain ⟨hcps, hplace, hsyms, hpos⟩ := hok
  have hnodes : (t.node p).child.nodes = ht.buckets.flatten := by rw [hhash]; rfl
  have hsize : ht.numBuckets <<< 1 = 2 * ht.numBuckets := by
    rw [Nat.shiftLeft_eq, pow_one, Nat.mul_comm]
  have hflat : (List.replicate (ht.numBuckets <<< 1 - ht.numBuckets)
      ([] : List BTNptr)).flatten = [] := by
    rw [flatten_eq_nil_iff]
    exact fun l hl => eq_of_mem_replicate hl
  have hinit : TableInv t (ht.buckets ++ List.replicate (ht.numBuckets <<< 1 - ht.numBuckets) [])
      (ht.numBuckets <<< 1)
      (fun j c => trieHash (t.node c).symbol (ht.numBuckets <<< 1 - 1) = j ∨
        (0 ≤ j ∧ j < ht.numBuckets)) ht.buckets.flatten := by
    refine ⟨?_, fun b hb => ?_, fun i b hb c hc => ?_, ?_⟩
    · rw [length_append, length_replicate, hsize]
      simp only [BTHT.numBuckets]
      omega
    · rcases mem_append.mp hb with hb | hb
      · exact hcps b hb
      · rw [eq_of_mem_replicate hb]
        exact cpsOK_nil _
    · by_cases hi : i < ht.numBuckets
      · exact .inr ⟨Nat.zero_le _, hi⟩
      · rw [List.getElem?_append_right (Nat.not_lt.mp hi)] at hb
        rw [eq_of_mem_replicate (mem_of_getElem? hb)] at hc
        simp at hc
    · rw [flatten_append, hflat, append_nil]
  obtain ⟨htab, hrec⟩ := TableInv.rehashLoop ht.numBuckets (by omega) (by omega) hnd
    ht.numBuckets 0 t _ (Nat.zero_add _) hinit
  rw [← range_eq_range'] at htab hrec
  unfold expandTrieHt
  simp only
  generalize hr : Trie.rehashLoop (List.range ht.numBuckets) t
    (ht.buckets ++ List.replicate (ht.numBuckets <<< 1 - ht.numBuckets) [])
    (ht.numBuckets <<< 1 - 1) = r at htab hrec
  have hrec' : Recoded t r.1 (t.node p).child.nodes := by rw [hnodes]; exact hrec
  have hu : LevelUpdate t (r.1.setChild p (.hash { ht with buckets := r.2 })) p :=
    hrec'.levelUpdate hwf hp fun q => by rw [hnodes]; exact htab.perm.mem_iff
  refine ⟨hu, hu.wf hwf ?_ ?_, { ht with buckets := r.2 }, by rw [setChild_self], htab.perm, rfl⟩
  · exact (hwf.alloc.congr hrec.freeList hrec.nextStruct fun q => (hrec.same q).free).setChild _ _
  · rw [setChild_self]
    exact (htab.mono fun j _ c hc => by rw [(hrec.same c).symbol]; exact hc).childOK (by omega)
      (hrec.nodup_symbols htab.perm hsyms)
      (fun hm => hwf.not_self_child hp (hnodes ▸ htab.perm.mem_iff.mp hm))

/-! ### One insertion -/

/-- Hashing happens only at nine nodes, the number that `New_BTHT` writes down. -/
def HashifyExact (expand : Bool) (t : Trie) (paren : BTNptr) (symbol : Symbol) : Prop :=
  expand = true → ∀ nodes, (t.node paren).child = .chain nodes →
    match t.searchSibling symbol nodes with
    | (some _, count) => maxSiblingLen < count → nodes.length = maxSiblingLen + 1
    | (none, _) => maxSiblingLen < nodes.length + 1 → nodes.length = maxSiblingLen

/-- What an insertion of `symbol` below `paren` does. -/
structure ChkInsSpec (t : Trie) (paren : BTNptr) (symbol : Symbol) (kind : Byte)
    (r : ChkIns) : Prop where
  wf : TrieWF r.trie
  root : r.trie.root = t.root
  live : ∀ q, r.trie.Live q ↔ t.Live q ∨ q = r.node
  found : r.found = true ↔ t.Live r.node
  parent : (r.trie.node r.node).parent = paren
  symbol : (r.trie.node r.node).symbol = symbol
  ne_root : r.node ≠ t.root
  new : r.found = false → (r.trie.node r.node).child = .chain [] ∧
    (r.trie.node r.node).status = validNodeStatus ∧
    instrKind (r.trie.node r.node).instr = kind ∧
    (r.trie.node r.node).nodeType ||| hashedNodeMask = hashedNodeMask
  kept : ∀ q, t.Live q → SameRecord (r.trie.node q) (t.node q) ∧
    (q ≠ paren → (r.trie.node q).child = (t.node q).child)

/-- Moving the children of `paren` after an insertion. -/
theorem ChkInsSpec.relink {kind : Byte} {r : ChkIns}
    (h : ChkInsSpec t paren symbol kind r) (hu : LevelUpdate r.trie t' paren)
    (hperm : ∀ q, q ∈ (t'.node paren).child.nodes ↔ q ∈ (r.trie.node paren).child.nodes)
    (hwf : TrieWF t') : ChkInsSpec t paren symbol kind { r with trie := t' } := by
  have hlive : ∀ q, t'.Live q ↔ r.trie.Live q := by
    intro q
    rw [hu.live, hperm]
    simp only [and_not_self_iff, or_false]
    exact ⟨And.left, fun hl => ⟨hl, id⟩⟩
  have hn : r.trie.Live r.node := (h.live _).mpr (.inr rfl)
  have hkept := hu.kept hn ((hlive _).mpr hn)
  have hne : r.node ≠ paren := by
    intro he
    refine h.wf.not_self_child hu.parent_live ?_
    have := (h.wf.parent_child r.node hn (by rw [h.root]; exact h.ne_root)).2
    rw [h.parent] at this
    rwa [he] at this
  constructor
  case wf => exact hwf
  case root => exact hu.root.trans h.root
  case live => exact fun q => (hlive q).trans (h.live q)
  case found => exact h.found
  case parent => exact hkept.1.parent.trans h.parent
  case symbol => exact hkept.1.symbol.trans h.symbol
  case ne_root => exact h.ne_root
  case new =>
    intro hf
    obtain ⟨hc, hs, hk, ht⟩ := h.new hf
    exact ⟨by rw [hkept.2 hne]; exact hc, hkept.1.status.trans hs, hkept.1.kind.trans hk,
      hkept.1.nodeType.trans ht⟩
  case kept =>
    intro q hq
    have hq1 : r.trie.Live q := (h.live q).mpr (.inl hq)
    obtain ⟨hr, hc⟩ := h.kept q hq
    obtain ⟨hr', hc'⟩ := hu.kept hq1 ((hlive q).mpr hq1)
    exact ⟨hr'.trans hr, fun hqp => (hc' hqp).trans (hc hqp)⟩

/-- A child that is there already. -/
theorem ChkInsSpec.of_found (hwf : TrieWF t) (hp : t.Live paren) {kind : Byte}
    (hc : q ∈ (t.node paren).child.nodes) (hs : (t.node q).symbol = symbol) :
    ChkInsSpec t paren symbol kind ⟨t, true, q⟩ := by
  obtain ⟨hl, hr, hpar⟩ := hwf.child_live paren hp q hc
  exact {
    wf := hwf
    root := rfl
    live := fun x => ⟨.inl, fun h => h.elim id fun he => he ▸ hl⟩
    found := ⟨fun _ => hl, fun _ => rfl⟩
    parent := hpar
    symbol := hs
    ne_root := hr
    new := fun h => by cases h
    kept := fun x _ => ⟨.refl _, fun _ => rfl⟩ }

/-- A new child. -/
theorem Added.chkInsSpec {t₁ : Trie} {n : BTNptr} {sib : List BTNptr} {child : Child}
    (hwf : TrieWF t) (hp : t.Live paren)
    (h : Added t t₁ n (newRecord trieType item intrn paren sib) sib) (hc : CpsOK t.node sib)
    (hsib : ∀ c ∈ sib, c ∈ (t.node paren).child.nodes)
    (hmem : ∀ q, q ∈ child.nodes ↔ q = n ∨ q ∈ (t.node paren).child.nodes)
    (hok : ChildOK t₁.node child) :
    ChkInsSpec t paren (intrn.getD item) (instrKind (tnSetInstr item intrn.isSome trieType))
      ⟨t₁.setChild paren child, false, n⟩ := by
  have hu := h.levelUpdate hwf hp hc hsib hmem
  have hpn : n ≠ paren := fun he => h.fresh (he ▸ hp)
  have hchild : ((t₁.setChild paren child).node paren).child = child := by rw [setChild_self]
  have hnc : n ∉ (t.node paren).child.nodes := fun hm =>
    h.fresh (hwf.child_live paren hp n hm).1
  have hnm : n ∈ child.nodes := (hmem n).mpr (.inl rfl)
  have hrec : SameNode ((t₁.setChild paren child).node n)
      (newRecord trieType item intrn paren sib) := by
    rw [setChild_ne _ _ hpn]
    exact h.record
  have hself : ∀ c ∈ child.nodes, c ≠ paren := by
    intro c hc' he
    rcases (hmem c).mp hc' with rfl | hm
    · exact hpn he
    · exact hwf.not_self_child hp (he ▸ hm)
  have hlive : ∀ q, (t₁.setChild paren child).Live q ↔ t.Live q ∨ q = n := by
    intro q
    rw [hu.live, hchild, hmem]
    constructor
    · rintro (⟨hl, -⟩ | ⟨hq, hq'⟩)
      · exact .inl hl
      · exact .inr (hq.resolve_right hq')
    · rintro (hl | rfl)
      · exact .inl ⟨hl, .inr⟩
      · exact .inr ⟨.inl rfl, hnc⟩
  have hwf' : TrieWF (t₁.setChild paren child) := by
    refine hu.wf hwf (h.alloc.setChild _ _) ?_
    rw [hchild]
    exact hok.congr (fun c hc' => by rw [setChild_ne _ _ (hself c hc')])
      (fun c hc' => by rw [setChild_ne _ _ (hself c hc')])
  have hroot : ∀ q, q = t.root → t.Live q := by
    rintro q rfl
    obtain ⟨w, hw⟩ := hwf.reach paren hp
    exact (hwf.root_live hw.root_ne).1
  constructor
  case wf => exact hwf'
  case root => exact h.root
  case live => exact hlive
  case found => exact iff_of_false (by simp) h.fresh
  case parent => exact hrec.parent
  case symbol => exact hrec.symbol
  case ne_root => exact fun he => h.fresh (hroot n he)
  case new =>
    intro _
    refine ⟨by rw [hrec.child]; rfl, hrec.status, ?_, hrec.nodeType.trans (BitVec.zero_or ..)⟩
    rw [hrec.kind]
    exact newRecord_kind trieType item intrn paren sib
  case kept => exact fun q hq => hu.kept hq ((hlive q).mpr (.inl hq))

theorem setChild_eq_self {child : Child} (h : (t.node p).child = child) :
    t.setChild p child = t := by
  subst h
  simp [setChild, Trie.modify]

/-- The two outcomes of `IsInsibling`. -/
theorem isInsibling_cases (t : Trie) (wherefrom : List BTNptr) (item : Symbol)
    (intrn : Option Symbol) (trieType : Byte) (paren : BTNptr) :
    (∃ q count, t.searchSibling (intrn.getD item) wherefrom = (some q, count) ∧
        t.isInsibling wherefrom item intrn trieType paren = ⟨t, wherefrom, true, q, count⟩) ∨
      ∃ t₁ n, t.newBtn trieType interiorNT item intrn paren wherefrom = (t₁, n) ∧
        t.searchSibling (intrn.getD item) wherefrom = (none, wherefrom.length) ∧
        t.isInsibling wherefrom item intrn trieType paren =
          ⟨t₁, n :: wherefrom, false, n, wherefrom.length + 1⟩ := by
  unfold isInsibling
  cases hs : t.searchSibling (intrn.getD item) wherefrom with
  | mk found count =>
    cases found with
    | some q => exact .inl ⟨q, count, rfl, rfl⟩
    | none =>
      obtain rfl : count = wherefrom.length := by
        have hnone : (t.searchSibling (intrn.getD item) wherefrom).1 = none := by rw [hs]
        have hlen := (searchSibling_none hnone).2
        rwa [hs] at hlen
      exact .inr ⟨_, _, rfl, rfl, rfl⟩

/-- A level with one more node in a bucket. -/
theorem Added.childOK_bucket {t₁ : Trie} {n : BTNptr} {ht : BTHT} (hwf : TrieWF t)
    (hp : t.Live paren) (hhash : (t.node paren).child = .hash ht)
    (h : Added t t₁ n (newRecord trieType item intrn paren (ht.bucket (intrn.getD item)))
      (ht.bucket (intrn.getD item)))
    (hnone : ∀ c ∈ ht.bucket (intrn.getD item), (t.node c).symbol ≠ intrn.getD item) :
    let ht' := { ht.setBucket (intrn.getD item) (n :: ht.bucket (intrn.getD item)) with
      numContents := ht.numContents + 1 }
    ChildOK t₁.node (.hash ht') ∧ (∀ q, q ∈ (Child.hash ht').nodes ↔ q = n ∨
      q ∈ (t.node paren).child.nodes) ∧ (CountOK (.hash ht) → CountOK (.hash ht')) := by
  have hok := hwf.child_ok paren hp
  have hnd := hok.nodup
  have hcl := fun c hc => (hwf.child_live paren hp c hc).1
  rw [hhash] at hok hnd hcl
  obtain ⟨hcps, hplace, hsyms, hpos⟩ := hok
  have htab : TableInv t ht.buckets ht.numBuckets
      (fun j c => c ≠ n → trieHash (t.node c).symbol ht.hashSeed = j) ht.buckets.flatten :=
    ⟨rfl, hcps, fun i b hb c hc _ => hplace i b hb c hc, .refl _⟩
  have hi : trieHash (intrn.getD item) ht.hashSeed < ht.buckets.length := by
    have := trieHash_le (intrn.getD item) ht.hashSeed
    simp only [BTHT.hashSeed, BTHT.numBuckets] at this hpos ⊢
    omega
  have hbucket : ht.bucket (intrn.getD item) =
      ht.buckets[trieHash (intrn.getD item) ht.hashSeed] := by
    simp [BTHT.bucket, hi]
  simp only [BTHT.setBucket]
  rw [hbucket] at h hnone ⊢
  generalize hib : trieHash (intrn.getD item) ht.hashSeed = i at hi h hnone hbucket ⊢
  have hbl : ∀ c ∈ ht.buckets[i], t.Live c := fun c hc => hcl c (htab.mem_content hi hc)
  have hbnd : (ht.buckets[i]).Nodup := (nodup_flatten.mp hnd).1 _ (getElem_mem hi)
  have hbcps := hcps _ (getElem_mem hi)
  have hperm : ((ht.buckets.set i (n :: ht.buckets[i])).flatten).Perm
      (n :: ht.buckets.flatten) := by
    have h₁ := flatten_set hi (n :: ht.buckets[i])
    have h₂ : (ht.buckets.flatten ++ n :: ht.buckets[i]).Perm
        (n :: ht.buckets.flatten ++ ht.buckets[i]) := perm_middle
    exact (perm_append_right_iff _).mp (h₁.trans h₂)
  have hrecn := h.record
  have hsame : ∀ c ∈ ht.buckets.flatten, SameNode (t₁.node c) (t.node c) := fun c hc =>
    h.same hbcps fun he => h.fresh (he ▸ hcl c hc)
  refine ⟨⟨?_, fun j b hb c hc => ?_, ?_, ?_⟩, fun q => ?_, fun hnum => ?_⟩
  · refine htab.set_cps hnd hi (h.cps hbcps hbl hbnd) fun c hci hcc => ?_
    have hcn : c ≠ n := fun he => h.fresh (he ▸ hcl c hcc)
    rw [h.other c hcn fun hh => hci (mem_of_head? hh)]
  · rw [hashSeed_of_length ht _ length_set]
    by_cases hcn : c = n
    · subst hcn
      have hji : j = i := by
        by_contra hne
        rw [List.getElem?_set_ne (Ne.symm hne)] at hb
        exact h.fresh (hcl c (mem_flatten.mpr ⟨b, mem_of_getElem? hb, hc⟩))
      rw [hrecn.symbol, hji]
      exact hib
    · have hcf : c ∈ ht.buckets.flatten := by
        have := hperm.mem_iff.mp (mem_flatten.mpr ⟨b, mem_of_getElem? hb, hc⟩)
        exact (mem_cons.mp this).resolve_left hcn
      rw [(hsame c hcf).symbol]
      refine htab.set_place (fun x hx hxn => ?_) j b hb c hc hcn
      rcases mem_cons.mp hx with he | hx
      · exact absurd he hxn
      · exact hplace i _ (List.getElem?_eq_getElem hi) x hx
  · refine (hperm.map _).nodup_iff.mpr (nodup_cons.mpr ⟨fun hm => ?_, ?_⟩)
    · obtain ⟨c, hc, hcs⟩ := mem_map.mp hm
      have hcs' : (t.node c).symbol = intrn.getD item := by
        rw [← (hsame c hc).symbol, hcs]
        exact hrecn.symbol
      obtain ⟨b, hb, hcb⟩ := mem_flatten.mp hc
      obtain ⟨j, hj, rfl⟩ := getElem_of_mem hb
      have hji := hplace j _ (List.getElem?_eq_getElem hj) c hcb
      rw [hcs', hib] at hji
      subst hji
      exact hnone c hcb hcs'
    · show (symbolsOf t₁.node ht.buckets.flatten).Nodup
      rw [symbolsOf_congr fun c hc => (hsame c hc).symbol]
      exact hsyms
  · simp only [BTHT.numBuckets, length_set]
    exact hpos
  · rw [hhash]
    simp only [Child.nodes]
    rw [hperm.mem_iff, mem_cons]
  · simp only [CountOK] at hnum ⊢
    rw [hperm.length_eq, length_cons, hnum]
    rfl

/-- Insertion below `paren`, and the counter of the level when hashing is exact. -/
theorem nodeChkIns_step (hwf : TrieWF t) (hp : t.Live paren) :
    ChkInsSpec t paren (intrn.getD item) (instrKind (tnSetInstr item intrn.isSome trieType))
        (nodeChkIns expand t paren item intrn trieType) ∧
      (CountOK (t.node paren).child → HashifyExact expand t paren (intrn.getD item) →
        CountOK ((nodeChkIns expand t paren item intrn trieType).trie.node paren).child) := by
  have hok := hwf.child_ok paren hp
  have hnd := hok.nodup
  have hcl := fun c hc => (hwf.child_live paren hp c hc).1
  unfold nodeChkIns
  split
  next hchain =>
    -- No children yet.
    have hnodes : (t.node paren).child.nodes = [] := by rw [hchain]; rfl
    have hnil : ∀ c ∈ ([] : List BTNptr), t.Live c := fun c hc => absurd hc not_mem_nil
    have hspec := newBtn_spec hwf.alloc hnil trieType item intrn paren
    generalize t.newBtn trieType interiorNT item intrn paren [] = r at hspec
    have hadd := hspec.added
    refine ⟨hadd.chkInsSpec hwf hp (cpsOK_nil _) (by simp) (fun q => ?_)
      ⟨hadd.cps (cpsOK_nil _) (by simp) (by simp), by simp [symbolsOf]⟩, fun _ _ => ?_⟩
    · rw [hnodes]
      simp [Child.nodes]
    · rw [setChild_self]
      trivial
  next ht hhash =>
    simp only
    have hsib : ∀ c ∈ ht.bucket (intrn.getD item), c ∈ (t.node paren).child.nodes := by
      intro c hc
      rw [hhash]
      unfold BTHT.bucket at hc
      by_cases hi : trieHash (intrn.getD item) ht.hashSeed < ht.buckets.length
      · rw [getD_eq_getElem _ _ hi] at hc
        exact mem_flatten.mpr ⟨_, getElem_mem hi, hc⟩
      · simp [List.getD, List.getElem?_eq_none (Nat.not_lt.mp hi)] at hc
    rcases isInsibling_cases t (ht.bucket (intrn.getD item)) item intrn trieType paren with
      ⟨q, count, hs, hr⟩ | ⟨t₁, n, hnew, hs, hr⟩
    · rw [hr]
      obtain ⟨hq, hsym⟩ := searchSibling_some (congrArg Prod.fst hs)
      exact ⟨.of_found hwf hp (hsib q hq) hsym, fun hc _ => hc⟩
    · rw [hr]
      have hspec := newBtn_spec hwf.alloc (fun c hc => hcl c (hsib c hc)) trieType item intrn paren
      rw [hnew] at hspec
      have hadd := hspec.added_hashed fun c hc => hcl c (hsib c hc)
      obtain ⟨hok', hmem, hcount⟩ := hadd.childOK_bucket hwf hp hhash
        (searchSibling_none (congrArg Prod.fst hs)).1
      have hcps : CpsOK t.node (ht.bucket (intrn.getD item)) := by
        rw [hhash] at hok
        unfold BTHT.bucket
        by_cases hi : trieHash (intrn.getD item) ht.hashSeed < ht.buckets.length
        · rw [getD_eq_getElem _ _ hi]
          exact hok.1 _ (getElem_mem hi)
        · simp [List.getD, List.getElem?_eq_none (Nat.not_lt.mp hi), cpsOK_nil]
      have h₁ := hadd.chkInsSpec hwf hp hcps hsib hmem hok'
      simp only [Bool.false_eq_true, if_false]
      split
      · have hchild := congrArg BTN.child (setChild_self (t₁.modify n BTN.makeHashedNode) paren
          (.hash { ht.setBucket (intrn.getD item) (n :: ht.bucket (intrn.getD item)) with
            numContents := ht.numContents + 1 }))
        obtain ⟨hu, hwf', ht', hht', hperm, hnum'⟩ := expandTrieHt_spec h₁.wf
          ((h₁.live _).mpr (.inl hp)) hchild
        refine ⟨h₁.relink hu (fun q => ?_) hwf', fun hc _ => ?_⟩
        · rw [hht', hchild]
          exact hperm.mem_iff
        · rw [hhash] at hc
          rw [hht', CountOK, hnum', hperm.length_eq]
          exact hcount hc
      · refine ⟨h₁, fun hc _ => ?_⟩
        rw [hhash] at hc
        rw [setChild_self]
        exact hcount hc
  next q rest hchain =>
    have hnodes : (t.node paren).child.nodes = q :: rest := by rw [hchain]; rfl
    rw [hchain] at hok
    rw [hnodes] at hcl
    -- Hashing the chain afterwards.
    have hash : ∀ {r : ChkIns} {nodes : List BTNptr} {kind : Byte},
        ChkInsSpec t paren (intrn.getD item) kind r → (r.trie.node paren).child = .chain nodes →
        ChkInsSpec t paren (intrn.getD item) kind
            ⟨r.trie.hashifyChildren paren, r.found, r.node⟩ ∧
          (nodes.length = maxSiblingLen + 1 →
            CountOK ((r.trie.hashifyChildren paren).node paren).child) := by
      intro r nodes kind h hc
      obtain ⟨hu, ht, hht, hperm, hnum, hwf'⟩ := hashifyChildren_spec h.wf
        ((h.live _).mpr (.inl hp)) hc
      refine ⟨h.relink hu (fun x => ?_) hwf', fun hlen => ?_⟩
      · rw [hht, hc]
        exact hperm.mem_iff
      · rw [hht, CountOK, hnum, hperm.length_eq, hlen]
        rfl
    simp only
    rcases isInsibling_cases t (q :: rest) item intrn trieType paren with
      ⟨x, count, hs, hr⟩ | ⟨t₁, n, hnew, hs, hr⟩
    · obtain ⟨hx, hsym⟩ := searchSibling_some (congrArg Prod.fst hs)
      have h₁ : ChkInsSpec t paren (intrn.getD item)
          (instrKind (tnSetInstr item intrn.isSome trieType)) ⟨t, true, x⟩ :=
        .of_found hwf hp (hnodes ▸ hx) hsym
      simp only [hr, setChild_eq_self hchain]
      split
      next hexp =>
        obtain ⟨h₂, hcount⟩ := hash h₁ hchain
        refine ⟨h₂, fun _ hexact => hcount ?_⟩
        have hlen := hexact hexp.1 _ hchain
        rw [hs] at hlen
        exact hlen hexp.2
      next =>
        refine ⟨h₁, fun _ _ => ?_⟩
        rw [hchain]
        trivial
    · have hspec := newBtn_spec hwf.alloc hcl trieType item intrn paren
      rw [hnew] at hspec
      have hadd := hspec.added
      have hnone := (searchSibling_none (congrArg Prod.fst hs)).1
      have hrecn := hadd.record
      have hnd' : (q :: rest).Nodup := hnodes ▸ hnd
      have hok' : ChildOK t₁.node (.chain (n :: q :: rest)) := by
        refine ⟨hadd.cps hok.1 hcl hnd', nodup_cons.mpr ⟨fun hm => ?_, ?_⟩⟩
        · obtain ⟨c, hc, hcs⟩ := mem_map.mp hm
          have hcn : c ≠ n := fun he => hadd.fresh (he ▸ hcl c hc)
          refine hnone c hc ?_
          rw [← (hadd.same hok.1 hcn).symbol, hcs]
          exact hrecn.symbol
        · show (symbolsOf t₁.node (q :: rest)).Nodup
          rw [symbolsOf_congr fun c hc =>
            (hadd.same hok.1 fun he => hadd.fresh (he ▸ hcl c hc)).symbol]
          exact hok.2
      have h₁ := hadd.chkInsSpec hwf hp hok.1 (fun c hc => hnodes ▸ hc)
        (fun x => by rw [hnodes]; exact mem_cons) hok'
      rw [hr]
      simp only
      split
      next hexp =>
        obtain ⟨h₂, hcount⟩ := hash h₁ (by rw [setChild_self])
        refine ⟨h₂, fun _ hexact => hcount ?_⟩
        have hlen := hexact hexp.1 _ hchain
        rw [hs] at hlen
        exact congrArg (· + 1) (hlen hexp.2)
      next =>
        refine ⟨h₁, fun _ _ => ?_⟩
        rw [setChild_self]
        trivial

/-- Insertion below `paren`. -/
theorem nodeChkIns_spec (intrn : Option Symbol) (hwf : TrieWF t) (hp : t.Live paren) :
    ChkInsSpec t paren (intrn.getD item) (instrKind (tnSetInstr item intrn.isSome trieType))
      (nodeChkIns expand t paren item intrn trieType) :=
  (nodeChkIns_step hwf hp).1

/-- Counters stay exact when every chain that is hashed has nine nodes. -/
theorem nodeChkIns_countsExact (hwf : TrieWF t) (hp : t.Live paren) (hcounts : CountsExact t)
    (hexact : HashifyExact expand t paren (intrn.getD item)) :
    CountsExact (nodeChkIns expand t paren item intrn trieType).trie := by
  obtain ⟨hspec, hcount⟩ := nodeChkIns_step (t := t) hwf hp
  intro q hq
  by_cases hqp : q = paren
  · rw [hqp]
    exact hcount (hcounts paren hp) hexact
  by_cases hql : t.Live q
  · rw [(hspec.kept q hql).2 hqp]
    exact hcounts q hql
  · have hqn := ((hspec.live q).mp hq).resolve_left hql
    have hfound : ¬ (nodeChkIns expand t paren item intrn trieType).found = true :=
      fun hf => hql (hqn ▸ hspec.found.mp hf)
    rw [hqn, (hspec.new (Bool.not_eq_true _ ▸ hfound)).1]
    trivial

/-- Paths after an insertion. -/
theorem ChkInsSpec.atPath_iff (hwf : TrieWF t) {kind : Byte} {r : ChkIns}
    (h : ChkInsSpec t paren symbol kind r) {w : List Symbol} :
    AtPath r.trie w q ↔ AtPath t w q ∨
      (q = r.node ∧ ∃ v, AtPath t v paren ∧ w = v ++ [symbol]) := by
  have hmono : ∀ {w q}, AtPath t w q → AtPath r.trie w q := by
    intro w q hw
    induction hw with
    | root hr => rw [← h.root] at hr ⊢; exact .root hr
    | @step w c hp hl hne ih =>
      have hk := (h.kept c hl).1
      rw [← hk.symbol]
      exact .step (by rw [hk.parent]; exact ih) ((h.live c).mpr (.inl hl))
        (by rw [h.root]; exact hne)
  constructor
  · intro hw
    induction hw with
    | root hr => rw [h.root] at hr ⊢; exact .inl (.root hr)
    | @step w c hp hl hne ih =>
      rw [h.root] at hne
      by_cases hc : t.Live c
      · have hk := (h.kept c hc).1
        have hpl := (hwf.parent_child c hc hne).1
        rw [hk.parent] at ih
        rw [hk.symbol]
        rcases ih with ih | ⟨hpn, v, hv, rfl⟩
        · exact .inl (.step ih hc hne)
        · obtain ⟨u, hu⟩ := hwf.reach _ hpl
          have hvp : AtPath r.trie (v ++ [symbol]) (t.node c).parent := by
            rw [← hk.parent]
            exact hp
          rw [← (hmono hu).path_unique hvp]
          exact .inl (.step hu hc hne)
      · obtain rfl := ((h.live c).mp hl).resolve_left hc
        rw [h.parent] at ih hp
        rw [h.symbol]
        have hpl : t.Live paren := by
          rcases ih with ih | ⟨hpn, v, hv, -⟩
          · exact ih.live hwf
          · exact hv.live hwf
        obtain ⟨u, hu⟩ := hwf.reach _ hpl
        rw [← (hmono hu).path_unique hp]
        exact .inr ⟨rfl, u, hu, rfl⟩
  · rintro (hw | ⟨rfl, v, hv, rfl⟩)
    · exact hmono hw
    · have := AtPath.step (t := r.trie) (c := r.node) (w := v) (by rw [h.parent]; exact hmono hv)
        ((h.live _).mpr (.inr rfl)) (by rw [h.root]; exact h.ne_root)
      rwa [h.symbol] at this

end XSBEngine.Tries
