import XSBEngine.Tries.Delete

/-!
# Runs of `delete_branch`

The end of `delete_branch`, one turn of its loop, and the whole run up a path.
-/

namespace XSBEngine.Tries

open Function List Trie

variable {t t' t1 : Trie} {p q c : BTNptr} {w v : List Symbol} {hook : Hook}

/-! ### The level of a node -/

/-- The memory with the child field of the current node cleared. -/
def detach (t : Trie) (c : BTNptr) : Trie := t.setChild c (.chain [])

theorem detach_ne (t : Trie) (h : q ≠ c) : (detach t c).node q = t.node q := setChild_ne t _ h

theorem detach_self (t : Trie) (c : BTNptr) :
    (detach t c).node c = { t.node c with child := .chain [] } := setChild_self t c _

theorem detach_live (t : Trie) (c q : BTNptr) : (detach t c).Live q ↔ t.Live q := by
  rw [Live, detach, setChild_free, Live]

/-- A child field with one chain replaced, and the contents of a table counted down. -/
def Child.replaceChain (child : Child) (symbol : Symbol) (nodes : List BTNptr) : Child :=
  match child with
  | .chain _ => .chain nodes
  | .hash ht => .hash { ht.setBucket symbol nodes with numContents := ht.numContents - 1 }

theorem setSiblingChain_eq (t : Trie) (c : BTNptr) (nodes : List BTNptr) :
    t.setSiblingChain c nodes = t.setChild (t.node c).parent
      ((t.node (t.node c).parent).child.replaceChain (t.node c).symbol nodes) := by
  unfold setSiblingChain Child.replaceChain
  cases (t.node (t.node c).parent).child <;> rfl

section Level

variable (hT : TrieWF (detach t c)) (hl : t.Live c) (hcr : c ≠ t.root)
include hT hl hcr

/-- The parent of a node that is not the root. -/
theorem detach_parent : (t.node c).parent ≠ c ∧ t.Live (t.node c).parent ∧
    c ∈ (t.node (t.node c).parent).child.nodes ∧
    (t.node c).parent ∉ (t.node (t.node c).parent).child.nodes := by
  have hl' := (detach_live t c c).mpr hl
  obtain ⟨hp, hm⟩ := hT.parent_child c hl' hcr
  rw [detach_self] at hp hm
  have hne : (t.node c).parent ≠ c := by
    intro he
    refine hT.not_self_child hl' ?_
    simp only at hm
    rwa [he] at hm
  have hself := hT.not_self_child hp
  simp only [detach_ne t hne] at hm hself
  exact ⟨hne, (detach_live t c _).mp hp, hm, hself⟩

theorem siblingChain_spec : CpsOK t.node (t.siblingChain c) ∧ (t.siblingChain c).Nodup ∧
    c ∈ t.siblingChain c ∧
    ∀ q ∈ t.siblingChain c, t.Live q ∧ q ≠ (t.node c).parent := by
  obtain ⟨hne, hp, hm, hself⟩ := detach_parent hT hl hcr
  have hp' := (detach_live t c _).mpr hp
  have hok := hT.child_ok _ hp'
  have hcl := hT.child_live _ hp'
  rw [detach_ne t hne] at hok hcl
  have hsub : ∀ q ∈ (t.node (t.node c).parent).child.nodes, t.Live q ∧ q ≠ (t.node c).parent :=
    fun q hq => ⟨(detach_live t c q).mp (hcl q hq).1, fun he => hself (he ▸ hq)⟩
  have hinstr : ∀ q, (t.node q).instr = ((detach t c).node q).instr := by
    intro q
    by_cases hq : q = c
    · rw [hq, detach_self]
    · rw [detach_ne t hq]
  unfold siblingChain
  cases hchild : (t.node (t.node c).parent).child with
  | chain nodes =>
    rw [hchild] at hok hm hsub
    have hnd : nodes.Nodup := hok.nodup
    exact ⟨hok.1.congr fun q _ => hinstr q, hnd, hm, hsub⟩
  | hash ht =>
    have hpar : ((detach t c).node c).parent = (t.node c).parent := by rw [detach_self]
    have hsym : ((detach t c).node c).symbol = (t.node c).symbol := by rw [detach_self]
    have hhash : ((detach t c).node ((detach t c).node c).parent).child = .hash ht := by
      rw [hpar, detach_ne t hne, hchild]
    obtain ⟨hi, hbucket, hcb⟩ := mem_bucket hT ((detach_live t c c).mpr hl) hcr hhash
    simp only [hsym] at hbucket hcb hi
    rw [hchild] at hok hsub
    have hnd : ht.buckets.flatten.Nodup := hok.nodup
    simp only
    rw [hbucket] at hcb ⊢
    refine ⟨(hok.1 _ (getElem_mem hi)).congr fun q _ => hinstr q,
      (nodup_flatten.mp hnd).1 _ (getElem_mem hi), hcb, fun q hq => hsub q ?_⟩
    exact mem_flatten.mpr ⟨_, getElem_mem hi, hq⟩

/-- Unlinking a node from its chain and freeing it. -/
theorem removed_of_unlinked (t1 : Trie) (hroot : t1.root = t.root)
    (hfl : t1.freeList = t.freeList) (hns : t1.nextStruct = t.nextStruct) (hlive : t1.Live c)
    (hparent : t1.node (t.node c).parent =
      { t.node (t.node c).parent with
        child := (t.node (t.node c).parent).child.replaceChain (t.node c).symbol
          ((t.siblingChain c).erase c) })
    (hcps : CpsOK t1.node ((t.siblingChain c).erase c))
    (hsame : ∀ q ∈ (t.siblingChain c).erase c, SameNode (t1.node q) (t.node q))
    (hother : ∀ q, q ≠ c → q ≠ (t.node c).parent → q ∉ (t.siblingChain c).erase c →
      t1.node q = t.node q) :
    Removed (detach t c) (t1.deallocateStruct c) c := by
  obtain ⟨hne, hp, hm, -⟩ := detach_parent hT hl hcr
  obtain ⟨-, hnd, -, -⟩ := siblingChain_spec hT hl hcr
  have hl' := (detach_live t c c).mpr hl
  have hpar : ((detach t c).node c).parent = (t.node c).parent := by rw [detach_self]
  have hsym : ((detach t c).node c).symbol = (t.node c).symbol := by rw [detach_self]
  have hleaf : ((detach t c).node c).child.nodes = [] := by rw [detach_self]; rfl
  have hsame' : ∀ q ∈ (t.siblingChain c).erase c, SameNode (t1.node q) ((detach t c).node q) := by
    intro q hq
    have hqc : q ≠ c := (hnd.mem_erase_iff.mp hq).1
    rw [detach_ne t hqc]
    exact hsame q hq
  have hother' : ∀ q, q ≠ c → q ≠ ((detach t c).node c).parent →
      q ∉ (t.siblingChain c).erase c → t1.node q = (detach t c).node q := by
    intro q hqc hqp hqm
    rw [hpar] at hqp
    rw [detach_ne t hqc]
    exact hother q hqc hqp hqm
  have hu : Unlinked (detach t c) t1 c ((t.node (t.node c).parent).child.replaceChain
      (t.node c).symbol ((t.siblingChain c).erase c)) := by
    cases hchild : (t.node (t.node c).parent).child with
    | chain nodes =>
      have hchain : t.siblingChain c = nodes := by rw [siblingChain, hchild]
      rw [hchain] at hsame' hother' hcps ⊢
      refine unlinked_chain hT hl' hcr ?_ hroot hfl hns hlive ?_ hcps hsame' hother'
      · rw [hpar, detach_ne t hne, hchild]
      · rw [hpar, detach_ne t hne, hparent, hchild, hchain]
        rfl
    | hash ht =>
      have hchain : t.siblingChain c = ht.bucket (t.node c).symbol := by rw [siblingChain, hchild]
      rw [hchain] at hsame' hother' hcps ⊢
      rw [← hsym] at hsame' hother' hcps ⊢
      refine unlinked_hash hT hl' hcr ?_ hroot hfl hns hlive ?_ hcps hsame' hother'
      · rw [hpar, detach_ne t hne, hchild]
      · rw [hpar, hsym, detach_ne t hne, hparent, hchild, hchain]
        rfl
  obtain ⟨hup, hwf⟩ := hu.levelUpdate hT hl' hcr hleaf
  have hchild' : ((t1.deallocateStruct c).node ((detach t c).node c).parent).child =
      (t.node (t.node c).parent).child.replaceChain (t.node c).symbol
        ((t.siblingChain c).erase c) := by
    rw [hpar, deallocateStruct_ne _ hne, hparent]
  refine ⟨hup, hwf, fun q => ?_, fun nodes' hn => ?_, fun hcount => ?_⟩
  · rw [hchild']
    exact hu.mem q
  rotate_left
  · rw [hchild']
    exact hu.count hcount
  · right
    rw [hchild'] at hn
    rw [hpar, detach_ne t hne]
    unfold siblingChain at hn
    cases hc : (t.node (t.node c).parent).child with
    | chain nodes =>
      simp only [hc, Child.replaceChain, Child.chain.injEq] at hn
      exact ⟨nodes, rfl, hn ▸ length_erase_le⟩
    | hash ht => simp [hc, Child.replaceChain] at hn

/-! ### The end of the run -/

/-- Unlinking a node that has siblings. -/
theorem deleteLowest_spec (hook : Hook) (hc0 : c ≠ 0) (hcp : cpType (t.node c).instr ≠ nocpInstr) :
    ∃ t', t.deleteLowest c hook = some t' ∧ Removed (detach t c) t' c := by
  obtain ⟨hne, hp, hm, hself⟩ := detach_parent hT hl hcr
  obtain ⟨hcps, hnd, hcm, hsib⟩ := siblingChain_spec hT hl hcr
  obtain ⟨pre, post, hsplit⟩ := append_of_mem hcm
  have hcpre : c ∉ pre := by
    rw [hsplit] at hnd
    exact fun h => (disjoint_of_nodup_append hnd) h (mem_cons_self ..)
  have hcpost : c ∉ post := by
    rw [hsplit] at hnd
    exact (nodup_cons.mp hnd.of_append_right).1
  have herase : (t.siblingChain c).erase c = pre ++ post := by
    rw [hsplit, erase_append_right _ hcpre, erase_cons_head]
  rw [hsplit] at hcps hsib hnd
  obtain ⟨hno, htry, htrust⟩ := hcps.place
  have hnp : ∀ q ∈ pre ++ c :: post, q ≠ (t.node c).parent := fun q hq => (hsib q hq).2
  have hfree : (t.node c).free = false := hl
  unfold deleteLowest
  rw [if_neg hc0]
  by_cases hctry : cpType (t.node c).instr = tryInstr
  · -- The first node of its chain.
    rw [if_pos hctry]
    obtain ⟨rfl, hpost⟩ := htry.mp hctry
    rw [nil_append] at hsplit hcps hnp herase hnd
    obtain ⟨s, rest, rfl⟩ := exists_cons_of_ne_nil hpost
    have hafter : siblingsAfter c (t.siblingChain c) = s :: rest := by
      rw [hsplit, siblingsAfter]
      simp
    have hsc : s ≠ c := fun he => hcpost (he ▸ mem_cons_self ..)
    have hsp : s ≠ (t.node c).parent := hnp s (by simp)
    have hcs := modify_node_ne t (BTN.mapInstr fun instr => instr - 1) hsc.symm
    have hps := modify_node_ne t (BTN.mapInstr fun instr => instr - 1) hsp.symm
    rw [hafter]
    simp only
    rw [setSiblingChain_eq, hcs, hps, deallocateOnce, setChild_free, hcs, hfree]
    simp only [Bool.false_eq_true, if_false]
    refine ⟨_, rfl, removed_of_unlinked hT hl hcr _ rfl rfl rfl ?_ ?_ ?_ ?_ ?_⟩
    · rw [Live, setChild_free, hcs]; exact hl
    · rw [setChild_self, hps, herase]
    · rw [herase]
      refine hcps.pop ?_ fun x hx => ?_
      · rw [setChild_ne _ _ hsp, modify_node_self]; rfl
      · have hxs : x ≠ s := fun he =>
          (nodup_cons.mp (nodup_cons.mp hnd).2).1 (he ▸ hx)
        rw [setChild_ne _ _ (hnp x (by simp [hx])), modify_node_ne _ _ hxs]
    · rw [herase]
      intro x hx
      rw [setChild_ne _ _ (hnp x (mem_cons_of_mem _ hx))]
      by_cases hxs : x = s
      · subst hxs
        rw [modify_node_self]
        refine .mapInstr ?_
        have hcpx := hcps 1 (by simp)
        cases rest with
        | nil => exact (pred_trust (by simpa [cpAt] using hcpx)).2
        | cons r rest => exact (pred_retry (by simpa [cpAt] using hcpx)).2
      · rw [modify_node_ne _ _ hxs]
        exact .refl _
    · rw [herase]
      intro x _ hxp hxm
      have hxs : x ≠ s := fun he => hxm (he ▸ mem_cons_self ..)
      rw [setChild_ne _ _ hxp, modify_node_ne _ _ hxs]
  · -- A later node: its predecessor is found.
    rw [if_neg hctry]
    have hpre : pre ≠ [] := by
      intro hnil
      by_cases hpost : post = []
      · exact hcp (hno.mpr ⟨hnil, hpost⟩)
      · exact hctry (htry.mpr ⟨hnil, hpost⟩)
    obtain ⟨pre', a, rfl⟩ : ∃ pre' a, pre = pre' ++ [a] :=
      ⟨pre.dropLast, pre.getLast hpre, (dropLast_append_getLast hpre).symm⟩
    have hprev : ∀ l : List BTNptr, c ∉ l ++ [a] → prevSibl c (l ++ [a] ++ c :: post) = some a := by
      intro l hcl
      induction l with
      | nil => simp [prevSibl]
      | cons x l ih =>
        have hcl' : c ∉ l ++ [a] := fun h => hcl (mem_cons_of_mem _ h)
        have ih := ih hcl'
        cases l with
        | nil =>
          have hac : a ≠ c := fun he => hcl' (by simp [he])
          simp [prevSibl, hac]
        | cons y l =>
          have hyc : y ≠ c := fun he => hcl' (by simp [he])
          simpa [prevSibl, hyc] using ih
    have hac : a ≠ c := fun he => hcpre (by simp [he])
    have hap : a ≠ (t.node c).parent := hnp a (by simp)
    have hsetc : ∀ child, (t.setChild (t.node c).parent child).node c = t.node c :=
      fun child => setChild_ne _ _ hne.symm
    rw [hsplit, hprev pre' hcpre, ← hsplit]
    simp only
    rw [setSiblingChain_eq, hsetc]
    by_cases hct : cpType (t.node c).instr = trustInstr
    · -- The last node of its chain.
      obtain ⟨-, rfl⟩ := htrust.mp hct
      have herase' : (t.siblingChain c).erase c = pre' ++ [a] := by rw [herase, append_nil]
      have hcps' : CpsOK t.node (pre' ++ [a, c]) := by simpa using hcps
      rw [if_pos hct, deallocateOnce, modify_node_ne _ _ hac.symm, hsetc, hfree]
      simp only [Bool.false_eq_true, if_false]
      refine ⟨_, rfl, removed_of_unlinked hT hl hcr _ rfl rfl rfl ?_ ?_ ?_ ?_ ?_⟩
      · rw [Live, modify_node_ne _ _ hac.symm, hsetc]; exact hl
      · rw [modify_node_ne _ _ hap.symm, setChild_self]
      · rw [herase']
        refine hcps'.dropLast ?_ fun x hx => ?_
        · rw [modify_node_self, setChild_ne _ _ hap]; rfl
        · have hxa : x ≠ a := by
            rintro rfl
            have := hnd.of_append_left
            exact (disjoint_of_nodup_append this) hx (mem_singleton.mpr rfl)
          rw [modify_node_ne _ _ hxa, setChild_ne _ _ (hnp x (by simp [hx]))]
      · rw [herase']
        intro x hx
        have hxp : x ≠ (t.node c).parent := hnp x (mem_append_left _ hx)
        by_cases hxa : x = a
        · subst hxa
          rw [modify_node_self, setChild_ne _ _ hxp]
          refine .mapInstr ?_
          have hcpx := hcps' pre'.length (by simp)
          rw [getElem_append_right (Nat.le_refl _)] at hcpx
          simp only [Nat.sub_self, getElem_cons_zero] at hcpx
          cases pre' with
          | nil => exact (sub_two_try (by simpa [cpAt] using hcpx)).2
          | cons r pre' => exact (sub_two_retry (by simpa [cpAt] using hcpx)).2
        · rw [modify_node_ne _ _ hxa, setChild_ne _ _ hxp]
          exact .refl _
      · rw [herase']
        intro x _ hxp hxm
        have hxa : x ≠ a := fun he => hxm (by simp [he])
        rw [modify_node_ne _ _ hxa, setChild_ne _ _ hxp]
    · have hpost : post ≠ [] := fun he => hct (htrust.mpr ⟨hpre, he⟩)
      rw [if_neg hct, deallocateOnce, hsetc, hfree]
      simp only [Bool.false_eq_true, if_false]
      refine ⟨_, rfl, removed_of_unlinked hT hl hcr _ rfl rfl rfl ?_ ?_ ?_ ?_ ?_⟩
      · rw [Live, hsetc]; exact hl
      · rw [setChild_self]
      · rw [herase]
        refine (hcps.dropMid hpre hpost).congr fun x hx => ?_
        rw [setChild_ne _ _ (hnp x (by simp only [mem_append, mem_cons] at hx ⊢; tauto))]
      · rw [herase]
        intro x hx
        rw [setChild_ne _ _ (hnp x (by simp only [mem_append, mem_cons] at hx ⊢; tauto))]
        exact .refl _
      · intro x _ hxp _
        rw [setChild_ne _ _ hxp]

/-- An only child goes with the child field of its parent. -/
theorem removed_of_only (honly : ∀ q, q ∈ (t.node (t.node c).parent).child.nodes ↔ q = c) :
    Removed (detach t c) ((detach t (t.node c).parent).deallocateStruct c) c := by
  obtain ⟨hne, hp, hm, -⟩ := detach_parent hT hl hcr
  have hl' := (detach_live t c c).mpr hl
  have hpar : ((detach t c).node c).parent = (t.node c).parent := by rw [detach_self]
  have hleaf : ((detach t c).node c).child.nodes = [] := by rw [detach_self]; rfl
  have hu : Unlinked (detach t c) (detach t (t.node c).parent) c (.chain []) := by
    constructor
    case root => rfl
    case freeList => rfl
    case nextStruct => rfl
    case live => exact (detach_live t _ c).mpr hl
    case parent => rw [hpar, detach_self, detach_ne t hne]
    case sibling => exact fun q hq => absurd hq not_mem_nil
    case other =>
      intro q hqc hqp _
      rw [hpar] at hqp
      rw [detach_ne t hqp, detach_ne t hqc]
    case mem =>
      intro q
      rw [hpar, detach_ne t hne, honly]
      simp [Child.nodes]
    case ok => exact childOK_nil _
    case count => exact fun _ => trivial
  obtain ⟨hup, hwf⟩ := hu.levelUpdate hT hl' hcr hleaf
  have hchild : (((detach t (t.node c).parent).deallocateStruct c).node
      ((detach t c).node c).parent).child = .chain [] := by
    rw [hpar, deallocateStruct_ne _ hne, detach_self]
  refine ⟨hup, hwf, fun q => ?_, fun nodes' hn => .inl ?_, fun hcount => ?_⟩
  · rw [hchild, hpar, detach_ne t hne, honly]
    simp [Child.nodes]
  · rw [hchild] at hn
    exact (Child.chain.inj hn).symm
  · rw [hchild]
    trivial

/-- A node alone in its chain, from its choice point bits. -/
theorem siblingChain_of_nocp (hcp : cpType (t.node c).instr = nocpInstr) :
    t.siblingChain c = [c] := by
  obtain ⟨hcps, -, hcm, -⟩ := siblingChain_spec hT hl hcr
  obtain ⟨pre, post, hsplit⟩ := append_of_mem hcm
  rw [hsplit] at hcps
  obtain ⟨rfl, rfl⟩ := hcps.place.1.mp hcp
  exact hsplit

end Level

/-! ### The loop -/

theorem setChild_deallocate (t : Trie) (child : Child) (h : p ≠ c) :
    (t.setChild p child).deallocateStruct c = (t.deallocateStruct c).setChild p child := by
  simp only [deallocateStruct, setChild, Trie.modify, update_of_ne h,
    update_of_ne h.symm]
  rw [update_comm h]

theorem setChild_setChild (t : Trie) (p : BTNptr) (child child' : Child) :
    (t.setChild p child).setChild p child' = t.setChild p child' := by
  simp [setChild, Trie.modify]

/-- The last turn, when the hook has been reached. -/
theorem deleteLoop_zero (fuel : Nat) (t : Trie) (hook : Hook) :
    deleteLoop (fuel + 1) t 0 hook = some (t.clearHook hook) := by
  simp [deleteLoop, deleteLowest]

/-- The root goes last. -/
theorem deleteSpec_root (hT : TrieWF (detach t t.root)) (hl : t.Live t.root) :
    DeleteSpec (detach t t.root) ((t.deallocateStruct t.root).clearHook .root) t.root := by
  have hr0 := (hT.alloc.live_lt _ ((detach_live t t.root t.root).mpr hl)).1
  have honly : ∀ q w, AtPath (detach t t.root) w q → q = t.root := by
    intro q w hq
    induction hq with
    | root _ => rfl
    | step hp hlc hne ih =>
      have hm := (hT.parent_child _ hlc hne).2
      rw [ih, detach_self] at hm
      exact absurd hm not_mem_nil
  have hnone : ∀ q, ¬ ((t.deallocateStruct t.root).clearHook .root).Live q := by
    intro q hq
    have hq' := (deallocateStruct_live t q).mp hq
    obtain ⟨w, hw⟩ := hT.reach q ((detach_live t _ q).mpr hq'.1)
    exact hq'.2 (honly q w hw)
  have halloc0 : AllocOK t :=
    hT.alloc.congr rfl rfl fun q => (setChild_free t t.root q (.chain [])).symm
  have halloc := halloc0.deallocateStruct hl
  exact {
    wf := {
      alloc := ⟨halloc.next_pos, halloc.free_nodup, halloc.free_free, halloc.live_lt⟩
      root_zero := fun _ => hnone
      root_live := fun h => absurd rfl h
      node_type := fun q hq => absurd hq (hnone q)
      child_ok := fun q hq => absurd hq (hnone q)
      child_live := fun q hq => absurd hq (hnone q)
      parent_child := fun q hq => absurd hq (hnone q)
      reach := fun q hq => absurd hq (hnone q) }
    root := .inr rfl
    gone := hnone _
    sub := fun q hq => absurd hq (hnone q)
    kept := fun q hq => absurd hq (hnone q)
    chain := fun q _ hq => absurd hq (hnone q)
    bottom := fun q hq => absurd hq (hnone q)
    stays := fun q v w hq hv hw hpre => by
      have hqr := honly q v hv
      subst hqr
      exact absurd (by rw [hv.path_unique hw]) hpre
    exact := fun q hq => absurd hq (hnone q) }

/-- The hook is the root variable, or the child field of the root and the branch starts
below it. -/
def HookFits (t : Trie) (c : BTNptr) (hook : Hook) : Prop :=
  hook = .root ∨ (hook = .child t.root ∧ c ≠ t.root)

/-- The run from `c` upwards. -/
theorem deleteLoop_spec (hook : Hook) (fuel : Nat) :
    ∀ (t : Trie) (c : BTNptr) (w : List Symbol),
    TrieWF (detach t c) → CountsExact (detach t c) → t.Live c → AtPath (detach t c) w c →
    w.length + 2 ≤ fuel → HookFits t c hook →
    ∃ t', deleteLoop fuel t c hook = some t' ∧ DeleteSpec (detach t c) t' c := by
  induction fuel with
  | zero => intro t c w _ _ _ _ hf _; omega
  | succ fuel ih =>
    intro t c w hT hcounts hl hw hf hh
    have hl' := (detach_live t c c).mpr hl
    have hc0 : c ≠ 0 := (hT.alloc.live_lt c hl').1
    have hfree : (t.node c).free = false := hl
    by_cases hcr : c = t.root
    · -- The root itself.
      subst hcr
      obtain rfl : hook = .root := hh.resolve_right fun h => h.2 rfl
      have hroot : (t.node t.root).isTrieRoot = true := by
        have := (hT.root_live hc0).2.1
        change ((detach t t.root).node t.root).isTrieRoot = true at this
        rw [detach_self] at this
        exact this
      obtain ⟨fuel, rfl⟩ : ∃ k, fuel = k + 1 := ⟨fuel - 1, by omega⟩
      refine ⟨_, ?_, deleteSpec_root hT hl⟩
      rw [deleteLoop, if_pos ⟨hc0, .inr hroot⟩]
      simp only [setParentAndNodeHook, hroot, if_true, hookChild, hfree, Bool.false_eq_true,
        if_false]
      exact deleteLoop_zero fuel _ _
    obtain ⟨hne, hp, hm, hself⟩ := detach_parent hT hl hcr
    have hp0 : (t.node c).parent ≠ 0 :=
      (hT.alloc.live_lt _ ((detach_live t c _).mpr hp)).1
    have hnr : (t.node c).isTrieRoot = false := by
      have := hT.node_type c hl' hcr
      rw [detach_self] at this
      have key : ∀ b : Byte, b.toNat < 4 → (b == trieRootNT) = false := by decide +kernel
      exact key _ this
    by_cases hcp : cpType (t.node c).instr = nocpInstr
    · have hchain := siblingChain_of_nocp hT hl hcr hcp
      have hhook : t.setParentAndNodeHook c hook =
          (if hook = .child (t.node c).parent then 0 else (t.node c).parent,
            .child (t.node c).parent) := by
        simp only [setParentAndNodeHook, hnr, Bool.false_eq_true, if_false, ne_eq, hp0,
          not_false_eq_true, true_and]
        by_cases hhp : hook = .child (t.node c).parent
        · simp [hhp]
        · simp [hhp, hp0]
      -- Going on from the parent, after an only child has been freed.
      have go : ∀ t1 : Trie, t1.root = t.root →
          (∀ q, q ∈ (t.node (t.node c).parent).child.nodes ↔ q = c) →
          detach (t1.deallocateStruct c) (t.node c).parent =
            (detach t (t.node c).parent).deallocateStruct c →
          ∃ t', deleteLoop fuel (t1.deallocateStruct c)
            (if hook = .child (t.node c).parent then 0 else (t.node c).parent) hook = some t' ∧
            DeleteSpec (detach t c) t' c := by
        intro t1 hr1 honly heq
        have hrem := removed_of_only hT hl hcr honly
        have hpar : ((detach t c).node c).parent = (t.node c).parent := by rw [detach_self]
        obtain ⟨w, rfl, hwp⟩ := hw.parent hcr
        rw [hpar] at hwp
        rw [length_append, length_singleton] at hf
        split
        next hhp =>
          obtain ⟨fuel, rfl⟩ : ∃ k, fuel = k + 1 := ⟨fuel - 1, by omega⟩
          refine ⟨_, deleteLoop_zero fuel _ _, ?_⟩
          rw [hhp]
          have hclear : (t1.deallocateStruct c).clearHook (.child (t.node c).parent) =
              (detach t (t.node c).parent).deallocateStruct c := heq
          rw [hclear]
          exact hrem.deleteSpec hT hl' hcr hcounts
        next hhp =>
          have hpl := hrem.update.parent_live' hT
          rw [hpar] at hpl
          have hwp' : AtPath ((detach t (t.node c).parent).deallocateStruct c) w
              (t.node c).parent := hrem.update.atPath_of_live hT hwp hpl
          rw [← heq] at hwp' hpl
          have hfit : HookFits (t1.deallocateStruct c) (t.node c).parent hook := by
            rcases hh with hh | ⟨hh, -⟩
            · exact .inl hh
            · refine .inr ⟨hh.trans (by rw [← hr1]; rfl), fun he => hhp ?_⟩
              have hroot : (t1.deallocateStruct c).root = t.root := hr1
              rw [hh, he, hroot]
          obtain ⟨t', ht', hd⟩ := ih (t1.deallocateStruct c) (t.node c).parent w
            (heq ▸ hrem.wf) (heq ▸ hrem.countsExact hT hl' hcr hcounts)
              ((detach_live _ _ _).mp hpl) hwp' (by omega) hfit
          rw [heq] at hd
          refine ⟨t', ht', hrem.trans hT hl' hcr hcounts ?_⟩
          rwa [hpar]
      rw [deleteLoop, if_pos ⟨hc0, .inl hcp⟩, hhook]
      simp only [hookChild]
      cases hchild : (t.node (t.node c).parent).child with
      | chain nodes =>
        simp only [hfree, Bool.false_eq_true, if_false]
        have hnodes : nodes = [c] := by
          rw [siblingChain, hchild] at hchain
          exact hchain
        refine go t rfl (fun q => ?_) ?_
        · rw [hchild, hnodes]
          exact mem_singleton
        · exact (setChild_deallocate t _ hne).symm
      | hash ht =>
        have hbucket : ht.bucket (t.node c).symbol = [c] := by
          rw [siblingChain, hchild] at hchain
          exact hchain
        simp only [setHookTable]
        have hnodec : ∀ child, (t.setChild (t.node c).parent child).node c = t.node c :=
          fun child => setChild_ne t child hne.symm
        split
        next hpos =>
          -- Other buckets are filled.
          rw [deallocateOnce, hnodec, hfree]
          simp only [Bool.false_eq_true, if_false]
          refine ⟨_, rfl, (removed_of_unlinked hT hl hcr (t.setChild (t.node c).parent _) rfl rfl
            rfl ?_ ?_ ?_ ?_ ?_).deleteSpec hT hl' hcr hcounts⟩
          · rw [Live, hnodec]; exact hl
          · rw [setChild_self, hchild, hchain]
            simp [Child.replaceChain]
          · rw [hchain]
            simp [cpsOK_nil]
          · rw [hchain]
            simp
          · intro q _ hqp _
            rw [setChild_ne _ _ hqp]
        next hpos =>
          simp only [hnodec, hfree, Bool.false_eq_true, if_false]
          have hnum := hcounts _ ((detach_live t c _).mpr hp)
          rw [detach_ne t hne, hchild, CountOK] at hnum
          rw [hchild] at hm
          have hm' : c ∈ ht.buckets.flatten := hm
          have hlen : ht.buckets.flatten.length = 1 := by
            have := length_pos_of_mem hm'
            omega
          obtain ⟨x, hx⟩ := length_eq_one_iff.mp hlen
          refine go _ rfl (fun q => ?_) ?_
          · rw [hchild]
            simp only [Child.nodes, hx] at hm' ⊢
            rw [mem_singleton] at hm' ⊢
            rw [hm']
          · rw [setChild_deallocate _ _ hne, detach, setChild_setChild]
            exact (setChild_deallocate t _ hne).symm
    · obtain ⟨t', ht', hrem⟩ := deleteLowest_spec hT hl hcr hook hc0 hcp
      refine ⟨t', ?_, hrem.deleteSpec hT hl' hcr hcounts⟩
      rw [deleteLoop, if_neg]
      · exact ht'
      · rintro ⟨-, h | h⟩
        · exact hcp h
        · rw [hnr] at h
          exact absurd h (by simp)

/-- `delete_branch` for a leaf. -/
theorem deleteBranch_spec (hwf : TrieWF t) (hcounts : CountsExact t) (hl : t.Live c)
    (hleaf : (t.node c).child = .chain []) (hh : HookFits t c hook) :
    ∃ t', t.deleteBranch c hook = some t' ∧ DeleteSpec t t' c := by
  have hself : detach t c = t := setChild_eq_self hleaf
  obtain ⟨w, hw⟩ := hwf.reach c hl
  have hlen := hw.length_lt hwf
  have := deleteLoop_spec hook (t.nextStruct + 1) t c w (by rwa [hself]) (by rwa [hself]) hl
    (by rwa [hself]) (by omega) hh
  rwa [hself] at this

end XSBEngine.Tries
