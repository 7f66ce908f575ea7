import XSBEngine.Tries.InternRuns

/-!
# Soft deletion

A leaf that `safe_delete_branch` has marked keeps its instruction in the status byte until
`undelete_branch` puts it back. Which terms can be read, and the deletion of several leaves.
-/

namespace XSBEngine.Tries

open List Terms Trie

variable {t t' : Trie} {p q leaf : BTNptr} {u w path : List Symbol} {a b n : BTN}

/-! ### States of a leaf -/

/-- Instruction kinds of leaves that are not deleted, with and without the upgrade to a success
instruction. -/
def leafKinds : List Byte := newKinds ++ newKinds.map (· + 4)

/-- A deleted node has the instruction `trie_no_cp_fail`. -/
def BTN.Fails (n : BTN) : Prop := instrKind n.instr = trieNoCpFail

instance (n : BTN) : Decidable n.Fails :=
  inferInstanceAs (Decidable (instrKind n.instr = trieNoCpFail))

/-- A leaf in use. -/
structure AliveLeaf (n : BTN) : Prop where
  leaf : n.isLeafNode = true
  status : n.status = validNodeStatus
  kind : instrKind n.instr ∈ leafKinds

/-- A leaf that is deleted and can be revived. -/
structure DeadLeaf (n : BTN) : Prop where
  leaf : n.isLeafNode = true
  status : instrKind n.status ∈ leafKinds
  kind : n.Fails

theorem leafKinds_ne : ∀ k ∈ leafKinds, k ≠ trieNoCpFail ∧ k ≠ 0 := by decide

/-- What the masks of leaves and of hashed nodes, soft deletion and the marking of a leaf do. -/
theorem mask_updates : ∀ x : Byte,
    x &&& leafNodeMask = (x ||| hashedNodeMask) &&& leafNodeMask ∧
    (x ||| hashedNodeMask = hashedNodeMask → (x &&& leafNodeMask != 0) = false) ∧
    ((x ||| leafNodeMask) &&& leafNodeMask != 0) = true ∧
    instrKind ((x &&& 0x3) ||| trieNoCpFail) = trieNoCpFail ∧
    instrKind (x + 4) = instrKind x + 4 := by
  decide +kernel

theorem SameRecord.isLeafNode (h : SameRecord a b) : a.isLeafNode = b.isLeafNode := by
  rw [BTN.isLeafNode, BTN.isLeafNode, (mask_updates a.nodeType).1, h.nodeType,
    ← (mask_updates b.nodeType).1]

theorem Fresh.not_leaf (h : Fresh n) : n.isLeafNode = false :=
  (mask_updates n.nodeType).2.1 h.nodeType

theorem Fresh.not_fails (h : Fresh n) : ¬ n.Fails := by
  have hkinds : ∀ k ∈ newKinds, k ≠ trieNoCpFail := by decide
  exact hkinds _ h.kind

theorem SameRecord.fails_iff (h : SameRecord a b) : a.Fails ↔ b.Fails := by
  rw [BTN.Fails, h.kind, BTN.Fails]

theorem SameRecord.alive (h : SameRecord a b) (hb : AliveLeaf b) : AliveLeaf a :=
  ⟨h.isLeafNode.trans hb.leaf, h.status.trans hb.status, h.kind ▸ hb.kind⟩

theorem SameRecord.dead (h : SameRecord a b) (hb : DeadLeaf b) : DeadLeaf a :=
  ⟨h.isLeafNode.trans hb.leaf, h.status ▸ hb.status, h.kind.trans hb.kind⟩

theorem AliveLeaf.not_fails (h : AliveLeaf n) : ¬ n.Fails := (leafKinds_ne _ h.kind).1

theorem AliveLeaf.not_deleted (h : AliveLeaf n) : n.isDeletedNode = false := by
  rw [BTN.isDeletedNode, h.status]
  rfl

theorem DeadLeaf.deleted (h : DeadLeaf n) : n.isDeletedNode = true := by
  have hne := (leafKinds_ne _ h.status).2
  rw [BTN.isDeletedNode, bne_iff_ne]
  intro hs
  rw [hs] at hne
  exact hne rfl

/-- Soft deletion of a leaf in use can be undone. -/
theorem AliveLeaf.safeDelete (h : AliveLeaf n) : DeadLeaf (safeDeleteRecord n) :=
  ⟨h.leaf, h.kind, (mask_updates n.instr).2.2.2.1⟩

theorem AliveLeaf.undelete (h : AliveLeaf n) : AliveLeaf (undeleteRecord n) := by
  rw [undeleteRecord, h.not_deleted]
  exact h

theorem DeadLeaf.undelete (h : DeadLeaf n) : AliveLeaf (undeleteRecord n) := by
  have hkind : ∀ x y : Byte, instrKind ((0x3 &&& x) ||| (~~~0x3 &&& y)) = instrKind y := by
    intro x y
    unfold instrKind
    ext i hi
    simp only [BitVec.getElem_and, BitVec.getElem_or, BitVec.getElem_not]
    cases (3#8)[i] <;> simp
  rw [undeleteRecord, if_pos h.deleted]
  exact ⟨h.leaf, rfl, by rw [hkind]; exact h.status⟩

theorem Fresh.mark (h : Fresh n) (constTag : Bool) : AliveLeaf (markRecord false constTag n) := by
  refine ⟨(mask_updates n.nodeType).2.2.1, h.status, ?_⟩
  cases constTag
  · exact mem_append_left _ h.kind
  · apply mem_append_right
    show instrKind (n.instr + 4) ∈ _
    rw [(mask_updates n.instr).2.2.2.2]
    exact mem_map_of_mem h.kind

/-! ### Terms that can be read -/

/-- A term can be read when its path leads to a leaf and no node on the path is deleted. -/
def Readable (t : Trie) (w : List Symbol) : Prop :=
  ∃ q, AtPath t w q ∧ (t.node q).isLeafNode = true ∧
    ∀ u p, u <+: w → AtPath t u p → ¬ (t.node p).Fails

/-- No node above the end of the path is deleted. -/
def OpenAbove (t : Trie) (w : List Symbol) : Prop :=
  ∀ u p, u <+: w → u ≠ w → AtPath t u p → ¬ (t.node p).Fails

theorem Readable.of_alive (hwf : TrieWF t) (hq : AtPath t w q) (ha : AliveLeaf (t.node q))
    (habove : OpenAbove t w) : Readable t w := by
  refine ⟨q, hq, ha.leaf, fun u p hu hp => ?_⟩
  by_cases huw : u = w
  · subst huw
    rw [hp.node_unique hwf hq]
    exact ha.not_fails
  · exact habove u p hu huw hp

/-! ### Deleting several leaves -/

/-- `t'` is `t` without some of its nodes. -/
structure Shrinks (t t' : Trie) : Prop where
  wf : TrieWF t'
  counts : CountsExact t'
  kept : ∀ q, t'.Live q → SameRecord (t'.node q) (t.node q)
  atPath : ∀ u q, AtPath t' u q → AtPath t u q

theorem Shrinks.refl (hwf : TrieWF t) (hcounts : CountsExact t) : Shrinks t t :=
  ⟨hwf, hcounts, fun _ _ => .refl _, fun _ _ h => h⟩

theorem Shrinks.trans {t'' : Trie} (h : Shrinks t t') (h' : Shrinks t' t'') : Shrinks t t'' where
  wf := h'.wf
  counts := h'.counts
  kept q hq := by
    obtain ⟨w, hw⟩ := h'.wf.reach q hq
    exact (h'.kept q hq).trans (h.kept q ((h'.atPath w q hw).live h.wf))
  atPath u q hq := h.atPath u q (h'.atPath u q hq)

/-- A node that is the end of a term. -/
def IsEnd (t : Trie) (q : BTNptr) : Prop :=
  ∃ w, w ≠ [] ∧ AtPath t w q ∧ (t.node q).child = .chain []

/-- Deletion of one leaf. -/
theorem deleteBranch_end (hwf : TrieWF t) (hcounts : CountsExact t) (hl : IsEnd t leaf) :
    ∃ t', t.deleteBranch leaf .root = some t' ∧ Shrinks t t' ∧ ¬ t'.Live leaf ∧
      ∀ q, IsEnd t q → q ≠ leaf → IsEnd t' q := by
  obtain ⟨w, hne, hw, hc⟩ := hl
  obtain ⟨t', ht', hspec⟩ := deleteBranch_spec hwf hcounts (hw.live hwf) hc (.inl rfl)
  refine ⟨t', ht', ⟨hspec.wf, hspec.exact, hspec.kept, fun u q hq => hspec.atPath hq⟩,
    hspec.gone, ?_⟩
  rintro q ⟨v, hvne, hv, hvc⟩ hql
  have hlive : t'.Live q := by
    apply hspec.stays q v w (hv.live hwf) hv hw
    intro hpre
    cases hv.bottom hwf hvc hw hpre
    exact hql (hv.node_unique hwf hw)
  exact ⟨v, hvne, hspec.atPath_of_live hv hlive, hspec.bottom q hlive hvc⟩

/-- The loop of `reclaim_uninterned_nr` over the leaves of a garbage list, with the leaves that
`delete_branch` is called for. -/
def reclaimLoop : List BTNptr → Trie → Option (Trie × List BTNptr)
  | [], t => some (t, [])
  | leaf :: rest, t =>
    if (t.node leaf).isDeletedNode then
      match t.deleteBranch leaf .root with
      | none => none
      | some t => (reclaimLoop rest t).map fun r => (r.1, leaf :: r.2)
    else reclaimLoop rest t

/-- Each deleted leaf of the list is deleted once. -/
theorem reclaimLoop_spec (hwf : TrieWF t) (hcounts : CountsExact t) {leaves : List BTNptr}
    (hnodup : leaves.Nodup) (hend : ∀ q ∈ leaves, IsEnd t q) :
    ∃ t', reclaimLoop leaves t =
        some (t', leaves.filter fun q => (t.node q).isDeletedNode) ∧
      Shrinks t t' ∧
      (∀ q ∈ leaves, (t.node q).isDeletedNode = true → ¬ t'.Live q) ∧
      ∀ q, IsEnd t q → (q ∈ leaves → (t.node q).isDeletedNode = false) → IsEnd t' q := by
  induction leaves generalizing t with
  | nil => exact ⟨t, rfl, .refl hwf hcounts, by simp, fun q hq _ => hq⟩
  | cons leaf rest ih =>
    obtain ⟨hnotin, hnodup'⟩ := nodup_cons.mp hnodup
    have hleaf := hend leaf mem_cons_self
    have hrest : ∀ q ∈ rest, IsEnd t q := fun q hq => hend q (mem_cons_of_mem _ hq)
    by_cases hdel : (t.node leaf).isDeletedNode = true
    · obtain ⟨t1, ht1, hshrink, hgone, hstay⟩ := deleteBranch_end hwf hcounts hleaf
      have hne : ∀ q ∈ rest, q ≠ leaf := fun q hq he => hnotin (he ▸ hq)
      have hend1 : ∀ q ∈ rest, IsEnd t1 q := fun q hq => hstay q (hrest q hq) (hne q hq)
      have hsame : ∀ q, IsEnd t1 q → (t1.node q).isDeletedNode = (t.node q).isDeletedNode := by
        rintro q ⟨w, -, hw, -⟩
        rw [BTN.isDeletedNode, (hshrink.kept q (hw.live hshrink.wf)).status, BTN.isDeletedNode]
      obtain ⟨t', hrun, hshrink', hgone', hstay'⟩ := ih hshrink.wf hshrink.counts hnodup' hend1
      refine ⟨t', ?_, hshrink.trans hshrink', ?_, ?_⟩
      · have hfilter : (leaf :: rest).filter (fun q => (t.node q).isDeletedNode) =
            leaf :: rest.filter fun q => (t.node q).isDeletedNode :=
          filter_cons_of_pos hdel
        rw [reclaimLoop, if_pos hdel, ht1]
        simp only
        rw [hrun, hfilter, filter_congr fun q hq => hsame q (hend1 q hq)]
        rfl
      · intro q hq hqdel hlive
        rcases mem_cons.mp hq with rfl | hq
        · obtain ⟨w, hw⟩ := hshrink'.wf.reach q hlive
          exact hgone ((hshrink'.atPath w q hw).live hshrink.wf)
        · exact hgone' q hq (by rw [hsame q (hend1 q hq)]; exact hqdel) hlive
      · intro q hq hqdel
        have hql : q ≠ leaf := by
          rintro rfl
          rw [hqdel mem_cons_self] at hdel
          exact absurd hdel (by simp)
        have hq1 := hstay q hq hql
        apply hstay' q hq1
        intro hm
        rw [hsame q hq1]
        exact hqdel (mem_cons_of_mem _ hm)
    · obtain ⟨t', hrun, hshrink, hgone, hstay⟩ := ih hwf hcounts hnodup' hrest
      refine ⟨t', ?_, hshrink, ?_, ?_⟩
      · have hfilter : (leaf :: rest).filter (fun q => (t.node q).isDeletedNode) =
            rest.filter fun q => (t.node q).isDeletedNode :=
          filter_cons_of_neg hdel
        rw [reclaimLoop, if_neg hdel, hfilter]
        exact hrun
      · intro q hq hqdel
        rcases mem_cons.mp hq with rfl | hq
        · exact absurd hqdel hdel
        · exact hgone q hq hqdel
      · exact fun q hq hqdel => hstay q hq fun hm => hqdel (mem_cons_of_mem _ hm)

end XSBEngine.Tries
