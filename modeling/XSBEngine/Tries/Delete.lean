import Mathlib
import XSBEngine.Tries.Insert

/-!
# Deletion keeps the invariant

`delete_branch` climbs from a leaf as long as the node is an only child, and unlinks the
first node that has siblings. While it climbs, the child field of the current node still
points to what has been freed; the invariant holds of the memory with that field cleared.
-/

namespace XSBEngine.Tries

open List Trie

variable {t t' : Trie} {p q c : BTNptr} {w v : List Symbol} {hook : Hook}

/-! ### Depth -/

/-- Every beginning of a path leads to a node. -/
theorem AtPath.take (h : AtPath t w p) (i : Nat) : ∃ q, AtPath t (w.take i) q := by
  induction h with
  | root hr => exact ⟨t.root, by rw [take_nil]; exact .root hr⟩
  | step hp hl hne ih =>
    rename_i w c
    by_cases hi : i ≤ w.length
    · rw [take_append_of_le_length hi]
      exact ih
    · have hlen : (w ++ [(t.node c).symbol]).length ≤ i := by
        rw [length_append, length_singleton]
        omega
      rw [take_of_length_le hlen]
      exact ⟨c, .step hp hl hne⟩

/-- A path is shorter than the number of records. -/
theorem AtPath.length_lt (hwf : TrieWF t) (h : AtPath t w p) : w.length + 1 < t.nextStruct := by
  choose f hf using h.take
  have hlt : ∀ i, 0 < f i ∧ f i < t.nextStruct := fun i =>
    have hl := hwf.alloc.live_lt _ ((hf i).live hwf)
    ⟨Nat.pos_of_ne_zero hl.1, hl.2⟩
  let g : Fin (w.length + 1) → Fin (t.nextStruct - 1) := fun i =>
    ⟨f i - 1, Nat.sub_lt_sub_right (hlt i).1 (hlt i).2⟩
  have hinj : Function.Injective g := by
    intro i j hij
    have hfij : f i = f j :=
      Nat.pred_inj (hlt i).1 (hlt j).1 (Fin.mk.inj hij)
    have hp := (hf i).path_unique (hfij ▸ hf j)
    have hlen := congrArg List.length hp
    rw [length_take_of_le (Nat.lt_succ_iff.mp i.isLt),
      length_take_of_le (Nat.lt_succ_iff.mp j.isLt)] at hlen
    exact Fin.ext hlen
  have := Fintype.card_le_of_injective g hinj
  simp only [Fintype.card_fin] at this
  omega

/-! ### Freeing a child -/

theorem deallocateStruct_ne (t : Trie) (h : q ≠ c) :
    (t.deallocateStruct c).node q = t.node q := by
  simp only [deallocateStruct]
  exact modify_node_ne t _ h

theorem deallocateStruct_live (t : Trie) (q : BTNptr) :
    (t.deallocateStruct c).Live q ↔ t.Live q ∧ q ≠ c := by
  by_cases h : q = c
  · subst h
    simp [Live, deallocateStruct]
  · rw [Live, deallocateStruct_ne t h]
    simp [Live, h]

theorem AllocOK.deallocateStruct (h : AllocOK t) (hc : t.Live c) :
    AllocOK (t.deallocateStruct c) where
  next_pos := h.next_pos
  free_nodup := nodup_cons.mpr ⟨fun hm => (h.free_free c hm).1 hc, h.free_nodup⟩
  free_free q hq := by
    rw [deallocateStruct_live]
    rcases mem_cons.mp hq with rfl | hq
    · exact ⟨fun hl => hl.2 rfl, h.live_lt q hc⟩
    · obtain ⟨hl, h0, hlt⟩ := h.free_free q hq
      exact ⟨fun hl' => hl hl'.1, h0, hlt⟩
  live_lt q hq := h.live_lt q ((deallocateStruct_live t q).mp hq).1

/-- What the unlinking of `c` from its parent leaves, before `c` is freed. The record of `c`
itself does not matter any more. -/
structure Unlinked (t t₁ : Trie) (c : BTNptr) (child : Child) : Prop where
  root : t₁.root = t.root
  freeList : t₁.freeList = t.freeList
  nextStruct : t₁.nextStruct = t.nextStruct
  live : t₁.Live c
  parent : t₁.node (t.node c).parent = { t.node (t.node c).parent with child := child }
  sibling : ∀ q ∈ child.nodes, SameNode (t₁.node q) (t.node q)
  other : ∀ q, q ≠ c → q ≠ (t.node c).parent → q ∉ child.nodes → t₁.node q = t.node q
  mem : ∀ q, q ∈ child.nodes ↔ q ∈ (t.node (t.node c).parent).child.nodes ∧ q ≠ c
  ok : ChildOK t₁.node child
  count : CountOK (t.node (t.node c).parent).child → CountOK child

theorem Unlinked.levelUpdate {t₁ : Trie} {child : Child} (hwf : TrieWF t) (hc : t.Live c)
    (hcr : c ≠ t.root) (hleaf : (t.node c).child.nodes = []) (h : Unlinked t t₁ c child) :
    LevelUpdate t (t₁.deallocateStruct c) (t.node c).parent ∧ TrieWF (t₁.deallocateStruct c) := by
  obtain ⟨hp, hcp⟩ := hwf.parent_child c hc hcr
  have hpc : (t.node c).parent ≠ c := fun he => hwf.not_self_child hc (by rwa [he] at hcp)
  have hself := hwf.not_self_child hp
  have hparent : (t₁.deallocateStruct c).node (t.node c).parent =
      { t.node (t.node c).parent with child := child } := by
    rw [deallocateStruct_ne _ hpc, h.parent]
  have hchild : ((t₁.deallocateStruct c).node (t.node c).parent).child = child := by
    rw [hparent]
  have hfree : ∀ q, q ≠ c → (t₁.Live q ↔ t.Live q) := by
    intro q hqc
    by_cases hqp : q = (t.node c).parent
    · rw [Live, hqp, h.parent, Live]
    by_cases hqm : q ∈ child.nodes
    · rw [Live, (h.sibling q hqm).free, Live]
    · rw [Live, h.other q hqc hqp hqm, Live]
  have hu : LevelUpdate t (t₁.deallocateStruct c) (t.node c).parent := by
    constructor
    case parent_live => exact hp
    case root => exact h.root
    case live =>
      intro q
      rw [hchild, h.mem, deallocateStruct_live]
      by_cases hqc : q = c
      · subst hqc
        simp [hcp]
      · rw [hfree q hqc]
        simp [hqc]
    case keep =>
      intro q hq hqp hqm
      have hqc : q ≠ c := fun he => hqm (he ▸ hcp)
      rw [deallocateStruct_ne _ hqc]
      exact h.other q hqc hqp fun hm => hqm ((h.mem q).mp hm).1
    case sibling =>
      intro q _ hq
      rw [hchild] at hq
      rw [deallocateStruct_ne _ ((h.mem q).mp hq).2]
      exact h.sibling q hq
    case new =>
      intro q hq hq'
      rw [hchild, h.mem] at hq
      exact absurd hq.1 hq'
    case gone =>
      intro q hq hq'
      rw [hchild, h.mem] at hq'
      have hqc : q = c := by
        by_contra hne
        exact hq' ⟨hq, hne⟩
      rw [hqc, hleaf]
    case parent => rw [hparent]
  have halloc : AllocOK t₁ := by
    refine hwf.alloc.congr h.freeList h.nextStruct fun q => ?_
    by_cases hqc : q = c
    · rw [hqc]
      exact h.live.trans hc.symm
    · have := hfree q hqc
      simp only [Live] at this
      cases h₁ : (t₁.node q).free <;> cases h₂ : (t.node q).free <;> simp_all
  refine ⟨hu, hu.wf hwf (halloc.deallocateStruct h.live) ?_⟩
  rw [hchild]
  have hne : ∀ q ∈ child.nodes, q ≠ c := fun q hq => ((h.mem q).mp hq).2
  exact h.ok.congr (fun q hq => by rw [deallocateStruct_ne _ (hne q hq)])
    (fun q hq => by rw [deallocateStruct_ne _ (hne q hq)])

/-! ### Effect of a deletion -/

/-- What `delete_branch` for the leaf `c` does. -/
structure DeleteSpec (t t' : Trie) (c : BTNptr) : Prop where
  wf : TrieWF t'
  root : t'.root = t.root ∨ t'.root = 0
  gone : ¬ t'.Live c
  sub : ∀ q, t'.Live q → t.Live q
  kept : ∀ q, t'.Live q → SameRecord (t'.node q) (t.node q)
  chain : ∀ q nodes', t'.Live q → (t'.node q).child = .chain nodes' → nodes' = [] ∨
    ∃ nodes, (t.node q).child = .chain nodes ∧ nodes'.length ≤ nodes.length
  bottom : ∀ q, t'.Live q → (t.node q).child = .chain [] → (t'.node q).child = .chain []
  stays : ∀ q v w, t.Live q → AtPath t v q → AtPath t w c → ¬ v <+: w → t'.Live q
  exact : CountsExact t'

/-- Paths of the remaining nodes. -/
theorem DeleteSpec.atPath (h : DeleteSpec t t' c) (hq : AtPath t' w q) :
    AtPath t w q := by
  have hroot : t'.root = t.root := h.root.resolve_right hq.root_ne
  induction hq with
  | root hr => rw [hroot] at hr ⊢; exact .root hr
  | step _ hl hne ih =>
    have hk := h.kept _ hl
    rw [hk.parent] at ih
    rw [hk.symbol]
    exact .step ih (h.sub _ hl) (by rw [← hroot]; exact hne)

theorem DeleteSpec.atPath_of_live (h : DeleteSpec t t' c) (hq : AtPath t w q)
    (hl : t'.Live q) : AtPath t' w q := by
  obtain ⟨v, hv⟩ := h.wf.reach q hl
  rwa [hq.path_unique (h.atPath hv)]

/-! ### Removing one node -/

/-- The leaf `c` is removed from the level below its parent. -/
structure Removed (t t' : Trie) (c : BTNptr) : Prop where
  update : LevelUpdate t t' (t.node c).parent
  wf : TrieWF t'
  mem : ∀ q, q ∈ (t'.node (t.node c).parent).child.nodes ↔
    q ∈ (t.node (t.node c).parent).child.nodes ∧ q ≠ c
  chain : ∀ nodes', (t'.node (t.node c).parent).child = .chain nodes' → nodes' = [] ∨
    ∃ nodes, (t.node (t.node c).parent).child = .chain nodes ∧ nodes'.length ≤ nodes.length
  count : CountOK (t.node (t.node c).parent).child → CountOK (t'.node (t.node c).parent).child

theorem Removed.live (h : Removed t t' c) (hwf : TrieWF t) (hc : t.Live c) (hcr : c ≠ t.root)
    (q : BTNptr) : t'.Live q ↔ t.Live q ∧ q ≠ c := by
  have hcm := (hwf.parent_child c hc hcr).2
  rw [h.update.live, h.mem]
  constructor
  · rintro (⟨hl, himp⟩ | ⟨⟨hm, -⟩, hn⟩)
    · exact ⟨hl, fun he => (himp (he ▸ hcm)).2 he⟩
    · exact absurd hm hn
  · rintro ⟨hl, hne⟩
    exact .inl ⟨hl, fun hm => ⟨hm, hne⟩⟩

theorem Removed.countsExact (h : Removed t t' c) (hwf : TrieWF t) (hc : t.Live c)
    (hcr : c ≠ t.root) (hcounts : CountsExact t) : CountsExact t' := by
  intro q hq
  have hql := ((h.live hwf hc hcr q).mp hq).1
  by_cases hqp : q = (t.node c).parent
  · rw [hqp] at hql ⊢
    exact h.count (hcounts _ hql)
  · rw [(h.update.kept hql hq).2 hqp]
    exact hcounts q hql

/-- Removing one node is a deletion. -/
theorem Removed.deleteSpec (h : Removed t t' c) (hwf : TrieWF t) (hc : t.Live c)
    (hcr : c ≠ t.root) (hcounts : CountsExact t) : DeleteSpec t t' c where
  wf := h.wf
  root := .inl h.update.root
  gone hl := ((h.live hwf hc hcr c).mp hl).2 rfl
  sub q hq := ((h.live hwf hc hcr q).mp hq).1
  kept q hq := (h.update.kept ((h.live hwf hc hcr q).mp hq).1 hq).1
  chain q nodes' hq hch := by
    by_cases hqp : q = (t.node c).parent
    · subst hqp
      exact h.chain nodes' hch
    · rw [(h.update.kept ((h.live hwf hc hcr q).mp hq).1 hq).2 hqp] at hch
      exact .inr ⟨nodes', hch, le_rfl⟩
  bottom q hq hch := by
    have hl := ((h.live hwf hc hcr q).mp hq).1
    rw [(h.update.kept hl hq).2]
    · exact hch
    · rintro rfl
      have hm := (hwf.parent_child c hc hcr).2
      rw [hch] at hm
      exact absurd hm not_mem_nil
  stays q v w hq hv hw hpre := by
    refine (h.live hwf hc hcr q).mpr ⟨hq, fun he => hpre ?_⟩
    subst he
    rw [hv.path_unique hw]
  exact := h.countsExact hwf hc hcr hcounts

/-- Removing a node and then its parent, which has no other child. -/
theorem Removed.trans {t'' : Trie} (h : Removed t t' c) (hwf : TrieWF t) (hc : t.Live c)
    (hcr : c ≠ t.root) (hcounts : CountsExact t) (h' : DeleteSpec t' t'' (t.node c).parent) :
    DeleteSpec t t'' c := by
  have h₁ := h.deleteSpec hwf hc hcr hcounts
  constructor
  case wf => exact h'.wf
  case exact => exact h'.exact
  case root =>
    rcases h'.root with hr | hr
    · exact .inl (hr.trans h.update.root)
    · exact .inr hr
  case gone => exact fun hl => h₁.gone (h'.sub c hl)
  case sub => exact fun q hq => h₁.sub q (h'.sub q hq)
  case kept => exact fun q hq => (h'.kept q hq).trans (h₁.kept q (h'.sub q hq))
  case chain =>
    intro q nodes'' hq hch
    rcases h'.chain q nodes'' hq hch with hnil | ⟨nodes', hch', hle⟩
    · exact .inl hnil
    rcases h₁.chain q nodes' (h'.sub q hq) hch' with hnil | ⟨nodes, hch0, hle'⟩
    · left
      rw [hnil] at hle
      exact length_eq_zero_iff.mp (Nat.le_zero.mp hle)
    · exact .inr ⟨nodes, hch0, hle.trans hle'⟩
  case bottom =>
    exact fun q hq hch => h'.bottom q hq (h₁.bottom q (h'.sub q hq) hch)
  case stays =>
    intro q v w hq hv hw hpre
    have hq1 := h₁.stays q v w hq hv hw hpre
    obtain ⟨w, rfl, hp⟩ := hw.parent hcr
    have hpl := h.update.parent_live' hwf
    refine h'.stays q v w hq1 (h₁.atPath_of_live hv hq1) (h₁.atPath_of_live hp hpl) ?_
    exact fun hpre' => hpre (hpre'.trans (prefix_append ..))

/-! ### Unlinking from a chain or a bucket -/

section Unlink

variable {t₁ : Trie}

/-- The chain of `c` without `c`. -/
theorem unlinked_chain (hwf : TrieWF t) (hc : t.Live c) (hcr : c ≠ t.root)
    {nodes : List BTNptr} (hchain : (t.node (t.node c).parent).child = .chain nodes)
    (hroot : t₁.root = t.root) (hfl : t₁.freeList = t.freeList)
    (hns : t₁.nextStruct = t.nextStruct) (hlive : t₁.Live c)
    (hparent : t₁.node (t.node c).parent =
      { t.node (t.node c).parent with child := .chain (nodes.erase c) })
    (hcps : CpsOK t₁.node (nodes.erase c))
    (hsame : ∀ q ∈ nodes.erase c, SameNode (t₁.node q) (t.node q))
    (hother : ∀ q, q ≠ c → q ≠ (t.node c).parent → q ∉ nodes.erase c → t₁.node q = t.node q) :
    Unlinked t t₁ c (.chain (nodes.erase c)) := by
  have hp := (hwf.parent_child c hc hcr).1
  have hok := hwf.child_ok _ hp
  have hnd := hok.nodup
  rw [hchain] at hok hnd
  constructor
  case root => exact hroot
  case freeList => exact hfl
  case nextStruct => exact hns
  case live => exact hlive
  case parent => exact hparent
  case sibling => exact hsame
  case other => exact hother
  case mem =>
    intro q
    rw [hchain]
    exact (hnd.mem_erase_iff).trans and_comm
  case ok =>
    refine ⟨hcps, ?_⟩
    rw [symbolsOf_congr fun q hq => (hsame q hq).symbol]
    exact hok.2.sublist ((erase_sublist).map _)
  case count => exact fun _ => trivial

/-- A node stands in the bucket of its symbol. -/
theorem mem_bucket (hwf : TrieWF t) (hc : t.Live c) (hcr : c ≠ t.root) {ht : BTHT}
    (hhash : (t.node (t.node c).parent).child = .hash ht) :
    ∃ hi : trieHash (t.node c).symbol ht.hashSeed < ht.buckets.length,
      ht.bucket (t.node c).symbol = ht.buckets[trieHash (t.node c).symbol ht.hashSeed] ∧
      c ∈ ht.bucket (t.node c).symbol := by
  obtain ⟨hp, hcp⟩ := hwf.parent_child c hc hcr
  have hok := hwf.child_ok _ hp
  rw [hhash] at hok hcp
  obtain ⟨b, hb, hcb⟩ := mem_flatten.mp hcp
  obtain ⟨j, hj, rfl⟩ := getElem_of_mem hb
  obtain rfl := hok.2.1 j _ (List.getElem?_eq_getElem hj) c hcb
  have hbucket : ht.bucket (t.node c).symbol =
      ht.buckets[trieHash (t.node c).symbol ht.hashSeed] := by
    simp [BTHT.bucket, hj]
  exact ⟨hj, hbucket, hbucket ▸ hcb⟩

/-- The table of `c` without `c`. -/
theorem unlinked_hash (hwf : TrieWF t) (hc : t.Live c) (hcr : c ≠ t.root) {ht : BTHT}
    (hhash : (t.node (t.node c).parent).child = .hash ht)
    (hroot : t₁.root = t.root) (hfl : t₁.freeList = t.freeList)
    (hns : t₁.nextStruct = t.nextStruct) (hlive : t₁.Live c)
    (hparent : t₁.node (t.node c).parent =
      { t.node (t.node c).parent with
        child := .hash { ht.setBucket (t.node c).symbol ((ht.bucket (t.node c).symbol).erase c) with
          numContents := ht.numContents - 1 } })
    (hcps : CpsOK t₁.node ((ht.bucket (t.node c).symbol).erase c))
    (hsame : ∀ q ∈ (ht.bucket (t.node c).symbol).erase c, SameNode (t₁.node q) (t.node q))
    (hother : ∀ q, q ≠ c → q ≠ (t.node c).parent → q ∉ (ht.bucket (t.node c).symbol).erase c →
      t₁.node q = t.node q) :
    Unlinked t t₁ c
      (.hash { ht.setBucket (t.node c).symbol ((ht.bucket (t.node c).symbol).erase c) with
        numContents := ht.numContents - 1 }) := by
  obtain ⟨hp, hcp⟩ := hwf.parent_child c hc hcr
  obtain ⟨hi, hbucket, hcb⟩ := mem_bucket hwf hc hcr hhash
  have hok := hwf.child_ok _ hp
  have hnd := hok.nodup
  have hself := hwf.not_self_child hp
  rw [hhash] at hok hnd hself
  obtain ⟨hbcps, hplace, hsyms, hpos⟩ := hok
  simp only [BTHT.setBucket] at hparent ⊢
  rw [hbucket] at hparent hcps hsame hother hcb ⊢
  have htab : TableInv t ht.buckets ht.numBuckets
      (fun j x => trieHash (t.node x).symbol ht.hashSeed = j) ht.buckets.flatten :=
    ⟨rfl, hbcps, hplace, .refl _⟩
  generalize trieHash (t.node c).symbol ht.hashSeed = i at *
  have hperm : (c :: (ht.buckets.set i (ht.buckets[i].erase c)).flatten).Perm
      ht.buckets.flatten := by
    have h₁ := flatten_set hi (ht.buckets[i].erase c)
    have h₂ : (ht.buckets[i]).Perm (c :: ht.buckets[i].erase c) := perm_cons_erase hcb
    have h3 := (h₂.append_left (ht.buckets.set i (ht.buckets[i].erase c)).flatten).symm.trans h₁
    have h4 : ((ht.buckets.set i (ht.buckets[i].erase c)).flatten ++
        c :: ht.buckets[i].erase c).Perm
        (c :: (ht.buckets.set i (ht.buckets[i].erase c)).flatten ++ ht.buckets[i].erase c) :=
      perm_middle
    exact (perm_append_right_iff _).mp (h4.symm.trans h3)
  have hmem : ∀ q, q ∈ (ht.buckets.set i (ht.buckets[i].erase c)).flatten ↔
      q ∈ ht.buckets.flatten ∧ q ≠ c := by
    intro q
    have hcn := (nodup_cons.mp (hperm.nodup_iff.mpr hnd)).1
    rw [← hperm.mem_iff, mem_cons]
    constructor
    · exact fun hq => ⟨.inr hq, fun he => hcn (he ▸ hq)⟩
    · rintro ⟨rfl | hq, hne⟩
      · exact absurd rfl hne
      · exact hq
  -- A node outside the bucket is untouched.
  have hrest : ∀ q ∈ ht.buckets.flatten, q ≠ c → q ∉ ht.buckets[i].erase c →
      t₁.node q = t.node q := fun q hq hqc hqb =>
    hother q hqc (fun he => hself (he ▸ hq)) hqb
  have hsym : ∀ q ∈ (ht.buckets.set i (ht.buckets[i].erase c)).flatten,
      (t₁.node q).symbol = (t.node q).symbol := by
    intro q hq
    obtain ⟨hqf, hqc⟩ := (hmem q).mp hq
    by_cases hqb : q ∈ ht.buckets[i].erase c
    · exact (hsame q hqb).symbol
    · rw [hrest q hqf hqc hqb]
  constructor
  case root => exact hroot
  case freeList => exact hfl
  case nextStruct => exact hns
  case live => exact hlive
  case parent => exact hparent
  case sibling =>
    intro q hq
    obtain ⟨hqf, hqc⟩ := (hmem q).mp hq
    by_cases hqb : q ∈ ht.buckets[i].erase c
    · exact hsame q hqb
    · rw [hrest q hqf hqc hqb]
      exact .refl _
  case other =>
    intro q hqc hqp hqm
    refine hother q hqc hqp fun hqb => hqm ((hmem q).mpr ⟨?_, hqc⟩)
    exact mem_flatten.mpr ⟨_, getElem_mem hi, mem_of_mem_erase hqb⟩
  case mem => rw [hhash]; exact hmem
  case ok =>
    refine ⟨?_, fun j b hb x hx => ?_, ?_, ?_⟩
    · refine htab.set_cps hnd hi hcps fun q hqb hqf => ?_
      have hqc : q ≠ c := fun he => hqb (he ▸ hcb)
      rw [hrest q hqf hqc fun hm => hqb (mem_of_mem_erase hm)]
    · rw [hashSeed_of_length ht _ length_set, hsym x (mem_flatten.mpr ⟨b, mem_of_getElem? hb, hx⟩)]
      exact htab.set_place (fun y hy => hplace i _ (List.getElem?_eq_getElem hi) y
        (mem_of_mem_erase hy)) j b hb x hx
    · rw [symbolsOf_congr hsym]
      exact ((hperm.map _).nodup_iff.mpr hsyms).of_cons
    · rw [BTHT.numBuckets, length_set]
      exact hpos
  case count =>
    intro hnum
    rw [hhash] at hnum
    have hlen := hperm.length_eq
    rw [length_cons] at hlen
    simp only [CountOK] at hnum ⊢
    rw [hnum, ← hlen]
    push_cast
    omega

end Unlink

end XSBEngine.Tries
