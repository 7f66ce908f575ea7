import XSBEngine.Tries.Chain

/-!
# Invariant of basic tries

The structural invariant: chains and buckets in order, hashed nodes in their buckets, and
parent links that lead to the root. The counters of hash tables are a predicate of their own,
since only deletion depends on them. One lemma covers every change below a single parent.
-/

namespace XSBEngine.Tries

open List

/-! ### Levels -/

/-- Symbols of a list of nodes. -/
def symbolsOf (node : BTNptr → BTN) (nodes : List BTNptr) : List Symbol :=
  nodes.map fun p => (node p).symbol

theorem hashSeed_of_length (ht ht' : BTHT) (h : ht'.buckets.length = ht.buckets.length) :
    ht'.hashSeed = ht.hashSeed := by
  rw [BTHT.hashSeed, BTHT.hashSeed, BTHT.numBuckets, BTHT.numBuckets, h]

/-- A level of a trie: one chain, or a hash table. -/
def ChildOK (node : BTNptr → BTN) : Child → Prop
  | .chain nodes => CpsOK node nodes ∧ (symbolsOf node nodes).Nodup
  | .hash ht =>
    (∀ b ∈ ht.buckets, CpsOK node b) ∧
      (∀ i b, ht.buckets[i]? = some b →
        ∀ c ∈ b, trieHash (node c).symbol ht.hashSeed = i) ∧
      (symbolsOf node ht.buckets.flatten).Nodup ∧ 0 < ht.numBuckets

/-- The counter of a table is the number of its nodes. -/
def CountOK : Child → Prop
  | .chain _ => True
  | .hash ht => ht.numContents = ht.buckets.flatten.length

/-- All counters are exact. -/
def CountsExact (t : Trie) : Prop := ∀ p, t.Live p → CountOK (t.node p).child

theorem ChildOK.symbols {node : BTNptr → BTN} {child : Child} (h : ChildOK node child) :
    (symbolsOf node child.nodes).Nodup := by
  cases child with
  | chain nodes => exact h.2
  | hash ht => exact h.2.2.1

theorem ChildOK.nodup {node : BTNptr → BTN} {child : Child} (h : ChildOK node child) :
    child.nodes.Nodup :=
  h.symbols.of_map

theorem ChildOK.symbol_inj {node : BTNptr → BTN} {child : Child} (h : ChildOK node child)
    {c c' : BTNptr} (hc : c ∈ child.nodes) (hc' : c' ∈ child.nodes)
    (he : (node c).symbol = (node c').symbol) : c = c' :=
  inj_on_of_nodup_map h.symbols hc hc' he

theorem symbolsOf_congr {node node' : BTNptr → BTN} {nodes : List BTNptr}
    (h : ∀ c ∈ nodes, (node' c).symbol = (node c).symbol) :
    symbolsOf node' nodes = symbolsOf node nodes :=
  map_congr_left h

/-- A level depends on the instructions and symbols of its nodes. -/
theorem ChildOK.congr {node node' : BTNptr → BTN} {child : Child} (h : ChildOK node child)
    (hi : ∀ c ∈ child.nodes, (node' c).instr = (node c).instr)
    (hs : ∀ c ∈ child.nodes, (node' c).symbol = (node c).symbol) : ChildOK node' child := by
  cases child with
  | chain nodes => exact ⟨h.1.congr hi, (symbolsOf_congr hs).symm ▸ h.2⟩
  | hash ht =>
    obtain ⟨hcps, hplace, hnd, hpos⟩ := h
    have hmem : ∀ b ∈ ht.buckets, ∀ c ∈ b, c ∈ ht.buckets.flatten :=
      fun b hb c hc => mem_flatten.mpr ⟨b, hb, hc⟩
    refine ⟨fun b hb => (hcps b hb).congr fun c hc => hi c (hmem b hb c hc), fun i b hb c hc => ?_,
      (symbolsOf_congr hs).symm ▸ hnd, hpos⟩
    rw [hs c (hmem b (mem_of_getElem? hb) c hc)]
    exact hplace i b hb c hc

theorem childOK_nil (node : BTNptr → BTN) : ChildOK node (.chain []) :=
  ⟨cpsOK_nil node, nodup_nil⟩

/-! ### The invariant -/

/-- The structure manager hands out records that are not in use. -/
structure AllocOK (t : Trie) : Prop where
  next_pos : 0 < t.nextStruct
  free_nodup : t.freeList.Nodup
  free_free : ∀ p ∈ t.freeList, ¬ t.Live p ∧ p ≠ 0 ∧ p < t.nextStruct
  live_lt : ∀ p, t.Live p → p ≠ 0 ∧ p < t.nextStruct

/-- The symbols from the root down to a node, along the parent fields. -/
inductive AtPath (t : Trie) : List Symbol → BTNptr → Prop where
  | root : t.root ≠ 0 → AtPath t [] t.root
  | step {w : List Symbol} {c : BTNptr} : AtPath t w (t.node c).parent → t.Live c → c ≠ t.root →
      AtPath t (w ++ [(t.node c).symbol]) c

/-- Structural invariant of a trie memory that holds one trie. -/
structure TrieWF (t : Trie) : Prop where
  alloc : AllocOK t
  root_zero : t.root = 0 → ∀ p, ¬ t.Live p
  root_live : t.root ≠ 0 →
    t.Live t.root ∧ (t.node t.root).isTrieRoot = true ∧ (t.node t.root).parent = 0
  node_type : ∀ p, t.Live p → p ≠ t.root → (t.node p).nodeType.toNat < 4
  child_ok : ∀ p, t.Live p → ChildOK t.node (t.node p).child
  child_live : ∀ p, t.Live p → ∀ c ∈ (t.node p).child.nodes,
    t.Live c ∧ c ≠ t.root ∧ (t.node c).parent = p
  parent_child : ∀ c, t.Live c → c ≠ t.root →
    t.Live (t.node c).parent ∧ c ∈ (t.node (t.node c).parent).child.nodes
  reach : ∀ p, t.Live p → ∃ w, AtPath t w p

variable {t t' : Trie} {p q c : BTNptr} {w v : List Symbol}

theorem AtPath.live (h : AtPath t w p) (hwf : TrieWF t) : t.Live p := by
  cases h with
  | root hr => exact (hwf.root_live hr).1
  | step _ hl _ => exact hl

theorem AtPath.root_ne (h : AtPath t w p) : t.root ≠ 0 := by
  induction h with
  | root hr => exact hr
  | step _ _ _ ih => exact ih

/-- The path of the parent is the path without its last symbol. -/
theorem AtPath.parent (h : AtPath t w c) (hc : c ≠ t.root) :
    ∃ v, w = v ++ [(t.node c).symbol] ∧ AtPath t v (t.node c).parent := by
  cases h with
  | root _ => exact absurd rfl hc
  | step hp _ _ => exact ⟨_, rfl, hp⟩

/-- A node has one path. -/
theorem AtPath.path_unique (h : AtPath t w p) (h' : AtPath t v p) : w = v := by
  induction h generalizing v with
  | root _ =>
    cases h' with
    | root _ => rfl
    | step _ _ hne => exact absurd rfl hne
  | step _ _ hne ih =>
    cases h' with
    | root _ => exact absurd rfl hne
    | step hp _ _ => rw [ih hp]

/-- A path leads to one node. -/
theorem AtPath.node_unique (hwf : TrieWF t) (h : AtPath t w p) (h' : AtPath t w q) : p = q := by
  induction h generalizing q with
  | root _ =>
    generalize he : [] = w' at h'
    cases h' with
    | root _ => rfl
    | step _ _ _ => simp at he
  | step hp hl hne ih =>
    generalize he : _ ++ [_] = w' at h'
    cases h' with
    | root _ => simp at he
    | step hq hl' hne' =>
      obtain ⟨rfl, hs⟩ := append_inj' he rfl
      have hpar := ih hq
      have hc := (hwf.parent_child _ hl hne).2
      have hc' := (hwf.parent_child _ hl' hne').2
      rw [← hpar] at hc'
      exact (hwf.child_ok _ (hp.live hwf)).symbol_inj hc hc' (singleton_inj.mp hs)

/-- No node is its own child. -/
theorem TrieWF.not_self_child (hwf : TrieWF t) (hp : t.Live p) :
    p ∉ (t.node p).child.nodes := by
  intro hm
  obtain ⟨-, hne, hpar⟩ := hwf.child_live p hp p hm
  obtain ⟨w, hw⟩ := hwf.reach p hp
  have h' := hw
  rw [← hpar] at h'
  have := (AtPath.step h' hp hne).path_unique hw
  simp at this

/-- The path of a child continues the path of its parent. -/
theorem AtPath.child (hwf : TrieWF t) (h : AtPath t w p) (hc : c ∈ (t.node p).child.nodes) :
    AtPath t (w ++ [(t.node c).symbol]) c := by
  obtain ⟨hl, hne, hpar⟩ := hwf.child_live p (h.live hwf) c hc
  exact .step (by rw [hpar]; exact h) hl hne

/-- A node that is not the root is a child of the node at the path without its last symbol. -/
theorem AtPath.snoc {s : Symbol} (hwf : TrieWF t) (h : AtPath t (w ++ [s]) c) :
    AtPath t w (t.node c).parent ∧ (t.node c).symbol = s ∧
      c ∈ (t.node (t.node c).parent).child.nodes := by
  generalize he : w ++ [s] = w' at h
  cases h with
  | root _ => simp at he
  | step hp hl hne =>
    obtain ⟨rfl, hs⟩ := append_inj' he rfl
    exact ⟨hp, (singleton_inj.mp hs).symm, (hwf.parent_child _ hl hne).2⟩

/-! ### A change below one parent -/

/-- The children of `p` change, and with them the records of the children. -/
structure LevelUpdate (t t' : Trie) (p : BTNptr) : Prop where
  parent_live : t.Live p
  root : t'.root = t.root
  live : ∀ q, t'.Live q ↔
    (t.Live q ∧ (q ∈ (t.node p).child.nodes → q ∈ (t'.node p).child.nodes)) ∨
      (q ∈ (t'.node p).child.nodes ∧ q ∉ (t.node p).child.nodes)
  keep : ∀ q, t.Live q → q ≠ p → q ∉ (t.node p).child.nodes → t'.node q = t.node q
  sibling : ∀ q ∈ (t.node p).child.nodes, q ∈ (t'.node p).child.nodes →
    SameNode (t'.node q) (t.node q)
  new : ∀ q ∈ (t'.node p).child.nodes, q ∉ (t.node p).child.nodes →
    ¬ t.Live q ∧ (t'.node q).parent = p ∧ (t'.node q).child = .chain [] ∧
      (t'.node q).nodeType.toNat < 4
  gone : ∀ q ∈ (t.node p).child.nodes, q ∉ (t'.node p).child.nodes →
    (t.node q).child.nodes = []
  parent : t'.node p = { t.node p with child := (t'.node p).child }

/-- What stays in use keeps its record, and its child field unless it is the parent. -/
theorem LevelUpdate.kept (hu : LevelUpdate t t' p) (hq : t.Live q) (hq' : t'.Live q) :
    SameRecord (t'.node q) (t.node q) ∧ (q ≠ p → (t'.node q).child = (t.node q).child) := by
  by_cases hqp : q = p
  · subst hqp
    rw [hu.parent]
    exact ⟨⟨rfl, rfl, rfl, rfl, rfl, rfl, rfl⟩, fun h => absurd rfl h⟩
  by_cases hm : q ∈ (t.node p).child.nodes
  · have hm' : q ∈ (t'.node p).child.nodes := by
      rcases (hu.live q).mp hq' with ⟨-, h⟩ | ⟨-, h⟩
      · exact h hm
      · exact absurd hm h
    have hs := hu.sibling q hm hm'
    exact ⟨hs.toSameRecord, fun _ => hs.child⟩
  · rw [hu.keep q hq hqp hm]
    exact ⟨.refl _, fun _ => rfl⟩

/-- A node with children below it stays. -/
theorem LevelUpdate.stays (hu : LevelUpdate t t' p) (hq : t.Live q)
    (hc : (t.node q).child.nodes ≠ []) : t'.Live q := by
  refine (hu.live q).mpr (.inl ⟨hq, fun hm => ?_⟩)
  by_contra hm'
  exact hc (hu.gone q hm hm')

section Update

variable (hwf : TrieWF t) (hu : LevelUpdate t t' p)
include hwf hu

/-- The parent stays. -/
theorem LevelUpdate.parent_live' : t'.Live p :=
  (hu.live p).mpr (.inl ⟨hu.parent_live, fun hm => absurd hm (hwf.not_self_child hu.parent_live)⟩)

theorem LevelUpdate.atPath_of_live (h : AtPath t w q) (hq' : t'.Live q) : AtPath t' w q := by
  induction h with
  | root hr =>
    rw [← hu.root]
    exact .root (by rw [hu.root]; exact hr)
  | step hp hl hne ih =>
    rename_i w c
    have hrec := (hu.kept hl hq').1
    have hpl : t'.Live (t.node c).parent :=
      hu.stays (hp.live hwf) (ne_nil_of_mem (hwf.parent_child c hl hne).2)
    rw [← hrec.symbol]
    exact .step (by rw [hrec.parent]; exact ih hpl) hq' (by rw [hu.root]; exact hne)

/-- Paths after the change. -/
theorem LevelUpdate.atPath_iff :
    AtPath t' w q ↔ (AtPath t w q ∧ t'.Live q) ∨
      (q ∈ (t'.node p).child.nodes ∧ q ∉ (t.node p).child.nodes ∧
        ∃ v, AtPath t v p ∧ w = v ++ [(t'.node q).symbol]) := by
  constructor
  · intro h
    induction h with
    | root hr =>
      rw [hu.root] at hr ⊢
      obtain ⟨hl, -, -⟩ := hwf.root_live hr
      refine .inl ⟨.root hr, (hu.live _).mpr (.inl ⟨hl, fun hm => ?_⟩)⟩
      exact absurd rfl (hwf.child_live p hu.parent_live _ hm).2.1
    | step hp hl hne ih =>
      rename_i w c
      rw [hu.root] at hne
      by_cases hcl : t.Live c ∧ (c ∈ (t.node p).child.nodes → c ∈ (t'.node p).child.nodes)
      · have hrec := (hu.kept hcl.1 hl).1
        rw [hrec.parent] at ih
        rcases ih with ⟨hpt, -⟩ | ⟨hm, hn, -⟩
        · rw [hrec.symbol]
          exact .inl ⟨.step hpt hcl.1 hne, hl⟩
        · exact absurd (hwf.parent_child c hcl.1 hne).1 (hu.new _ hm hn).1
      · obtain ⟨hm, hn⟩ := ((hu.live c).mp hl).resolve_left hcl
        obtain ⟨-, hpar, -, -⟩ := hu.new c hm hn
        rw [hpar] at ih
        rcases ih with ⟨hpt, -⟩ | ⟨hm', hn', -⟩
        · exact .inr ⟨hm, hn, w, hpt, rfl⟩
        · exact absurd hu.parent_live (hu.new _ hm' hn').1
  · rintro (⟨h, hl⟩ | ⟨hm, hn, v, hv, rfl⟩)
    · exact hu.atPath_of_live hwf h hl
    · obtain ⟨hnl, hpar, -, -⟩ := hu.new q hm hn
      have hr := hwf.root_live hv.root_ne
      refine .step ?_ ((hu.live q).mpr (.inr ⟨hm, hn⟩)) ?_
      · rw [hpar]
        exact hu.atPath_of_live hwf hv (hu.parent_live' hwf)
      · rw [hu.root]
        exact fun he => hnl (he ▸ hr.1)

/-- The invariant after a change below one parent. -/
theorem LevelUpdate.wf (halloc : AllocOK t') (hok : ChildOK t'.node (t'.node p).child) :
    TrieWF t' where
  alloc := halloc
  root_zero hr := absurd hu.parent_live (hwf.root_zero (hu.root ▸ hr) p)
  root_live hr := by
    rw [hu.root] at hr ⊢
    obtain ⟨hl, hroot, hpar⟩ := hwf.root_live hr
    have hnm : t.root ∉ (t.node p).child.nodes :=
      fun hm => absurd rfl (hwf.child_live p hu.parent_live _ hm).2.1
    have hl' : t'.Live t.root := (hu.live _).mpr (.inl ⟨hl, fun hm => absurd hm hnm⟩)
    refine ⟨hl', ?_⟩
    by_cases hrp : t.root = p
    · rw [hrp] at hroot hpar ⊢
      rw [hu.parent]
      exact ⟨hroot, hpar⟩
    · rw [hu.keep _ hl hrp hnm]
      exact ⟨hroot, hpar⟩
  node_type q hq hqr := by
    rw [hu.root] at hqr
    rcases (hu.live q).mp hq with ⟨hl, himp⟩ | ⟨hm, hn⟩
    · have hlt := hwf.node_type q hl hqr
      by_cases hqp : q = p
      · subst hqp
        rw [hu.parent]
        exact hlt
      by_cases hm : q ∈ (t.node p).child.nodes
      · exact (hu.sibling q hm (himp hm)).nodeType_lt hlt
      · rw [hu.keep q hl hqp hm]
        exact hlt
    · exact (hu.new q hm hn).2.2.2
  child_ok q hq := by
    by_cases hqp : q = p
    · rw [hqp]; exact hok
    rcases (hu.live q).mp hq with ⟨hl, -⟩ | ⟨hm, hn⟩
    · obtain ⟨-, hchild⟩ := hu.kept hl hq
      rw [hchild hqp]
      -- The children of `q` are not children of `p`.
      have hother : ∀ c ∈ (t.node q).child.nodes, (t'.node c).instr = (t.node c).instr ∧
          (t'.node c).symbol = (t.node c).symbol := by
        intro c hc
        obtain ⟨hcl, -, hcq⟩ := hwf.child_live q hl c hc
        by_cases hcp : c = p
        · rw [hcp, hu.parent]; exact ⟨rfl, rfl⟩
        · rw [hu.keep c hcl hcp fun hm =>
            hqp (hcq.symm.trans (hwf.child_live p hu.parent_live c hm).2.2)]
          exact ⟨rfl, rfl⟩
      exact (hwf.child_ok q hl).congr (fun c hc => (hother c hc).1) (fun c hc => (hother c hc).2)
    · rw [(hu.new q hm hn).2.2.1]
      exact childOK_nil _
  child_live q hq c hc := by
    rw [hu.root]
    by_cases hqp : q = p
    · subst hqp
      by_cases hm : c ∈ (t.node q).child.nodes
      · obtain ⟨hcl, hcr, hcq⟩ := hwf.child_live q hu.parent_live c hm
        exact ⟨(hu.live c).mpr (.inl ⟨hcl, fun _ => hc⟩), hcr,
          (hu.sibling c hm hc).parent.trans hcq⟩
      · obtain ⟨hnl, hpar, -, -⟩ := hu.new c hc hm
        refine ⟨(hu.live c).mpr (.inr ⟨hc, hm⟩), fun he => hnl ?_, hpar⟩
        obtain ⟨w, hw⟩ := hwf.reach q hu.parent_live
        exact he ▸ (hwf.root_live hw.root_ne).1
    rcases (hu.live q).mp hq with ⟨hl, -⟩ | ⟨hm, hn⟩
    · obtain ⟨-, hchild⟩ := hu.kept hl hq
      rw [hchild hqp] at hc
      obtain ⟨hcl, hcr, hcq⟩ := hwf.child_live q hl c hc
      have hcm : c ∉ (t.node p).child.nodes := fun hm =>
        hqp (hcq.symm.trans (hwf.child_live p hu.parent_live c hm).2.2)
      have hcl' : t'.Live c := (hu.live c).mpr (.inl ⟨hcl, fun hm => absurd hm hcm⟩)
      exact ⟨hcl', hcr, (hu.kept hcl hcl').1.parent.trans hcq⟩
    · rw [(hu.new q hm hn).2.2.1] at hc
      simp [Child.nodes] at hc
  parent_child c hc hcr := by
    rw [hu.root] at hcr
    rcases (hu.live c).mp hc with ⟨hl, himp⟩ | ⟨hm, hn⟩
    · obtain ⟨hpl, hcm⟩ := hwf.parent_child c hl hcr
      rw [(hu.kept hl hc).1.parent]
      have hpl' := hu.stays hpl (ne_nil_of_mem hcm)
      refine ⟨hpl', ?_⟩
      by_cases hp : (t.node c).parent = p
      · rw [hp] at hcm ⊢
        exact himp hcm
      · rw [(hu.kept hpl hpl').2 hp]
        exact hcm
    · obtain ⟨-, hpar, -, -⟩ := hu.new c hm hn
      rw [hpar]
      exact ⟨hu.parent_live' hwf, hm⟩
  reach q hq := by
    rcases (hu.live q).mp hq with ⟨hl, -⟩ | ⟨hm, hn⟩
    · obtain ⟨w, hw⟩ := hwf.reach q hl
      exact ⟨w, hu.atPath_of_live hwf hw hq⟩
    · obtain ⟨v, hv⟩ := hwf.reach p hu.parent_live
      exact ⟨_, (hu.atPath_iff hwf).mpr (.inr ⟨hm, hn, v, hv, rfl⟩)⟩

end Update

end XSBEngine.Tries
