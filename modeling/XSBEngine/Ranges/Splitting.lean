import Mathlib
import XSBEngine.Ranges.Shape

/-!
# Splitting nodes

`update_parent` and `split_tree` change the facts of a tree to those of another one that has the
same leaves.
-/

namespace XSBEngine.Ranges

open List Set XSBEngine.Library

variable {κ ν : Type*} [LinearOrder κ] {a b lo mid : κ} {f g : Rt κ}
  {level : Ptr → Nat} {id m : Ptr} {t t' : Tree κ ν} {R R' : Set (Rt κ)}

/-! ### Facts -/

/-- The facts `rt/6` of a tree. -/
def Tree.facts (t : Tree κ ν) : Set (Rt κ) := {f | f ∈ t.rt}

/-- The tree `t'` has the facts `S` for its nodes, and is like `t` otherwise. -/
structure WithRt (t : Tree κ ν) (S : Set (Rt κ)) (t' : Tree κ ν) : Prop where
  nodup : t'.rt.Nodup
  facts : t'.facts = S
  rtval : t'.rtval = t.rtval
  next : t'.next = t.next

section Facts

theorem withRt_assert (h : t.rt.Nodup) : WithRt t {g | g = f ∨ g ∈ t.facts} (t.assertRt f) where
  nodup := h.insert
  facts := by
    ext g
    exact mem_insert_iff
  rtval := rfl
  next := rfl

theorem withRt_retract (h : t.rt.Nodup) :
    WithRt t {g | g ≠ f ∧ g ∈ t.facts} (t.retractRt f) where
  nodup := h.erase _
  facts := by
    ext g
    exact h.mem_erase_iff
  rtval := rfl
  next := rfl

variable {nodes : List (Node κ)} {leaf : Bool}

theorem withRt_moveNodes (h : t.rt.Nodup) :
    WithRt t {g | g ∈ t.facts ∨ g.id = m ∧ g.leaf = leaf ∧ g.node ∈ nodes}
      (moveNodes leaf m nodes t) := by
  induction nodes generalizing t with
  | nil => exact ⟨h, by simp [moveNodes], rfl, rfl⟩
  | cons p nodes ih =>
    have hone := withRt_assert (f := ⟨m, leaf, p⟩) h
    have hrest := ih hone.nodup
    refine ⟨hrest.nodup, hrest.facts.trans ?_, hrest.rtval.trans hone.rtval,
      hrest.next.trans hone.next⟩
    rw [hone.facts]
    ext ⟨gid, gleaf, gnode⟩
    simp only [mem_ofPred_eq, Rt.mk.injEq, mem_cons]
    tauto

theorem withRt_retractNodes (h : t.rt.Nodup) :
    WithRt t {g | g ∈ t.facts ∧ ¬(g.id = id ∧ g.leaf = leaf ∧ g.node ∈ nodes)}
      (nodes.foldl (fun t p => t.retractRt ⟨id, leaf, p⟩) t) := by
  induction nodes generalizing t with
  | nil => exact ⟨h, by simp, rfl, rfl⟩
  | cons p nodes ih =>
    have hone := withRt_retract (f := ⟨id, leaf, p⟩) h
    have hrest := ih hone.nodup
    refine ⟨hrest.nodup, hrest.facts.trans ?_, hrest.rtval.trans hone.rtval,
      hrest.next.trans hone.next⟩
    rw [hone.facts]
    ext ⟨gid, gleaf, gnode⟩
    simp only [mem_ofPred_eq, ne_eq, Rt.mk.injEq, mem_cons]
    tauto

theorem withRt_divideNode (f : Rt κ) (lo mid : κ) (m : Ptr) (h : t.rt.Nodup) :
    WithRt t {g | g ≠ f ∧ g ∈ t.facts ∨ g = ⟨f.id, f.leaf, ⟨lo, mid, m⟩⟩ ∨
      g = ⟨f.id, f.leaf, ⟨mid, f.node.hi, f.node.ptr⟩⟩} (divideNode f lo mid m t) := by
  have h1 := withRt_retract (f := f) h
  have h2 := withRt_assert (f := { f with node := { f.node with lo := mid } }) h1.nodup
  have h3 := withRt_assert (f := { f with node := ⟨lo, mid, m⟩ }) h2.nodup
  refine ⟨h3.nodup, h3.facts.trans ?_, rfl, rfl⟩
  rw [h2.facts, h1.facts]
  ext g
  simp only [mem_ofPred_eq]
  tauto

end Facts

/-! ### Halves -/

section Sorting

variable {α β : Type*} [DecidableEq α] [LinearOrder β] {rank : α → β} {l : List α}

theorem sort_perm (rank : α → β) (h : l.Nodup) : (sort rank l).Perm l := by
  have hperm := l.perm_insertionSort fun a b => rank a ≤ rank b
  rw [sort, dedup_eq_self.mpr (hperm.nodup_iff.mpr h)]
  exact hperm

theorem sort_pairwise (rank : α → β) (h : l.Nodup) :
    (sort rank l).Pairwise fun x y => rank x ≤ rank y := by
  have hperm := l.perm_insertionSort fun a b => rank a ≤ rank b
  have : Std.Total fun x y : α => rank x ≤ rank y := ⟨fun x y => le_total (rank x) (rank y)⟩
  have : IsTrans α fun x y => rank x ≤ rank y := ⟨fun _ _ _ => le_trans⟩
  rw [sort, dedup_eq_self.mpr (hperm.nodup_iff.mpr h)]
  exact l.pairwise_insertionSort fun x y => rank x ≤ rank y

omit [DecidableEq α] in
theorem splitN_eq {k : Nat} (h : k ≤ l.length) : splitN k l = some (l.take k, l.drop k) := by
  induction k generalizing l with
  | zero => rfl
  | succ k ih =>
    cases l with
    | nil => cases h
    | cons x l =>
      rw [splitN, ih (Nat.le_of_succ_le_succ h)]
      rfl

/-- The two halves of a sorted list whose members have different first keys. -/
theorem halves {γ : Type*} [LinearOrder γ] (first : α → γ) {k : Nat} (h : l.Nodup)
    (hrank : ∀ x y, rank x ≤ rank y → first x ≤ first y)
    (hinj : ∀ x ∈ l, ∀ y ∈ l, first x = first y → x = y) (hk : 0 < k) (hk' : k < l.length) :
    ∃ p ps q qs, sort rank l = p :: (ps ++ q :: qs) ∧
      splitN k (sort rank l) = some (p :: ps, q :: qs) ∧ q ∈ l ∧ p ∈ l ∧
      (∀ x ∈ l, first p ≤ first x) ∧
      (∀ x, x ∈ p :: ps ↔ x ∈ l ∧ first x < first q) ∧
      (∀ x, x ∈ q :: qs ↔ x ∈ l ∧ first q ≤ first x) ∧
      ∀ r, (q :: qs).getLast? = some r → ∀ x ∈ l, first x ≤ first r := by
  have hperm := sort_perm rank h
  have hsorted := (sort_pairwise rank h).imp fun hxy => hrank _ _ hxy
  have hnodup := hperm.nodup_iff.mpr h
  rw [← hperm.length_eq] at hk'
  have hsplit := splitN_eq hk'.le
  have happend := take_append_drop k (sort rank l)
  cases htake : (sort rank l).take k with
  | nil =>
    have hlength := congrArg List.length htake
    rw [length_take, length_nil] at hlength
    omega
  | cons p ps =>
    cases hdrop : (sort rank l).drop k with
    | nil =>
      have hlength := congrArg List.length hdrop
      rw [length_drop, length_nil] at hlength
      omega
    | cons q qs =>
      rw [htake, hdrop] at hsplit happend
      rw [← happend] at hsorted hnodup
      have hmem : ∀ x, x ∈ l ↔ x ∈ p :: ps ∨ x ∈ q :: qs := by
        intro x
        rw [← hperm.mem_iff, ← happend, mem_append]
      obtain ⟨hlow, hhigh, hacross⟩ := pairwise_append.mp hsorted
      have hq : q ∈ l := (hmem q).mpr (.inr mem_cons_self)
      have hbelow : ∀ x ∈ p :: ps, first x < first q := by
        intro x hx
        refine lt_of_le_of_ne (hacross x hx q mem_cons_self) fun he => ?_
        have heq := hinj x ((hmem x).mpr (.inl hx)) q hq he
        exact (nodup_append.mp hnodup).2.2 x hx q mem_cons_self heq
      have habove : ∀ x ∈ q :: qs, first q ≤ first x := by
        intro x hx
        rcases mem_cons.mp hx with rfl | hx
        · exact le_refl _
        · exact (pairwise_cons.mp hhigh).1 x hx
      refine ⟨p, ps, q, qs, happend.symm, hsplit, hq, (hmem p).mpr (.inl mem_cons_self),
        fun x hx => ?_, fun x => ⟨fun hx => ⟨(hmem x).mpr (.inl hx), hbelow x hx⟩, ?_⟩,
        fun x => ⟨fun hx => ⟨(hmem x).mpr (.inr hx), habove x hx⟩, ?_⟩, fun r hr x hx => ?_⟩
      · rcases (hmem x).mp hx with hx | hx
        · rcases mem_cons.mp hx with rfl | hx
          · exact le_refl _
          · exact (pairwise_cons.mp hlow).1 x hx
        · exact hacross p mem_cons_self x hx
      · rintro ⟨hx, hlt⟩
        refine ((hmem x).mp hx).resolve_right fun hx' => ?_
        exact absurd hlt (not_lt.mpr (habove x hx'))
      · rintro ⟨hx, hle⟩
        refine ((hmem x).mp hx).resolve_left fun hx' => ?_
        exact absurd hle (not_le.mpr (hbelow x hx'))
      · obtain ⟨qs', hlast⟩ := List.getLast?_eq_some_iff.mp hr
        have hrmem : r ∈ q :: qs := hlast ▸ mem_append_right _ mem_cons_self
        rcases (hmem x).mp hx with hx | hx
        · exact hacross x hx r hrmem
        · rw [hlast] at hx hhigh
          rcases mem_append.mp hx with hx | hx
          · exact (pairwise_append.mp hhigh).2.2 x hx r mem_cons_self
          · rw [mem_singleton.mp hx]

end Sorting

/-! ### Paths -/

/-- The numbers in use do not exceed the counter. -/
def Numbered (R : Set (Rt κ)) (n : Nat) : Prop := ∀ f ∈ R, ∀ i, f.node.ptr = .num i → i ≤ n

/-- The nodes above a node. -/
inductive Path (R : Set (Rt κ)) : List Ptr → Ptr → Prop
  | root : Path R [] .root
  | link {g : Rt κ} {path : List Ptr} : g ∈ R → g.leaf = false → Path R path g.id →
      Path R (g.id :: path) g.node.ptr

section Paths

omit [LinearOrder κ] in
theorem Numbered.unused {n : Nat} (h : Numbered R n) : Unused R (.num (n + 1)) := by
  refine ⟨fun he => ?_, fun g hg he => ?_⟩
  · cases he
  · have hle := h g hg _ he
    omega

theorem Shape.exists_tiles (h : Shape a b R level) (hf : f ∈ R) :
    ∃ c d, Tiles Node.lo Node.hi (kids R f.id) c d := by
  by_cases hid : f.id = .root
  · exact ⟨a, b, hid ▸ h.root⟩
  · obtain ⟨g, hg, hinner, hptr⟩ := h.parent f hf hid
    exact ⟨_, _, hptr ▸ h.inner g hg hinner⟩

/-- The nodes above the one that is divided stay. -/
theorem Path.divided {path : List Ptr} (h : Shape a b R level) (hd : Divided R f mid m R')
    (hp : Path R path id) (hlevel : f.leaf = false → level f.node.ptr < level id) :
    Path R' path id := by
  induction hp with
  | root => exact .root
  | @link g path hg hinner _ ih =>
    have hlevel' := h.level_inner g hg hinner
    have hne : g.id ≠ f.node.ptr := by
      intro he
      have hlt := hlevel (h.inner_of_id hd.fact hg he)
      rw [he] at hlevel'
      omega
    have hkeep : g.retarget f.node.ptr m mid = g := by
      rw [Rt.retarget, if_neg fun hn => hne hn.1]
    have hgf : g ≠ f := by
      rintro rfl
      exact absurd (hlevel hinner) (lt_irrefl _)
    have hg' : g ∈ R' := hkeep ▸ hd.retarget_mem hg hgf
    refine .link hg' hinner (ih fun hf => ?_)
    have hlt := hlevel hf
    omega

omit [LinearOrder κ] in
theorem Path.root_eq (h : Path R [] id) : id = .root := by
  cases h
  rfl

omit [LinearOrder κ] in
theorem Path.exists_link {parId : Ptr} {path : List Ptr} (h : Path R (parId :: path) id) :
    ∃ g ∈ R, g.leaf = false ∧ g.id = parId ∧ g.node.ptr = id ∧ Path R path parId := by
  cases h with
  | link hg hinner hpath => exact ⟨_, hg, hinner, rfl, rfl, hpath⟩

end Paths

/-! ### The parent is updated -/

variable (e : Enumeration κ ν)

omit [LinearOrder κ] in
theorem mem_nodes : g ∈ e.nodes t id ↔ g ∈ t.facts ∧ g.id = id := by
  rw [Enumeration.nodes, mem_filter, decide_eq_true_iff, (e.perm_rt t.rt).mem_iff]
  rfl

/-- The intervals of a node, as `findall` collects them. -/
theorem nodes_spec (h : Shape a b t.facts level) (hn : t.rt.Nodup) (id : Ptr) :
    ((e.nodes t id).map Rt.node).Nodup ∧
      ∀ p, p ∈ (e.nodes t id).map Rt.node ↔ p ∈ kids t.facts id := by
  refine ⟨?_, fun p => ?_⟩
  · refine List.Nodup.map_on (fun x hx y hy he => ?_) (((e.perm_rt t.rt).nodup_iff.mpr hn).filter _)
    exact h.eq_of_kids ((mem_nodes e).mp hx).1 ((mem_nodes e).mp hy).1 he
  · rw [mem_map]
    constructor
    · rintro ⟨g, hg, rfl⟩
      obtain ⟨hg', hid⟩ := (mem_nodes e).mp hg
      exact hid ▸ mem_kids hg'
    · rintro ⟨leaf, hp⟩
      exact ⟨_, (mem_nodes e).mpr ⟨hp, rfl⟩, rfl⟩

/-- The interval of `f` is still to be divided at `mid`. -/
structure Pending (a b : κ) (t : Tree κ ν) (f : Rt κ) (lo mid : κ) (m : Ptr) (path : List Ptr)
    (level : Ptr → Nat) : Prop where
  nodup : t.rt.Nodup
  fact : f ∈ t.facts
  only : ∀ g ∈ t.facts, g.id = f.id → g.node.lo ≤ lo → mid ≤ g.node.hi → g = f
  lo_eq : f.node.lo = lo
  le_hi : mid ≤ f.node.hi
  shape : Shape a b (divideNode f lo mid m t).facts level
  numbered : Numbered (divideNode f lo mid m t).facts t.next
  path : Path (divideNode f lo mid m t).facts path f.id

/-- The tree `t'` has the leaves of `t` and the facts for their keys. -/
structure SameLeaves (a b : κ) (t t' : Tree κ ν) : Prop where
  nodup : t'.rt.Nodup
  shape : ∃ level, Shape a b t'.facts level
  numbered : Numbered t'.facts t'.next
  leaves : leafNodes t'.facts = leafNodes t.facts
  rtval : t'.rtval = t.rtval
  next : t.next ≤ t'.next

variable {path : List Ptr}

theorem Pending.find (h : Pending a b t f lo mid m path level) :
    (e.nodes t f.id).find? (fun f => f.node.lo ≤ lo ∧ mid ≤ f.node.hi) = some f := by
  have hone : ∀ g ∈ e.nodes t f.id, g.node.lo ≤ lo ∧ mid ≤ g.node.hi → g = f := by
    intro g hg hle
    obtain ⟨hg, hid⟩ := (mem_nodes e).mp hg
    exact h.only g hg hid hle.1 hle.2
  cases hfind : (e.nodes t f.id).find? fun f => f.node.lo ≤ lo ∧ mid ≤ f.node.hi with
  | none =>
    rw [List.find?_eq_none] at hfind
    refine absurd ?_ (hfind f ((mem_nodes e).mpr ⟨h.fact, rfl⟩))
    rw [decide_eq_true_iff]
    exact ⟨h.lo_eq.le, h.le_hi⟩
  | some g =>
    have hg := mem_of_find?_eq_some hfind
    have hle := List.find?_some hfind
    rw [decide_eq_true_iff] at hle
    rw [hone g hg hle]

/-- The flag of the facts of the node. -/
theorem Pending.leaf_eq (h : Pending a b t f lo mid m path level)
    (hg : g ∈ (divideNode f lo mid m t).facts) (hid : g.id = f.id) : g.leaf = f.leaf := by
  let new : Rt κ := ⟨f.id, f.leaf, ⟨lo, mid, m⟩⟩
  have hnew : new ∈ (divideNode f lo mid m t).facts := by
    rw [(withRt_divideNode _ _ _ _ h.nodup).facts]
    exact .inr (.inl rfl)
  have he : g.leaf = new.leaf := h.shape.leaf_eq hg hnew hid
  exact he

/-- The two halves of the intervals of a node. -/
structure Halved (S : Set (Node κ)) (p : Node κ) (ps : List (Node κ)) (q : Node κ)
    (qs : List (Node κ)) : Prop where
  mem_q : q ∈ S
  mem_p : p ∈ S
  least : ∀ x ∈ S, p.lo ≤ x.lo
  low : ∀ x, x ∈ p :: ps ↔ x ∈ S ∧ x.lo < q.lo
  high : ∀ x, x ∈ q :: qs ↔ x ∈ S ∧ q.lo ≤ x.lo
  last : ∀ r, (q :: qs).getLast? = some r → ∀ x ∈ S, x.lo ≤ r.lo

/-- What `update_parent` does. -/
theorem updateParent_cases (h : Pending a b t f lo mid m path level) :
    updateParent e path lo mid f.id m t = .ok (divideNode f lo mid m t) ∨
      ∃ p ps q qs, Halved (kids (divideNode f lo mid m t).facts f.id) p ps q qs ∧
        (path = [] → updateParent e path lo mid f.id m t =
          splitRoot f.leaf f.id (p :: (ps ++ q :: qs)) (p :: ps) (q :: qs)
            (divideNode f lo mid m t)) ∧
        ∀ parId rest, path = parId :: rest → updateParent e path lo mid f.id m t =
          updateParent e rest p.lo q.lo parId
            (splitInner f.leaf f.id (p :: ps) (divideNode f lo mid m t)).2
            (splitInner f.leaf f.id (p :: ps) (divideNode f lo mid m t)).1 := by
  have hdiv := withRt_divideNode f lo mid m h.nodup
  obtain ⟨hnodup, hkids⟩ := nodes_spec e h.shape hdiv.nodup f.id
  by_cases hlen : ((e.nodes (divideNode f lo mid m t) f.id).map Rt.node).length ≤ maxNodeSize
  · refine .inl ?_
    rw [updateParent, h.find e]
    exact if_pos hlen
  · refine .inr ?_
    obtain ⟨c, d, ht⟩ : ∃ c d,
        Tiles Node.lo Node.hi (kids (divideNode f lo mid m t).facts f.id) c d := by
      let new : Rt κ := ⟨f.id, f.leaf, ⟨lo, mid, m⟩⟩
      have hnew : new ∈ (divideNode f lo mid m t).facts := by
        rw [hdiv.facts]
        exact .inr (.inl rfl)
      exact h.shape.exists_tiles (f := new) hnew
    have hinj : ∀ x ∈ (e.nodes (divideNode f lo mid m t) f.id).map Rt.node,
        ∀ y ∈ (e.nodes (divideNode f lo mid m t) f.id).map Rt.node, x.lo = y.lo → x = y := by
      intro x hx y hy he
      rw [hkids] at hx hy
      exact ht.unique hx hy ⟨le_refl _, ht.nonempty x hx⟩ ⟨he.symm.le, he ▸ ht.nonempty y hy⟩
    have hrank : ∀ x y : Node κ, x.rank ≤ y.rank → x.lo ≤ y.lo := by
      intro x y hle
      rw [Node.rank, Node.rank, Prod.Lex.toLex_le_toLex] at hle
      rcases hle with hlt | ⟨he, -⟩
      · exact hlt.le
      · exact he.le
    rw [maxNodeSize] at hlen
    obtain ⟨p, ps, q, qs, hsort, hsplit, hq, hp, hleast, hlow, hhigh, hlast⟩ :=
      halves Node.lo
        (k := ((e.nodes (divideNode f lo mid m t) f.id).map Rt.node).length / 2) hnodup hrank hinj
        (by omega) (by omega)
    simp only [hkids] at hq hp hleast hlow hhigh hlast
    rw [hsort] at hsplit
    refine ⟨p, ps, q, qs, ⟨hq, hp, hleast, hlow, hhigh, hlast⟩, ?_, ?_⟩
    · rintro rfl
      rw [updateParent, h.find e]
      simp only [maxNodeSize, if_neg hlen, hsort, hsplit]
    · rintro parId rest rfl
      rw [updateParent, h.find e]
      simp only [maxNodeSize, if_neg hlen, hsort, hsplit]

/-- The root is split. -/
theorem splitRoot_ok {p q : Node κ} {ps qs : List (Node κ)} {leaf : Bool}
    (h : Shape a b t.facts level) (hn : t.rt.Nodup) (hnum : Numbered t.facts t.next)
    (hleaf : ∀ g ∈ t.facts, g.id = .root → g.leaf = leaf)
    (hhalved : Halved (kids t.facts .root) p ps q qs) :
    ∃ t', splitRoot leaf .root (p :: (ps ++ q :: qs)) (p :: ps) (q :: qs) t = .ok t' ∧
      SameLeaves a b t t' := by
  obtain ⟨hq, hp, hleast, hlow, hhigh, hlast⟩ := hhalved
  obtain ⟨r, hr⟩ : ∃ r, (q :: qs).getLast? = some r := ⟨_, List.getLast?_eq_some_getLast (by simp)⟩
  have hrmem : r ∈ kids t.facts .root := by
    obtain ⟨qs', hqs⟩ := List.getLast?_eq_some_iff.mp hr
    exact ((hhigh r).mp (hqs ▸ mem_append_right _ mem_cons_self)).1
  have hra : p.lo = a := h.root.lo_eq hp hleast
  have hrb : r.hi = b := h.root.hi_eq hrmem (hlast r hr)
  let t1 := (p :: (ps ++ q :: qs)).foldl (fun t p => t.retractRt ⟨.root, leaf, p⟩) t
  let m1 : Ptr := .num (t1.next + 1)
  let m2 : Ptr := .num (t1.next + 1 + 1)
  let t2 : Tree κ ν := ⟨t1.rt, t1.rtval, t1.next + 1 + 1⟩
  let t3 := moveNodes leaf m1 (p :: ps) t2
  let t4 := moveNodes leaf m2 (q :: qs) t3
  let t5 := t4.assertRt ⟨.root, false, ⟨p.lo, q.lo, m1⟩⟩
  let t6 := t5.assertRt ⟨.root, false, ⟨q.lo, r.hi, m2⟩⟩
  have hrun : splitRoot leaf .root (p :: (ps ++ q :: qs)) (p :: ps) (q :: qs) t = .ok t6 := by
    simp only [splitRoot, hr]
    rfl
  have h1 : WithRt t _ t1 := withRt_retractNodes hn
  have h3 : WithRt t2 _ t3 := withRt_moveNodes h1.nodup
  have h4 : WithRt t3 _ t4 := withRt_moveNodes h3.nodup
  have h5 : WithRt t4 _ t5 := withRt_assert h4.nodup
  have h6 : WithRt t5 _ t6 := withRt_assert h5.nodup
  have hlist : ∀ x, x ∈ p :: (ps ++ q :: qs) ↔ x ∈ kids t.facts .root := by
    intro x
    rw [← cons_append, mem_append, hlow, hhigh, ← and_or_left]
    exact and_iff_left (lt_or_ge _ _)
  have hroot : ∀ x ∈ kids t.facts .root, (⟨.root, leaf, x⟩ : Rt κ) ∈ t.facts := by
    rintro x ⟨leaf', hx⟩
    have he : leaf' = leaf := hleaf _ hx rfl
    exact he ▸ hx
  have hnext : t1.next = t.next := h1.next
  have hfacts : ∀ g, g ∈ t6.facts ↔ g = ⟨.root, false, ⟨q.lo, r.hi, m2⟩⟩ ∨
      g = ⟨.root, false, ⟨p.lo, q.lo, m1⟩⟩ ∨
      ((g ∈ t.facts ∧ ¬(g.id = .root ∧ g.leaf = leaf ∧ g.node ∈ p :: (ps ++ q :: qs))) ∨
        g.id = m1 ∧ g.leaf = leaf ∧ g.node ∈ p :: ps) ∨
      g.id = m2 ∧ g.leaf = leaf ∧ g.node ∈ q :: qs := by
    intro g
    have h2 : t2.facts = t1.facts := rfl
    rw [h6.facts, h5.facts, h4.facts, h3.facts, h2, h1.facts]
    rfl
  have hgrown : Grown a b t.facts q.lo m1 m2 t6.facts := by
    have hm1 : m1 = .num (t.next + 1) := congrArg (fun n => Ptr.num (n + 1)) hnext
    refine ⟨⟨q, hq, rfl⟩, ?_, hm1 ▸ hnum.unused, ?_, ?_, fun g => ?_⟩
    · rw [← hra]
      exact ((hlow p).mp mem_cons_self).2
    · refine Numbered.unused (n := t1.next + 1) fun g hg i hi => ?_
      have hle := hnum g hg i hi
      omega
    · intro he
      have hsucc : t1.next + 1 = t1.next + 1 + 1 := Ptr.num.inj he
      omega
    · rw [hfacts, hra, hrb]
      constructor
      · rintro (rfl | rfl | (⟨hg, hnot⟩ | ⟨hid, hl, hnode⟩) | ⟨hid, hl, hnode⟩)
        · exact .inr (.inr rfl)
        · exact .inr (.inl rfl)
        · refine .inl ⟨g, hg, Grown.lower_other fun hid => hnot ⟨hid, hleaf g hg hid, ?_⟩⟩
          exact (hlist _).mpr (hid ▸ mem_kids hg)
        · obtain ⟨hx, hlt⟩ := (hlow _).mp hnode
          refine .inl ⟨_, hroot _ hx, ?_⟩
          rw [Rt.lower, if_pos rfl, if_pos hlt, ← hid, ← hl]
        · obtain ⟨hx, hle⟩ := (hhigh _).mp hnode
          refine .inl ⟨_, hroot _ hx, ?_⟩
          rw [Rt.lower, if_pos rfl, if_neg (not_lt.mpr hle), ← hid, ← hl]
      · rintro (⟨g0, hg0, rfl⟩ | rfl | rfl)
        · by_cases hid : g0.id = .root
          · have hx : g0.node ∈ kids t.facts .root := hid ▸ mem_kids hg0
            by_cases hlt : g0.node.lo < q.lo
            · refine .inr (.inr (.inl (.inr ⟨?_, hleaf g0 hg0 hid, (hlow _).mpr ⟨hx, hlt⟩⟩)))
              rw [Rt.lower, if_pos hid, if_pos hlt]
            · refine .inr (.inr (.inr ⟨?_, hleaf g0 hg0 hid, (hhigh _).mpr ⟨hx, not_lt.mp hlt⟩⟩))
              rw [Rt.lower, if_pos hid, if_neg hlt]
          · rw [Grown.lower_other hid]
            exact .inr (.inr (.inl (.inl ⟨hg0, fun hn => hid hn.1⟩)))
        · exact .inr (.inl rfl)
        · exact .inl rfl
  have hnext6 : t6.next = t.next + 1 + 1 := by
    rw [h6.next, h5.next, h4.next, h3.next, ← hnext]
  refine ⟨t6, hrun, h6.nodup, ⟨_, hgrown.shape h⟩, fun g hg i hi => ?_, hgrown.leafNodes_eq, ?_,
    by omega⟩
  · rw [hnext6]
    rcases (hgrown.mem g).mp hg with ⟨g0, hg0, rfl⟩ | rfl | rfl
    · have hle := hnum g0 hg0 i hi
      omega
    · have hi' : t1.next + 1 = i := Ptr.num.inj hi
      omega
    · have hi' : t1.next + 1 + 1 = i := Ptr.num.inj hi
      omega
  · rw [h6.rtval, h5.rtval, h4.rtval, h3.rtval]
    exact h1.rtval

/-- A node other than the root is split: its parent is to be updated. -/
theorem splitInner_pending {p q : Node κ} {ps qs : List (Node κ)} (h : Shape a b t.facts level)
    (hn : t.rt.Nodup) (hnum : Numbered t.facts t.next) (hg : g ∈ t.facts) (hinner : g.leaf = false)
    (hleaf : ∀ x ∈ t.facts, x.id = g.node.ptr → x.leaf = f.leaf) (hpath : Path t.facts path g.id)
    (hhalved : Halved (kids t.facts g.node.ptr) p ps q qs) :
    ∃ t2 m', splitInner f.leaf g.node.ptr (p :: ps) t = (t2, m') ∧ t2.rtval = t.rtval ∧
      t.next ≤ t2.next ∧
      Divided t.facts g q.lo m' (divideNode g p.lo q.lo m' t2).facts ∧
      ∃ level', Pending a b t2 g p.lo q.lo m' path level' := by
  obtain ⟨hq, hp, hleast, hlow, -, -⟩ := hhalved
  let t1 := (p :: ps).foldl (fun t p => t.retractRt ⟨g.node.ptr, f.leaf, p⟩) t
  let m' : Ptr := .num (t1.next + 1)
  let t1' : Tree κ ν := ⟨t1.rt, t1.rtval, t1.next + 1⟩
  let t2 := moveNodes f.leaf m' (p :: ps) t1'
  have h1 : WithRt t _ t1 := withRt_retractNodes hn
  have h2 : WithRt t1' _ t2 := withRt_moveNodes h1.nodup
  have hm' : m' = .num (t.next + 1) := congrArg (fun n => Ptr.num (n + 1)) h1.next
  have hnext : t2.next = t.next + 1 := h2.next.trans (congrArg (· + 1) h1.next)
  have hunused : Unused t.facts m' := hm' ▸ hnum.unused
  have htiles := h.inner g hg hinner
  have hlo : p.lo = g.node.lo := htiles.lo_eq hp hleast
  have hinside : q.lo ∈ Ioo g.node.lo g.node.hi := by
    refine ⟨?_, (htiles.nonempty q hq).trans_le (htiles.within hq).2⟩
    rw [← hlo]
    exact ((hlow p).mp mem_cons_self).2
  have hfacts : ∀ x, x ∈ t2.facts ↔
      (x ∈ t.facts ∧ ¬(x.id = g.node.ptr ∧ x.leaf = f.leaf ∧ x.node ∈ p :: ps)) ∨
        x.id = m' ∧ x.leaf = f.leaf ∧ x.node ∈ p :: ps := by
    intro x
    have h1' : t1'.facts = t1.facts := rfl
    rw [h2.facts, h1', h1.facts]
    rfl
  have hgid : g.id ≠ g.node.ptr := h.id_ne_ptr hg
  have hmoved : ∀ x ∈ t.facts, x.id = g.node.ptr ∧ x.node.lo < q.lo ↔
      x.id = g.node.ptr ∧ x.leaf = f.leaf ∧ x.node ∈ p :: ps := by
    intro x hx
    constructor
    · rintro ⟨hid, hlt⟩
      exact ⟨hid, hleaf x hx hid, (hlow _).mpr ⟨hid ▸ mem_kids hx, hlt⟩⟩
    · rintro ⟨hid, -, hnode⟩
      exact ⟨hid, ((hlow _).mp hnode).2⟩
  have hdivided : Divided t.facts g q.lo m' (divideNode g p.lo q.lo m' t2).facts := by
    refine ⟨hg, hinside, fun _ => ⟨q, hq, rfl⟩, hunused, fun x => ?_⟩
    rw [(withRt_divideNode _ _ _ _ h2.nodup).facts, hlo]
    show x ≠ g ∧ x ∈ t2.facts ∨ _ ↔ _
    refine or_congr_left ?_
    rw [hfacts]
    constructor
    · rintro ⟨hxg, ⟨hx, hnot⟩ | ⟨hid, hl, hnode⟩⟩
      · refine ⟨x, hx, hxg, ?_⟩
        rw [Rt.retarget, if_neg fun hn => hnot ((hmoved x hx).mp hn)]
      · obtain ⟨⟨leaf', hx⟩, hlt⟩ := (hlow _).mp hnode
        have he : leaf' = f.leaf := hleaf _ hx rfl
        refine ⟨_, hx, fun hn => hgid (congrArg Rt.id hn).symm, ?_⟩
        rw [Rt.retarget, if_pos ⟨rfl, hlt⟩, he, ← hid, ← hl]
    · rintro ⟨y, hy, hyg, rfl⟩
      refine ⟨fun he => ?_, ?_⟩
      · have hptr : (y.retarget g.node.ptr m' q.lo).node.ptr = g.node.ptr :=
          congrArg (fun x : Rt κ => x.node.ptr) he
        exact hyg (h.inj y hy g hg hptr)
      · by_cases hn : y.id = g.node.ptr ∧ y.node.lo < q.lo
        · obtain ⟨hid, hl, hnode⟩ := (hmoved y hy).mp hn
          refine .inr ⟨?_, hl, hnode⟩
          rw [Rt.retarget, if_pos hn]
        · rw [Rt.retarget, if_neg hn]
          exact .inl ⟨hy, fun hn' => hn ((hmoved y hy).mpr hn')⟩
  have hlevel := h.level_inner g hg hinner
  refine ⟨t2, m', rfl, h2.rtval.trans h1.rtval, by omega, hdivided, _, h2.nodup, ?_,
    fun x hx hid hle hge => ?_, hlo.symm, hinside.2.le, hdivided.shape h, fun x hx i hi => ?_, ?_⟩
  · exact (hfacts g).mpr (.inl ⟨hg, fun hn => hgid hn.1⟩)
  · have hx' : x ∈ t.facts := by
      rcases (hfacts x).mp hx with ⟨hx, -⟩ | ⟨hidm, -, -⟩
      · exact hx
      · exact absurd (hid.symm.trans hidm) (h.id_ne_unused hunused hg)
    obtain ⟨c, d, ht⟩ := h.exists_tiles hg
    refine h.eq_of_kids hx' hg (ht.unique_of_le (mem_kids hg) (hid ▸ mem_kids hx') hinside.2
      hinside.1 ?_ hge)
    rw [← hlo]
    exact hle
  · rw [hnext]
    rcases (hdivided.mem x).mp hx with ⟨y, hy, -, rfl⟩ | rfl | rfl
    · exact (hnum y hy i hi).trans (Nat.le_succ _)
    · have hi' : t1.next + 1 = i := Ptr.num.inj hi
      have hle : t1.next = t.next := h1.next
      omega
    · exact (hnum g hg i hi).trans (Nat.le_succ _)
  · exact hpath.divided h hdivided fun _ => by omega

/-- The interval of `f` is divided, and nodes are split from there up to the root. -/
theorem updateParent_ok (h : Pending a b t f lo mid m path level) :
    ∃ t', updateParent e path lo mid f.id m t = .ok t' ∧
      SameLeaves a b (divideNode f lo mid m t) t' := by
  have hnodup := (withRt_divideNode f lo mid m h.nodup).nodup
  induction path generalizing t f lo mid m level with
  | nil =>
    rcases updateParent_cases e h with hdone | ⟨p, ps, q, qs, hhalved, hrun⟩
    · exact ⟨_, hdone, hnodup, ⟨level, h.shape⟩, h.numbered, rfl, rfl, le_refl _⟩
    · have hid := h.path.root_eq
      rw [hrun.1 rfl]
      rw [hid] at hhalved ⊢
      exact splitRoot_ok h.shape hnodup h.numbered
        (fun g hg hg' => h.leaf_eq hg (hg'.trans hid.symm)) hhalved
  | cons parId path ih =>
    rcases updateParent_cases e h with hdone | ⟨p, ps, q, qs, hhalved, hrun⟩
    · exact ⟨_, hdone, hnodup, ⟨level, h.shape⟩, h.numbered, rfl, rfl, le_refl _⟩
    · obtain ⟨g, hg, hinner, rfl, hptr, hpath⟩ := h.path.exists_link
      rw [← hptr] at hhalved
      obtain ⟨t2, m', hsplit, hrtval, hnext, hdivided, level', hpending⟩ :=
        splitInner_pending h.shape hnodup h.numbered hg hinner
          (fun x hx hid => h.leaf_eq hx (hid.trans hptr)) hpath hhalved
      rw [hptr] at hsplit
      obtain ⟨t', hrun', hsame⟩ := ih hpending (withRt_divideNode _ _ _ _ hpending.nodup).nodup
      refine ⟨t', ?_, hsame.nodup, hsame.shape, hsame.numbered,
        hsame.leaves.trans (hdivided.leafNodes_inner hinner), hsame.rtval.trans hrtval,
        hnext.trans hsame.next⟩
      rw [hrun.2 _ _ rfl, hsplit]
      exact hrun'

end XSBEngine.Ranges
