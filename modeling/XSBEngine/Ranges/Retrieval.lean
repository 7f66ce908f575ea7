import XSBEngine.Ranges.Updates

/-!
# Retrieval by ranges

`get_from_range_tree` finds the keys of a range below the nodes whose intervals meet it, and only
below one node if the range is inside its interval. After any operations on trees it enumerates what
has been added and not deleted.
-/

namespace XSBEngine.Ranges

open XSBEngine.Library Set

variable {κ ν : Type*} [LinearOrder κ] {a b lo hi k : κ} {f g : Rt κ}
  {level : Ptr → Nat} {id : Ptr} {t t' : Tree κ ν} {R : Set (Rt κ)}

/-! ### Leaves below a node -/

/-- The fact of a leaf is found below a node. -/
inductive Below (R : Set (Rt κ)) (f : Rt κ) : Ptr → Prop
  | here : f ∈ R → f.leaf = true → Below R f f.id
  | down {g : Rt κ} : g ∈ R → g.leaf = false → Below R f g.node.ptr → Below R f g.id

theorem Below.interval (h : Shape a b R level) (hf : Below R f id) {c d : κ}
    (ht : Tiles Node.lo Node.hi (kids R id) c d) (hk : k ∈ f.interval) : k ∈ Ico c d := by
  induction hf generalizing c d with
  | here hf _ => exact ht.mem_of_mem (mem_kids hf) hk
  | @down g hg hinner _ ih =>
    have hkg : k ∈ g.interval := ih (h.inner g hg hinner)
    exact ht.mem_of_mem (mem_kids hg) hkg

omit [LinearOrder κ] in
theorem Below.mem (hf : Below R f id) : f ∈ R ∧ f.leaf = true := by
  induction hf with
  | here hf hleaf => exact ⟨hf, hleaf⟩
  | down _ _ _ ih => exact ih

omit [LinearOrder κ] in
/-- What is found below a node, by the facts of the node. -/
theorem below_iff : Below R f id ↔
    ∃ g ∈ R, g.id = id ∧ (g.leaf = true ∧ g = f ∨ g.leaf = false ∧ Below R f g.node.ptr) := by
  constructor
  · intro hf
    cases hf with
    | here hf hleaf => exact ⟨f, hf, rfl, .inl ⟨hleaf, rfl⟩⟩
    | @down g hg hinner hf => exact ⟨g, hg, rfl, .inr ⟨hinner, hf⟩⟩
  · rintro ⟨g, hg, rfl, ⟨hleaf, rfl⟩ | ⟨hinner, hf⟩⟩
    · exact .here hg hleaf
    · exact .down hg hinner hf

/-- Every leaf is below the root. -/
theorem below_root (h : Shape a b R level) (hf : f ∈ R) (hleaf : f.leaf = true) :
    Below R f .root := by
  have hup : ∀ n, ∀ g ∈ R, level .root - level g.id = n → Below R f g.id → Below R f .root := by
    intro n
    induction n with
    | zero =>
      intro g hg hn hb
      by_cases hid : g.id = .root
      · exact hid ▸ hb
      · have hlt := h.level_lt g hg hid
        omega
    | succ n ih =>
      intro g hg hn hb
      have hid : g.id ≠ .root := by
        intro hid
        rw [hid] at hn
        omega
      obtain ⟨g', hg', hinner, hptr⟩ := h.parent g hg hid
      have hlevel := h.level_inner g' hg' hinner
      rw [hptr] at hlevel
      exact ih g' hg' (by omega) (.down hg' hinner (hptr ▸ hb))
  exact hup _ f hf rfl (.here hf hleaf)

/-! ### The solutions of a node -/

section Nodes

variable {fs : List (Rt κ)} {sub : Rt κ → List (κ × List ν)}

theorem getFromNodes_congr {sub1 sub2 : Rt κ → Option (List (κ × List ν))}
    (h : ∀ f ∈ fs, sub1 f = sub2 f) : getFromNodes lo hi sub1 fs = getFromNodes lo hi sub2 fs := by
  induction fs with
  | nil => rfl
  | cons f fs ih =>
    rw [getFromNodes, getFromNodes, h f List.mem_cons_self,
      ih fun g hg => h g (List.mem_cons_of_mem _ hg)]

/-- The cut and the nodes that are skipped lose no solutions. -/
theorem getFromNodes_eq (hsub : ∀ f ∈ fs, ((sub f).map Prod.fst).Nodup ∧
      ∀ x ∈ sub f, x.1 ∈ f.interval ∧ lo ≤ x.1 ∧ x.1 ≤ hi)
    (hfs : fs.Pairwise fun f g => Disjoint f.interval g.interval) :
    ∃ l, getFromNodes lo hi (fun f => some (sub f)) fs = some l ∧ (l.map Prod.fst).Nodup ∧
      ∀ x, x ∈ l ↔ ∃ f ∈ fs, x ∈ sub f := by
  induction fs with
  | nil => exact ⟨[], rfl, List.nodup_nil, by simp⟩
  | cons f fs ih =>
    obtain ⟨hapart, hfs⟩ := List.pairwise_cons.mp hfs
    obtain ⟨l, hl, hnodup, hmem⟩ := ih (fun g hg => hsub g (List.mem_cons_of_mem _ hg)) hfs
    obtain ⟨hnodup', hin⟩ := hsub f List.mem_cons_self
    have hother : ∀ x ∈ sub f, ∀ g ∈ fs, x.1 ∉ g.interval := fun x hx g hg hx' =>
      disjoint_left.mp (hapart g hg) (hin x hx).1 hx'
    rw [getFromNodes]
    split
    next =>
      split
      next hcut =>
        -- the range is inside the interval of the node
        refine ⟨sub f, rfl, hnodup', fun x => ⟨fun hx => ⟨f, List.mem_cons_self, hx⟩, ?_⟩⟩
        rintro ⟨g, hg, hx⟩
        rcases List.mem_cons.mp hg with rfl | hg'
        · exact hx
        · obtain ⟨hxg, hlo, hhi⟩ := (hsub g hg).2 x hx
          refine absurd hxg (disjoint_left.mp (hapart g hg') ⟨hcut.1.trans hlo, ?_⟩)
          exact hhi.trans_lt (lt_of_le_of_ne hcut.2.1 hcut.2.2)
      next =>
        refine ⟨sub f ++ l, ?_, ?_, fun x => ?_⟩
        · rw [hl]
          rfl
        · rw [List.map_append, List.nodup_append]
          refine ⟨hnodup', hnodup, fun k hk k' hk' he => ?_⟩
          obtain ⟨x, hx, rfl⟩ := List.mem_map.mp hk
          obtain ⟨y, hy, rfl⟩ := List.mem_map.mp hk'
          obtain ⟨g, hg, hy⟩ := (hmem y).mp hy
          refine hother x hx g hg ?_
          rw [he]
          exact ((hsub g (List.mem_cons_of_mem _ hg)).2 y hy).1
        · rw [List.mem_append, hmem]
          simp only [List.mem_cons, exists_eq_or_imp]
    next hskip =>
      refine ⟨l, hl, hnodup, fun x => ?_⟩
      rw [hmem]
      simp only [List.mem_cons, exists_eq_or_imp]
      refine ⟨.inr, fun hx => hx.resolve_left fun hx => hskip ?_⟩
      obtain ⟨hxf, hlo, hhi⟩ := hin x hx
      exact ⟨hxf.1.trans hhi, hlo.trans hxf.2.le⟩

end Nodes

variable (e : Enumeration κ ν)

theorem getFromLeaf_spec (hs : Stored (leafNodes R) t.rtval) (lo hi : κ) (key : KeyArg κ)
    (ptr : Ptr) :
    ((getFromLeaf e lo hi key t ptr).map Prod.fst).Nodup ∧
      ∀ x, x ∈ getFromLeaf e lo hi key t ptr ↔ (⟨ptr, x.1, x.2⟩ : RtVal κ ν) ∈ t.rtval ∧
        key.unifies x.1 = true ∧ lo ≤ x.1 ∧ x.1 ≤ hi := by
  have hmem : ∀ r, r ∈ (e.values t ptr).filter
      (fun r => key.unifies r.key ∧ lo ≤ r.key ∧ r.key ≤ hi) ↔
      (r ∈ t.rtval ∧ r.id = ptr) ∧ key.unifies r.key = true ∧ lo ≤ r.key ∧ r.key ≤ hi := by
    intro r
    rw [List.mem_filter, mem_values, decide_eq_true_iff]
  refine ⟨?_, fun x => ?_⟩
  · rw [getFromLeaf, List.map_map]
    refine List.Nodup.map_on (fun r hr r' hr' he => ?_) ?_
    · obtain ⟨⟨hr, hid⟩, -⟩ := (hmem r).mp hr
      obtain ⟨⟨hr', hid'⟩, -⟩ := (hmem r').mp hr'
      exact hs.unique r hr r' hr' (hid.trans hid'.symm) he
    · exact (((e.perm_rtval t.rtval).nodup_iff.mpr hs.nodup).filter _).filter _
  · rw [getFromLeaf, List.mem_map]
    constructor
    · rintro ⟨r, hr, rfl⟩
      obtain ⟨⟨hr', rfl⟩, hkey⟩ := (hmem r).mp hr
      exact ⟨hr', hkey⟩
    · rintro ⟨hr, hkey⟩
      exact ⟨_, (hmem _).mpr ⟨⟨hr, rfl⟩, hkey⟩, rfl⟩

theorem nodes_apart (h : Shape a b t.facts level) (hn : t.rt.Nodup) {c d : κ}
    (ht : Tiles Node.lo Node.hi (kids t.facts id) c d) :
    (e.nodes t id).Pairwise fun f g => Disjoint f.interval g.interval := by
  have hnodup : (e.nodes t id).Nodup := ((e.perm_rt t.rt).nodup_iff.mpr hn).filter _
  refine hnodup.pairwise_of_forall_ne fun f hf g hg hne => disjoint_left.mpr fun k hkf hkg => hne ?_
  obtain ⟨hf, hfid⟩ := (mem_nodes e).mp hf
  obtain ⟨hg, hgid⟩ := (mem_nodes e).mp hg
  exact h.eq_of_kids hf hg (ht.unique (hfid ▸ mem_kids hf) (hgid ▸ mem_kids hg) hkf hkg)

/-- The solutions of `get_from_range_tree_vals` for one node. -/
theorem getFromRangeTreeVals_eq (h : Shape a b t.facts level) (hn : t.rt.Nodup)
    (hs : Stored (leafNodes t.facts) t.rtval) {c d : κ}
    (ht : Tiles Node.lo Node.hi (kids t.facts id) c d) (lo hi : κ) (key : KeyArg κ) :
    ∃ l, (∀ n > level id, getFromRangeTreeVals e lo hi key t n id = some l) ∧
      (l.map Prod.fst).Nodup ∧ ∀ x, x ∈ l ↔ (∃ f, Below t.facts f id ∧
        (⟨f.node.ptr, x.1, x.2⟩ : RtVal κ ν) ∈ t.rtval) ∧
        key.unifies x.1 = true ∧ lo ≤ x.1 ∧ x.1 ≤ hi := by
  induction hk : level id using Nat.strong_induction_on generalizing id c d with
  | _ k ih =>
    -- the solutions below each fact of the node
    have hone : ∀ f, ∃ l, f ∈ e.nodes t id → (∀ n ≥ level id,
        (if f.leaf then some (getFromLeaf e lo hi key t f.node.ptr)
          else getFromRangeTreeVals e lo hi key t n f.node.ptr) = some l) ∧
        (l.map Prod.fst).Nodup ∧ ∀ x, x ∈ l ↔ (∃ g, (f.leaf = true ∧ f = g ∨
          f.leaf = false ∧ Below t.facts g f.node.ptr) ∧
          (⟨g.node.ptr, x.1, x.2⟩ : RtVal κ ν) ∈ t.rtval) ∧
          key.unifies x.1 = true ∧ lo ≤ x.1 ∧ x.1 ≤ hi := by
      intro f
      by_cases hf : f ∈ e.nodes t id
      · obtain ⟨hfacts, hid⟩ := (mem_nodes e).mp hf
        cases hleaf : f.leaf with
        | true =>
          obtain ⟨hnodup, hmem⟩ := getFromLeaf_spec e hs lo hi key f.node.ptr
          refine ⟨_, fun _ => ⟨fun n _ => if_pos rfl, hnodup, fun x => ?_⟩⟩
          rw [hmem]
          simp
        | false =>
          have hlevel := h.level_inner f hfacts hleaf
          rw [hid] at hlevel
          obtain ⟨l, hl, hnodup, hmem⟩ := ih (level f.node.ptr) (by omega)
            (h.inner f hfacts hleaf) rfl
          refine ⟨l, fun _ => ⟨fun n hn => (if_neg Bool.false_ne_true).trans (hl n (by omega)),
            hnodup, fun x => ?_⟩⟩
          rw [hmem]
          simp
      · exact ⟨[], fun hf' => absurd hf' hf⟩
    choose sub hsub using hone
    have hin : ∀ f ∈ e.nodes t id, ((sub f).map Prod.fst).Nodup ∧
        ∀ x ∈ sub f, x.1 ∈ f.interval ∧ lo ≤ x.1 ∧ x.1 ≤ hi := by
      intro f hf
      obtain ⟨-, hnodup, hmem⟩ := hsub f hf
      refine ⟨hnodup, fun x hx => ?_⟩
      obtain ⟨⟨g, hg, hr⟩, -, hrange⟩ := (hmem x).mp hx
      refine ⟨?_, hrange⟩
      have hfacts := ((mem_nodes e).mp hf).1
      have hkg : ∀ g ∈ t.facts, (⟨g.node.ptr, x.1, x.2⟩ : RtVal κ ν) ∈ t.rtval →
          x.1 ∈ g.interval := by
        intro g hg hr
        obtain ⟨p, hp, hptr, hkp⟩ := hs.inLeaf _ hr
        obtain ⟨g', hg', -, rfl⟩ := mem_leafNodes.mp hp
        rw [← h.inj g' hg' g hg hptr]
        exact hkp
      rcases hg with ⟨-, rfl⟩ | ⟨hinner, hg⟩
      · exact hkg f hfacts hr
      · exact hg.interval h (h.inner f hfacts hinner) (hkg g hg.mem.1 hr)
    obtain ⟨l, hl, hnodup, hmem⟩ := getFromNodes_eq hin (nodes_apart e h hn ht)
    refine ⟨l, fun n hn => ?_, hnodup, fun x => ?_⟩
    · obtain ⟨n, rfl⟩ := Nat.exists_eq_succ_of_ne_zero (Nat.ne_zero_of_lt hn)
      rw [Nat.succ_eq_add_one, getFromRangeTreeVals, ← hl]
      exact getFromNodes_congr fun f hf => (hsub f hf).1 n (by omega)
    · rw [hmem]
      constructor
      · rintro ⟨f, hf, hx⟩
        obtain ⟨⟨g, hg, hr⟩, hrange⟩ := ((hsub f hf).2.2 x).mp hx
        obtain ⟨hfacts, hid⟩ := (mem_nodes e).mp hf
        exact ⟨⟨g, below_iff.mpr ⟨f, hfacts, hid, hg⟩, hr⟩, hrange⟩
      · rintro ⟨⟨g, hg, hr⟩, hrange⟩
        obtain ⟨f, hfacts, hid, hf⟩ := below_iff.mp hg
        have hnodes := (mem_nodes e).mpr ⟨hfacts, hid⟩
        exact ⟨f, hnodes, ((hsub f hnodes).2.2 x).mpr ⟨⟨g, hf, hr⟩, hrange⟩⟩

omit [LinearOrder κ] in
/-- The pairs of a list of keys with their values. -/
theorem pairs_of_vals {l : List (κ × List ν)} (hn : (l.map Prod.fst).Nodup)
    (hv : ∀ x ∈ l, x.2.Nodup) :
    (l.flatMap fun p => p.2.map fun v => (p.1, v)).Nodup ∧
      ∀ p, p ∈ l.flatMap (fun p => p.2.map fun v => (p.1, v)) ↔
        ∃ vs, (p.1, vs) ∈ l ∧ p.2 ∈ vs := by
  refine ⟨?_, fun ⟨k, v⟩ => ?_⟩
  · rw [List.nodup_flatMap]
    refine ⟨fun x hx => (hv x hx).map fun v w he => (Prod.mk.inj he).2, ?_⟩
    rw [List.Nodup, List.pairwise_map] at hn
    refine hn.imp fun hne => List.disjoint_left.mpr fun p hp hp' => hne ?_
    obtain ⟨v, -, rfl⟩ := List.mem_map.mp hp
    obtain ⟨w, -, he⟩ := List.mem_map.mp hp'
    exact (Prod.mk.inj he).1.symm
  · rw [List.mem_flatMap]
    constructor
    · rintro ⟨⟨k', vs⟩, hx, hp⟩
      obtain ⟨w, hw, he⟩ := List.mem_map.mp hp
      cases he
      exact ⟨vs, hx, hw⟩
    · rintro ⟨vs, hx, hw⟩
      exact ⟨_, hx, List.mem_map.mpr ⟨v, hw, rfl⟩⟩

/-- A range of a valid tree is enumerated, each pair once. -/
theorem Valid.get (h : Valid a b t) :
    ∃ N, ∀ lo hi (key : KeyArg κ), ∃ l, (∀ n ≥ N, getFromRangeTree e n lo hi key t = some l) ∧
      l.Nodup ∧ ∀ p, p ∈ l ↔ p ∈ pairs t ∧ lo ≤ p.1 ∧ p.1 ≤ hi ∧ key.unifies p.1 = true := by
  obtain ⟨level, hshape⟩ := h.shape
  refine ⟨level .root + 1, fun lo hi key => ?_⟩
  -- the solutions for some bounds
  have hvals : ∀ lo hi (key : KeyArg κ), ∃ l, (∀ n ≥ level .root + 1,
      getFromRangeTreeVals e lo hi key t n .root = some l) ∧
      (l.flatMap fun p => p.2.map fun v => (p.1, v)).Nodup ∧
      ∀ p, p ∈ l.flatMap (fun p => p.2.map fun v => (p.1, v)) ↔
        p ∈ pairs t ∧ lo ≤ p.1 ∧ p.1 ≤ hi ∧ key.unifies p.1 = true := by
    intro lo hi key
    obtain ⟨l, hl, hnodup, hmem⟩ := getFromRangeTreeVals_eq e hshape h.nodup h.stored
      hshape.root lo hi key
    have hv : ∀ x ∈ l, x.2.Nodup := by
      intro x hx
      obtain ⟨⟨f, -, hr⟩, -⟩ := (hmem x).mp hx
      have hvals := h.stored.vals_nodup _ hr
      exact hvals
    obtain ⟨hnodup', hmem'⟩ := pairs_of_vals hnodup hv
    refine ⟨l, hl, hnodup', fun ⟨k, v⟩ => ?_⟩
    rw [hmem']
    constructor
    · rintro ⟨vs, hx, hv⟩
      obtain ⟨⟨f, -, hr⟩, hkey, hlo, hhi⟩ := (hmem _).mp hx
      exact ⟨⟨_, hr, rfl, hv⟩, hlo, hhi, hkey⟩
    · rintro ⟨⟨r, hr, rfl, hv⟩, hlo, hhi, hkey⟩
      obtain ⟨x, hx, hptr, -⟩ := h.stored.inLeaf r hr
      obtain ⟨f, hf, hleaf, rfl⟩ := mem_leafNodes.mp hx
      refine ⟨r.vals, (hmem _).mpr ⟨⟨f, below_root hshape hf hleaf, ?_⟩, hkey, hlo, hhi⟩, hv⟩
      rw [hptr]
      exact hr
  by_cases hlohi : lo ≤ hi
  · cases key with
    | ground k =>
      by_cases hk : lo ≤ k ∧ k ≤ hi
      · obtain ⟨l, hl, hnodup, hmem⟩ := hvals k k (.ground k)
        refine ⟨_, fun n hn => ?_, hnodup, fun p => ?_⟩
        · rw [getFromRangeTree, if_pos hlohi]
          simp only [if_pos hk, hl n hn, Option.map_some]
        · rw [hmem]
          refine and_congr_right fun _ => ?_
          simp only [KeyArg.unifies, decide_eq_true_eq]
          constructor
          · rintro ⟨-, -, rfl⟩
            exact ⟨hk.1, hk.2, rfl⟩
          · rintro ⟨-, -, rfl⟩
            exact ⟨le_refl _, le_refl _, rfl⟩
      · refine ⟨[], fun n hn => ?_, List.nodup_nil, fun p => ?_⟩
        · rw [getFromRangeTree, if_pos hlohi]
          simp only [if_neg hk, Option.map_some, List.flatMap_nil]
        · simp only [KeyArg.unifies, decide_eq_true_eq, List.not_mem_nil, false_iff]
          rintro ⟨-, hlo, hhi, rfl⟩
          exact hk ⟨hlo, hhi⟩
    | pattern unifies =>
      obtain ⟨l, hl, hnodup, hmem⟩ := hvals lo hi (.pattern unifies)
      refine ⟨_, fun n hn => ?_, hnodup, hmem⟩
      rw [getFromRangeTree, if_pos hlohi]
      simp only [hl n hn, Option.map_some]
  · refine ⟨[], fun n _ => if_neg hlohi, List.nodup_nil, fun p => ?_⟩
    simp only [List.not_mem_nil, false_iff]
    rintro ⟨-, hlo, hhi, -⟩
    exact hlohi (hlo.trans hhi)

end XSBEngine.Ranges
