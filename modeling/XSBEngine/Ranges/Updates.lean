import XSBEngine.Ranges.Splitting

/-!
# Updates of range trees

A key is kept in the leaf whose interval has it. Insertion and deletion find that leaf and keep the
tree valid, also where the leaf is split.
-/

namespace XSBEngine.Ranges

open XSBEngine.Library Set

variable {κ ν : Type*} [LinearOrder κ] [LinearOrder ν] {a b key : κ} {f g : Rt κ} {val : ν}
  {level : Ptr → Nat} {id m ptr : Ptr} {t t' : Tree κ ν} {path : List Ptr} {n : Nat}

/-! ### Valid trees -/

/-- The facts for keys: one for each key, in the leaf that the key belongs to. -/
structure Stored (L : Set (Node κ)) (l : List (RtVal κ ν)) : Prop where
  nodup : l.Nodup
  unique : ∀ r ∈ l, ∀ r' ∈ l, r.id = r'.id → r.key = r'.key → r = r'
  vals_nodup : ∀ r ∈ l, r.vals.Nodup
  inLeaf : ∀ r ∈ l, ∃ p ∈ L, p.ptr = r.id ∧ r.key ∈ Ico p.lo p.hi

/-- The facts of a range tree for the keys from `a` on and below `b`. -/
structure Valid (a b : κ) (t : Tree κ ν) : Prop where
  nodup : t.rt.Nodup
  shape : ∃ level, Shape a b t.facts level
  numbered : Numbered t.facts t.next
  stored : Stored (leafNodes t.facts) t.rtval

/-- The keys with their values. -/
def pairs (t : Tree κ ν) : Set (κ × ν) := {p | ∃ r ∈ t.rtval, r.key = p.1 ∧ p.2 ∈ r.vals}

omit [LinearOrder ν] in
theorem valid_init (hab : a < b) (t : Tree κ ν) : Valid a b (initRangeTree a b t) := by
  let first : Rt κ := ⟨.root, true, ⟨a, b, .one⟩⟩
  have hfacts : ∀ g, g ∈ (initRangeTree a b t).facts ↔ g = first := fun g => List.mem_singleton
  have hkids : ∀ p, p ∈ kids (initRangeTree a b t).facts .root ↔ p = first.node := by
    intro p
    constructor
    · rintro ⟨leaf, hp⟩
      exact congrArg Rt.node ((hfacts _).mp hp)
    · rintro rfl
      exact mem_kids (f := first) ((hfacts _).mpr rfl)
  have hleaf : ∀ g ∈ (initRangeTree a b t).facts, g.leaf = true := by
    intro g hg
    rw [(hfacts g).mp hg]
  have hid : ∀ g ∈ (initRangeTree a b t).facts, g.id = .root := by
    intro g hg
    rw [(hfacts g).mp hg]
  refine ⟨List.nodup_singleton _, ⟨fun _ => 0, ?_, fun g hg hinner => ?_,
    fun g hg hne => absurd (hid g hg) hne, fun f hf g hg _ => ?_, fun g hg he => ?_,
    fun _ _ _ => rfl, fun g hg hinner => ?_, fun g hg hne => absurd (hid g hg) hne⟩,
    fun g hg i hi => ?_, List.nodup_nil, nofun, nofun, nofun⟩
  · exact .single Node.lo Node.hi (i := first.node) hab hkids
  · exact absurd (hleaf g hg) (by rw [hinner]; exact Bool.false_ne_true)
  · rw [(hfacts f).mp hf, (hfacts g).mp hg]
  · rw [(hfacts g).mp hg] at he
    cases he
  · exact absurd (hleaf g hg) (by rw [hinner]; exact Bool.false_ne_true)
  · rw [(hfacts g).mp hg] at hi
    cases hi

/-! ### The way to a leaf -/

variable (e : Enumeration κ ν)

theorem mem_interval_iff :
    f.node.lo ≤ key ∧ key ≤ f.node.hi ∧ key ≠ f.node.hi ↔ key ∈ f.interval := by
  rw [Rt.interval, mem_Ico, lt_iff_le_and_ne]

omit [LinearOrder ν] in
/-- One fact of a node has the key. -/
theorem exists_fact (h : Shape a b t.facts level) {c d : κ}
    (ht : Tiles Node.lo Node.hi (kids t.facts id) c d) (hkey : key ∈ Ico c d) :
    ∃ f ∈ e.nodes t id, key ∈ f.interval ∧ ∀ g ∈ e.nodes t id, key ∈ g.interval → g = f := by
  obtain ⟨p, ⟨leaf, hp⟩, hkp⟩ := ht.exists_of_mem hkey
  refine ⟨_, (mem_nodes e).mpr ⟨hp, rfl⟩, hkp, fun g hg hkg => ?_⟩
  obtain ⟨hg, hid⟩ := (mem_nodes e).mp hg
  exact h.eq_of_kids hg hp (ht.unique (hid ▸ mem_kids hg) ⟨leaf, hp⟩ hkg hkp)

theorem find_eq {l : List (Rt κ)} (hf : f ∈ l) (hkey : key ∈ f.interval)
    (honly : ∀ g ∈ l, key ∈ g.interval → g = f) :
    l.find? (fun f => f.node.lo ≤ key ∧ key ≤ f.node.hi ∧ key ≠ f.node.hi) = some f := by
  cases hfind : l.find? fun f => f.node.lo ≤ key ∧ key ≤ f.node.hi ∧ key ≠ f.node.hi with
  | none =>
    rw [List.find?_eq_none] at hfind
    exact absurd (decide_eq_true (mem_interval_iff.mpr hkey)) (hfind f hf)
  | some g =>
    have hg := List.find?_some hfind
    rw [decide_eq_true_iff, mem_interval_iff] at hg
    rw [honly g (List.mem_of_find?_eq_some hfind) hg]

/-- Insertion finds the leaf of the key. -/
theorem addToRangeTree_eq (h : Shape a b t.facts level) {c d : κ}
    (ht : Tiles Node.lo Node.hi (kids t.facts id) c d) (hkey : key ∈ Ico c d)
    (hpath : Path t.facts path id) (val : ν) :
    ∃ f path', f ∈ t.facts ∧ f.leaf = true ∧ key ∈ f.interval ∧ Path t.facts path' f.id ∧
      ∀ n > level id, addToRangeTree e n id path key val t = addToLeaf e f path' key val t := by
  induction hk : level id using Nat.strong_induction_on generalizing id path c d with
  | _ k ih =>
    obtain ⟨f, hf, hkf, honly⟩ := exists_fact e h ht hkey
    obtain ⟨hfacts, hid⟩ := (mem_nodes e).mp hf
    cases hleaf : f.leaf with
    | true =>
      refine ⟨f, path, hfacts, hleaf, hkf, hid ▸ hpath, fun n hn => ?_⟩
      obtain ⟨n, rfl⟩ := Nat.exists_eq_succ_of_ne_zero (Nat.ne_zero_of_lt hn)
      rw [Nat.succ_eq_add_one, addToRangeTree, find_eq hf hkf honly]
      simp only [hleaf, if_true]
    | false =>
      have hlevel := h.level_inner f hfacts hleaf
      rw [hid] at hlevel
      have hlink : Path t.facts (id :: path) f.node.ptr := hid ▸ .link hfacts hleaf (hid ▸ hpath)
      obtain ⟨g, path', hg, hgleaf, hkg, hpath', hrun⟩ :=
        ih (level f.node.ptr) (by omega) (h.inner f hfacts hleaf) hkf hlink rfl
      refine ⟨g, path', hg, hgleaf, hkg, hpath', fun n hn => ?_⟩
      obtain ⟨n, rfl⟩ := Nat.exists_eq_succ_of_ne_zero (Nat.ne_zero_of_lt hn)
      rw [Nat.succ_eq_add_one, addToRangeTree, find_eq hf hkf honly]
      simp only [hleaf, Bool.false_eq_true, if_false]
      exact hrun n (by omega)

section FirstOf

variable {α β : Type*} {goal : α → Except Halt β} {l : List α} {x : α}

theorem firstOf_fails (h : ∀ y ∈ l, goal y = .error .fails) : firstOf goal l = .error .fails := by
  induction l with
  | nil => rfl
  | cons y l ih =>
    rw [firstOf, h y List.mem_cons_self]
    exact ih fun z hz => h z (List.mem_cons_of_mem _ hz)

theorem firstOf_eq (hx : x ∈ l) (hother : ∀ y ∈ l, y ≠ x → goal y = .error .fails) :
    firstOf goal l = goal x := by
  by_cases hgoal : goal x = .error .fails
  · rw [hgoal]
    refine firstOf_fails fun y hy => ?_
    by_cases hyx : y = x
    · rw [hyx, hgoal]
    · exact hother y hy hyx
  · induction l with
    | nil => cases hx
    | cons y l ih =>
      by_cases hyx : y = x
      · rw [firstOf, hyx]
        split
        next heq => exact absurd heq hgoal
        next => rfl
      · rw [firstOf, hother y List.mem_cons_self hyx]
        refine ih ((List.mem_cons.mp hx).resolve_left (Ne.symm hyx)) fun z hz => ?_
        exact hother z (List.mem_cons_of_mem _ hz)

end FirstOf

/-- Deletion finds the leaf of the key. -/
theorem deleteFromRangeTree_eq (h : Shape a b t.facts level) {c d : κ}
    (ht : Tiles Node.lo Node.hi (kids t.facts id) c d) (hkey : key ∈ Ico c d) (val : Option ν) :
    ∃ f ∈ t.facts, f.leaf = true ∧ key ∈ f.interval ∧ ∀ n > level id,
      deleteFromRangeTree e n id key val t = .ok (deleteFromLeaf e f.node.ptr key val t) := by
  induction hk : level id using Nat.strong_induction_on generalizing id c d with
  | _ k ih =>
    obtain ⟨f, hf, hkf, honly⟩ := exists_fact e h ht hkey
    obtain ⟨hfacts, hid⟩ := (mem_nodes e).mp hf
    have hother : ∀ g ∈ e.nodes t id, g ≠ f →
        ¬(g.node.lo ≤ key ∧ key ≤ g.node.hi ∧ key ≠ g.node.hi) :=
      fun g hg hne hn => hne (honly g hg (mem_interval_iff.mp hn))
    cases hleaf : f.leaf with
    | true =>
      refine ⟨f, hfacts, hleaf, hkf, fun n hn => ?_⟩
      obtain ⟨n, rfl⟩ := Nat.exists_eq_succ_of_ne_zero (Nat.ne_zero_of_lt hn)
      rw [Nat.succ_eq_add_one, deleteFromRangeTree,
        firstOf_eq hf fun g hg hne => if_neg (hother g hg hne), if_pos (mem_interval_iff.mpr hkf)]
      simp only [hleaf, if_true]
    | false =>
      have hlevel := h.level_inner f hfacts hleaf
      rw [hid] at hlevel
      obtain ⟨g, hg, hgleaf, hkg, hrun⟩ :=
        ih (level f.node.ptr) (by omega) (h.inner f hfacts hleaf) hkf rfl
      refine ⟨g, hg, hgleaf, hkg, fun n hn => ?_⟩
      obtain ⟨n, rfl⟩ := Nat.exists_eq_succ_of_ne_zero (Nat.ne_zero_of_lt hn)
      rw [Nat.succ_eq_add_one, deleteFromRangeTree,
        firstOf_eq hf fun g hg hne => if_neg (hother g hg hne), if_pos (mem_interval_iff.mpr hkf)]
      simp only [hleaf, Bool.false_eq_true, if_false]
      exact hrun n (by omega)

/-! ### The values of one key -/

variable {r : RtVal κ ν} {vals : List ν}

omit [LinearOrder κ] [LinearOrder ν] in
theorem mem_values : r ∈ e.values t ptr ↔ r ∈ t.rtval ∧ r.id = ptr := by
  rw [Enumeration.values, List.mem_filter, decide_eq_true_iff, (e.perm_rtval t.rtval).mem_iff]

omit [LinearOrder ν] in
theorem mem_retractallVal :
    r ∈ (t.retractallVal ptr key).rtval ↔ r ∈ t.rtval ∧ ¬(r.id = ptr ∧ r.key = key) := by
  rw [Tree.retractallVal, List.mem_filter, decide_eq_true_iff]

theorem mem_assertVal {r' : RtVal κ ν} : r' ∈ (t.assertVal r).rtval ↔ r' = r ∨ r' ∈ t.rtval :=
  List.mem_insert_iff

namespace Valid

omit [LinearOrder ν] in
theorem retractall (h : Valid a b t) : Valid a b (t.retractallVal ptr key) where
  nodup := h.nodup
  shape := h.shape
  numbered := h.numbered
  stored := by
    have hsub : ∀ r ∈ (t.retractallVal ptr key).rtval, r ∈ t.rtval :=
      fun r hr => (mem_retractallVal.mp hr).1
    exact ⟨h.stored.nodup.filter _,
      fun r hr r' hr' => h.stored.unique r (hsub r hr) r' (hsub r' hr'),
      fun r hr => h.stored.vals_nodup r (hsub r hr), fun r hr => h.stored.inLeaf r (hsub r hr)⟩

theorem assertVal (h : Valid a b t) (hf : f ∈ t.facts) (hleaf : f.leaf = true)
    (hkey : key ∈ f.interval) (hnew : ∀ r ∈ t.rtval, r.id = f.node.ptr → r.key ≠ key)
    (hvals : vals.Nodup) :
    Valid a b (t.assertVal ⟨f.node.ptr, key, vals⟩) where
  nodup := h.nodup
  shape := h.shape
  numbered := h.numbered
  stored := by
    refine ⟨h.stored.nodup.insert, fun r hr r' hr' hid he => ?_, fun r hr => ?_, fun r hr => ?_⟩
    · rcases mem_assertVal.mp hr with rfl | hr <;> rcases mem_assertVal.mp hr' with rfl | hr'
      · rfl
      · exact absurd he.symm (hnew r' hr' hid.symm)
      · exact absurd he (hnew r hr hid)
      · exact h.stored.unique r hr r' hr' hid he
    · rcases mem_assertVal.mp hr with rfl | hr
      · exact hvals
      · exact h.stored.vals_nodup r hr
    · rcases mem_assertVal.mp hr with rfl | hr
      · exact ⟨f.node, mem_leafNodes.mpr ⟨f, hf, hleaf, rfl⟩, rfl, hkey⟩
      · exact h.stored.inLeaf r hr

omit [LinearOrder ν] in
/-- A key is kept in the leaf that it belongs to. -/
theorem id_eq (h : Valid a b t) (hf : f ∈ t.facts) (hleaf : f.leaf = true) (hr : r ∈ t.rtval)
    (hkey : r.key ∈ f.interval) : r.id = f.node.ptr := by
  obtain ⟨p, hp, hptr, hkp⟩ := h.stored.inLeaf r hr
  obtain ⟨g, hg, hgleaf, rfl⟩ := mem_leafNodes.mp hp
  obtain ⟨level, hshape⟩ := h.shape
  rw [← hptr, hshape.leaf_unique hg hf hgleaf hleaf hkp hkey]

omit [LinearOrder ν] in
theorem pairs_retractall (h : Valid a b t) (hf : f ∈ t.facts) (hleaf : f.leaf = true)
    (hkey : key ∈ f.interval) :
    pairs (t.retractallVal f.node.ptr key) = {p | p ∈ pairs t ∧ p.1 ≠ key} := by
  ext ⟨k, v⟩
  constructor
  · rintro ⟨r, hr, rfl, hv⟩
    obtain ⟨hr, hnot⟩ := mem_retractallVal.mp hr
    refine ⟨⟨r, hr, rfl, hv⟩, fun he => hnot ⟨?_, he⟩⟩
    have hkey' : r.key = key := he
    exact h.id_eq hf hleaf hr (hkey' ▸ hkey)
  · rintro ⟨⟨r, hr, rfl, hv⟩, hne⟩
    exact ⟨r, mem_retractallVal.mpr ⟨hr, fun hn => hne hn.2⟩, rfl, hv⟩

end Valid

theorem pairs_assertVal :
    pairs (t.assertVal ⟨ptr, key, vals⟩) = {p | p ∈ pairs t ∨ p.1 = key ∧ p.2 ∈ vals} := by
  ext ⟨k, v⟩
  constructor
  · rintro ⟨r, hr, rfl, hv⟩
    rcases mem_assertVal.mp hr with rfl | hr
    · exact .inr ⟨rfl, hv⟩
    · exact .inl ⟨r, hr, rfl, hv⟩
  · rintro (⟨r, hr, hk, hv⟩ | ⟨hk, hv⟩)
    · exact ⟨r, mem_assertVal.mpr (.inr hr), hk, hv⟩
    · exact ⟨_, mem_assertVal.mpr (.inl rfl), hk.symm, hv⟩

/-! ### Deletion -/

/-- The pairs that are deleted. -/
def deleted (key : κ) (val : Option ν) : Set (κ × ν) := {p | p.1 = key ∧ ∀ v ∈ val, p.2 = v}

theorem deleteFromLeaf_ok {val : Option ν} (h : Valid a b t) (hf : f ∈ t.facts)
    (hleaf : f.leaf = true) (hkey : key ∈ f.interval) :
    Valid a b (deleteFromLeaf e f.node.ptr key val t) ∧
      pairs (deleteFromLeaf e f.node.ptr key val t) = pairs t \ deleted key val ∧
      (deleteFromLeaf e f.node.ptr key val t).next = t.next := by
  have hretract := h.pairs_retractall hf hleaf hkey
  cases val with
  | none =>
    refine ⟨h.retractall, hretract.trans ?_, rfl⟩
    ext p
    simp [deleted]
  | some v =>
    have hmem : ∀ r, r ∈ (e.values t f.node.ptr).filter (fun r => r.key = key) ↔
        r ∈ t.rtval ∧ r.id = f.node.ptr ∧ r.key = key := by
      intro r
      rw [List.mem_filter, mem_values, decide_eq_true_iff, and_assoc]
    have hnodup : ((e.values t f.node.ptr).filter fun r => r.key = key).Nodup :=
      (((e.perm_rtval t.rtval).nodup_iff.mpr h.stored.nodup).filter _).filter _
    rw [deleteFromLeaf]
    cases hlist : (e.values t f.node.ptr).filter fun r => r.key = key with
    | nil =>
      refine ⟨h, ?_, rfl⟩
      -- no fact has the key
      have hnone : ∀ r ∈ t.rtval, r.key ≠ key := by
        intro r hr he
        have hr' := (hmem r).mpr ⟨hr, h.id_eq hf hleaf hr (he ▸ hkey), he⟩
        rw [hlist] at hr'
        cases hr'
      ext ⟨k, w⟩
      refine ⟨fun hp => ⟨hp, fun hd => ?_⟩, fun hp => hp.1⟩
      obtain ⟨r, hr, hrk, -⟩ := hp
      exact hnone r hr (hrk.trans hd.1)
    | cons r rest =>
      have hr := (hmem r).mp (hlist ▸ List.mem_cons_self)
      have hrest : rest = [] := by
        rw [List.eq_nil_iff_forall_not_mem]
        intro r' hr'
        rw [hlist] at hnodup
        have hr'' := (hmem r').mp (hlist ▸ List.mem_cons_of_mem _ hr')
        have he : r' = r := h.stored.unique r' hr''.1 r hr.1 (hr''.2.1.trans hr.2.1.symm)
          (hr''.2.2.trans hr.2.2.symm)
        exact (List.nodup_cons.mp hnodup).1 (he ▸ hr')
      have hvals : ∀ w, w ∈ deleteUni v r.vals ↔ w ∈ r.vals ∧ w ≠ v := by
        intro w
        rw [deleteUni, List.mem_filter, decide_eq_true_iff, ne_comm]
      have honly : ∀ k w, (k, w) ∈ pairs t → k = key → w ∈ r.vals := by
        rintro k w ⟨r', hr', hk, hw⟩ rfl
        have hk' : r'.key = r.key := hk.trans hr.2.2.symm
        have hid := h.id_eq hf hleaf hr' (hk ▸ hkey)
        exact h.stored.unique r' hr' r hr.1 (hid.trans hr.2.1.symm) hk' ▸ hw
      have hown : ∀ w ∈ r.vals, (key, w) ∈ pairs t := fun w hw => ⟨r, hr.1, hr.2.2, hw⟩
      rw [hrest, List.foldl_cons, List.foldl_nil]
      show Valid a b (if deleteUni v r.vals = [] then _ else _) ∧
        pairs (if deleteUni v r.vals = [] then _ else _) = _ ∧
        (if deleteUni v r.vals = [] then _ else _ : Tree κ ν).next = t.next
      split
      next hnil =>
        refine ⟨h.retractall, hretract.trans ?_, rfl⟩
        ext ⟨k, w⟩
        constructor
        · rintro ⟨hp, hne⟩
          exact ⟨hp, fun hd => hne hd.1⟩
        · rintro ⟨hp, hnot⟩
          refine ⟨hp, fun hk => hnot ⟨hk, fun v' hv' => ?_⟩⟩
          cases hv'
          have hw := honly k w hp hk
          by_contra hne
          have hw' := (hvals w).mpr ⟨hw, hne⟩
          rw [hnil] at hw'
          cases hw'
      next =>
        refine ⟨h.retractall.assertVal (f := f) hf hleaf hkey (fun r' hr' hid he => ?_) ?_, ?_, rfl⟩
        · exact (mem_retractallVal.mp hr').2 ⟨hid, he⟩
        · exact (h.stored.vals_nodup r hr.1).filter _
        · rw [pairs_assertVal, hretract]
          ext ⟨k, w⟩
          constructor
          · rintro (⟨hp, hne⟩ | ⟨rfl, hw⟩)
            · exact ⟨hp, fun hd => hne hd.1⟩
            · obtain ⟨hw, hne⟩ := (hvals w).mp hw
              exact ⟨hown w hw, fun hd => hne (hd.2 v rfl)⟩
          · rintro ⟨hp, hnot⟩
            by_cases hk : k = key
            · refine .inr ⟨hk, (hvals w).mpr ⟨honly k w hp hk, fun he => hnot ⟨hk, ?_⟩⟩⟩
              rintro v' hv'
              cases hv'
              exact he
            · exact .inl ⟨hp, hk⟩

/-! ### Insertion -/

/-- The tree `t'` has the facts `S` for its keys, and is like `t` otherwise. -/
structure WithVals (t : Tree κ ν) (S : Set (RtVal κ ν)) (t' : Tree κ ν) : Prop where
  nodup : t'.rtval.Nodup
  vals : {r | r ∈ t'.rtval} = S
  rt : t'.rt = t.rt
  next : t'.next = t.next

variable {l : List (κ × List ν)}

theorem withVals_retract (h : t.rtval.Nodup) :
    WithVals t {r | r ∈ t.rtval ∧ ¬(r.id = ptr ∧ (r.key, r.vals) ∈ l)}
      (l.foldl (fun t p => t.retractVal ⟨ptr, p.1, p.2⟩) t) := by
  induction l generalizing t with
  | nil => exact ⟨h, by simp, rfl, rfl⟩
  | cons p l ih =>
    obtain ⟨k, vs⟩ := p
    have hrest := ih (t := t.retractVal ⟨ptr, k, vs⟩) (h.erase _)
    refine ⟨hrest.nodup, hrest.vals.trans ?_, hrest.rt, hrest.next⟩
    have hmem : ∀ r, r ∈ (t.retractVal ⟨ptr, k, vs⟩).rtval ↔ r ≠ ⟨ptr, k, vs⟩ ∧ r ∈ t.rtval :=
      fun r => h.mem_erase_iff
    ext ⟨rid, rkey, rvals⟩
    simp only [mem_ofPred_eq, hmem, ne_eq, RtVal.mk.injEq, List.mem_cons, Prod.mk.injEq]
    tauto

theorem withVals_assert (h : t.rtval.Nodup) :
    WithVals t {r | r ∈ t.rtval ∨ r.id = ptr ∧ (r.key, r.vals) ∈ l}
      (l.foldl (fun t p => t.assertVal ⟨ptr, p.1, p.2⟩) t) := by
  induction l generalizing t with
  | nil => exact ⟨h, by simp, rfl, rfl⟩
  | cons p l ih =>
    obtain ⟨k, vs⟩ := p
    have hrest := ih (t := t.assertVal ⟨ptr, k, vs⟩) h.insert
    refine ⟨hrest.nodup, hrest.vals.trans ?_, hrest.rt, hrest.next⟩
    have hmem : ∀ r, r ∈ (t.assertVal ⟨ptr, k, vs⟩).rtval ↔ r = ⟨ptr, k, vs⟩ ∨ r ∈ t.rtval :=
      fun r => List.mem_insert_iff
    ext ⟨rid, rkey, rvals⟩
    simp only [mem_ofPred_eq, hmem, RtVal.mk.injEq, List.mem_cons, Prod.mk.injEq]
    tauto

omit [LinearOrder ν] in
/-- The interval of a leaf is ready to be divided, when some of its keys have been moved. -/
theorem pending_leaf (t2 : Tree κ ν) {mid : κ} (h : Shape a b t.facts level) (hn : t.rt.Nodup)
    (hnum : Numbered t.facts t.next) (hf : f ∈ t.facts) (hleaf : f.leaf = true)
    (hmid : mid ∈ Ioo f.node.lo f.node.hi) (hpath : Path t.facts path f.id) (hrt : t2.rt = t.rt)
    (hnext : t2.next = t.next + 1) :
    Divided t.facts f mid (.num (t.next + 1))
        (divideNode f f.node.lo mid (.num (t.next + 1)) t2).facts ∧
      ∃ level', Pending a b t2 f f.node.lo mid (.num (t.next + 1)) path level' := by
  have hn2 : t2.rt.Nodup := hrt ▸ hn
  have hfacts : t2.facts = t.facts := by rw [Tree.facts, hrt, Tree.facts]
  -- a leaf has no nodes below it
  have hbelow : ∀ g ∈ t.facts, g.retarget f.node.ptr (.num (t.next + 1)) mid = g := by
    intro g hg
    rw [Rt.retarget, if_neg]
    rintro ⟨hid, -⟩
    have hinner := h.inner_of_id hf hg hid
    rw [hleaf] at hinner
    cases hinner
  have hdivided : Divided t.facts f mid (.num (t.next + 1))
      (divideNode f f.node.lo mid (.num (t.next + 1)) t2).facts := by
    refine ⟨hf, hmid, fun hinner => ?_, hnum.unused, fun g => ?_⟩
    · rw [hleaf] at hinner
      cases hinner
    · rw [(withRt_divideNode _ _ _ _ hn2).facts, hfacts]
      refine or_congr_left ?_
      constructor
      · rintro ⟨hne, hg⟩
        exact ⟨g, hg, hne, hbelow g hg⟩
      · rintro ⟨g0, hg0, hne, rfl⟩
        rw [hbelow g0 hg0]
        exact ⟨hne, hg0⟩
  refine ⟨hdivided, _, hn2, hfacts ▸ hf, fun g hg hid hle hge => ?_, rfl, hmid.2.le,
    hdivided.shape h, fun g hg i hi => ?_, ?_⟩
  · rw [hfacts] at hg
    obtain ⟨c, d, ht⟩ := h.exists_tiles hf
    exact h.eq_of_kids hg hf
      (ht.unique_of_le (mem_kids hf) (hid ▸ mem_kids hg) hmid.2 hmid.1 hle hge)
  · rw [hnext]
    rcases (hdivided.mem g).mp hg with ⟨g0, hg0, -, rfl⟩ | rfl | rfl
    · exact (hnum g0 hg0 i hi).trans (Nat.le_succ _)
    · exact (Ptr.num.inj hi).ge
    · exact (hnum f hf i hi).trans (Nat.le_succ _)
  · refine hpath.divided h hdivided fun hinner => ?_
    rw [hleaf] at hinner
    cases hinner

omit [LinearOrder ν] in
/-- The keys of a leaf that are below `mid` are moved to a new one. -/
theorem stored_moved {R R' : Set (Rt κ)} {mid : κ} {l l' : List (RtVal κ ν)}
    (h : Shape a b R level) (hs : Stored (leafNodes R) l) (hd : Divided R f mid m R')
    (hleaf : f.leaf = true) (hn : l'.Nodup)
    (hmem : ∀ r, r ∈ l' ↔ (r ∈ l ∧ ¬(r.id = f.node.ptr ∧ r.key < mid)) ∨
      r.id = m ∧ (⟨f.node.ptr, r.key, r.vals⟩ : RtVal κ ν) ∈ l ∧ r.key < mid) :
    Stored (leafNodes R') l' := by
  have hid : ∀ r ∈ l, r.id ≠ m := by
    intro r hr he
    obtain ⟨p, hp, hptr, -⟩ := hs.inLeaf r hr
    obtain ⟨g, hg, -, rfl⟩ := mem_leafNodes.mp hp
    exact hd.unused.2 g hg (hptr.trans he)
  have hleaves := hd.mem_leafNodes_leaf h hleaf
  have hown : ∀ r ∈ l, r.id = f.node.ptr → r.key ∈ f.interval := by
    intro r hr he
    obtain ⟨p, hp, hptr, hk⟩ := hs.inLeaf r hr
    obtain ⟨g, hg, -, rfl⟩ := mem_leafNodes.mp hp
    rw [← h.inj g hg f hd.fact (hptr.trans he)]
    exact hk
  refine ⟨hn, fun r hr r' hr' he hk => ?_, fun r hr => ?_, fun r hr => ?_⟩
  · rcases (hmem r).mp hr with ⟨hr, -⟩ | ⟨hm, hr, -⟩ <;>
      rcases (hmem r').mp hr' with ⟨hr', -⟩ | ⟨hm', hr', -⟩
    · exact hs.unique r hr r' hr' he hk
    · exact absurd (he.trans hm') (hid r hr)
    · exact absurd (he.symm.trans hm) (hid r' hr')
    · have heq := congrArg RtVal.vals (hs.unique _ hr _ hr' rfl hk)
      cases r
      cases r'
      cases he
      cases hk
      cases heq
      rfl
  · rcases (hmem r).mp hr with ⟨hr, -⟩ | ⟨-, hr, -⟩
    · exact hs.vals_nodup r hr
    · have hvals := hs.vals_nodup ⟨f.node.ptr, r.key, r.vals⟩ hr
      exact hvals
  · rcases (hmem r).mp hr with ⟨hr, hnot⟩ | ⟨hm, hr, hlt⟩
    · obtain ⟨p, hp, hptr, hk⟩ := hs.inLeaf r hr
      by_cases hpf : p = f.node
      · rw [hpf] at hptr hk
        refine ⟨⟨mid, f.node.hi, f.node.ptr⟩, (hleaves _).mpr (.inr (.inr rfl)), hptr, ?_, hk.2⟩
        exact not_lt.mp fun hlt => hnot ⟨hptr.symm, hlt⟩
      · exact ⟨p, (hleaves p).mpr (.inl ⟨hp, hpf⟩), hptr, hk⟩
    · refine ⟨⟨f.node.lo, mid, m⟩, (hleaves _).mpr (.inr (.inl rfl)), hm.symm, ?_, hlt⟩
      exact (hown _ hr rfl).1

/-- A leaf is split. -/
theorem splitLeaves_ok (h : Valid a b t) (hf : f ∈ t.facts) (hleaf : f.leaf = true)
    (hpath : Path t.facts path f.id)
    (hlen : ¬((e.values t f.node.ptr).map fun r => (r.key, r.vals)).length ≤ maxNodeSize) :
    ∃ t', splitLeaves e f.node.ptr ((e.values t f.node.ptr).map fun r => (r.key, r.vals))
        ((e.values t f.node.ptr).map fun r => (r.key, r.vals)).length f.node.lo f.id path t =
          .ok t' ∧
      Valid a b t' ∧ pairs t' = pairs t ∧ t.next ≤ t'.next := by
  obtain ⟨level, hshape⟩ := h.shape
  have hmem : ∀ p, p ∈ (e.values t f.node.ptr).map (fun r => (r.key, r.vals)) ↔
      (⟨f.node.ptr, p.1, p.2⟩ : RtVal κ ν) ∈ t.rtval := by
    intro p
    rw [List.mem_map]
    constructor
    · rintro ⟨r, hr, rfl⟩
      obtain ⟨hr, hid⟩ := (mem_values e).mp hr
      exact hid ▸ hr
    · intro hr
      exact ⟨_, (mem_values e).mpr ⟨hr, rfl⟩, rfl⟩
  have hinj : ∀ p ∈ (e.values t f.node.ptr).map (fun r => (r.key, r.vals)),
      ∀ q ∈ (e.values t f.node.ptr).map (fun r => (r.key, r.vals)), p.1 = q.1 → p = q := by
    intro p hp q hq he
    have hr := h.stored.unique _ ((hmem p).mp hp) _ ((hmem q).mp hq) rfl he
    exact Prod.ext he (congrArg RtVal.vals hr)
  have hnodup : ((e.values t f.node.ptr).map fun r => (r.key, r.vals)).Nodup := by
    refine List.Nodup.map_on (fun r hr r' hr' he => ?_)
      (((e.perm_rtval t.rtval).nodup_iff.mpr h.stored.nodup).filter _)
    obtain ⟨hr, hid⟩ := (mem_values e).mp hr
    obtain ⟨hr', hid'⟩ := (mem_values e).mp hr'
    exact h.stored.unique r hr r' hr' (hid.trans hid'.symm) (Prod.mk.inj he).1
  have hrank : ∀ x y : κ × List ν, pairRank x ≤ pairRank y → x.1 ≤ y.1 := by
    intro x y hle
    rw [pairRank, pairRank, Prod.Lex.toLex_le_toLex] at hle
    rcases hle with hlt | ⟨he, -⟩
    · exact hlt.le
    · exact he.le
  rw [maxNodeSize] at hlen
  obtain ⟨p, ps, q, qs, -, hsplit, hq, hp, hleast, hlow, -, -⟩ :=
    halves Prod.fst
      (k := ((e.values t f.node.ptr).map fun r => (r.key, r.vals)).length / 2) hnodup hrank hinj
      (by omega) (by omega)
  have hin : ∀ p ∈ (e.values t f.node.ptr).map (fun r => (r.key, r.vals)), p.1 ∈ f.interval := by
    intro p hp
    obtain ⟨x, hx, hptr, hkx⟩ := h.stored.inLeaf _ ((hmem p).mp hp)
    obtain ⟨g, hg, -, rfl⟩ := mem_leafNodes.mp hx
    rw [← hshape.inj g hg f hf hptr]
    exact hkx
  have hmid : q.1 ∈ Ioo f.node.lo f.node.hi :=
    ⟨(hin p hp).1.trans_lt ((hlow p).mp List.mem_cons_self).2, (hin q hq).2⟩
  let t1 := (p :: ps).foldl (fun t p => t.retractVal ⟨f.node.ptr, p.1, p.2⟩) t
  have h1 : WithVals t _ t1 := withVals_retract h.stored.nodup
  let t1' : Tree κ ν := ⟨t1.rt, t1.rtval, t1.next + 1⟩
  let t2 := (p :: ps).foldl (fun t p => t.assertVal ⟨.num (t1.next + 1), p.1, p.2⟩) t1'
  have h2 : WithVals t1' _ t2 := withVals_assert h1.nodup
  obtain ⟨hdivided, level', hpending⟩ := pending_leaf t2 hshape h.nodup h.numbered hf hleaf
    hmid hpath (h2.rt.trans h1.rt) (h2.next.trans (congrArg (· + 1) h1.next))
  obtain ⟨t', hrun, hsame⟩ := updateParent_ok e hpending
  have hfirst : ∀ r : RtVal κ ν, (r.key, r.vals) ∈ p :: ps ↔
      (⟨f.node.ptr, r.key, r.vals⟩ : RtVal κ ν) ∈ t.rtval ∧ r.key < q.1 := by
    intro r
    rw [hlow, hmem]
  have hvals : ∀ r, r ∈ t2.rtval ↔ (r ∈ t.rtval ∧ ¬(r.id = f.node.ptr ∧ r.key < q.1)) ∨
      r.id = .num (t.next + 1) ∧ (⟨f.node.ptr, r.key, r.vals⟩ : RtVal κ ν) ∈ t.rtval ∧
        r.key < q.1 := by
    intro r
    have hr2 : r ∈ t2.rtval ↔
        r ∈ t1.rtval ∨ r.id = .num (t1.next + 1) ∧ (r.key, r.vals) ∈ p :: ps :=
      Set.ext_iff.mp h2.vals r
    have hr1 : r ∈ t1.rtval ↔ r ∈ t.rtval ∧ ¬(r.id = f.node.ptr ∧ (r.key, r.vals) ∈ p :: ps) :=
      Set.ext_iff.mp h1.vals r
    have hnext : t1.next = t.next := h1.next
    rw [hr2, hr1, hfirst, hnext]
    refine or_congr_left (and_congr_right fun hr => not_congr (and_congr_right fun hid => ?_))
    rw [← hid]
    exact and_iff_right hr
  have hnext : t1.next = t.next := h1.next
  have hnext2 : t2.next = t.next + 1 := h2.next.trans (congrArg (· + 1) h1.next)
  refine ⟨t', ?_, ⟨hsame.nodup, hsame.shape, hsame.numbered, ?_⟩, ?_, ?_⟩
  · rw [splitLeaves]
    simp only [hsplit]
    show updateParent e path f.node.lo q.1 f.id (.num (t1.next + 1)) t2 = .ok t'
    rw [hnext]
    exact hrun
  · have hrtval : t'.rtval = t2.rtval := hsame.rtval
    rw [hsame.leaves, hrtval]
    exact stored_moved hshape h.stored hdivided hleaf h2.nodup hvals
  · have hrtval : t'.rtval = t2.rtval := hsame.rtval
    ext ⟨k, v⟩
    constructor
    · rintro ⟨r, hr, hk, hv⟩
      rw [hrtval] at hr
      rcases (hvals r).mp hr with ⟨hr, -⟩ | ⟨-, hr, -⟩
      · exact ⟨r, hr, hk, hv⟩
      · exact ⟨_, hr, hk, hv⟩
    · rintro ⟨r, hr, hk, hv⟩
      by_cases hmoved : r.id = f.node.ptr ∧ r.key < q.1
      · refine ⟨⟨.num (t.next + 1), r.key, r.vals⟩, ?_, hk, hv⟩
        rw [hrtval]
        exact (hvals _).mpr (.inr ⟨rfl, hmoved.1 ▸ hr, hmoved.2⟩)
      · refine ⟨r, ?_, hk, hv⟩
        rw [hrtval]
        exact (hvals r).mpr (.inl ⟨hr, hmoved⟩)
  · have hle : t2.next ≤ t'.next := hsame.next
    omega

theorem addToLeaf_ok (h : Valid a b t) (hf : f ∈ t.facts) (hleaf : f.leaf = true)
    (hkey : key ∈ f.interval) (hpath : Path t.facts path f.id) (val : ν) :
    ∃ t', addToLeaf e f path key val t = .ok t' ∧ Valid a b t' ∧
      pairs t' = insert (key, val) (pairs t) ∧ t.next ≤ t'.next := by
  have hretract := h.pairs_retractall hf hleaf hkey
  rw [addToLeaf]
  cases hfind : (e.values t f.node.ptr).find? fun r => r.key = key with
  | some r =>
    have hr := (mem_values e).mp (List.mem_of_find?_eq_some hfind)
    have hrk := List.find?_some hfind
    rw [decide_eq_true_iff] at hrk
    have honly : ∀ k w, (k, w) ∈ pairs t → k = key → w ∈ r.vals := by
      rintro k w ⟨r', hr', hk, hw⟩ rfl
      have hid := h.id_eq hf hleaf hr' (hk ▸ hkey)
      exact h.stored.unique r' hr' r hr.1 (hid.trans hr.2.symm) (hk.trans hrk.symm) ▸ hw
    by_cases hval : val ∈ r.vals
    · refine ⟨t, if_pos hval, h, (insert_eq_of_mem ?_).symm, le_refl _⟩
      exact ⟨r, hr.1, hrk, hval⟩
    · refine ⟨_, if_neg hval, h.retractall.assertVal (f := f) hf hleaf hkey
        (fun r' hr' hid he => ?_) ?_, ?_, le_refl _⟩
      · exact (mem_retractallVal.mp hr').2 ⟨hid, he⟩
      · exact List.nodup_cons.mpr ⟨hval, h.stored.vals_nodup r hr.1⟩
      · rw [pairs_assertVal, hretract]
        ext ⟨k, w⟩
        constructor
        · rintro (⟨hp, -⟩ | ⟨rfl, hw⟩)
          · exact .inr hp
          · rcases List.mem_cons.mp hw with rfl | hw
            · exact .inl rfl
            · exact .inr ⟨r, hr.1, hrk, hw⟩
        · rintro (he | hp)
          · cases he
            exact .inr ⟨rfl, List.mem_cons_self⟩
          · by_cases hk : k = key
            · exact .inr ⟨hk, List.mem_cons_of_mem _ (honly k w hp hk)⟩
            · exact .inl ⟨hp, hk⟩
  | none =>
    have hnew : ∀ r ∈ t.rtval, r.id = f.node.ptr → r.key ≠ key := by
      intro r hr hid he
      rw [List.find?_eq_none] at hfind
      exact hfind r ((mem_values e).mpr ⟨hr, hid⟩) (decide_eq_true he)
    have hvalid : Valid a b (t.assertVal ⟨f.node.ptr, key, [val]⟩) :=
      h.assertVal hf hleaf hkey hnew (List.nodup_singleton _)
    have hpairs : pairs (t.assertVal ⟨f.node.ptr, key, [val]⟩) = insert (key, val) (pairs t) := by
      rw [pairs_assertVal]
      ext ⟨k, w⟩
      simp only [List.mem_singleton, mem_ofPred_eq, mem_insert_iff, Prod.mk.injEq]
      exact or_comm
    by_cases hlen : ((e.values (t.assertVal ⟨f.node.ptr, key, [val]⟩) f.node.ptr).map
      fun r => (r.key, r.vals)).length ≤ maxNodeSize
    · exact ⟨_, if_pos hlen, hvalid, hpairs, le_refl _⟩
    · obtain ⟨t', hrun, hvalid', hpairs', hnext⟩ := splitLeaves_ok e hvalid hf hleaf hpath hlen
      exact ⟨t', (if_neg hlen).trans hrun, hvalid', hpairs'.trans hpairs, hnext⟩

/-! ### Operations on valid trees -/

theorem Valid.add (h : Valid a b t) (hkey : key ∈ Ico a b) (val : ν) :
    ∃ t' N, (∀ n ≥ N, addToRangeTree e n .root [] key val t = .ok t') ∧ Valid a b t' ∧
      pairs t' = insert (key, val) (pairs t) ∧ t.next ≤ t'.next := by
  obtain ⟨level, hshape⟩ := h.shape
  obtain ⟨f, path, hf, hleaf, hkf, hpath, hrun⟩ :=
    addToRangeTree_eq e hshape hshape.root hkey .root val
  obtain ⟨t', hrun', hafter⟩ := addToLeaf_ok e h hf hleaf hkf hpath val
  exact ⟨t', level .root + 1, fun n hn => (hrun n hn).trans hrun', hafter⟩

theorem Valid.delete (h : Valid a b t) (hkey : key ∈ Ico a b) (val : Option ν) :
    ∃ t' N, (∀ n ≥ N, deleteFromRangeTree e n .root key val t = .ok t') ∧ Valid a b t' ∧
      pairs t' = pairs t \ deleted key val ∧ t'.next = t.next := by
  obtain ⟨level, hshape⟩ := h.shape
  obtain ⟨f, hf, hleaf, hkf, hrun⟩ :=
    deleteFromRangeTree_eq e hshape hshape.root hkey val
  exact ⟨_, level .root + 1, hrun, deleteFromLeaf_ok e h hf hleaf hkf⟩

end XSBEngine.Ranges
