import XSBEngine.CallGraph.Invalidation

/-!
# Propagation of no change

`propagate_no_change`, `XSB/emu/call_graph_xsb.c:476–516`.
-/

namespace XSBEngine.CallGraph

open Function List

namespace IdgFlags

/-- `falsecount--`. -/
def decrFalsecount (f : IdgFlags) (cn : Nat) : IdgFlags := f.setFalsecount cn (f.falsecount cn - 1)

/-- A node is valid again. -/
def restore (f : IdgFlags) (cn : Nat) : IdgFlags :=
  { f.setDeleted cn false with recomputable := update f.recomputable cn false }

variable (f : IdgFlags) (cn x : Nat)

@[simp] theorem deleted_decrFalsecount : (f.decrFalsecount cn).deleted = f.deleted := rfl

@[simp] theorem falsecount_restore : (f.restore cn).falsecount = f.falsecount := rfl

theorem deleted_restore : (f.restore cn).deleted x = if x = cn then false else f.deleted x :=
  f.deleted_setDeleted ..

theorem falsecount_decrFalsecount : (f.decrFalsecount cn).falsecount x =
    if x = cn then f.falsecount cn - 1 else f.falsecount x := by
  rw [decrFalsecount, falsecount_setFalsecount,
    Nat.mod_eq_of_lt ((Nat.sub_le ..).trans_lt (f.falsecount_lt cn))]

theorem falsecount_decrFalsecount_le : (f.decrFalsecount cn).falsecount x ≤ f.falsecount x := by
  rw [falsecount_decrFalsecount]
  split
  next hx =>
    rw [hx]
    exact Nat.sub_le ..
  next => exact Nat.le_refl _

/-- The sum of the counts. -/
def total (nodes : Finset Nat) : Nat := ∑ x ∈ nodes, f.falsecount x

theorem total_decrFalsecount {nodes : Finset Nat} (hcn : cn ∈ nodes) (hpos : 0 < f.falsecount cn) :
    (f.decrFalsecount cn).total nodes < f.total nodes := by
  apply Finset.sum_lt_sum
  · exact fun x _ => f.falsecount_decrFalsecount_le cn x
  · refine ⟨cn, hcn, ?_⟩
    rw [falsecount_decrFalsecount, if_pos rfl]
    omega

end IdgFlags

namespace Idg

/-- `propagate_no_change`. The first argument bounds the depth of the recursion. -/
def propagateNoChange (v : Idg) : Nat → IdgFlags → Nat → Option IdgFlags
  | 0, _, _ => none
  | fuel + 1, f, c =>
    (v.hasht c).foldlM (fun f cn =>
      if 0 < f.falsecount cn then
        let f := f.decrFalsecount cn
        if f.falsecount cn = 0 then v.propagateNoChange fuel (f.restore cn) cn else some f
      else some f) f

/-- One target in the loop of `propagate_no_change`. -/
def propagateTo (v : Idg) (fuel : Nat) (f : IdgFlags) (cn : Nat) : Option IdgFlags :=
  if 0 < f.falsecount cn then
    if (f.decrFalsecount cn).falsecount cn = 0 then
      v.propagateNoChange fuel ((f.decrFalsecount cn).restore cn) cn
    else some (f.decrFalsecount cn)
  else some f

theorem propagateNoChange_succ (v : Idg) (fuel : Nat) (f : IdgFlags) (c : Nat) :
    v.propagateNoChange (fuel + 1) f c = (v.hasht c).foldlM (v.propagateTo fuel) f := rfl

variable {v : Idg} {nodes : Finset Nat} {f f' : IdgFlags} {b c fuel : Nat} {l : List Nat}

/-- The propagation ends: a node is gone into after a count has gone down. -/
theorem propagateNoChange_terminates (hclosed : ∀ a ∈ nodes, ∀ b ∈ v.hasht a, b ∈ nodes)
    (hc : ∀ b ∈ v.hasht c, b ∈ nodes) (hfuel : f.total nodes < fuel) :
    ∃ f', v.propagateNoChange fuel f c = some f' ∧ f'.total nodes ≤ f.total nodes := by
  induction fuel generalizing f c with
  | zero => exact absurd hfuel (Nat.not_lt_zero _)
  | succ fuel ih =>
    rw [propagateNoChange_succ]
    generalize v.hasht c = l at hc
    have hle : f.total nodes ≤ fuel := by omega
    clear hfuel
    induction l generalizing f with
    | nil => exact ⟨f, rfl, Nat.le_refl _⟩
    | cons b l ihl =>
      have hb := hc b mem_cons_self
      have hstep : ∃ f1, v.propagateTo fuel f b = some f1 ∧ f1.total nodes ≤ f.total nodes := by
        rw [propagateTo]
        split
        next hpos =>
          have hlt := f.total_decrFalsecount b hb hpos
          split
          next =>
            obtain ⟨f1, hrun, hle1⟩ := ih (f := (f.decrFalsecount b).restore b) (hclosed b hb)
              (hlt.trans_le hle)
            exact ⟨f1, hrun, hle1.trans hlt.le⟩
          next => exact ⟨_, rfl, hlt.le⟩
        next => exact ⟨f, rfl, Nat.le_refl _⟩
      obtain ⟨f1, hrun, hle1⟩ := hstep
      obtain ⟨f', hrun', hle'⟩ := ihl (fun x hx => hc x (mem_cons_of_mem b hx))
        (hle1.trans hle)
      refine ⟨f', ?_, hle'.trans hle1⟩
      rw [foldlM_cons, hrun]
      exact hrun'

end Idg

/-! ### What the counts count -/

/-- The count of a node is a base and the number of its edges from nodes that are not valid, and
it is invalid exactly if the count is positive. Some other nodes always keep a part of their base,
and the other targets of edges have no count. -/
structure Counted (v : Idg) (nodes kept : Finset Nat) (base : Nat → Nat) (f : IdgFlags) : Prop where
  count : ∀ x, x ∈ nodes ∨ x ∈ kept →
    f.falsecount x = base x + (v.inedgesFrom nodes f.deleted x).card
  valid : ∀ x ∈ nodes, v.idgDynLeaf x = false → (f.deleted x = true ↔ 0 < f.falsecount x)
  leaf : ∀ x ∈ nodes, v.idgDynLeaf x = true → f.deleted x = false
  keeps : ∀ x ∈ kept, x ∉ nodes ∧ 0 < base x
  outside : ∀ a, ∀ x ∈ v.hasht a, x ∉ nodes → x ∉ kept → f.falsecount x = 0

namespace Counted

variable {v : Idg} {nodes kept : Finset Nat} {base : Nat → Nat} {f f' : IdgFlags} {b c fuel : Nat}
  {l : List Nat}

/-- The base matters at the nodes only. -/
theorem congr {base' : Nat → Nat} (h : Counted v nodes kept base f)
    (heq : ∀ x, x ∈ nodes ∨ x ∈ kept → base' x = base x) : Counted v nodes kept base' f where
  count x hx := by rw [heq x hx, h.count x hx]
  valid := h.valid
  leaf := h.leaf
  keeps x hx := by
    rw [heq x (Or.inr hx)]
    exact h.keeps x hx
  outside := h.outside

/-- A count that goes down but stays positive. -/
theorem decr (h : Counted v nodes kept base f) (hbase : 0 < base b) (hkept : b ∈ kept → 1 < base b)
    (hpos : (f.decrFalsecount b).falsecount b ≠ 0) :
    Counted v nodes kept (update base b (base b - 1)) (f.decrFalsecount b) := by
  rw [IdgFlags.falsecount_decrFalsecount, if_pos rfl] at hpos
  constructor
  case count =>
    intro x hx
    rw [IdgFlags.falsecount_decrFalsecount, IdgFlags.deleted_decrFalsecount]
    by_cases hxb : x = b
    · have hcount := h.count b (hxb ▸ hx)
      rw [if_pos hxb, hxb, update_self]
      omega
    · rw [if_neg hxb, update_of_ne hxb]
      exact h.count x hx
  case valid =>
    intro x hx hleaf
    rw [IdgFlags.deleted_decrFalsecount, h.valid x hx hleaf, IdgFlags.falsecount_decrFalsecount]
    split
    next hxb =>
      rw [hxb]
      omega
    next => rfl
  case leaf => exact h.leaf
  case keeps =>
    intro x hx
    obtain ⟨hxn, hpos'⟩ := h.keeps x hx
    refine ⟨hxn, ?_⟩
    by_cases hxb : x = b
    · have hb := hkept (hxb ▸ hx)
      rw [hxb, update_self]
      omega
    · rw [update_of_ne hxb]
      exact hpos'
  case outside =>
    intro a x hax hx hxk
    exact Nat.le_zero.mp ((f.falsecount_decrFalsecount_le b x).trans (h.outside a x hax hx hxk).le)

/-- A count that goes down to zero. The edges of the node no longer come from an invalid one. -/
theorem restore (h : Counted v nodes kept base f) (hb : b ∈ nodes) (hleaf : v.idgDynLeaf b = false)
    (hbase : 0 < base b) (hzero : (f.decrFalsecount b).falsecount b = 0) :
    Counted v nodes kept
      (fun x => update base b (base b - 1) x + if x ∈ v.hasht b then 1 else 0)
      ((f.decrFalsecount b).restore b) := by
  rw [IdgFlags.falsecount_decrFalsecount, if_pos rfl] at hzero
  have hcount := h.count b (Or.inl hb)
  have hdeleted : f.deleted b = true := (h.valid b hb hleaf).mpr (by omega)
  have hinedges : ∀ x, v.inedgesFrom nodes ((f.decrFalsecount b).restore b).deleted x =
      (v.inedgesFrom nodes f.deleted x).erase b := by
    intro x
    ext a
    simp only [Idg.inedgesFrom, Finset.mem_filter, Finset.mem_erase, IdgFlags.deleted_restore,
      IdgFlags.deleted_decrFalsecount]
    by_cases hab : a = b
    · simp [hab]
    · simp [hab]
  have hloop : b ∉ v.hasht b := by
    intro hmem
    have hsource : b ∈ v.inedgesFrom nodes f.deleted b :=
      Finset.mem_filter.mpr ⟨hb, hdeleted, hmem⟩
    have hcard := Finset.card_pos.mpr ⟨b, hsource⟩
    omega
  constructor
  case count =>
    intro x hx
    rw [hinedges, IdgFlags.falsecount_restore, IdgFlags.falsecount_decrFalsecount]
    by_cases hmem : x ∈ v.hasht b
    · have hxb : x ≠ b := fun heq => hloop (heq ▸ hmem)
      have hsource : b ∈ v.inedgesFrom nodes f.deleted x :=
        Finset.mem_filter.mpr ⟨hb, hdeleted, hmem⟩
      rw [if_neg hxb, if_pos hmem, update_of_ne hxb, Finset.card_erase_of_mem hsource,
        h.count x hx]
      have hcard := Finset.card_pos.mpr ⟨b, hsource⟩
      omega
    · rw [if_neg hmem, Finset.erase_eq_of_notMem fun hs => hmem (Finset.mem_filter.mp hs).2.2]
      by_cases hxb : x = b
      · rw [if_pos hxb, hxb, update_self]
        omega
      · rw [if_neg hxb, update_of_ne hxb]
        exact h.count x hx
  case valid =>
    intro x hx hxleaf
    rw [IdgFlags.deleted_restore, IdgFlags.falsecount_restore, IdgFlags.falsecount_decrFalsecount]
    by_cases hxb : x = b
    · rw [if_pos hxb, if_pos hxb, hzero]
      simp
    · rw [if_neg hxb, if_neg hxb]
      exact h.valid x hx hxleaf
  case leaf =>
    intro x hx hxleaf
    rw [IdgFlags.deleted_restore]
    split
    next => rfl
    next => exact h.leaf x hx hxleaf
  case keeps =>
    intro x hx
    obtain ⟨hxn, hpos⟩ := h.keeps x hx
    rw [update_of_ne (ne_of_mem_of_not_mem hb hxn).symm]
    exact ⟨hxn, Nat.add_pos_left hpos _⟩
  case outside =>
    intro a x hax hx hxk
    exact Nat.le_zero.mp ((f.falsecount_decrFalsecount_le b x).trans (h.outside a x hax hx hxk).le)

end Counted

/-- Some marks go, and the counts go down. -/
structure Retracts (nodes : Finset Nat) (f f' : IdgFlags) : Prop where
  deleted : ∀ x, f'.deleted x = true → f.deleted x = true
  outside : ∀ x, x ∉ nodes → f'.deleted x = f.deleted x
  falsecount : ∀ x, f'.falsecount x ≤ f.falsecount x

namespace Retracts

variable {nodes : Finset Nat} {f f' f'' : IdgFlags} {b : Nat}

theorem refl (f : IdgFlags) : Retracts nodes f f :=
  ⟨fun _ hx => hx, fun _ _ => rfl, fun _ => Nat.le_refl _⟩

theorem trans (h : Retracts nodes f f') (h' : Retracts nodes f' f'') : Retracts nodes f f'' where
  deleted x hx := h.deleted x (h'.deleted x hx)
  outside x hx := (h'.outside x hx).trans (h.outside x hx)
  falsecount x := (h'.falsecount x).trans (h.falsecount x)

theorem decr (f : IdgFlags) (b : Nat) : Retracts nodes f (f.decrFalsecount b) :=
  ⟨fun _ hx => hx, fun _ _ => rfl, f.falsecount_decrFalsecount_le b⟩

theorem restore (f : IdgFlags) (hb : b ∈ nodes) :
    Retracts nodes f ((f.decrFalsecount b).restore b) where
  outside x hx := by
    rw [IdgFlags.deleted_restore, if_neg (ne_of_mem_of_not_mem hb hx).symm]
    rfl
  deleted x hx := by
    rw [IdgFlags.deleted_restore] at hx
    split at hx
    next => cases hx
    next => exact hx
  falsecount := f.falsecount_decrFalsecount_le b

end Retracts

namespace Counted

variable {v : Idg} {nodes kept : Finset Nat} {base : Nat → Nat} {f f' : IdgFlags} {b c fuel : Nat}
  {l : List Nat}

/-- The targets of a list of which each has an edge that counts in the base, or no count. -/
structure Reports (v : Idg) (kept : Finset Nat) (base : Nat → Nat) (f : IdgFlags) (l : List Nat) :
    Prop where
  nodup : l.Nodup
  targets : ∀ b ∈ l, ∃ a, b ∈ v.hasht a
  interior : ∀ b ∈ l, v.idgDynLeaf b = false
  counts : ∀ b ∈ l, 0 < base b ∧ (b ∈ kept → 1 < base b) ∨ f.falsecount b = 0

/-- The propagation from a node takes its edges out of the base. -/
theorem propagate (h : Counted v nodes kept base f) (hnodup : ∀ a ∈ nodes, (v.hasht a).Nodup)
    (hinterior : ∀ a ∈ nodes, ∀ b ∈ v.hasht a, v.idgDynLeaf b = false)
    (hl : Reports v kept base f (v.hasht c)) (hrun : v.propagateNoChange fuel f c = some f') :
    Counted v nodes kept (fun x => base x - if x ∈ v.hasht c then 1 else 0) f' ∧
      Retracts nodes f f' := by
  induction fuel generalizing f f' c base with
  | zero => cases hrun
  | succ fuel ih =>
    rw [Idg.propagateNoChange_succ] at hrun
    generalize v.hasht c = l at hl hrun
    induction l generalizing f base with
    | nil =>
      cases hrun
      exact ⟨by simpa using h, .refl _⟩
    | cons b l ihl =>
      rw [foldlM_cons] at hrun
      obtain ⟨f1, hstep, hrun⟩ := Option.bind_eq_some_iff.mp hrun
      have hbl := nodup_cons.mp hl.nodup
      -- one target
      have htarget : Counted v nodes kept (update base b (base b - 1)) f1 ∧
          Retracts nodes f f1 := by
        rw [Idg.propagateTo] at hstep
        split at hstep
        next hpos =>
          obtain ⟨hbase, hkept⟩ := (hl.counts b mem_cons_self).resolve_right (by omega)
          split at hstep
          next hzero =>
            have hb : b ∈ nodes := by
              by_contra hb
              rw [IdgFlags.falsecount_decrFalsecount, if_pos rfl] at hzero
              by_cases hbk : b ∈ kept
              · have hcount := h.count b (Or.inr hbk)
                have hlt := hkept hbk
                omega
              · obtain ⟨a, hab⟩ := hl.targets b mem_cons_self
                rw [h.outside a b hab hb hbk] at hpos
                exact absurd hpos (Nat.lt_irrefl 0)
            have hrestore := h.restore hb (hl.interior b mem_cons_self) hbase hzero
            have hreports : Reports v kept
                (fun x => update base b (base b - 1) x + if x ∈ v.hasht b then 1 else 0)
                ((f.decrFalsecount b).restore b) (v.hasht b) := by
              refine ⟨hnodup b hb, fun x hx => ⟨b, hx⟩, hinterior b hb, fun x hx => Or.inl ?_⟩
              rw [if_pos hx]
              refine ⟨Nat.succ_pos _, fun hxk => ?_⟩
              obtain ⟨hxn, hposx⟩ := h.keeps x hxk
              rw [update_of_ne (ne_of_mem_of_not_mem hb hxn).symm]
              omega
            obtain ⟨h1, hretracts⟩ := ih hrestore hreports hstep
            refine ⟨?_, (Retracts.restore f hb).trans hretracts⟩
            convert h1 using 2
            exact (Nat.add_sub_cancel ..).symm
          next hzero =>
            cases hstep
            exact ⟨h.decr hbase hkept hzero, .decr f b⟩
        next hpos =>
          cases hstep
          refine ⟨?_, .refl f⟩
          have hzero : b ∈ nodes ∨ b ∈ kept → base b = 0 := fun hb => by
            have hcount := h.count b hb
            omega
          exact h.congr fun x hx => by
            by_cases hxb : x = b
            · rw [hxb, update_self, hzero (hxb ▸ hx)]
            · rw [update_of_ne hxb]
      obtain ⟨h1, hretracts⟩ := htarget
      have hl1 : Reports v kept (update base b (base b - 1)) f1 l := by
        refine ⟨hbl.2, fun x hx => hl.targets x (mem_cons_of_mem b hx),
          fun x hx => hl.interior x (mem_cons_of_mem b hx), fun x hx => ?_⟩
        rw [update_of_ne (ne_of_mem_of_not_mem hx hbl.1)]
        rcases hl.counts x (mem_cons_of_mem b hx) with hbase | hzero
        · exact Or.inl hbase
        · exact Or.inr (Nat.le_zero.mp ((hretracts.falsecount x).trans hzero.le))
      obtain ⟨h', hretracts'⟩ := ihl h1 hl1 hrun
      refine ⟨?_, hretracts.trans hretracts'⟩
      apply h'.congr
      intro x _
      by_cases hxb : x = b
      · simp [hxb, hbl.1]
      · rw [update_of_ne hxb]
        simp [hxb]

end Counted

end XSBEngine.CallGraph
