import XSBEngine.Interning.Insert

/-!
# Reclamation of records

`reclaim_internstr_recs` moves the records without a mark to the free ones and clears the marks.
-/

namespace XSBEngine.Interning

open Function Library List Option

variable {h h₁ h2 : HcBlockRec} {chains chains₁ chains2 : Nat → List RecPtr}
  {free free₁ free2 l l1 l2 rs rs1 rs2 : List RecPtr} {r x : RecPtr} {i n block place : Nat}
  {p : Option RecPtr}

/-! ### The marks of the free records -/

theorem markFreechain_eq (hl : Linked h.next p l) (hn : l.length ≤ n)
    (hmarked : ∀ x ∈ l, h.marked x = false) :
    HcBlockRec.markFreechain n p h =
      some { h with marked := fun x => decide (x ∈ l) || h.marked x } := by
  induction l generalizing h p n with
  | nil =>
    rw [linked_nil.mp hl]
    cases n <;> simp [HcBlockRec.markFreechain]
  | cons a l ih =>
    have hnodup := nodup_cons.mp hl.nodup
    obtain ⟨rfl, hrest⟩ := linked_cons.mp hl
    obtain ⟨n, rfl⟩ := Nat.exists_eq_succ_of_ne_zero (Nat.ne_of_gt (Nat.zero_lt_of_lt hn))
    have hnext : h.nextField a = some (h.next a) := by
      rw [HcBlockRec.nextField, hmarked a mem_cons_self]
      rfl
    have hmarked' : ∀ x ∈ l, update h.marked a true x = false := by
      intro x hx
      rw [update_of_ne (ne_of_mem_of_not_mem hx hnodup.1)]
      exact hmarked x (mem_cons_of_mem a hx)
    simp only [HcBlockRec.markFreechain, hnext, bind_eq_bind, bind_some]
    rw [ih (h := { h with marked := update h.marked a true }) hrest
      (Nat.le_of_succ_le_succ hn) hmarked']
    congr 2
    funext x
    show (decide (x ∈ l) || update h.marked a true x) = (decide (x ∈ a :: l) || h.marked x)
    rw [update_apply]
    split
    next hxa => simp [hxa]
    next hxa => simp [hxa]

/-! ### A record that becomes free -/

theorem unlinkFrom_eq (l1 : List RecPtr) (hl : Linked h.next p l2) (hn : l2.length ≤ n)
    (hr : r ∈ l2) :
    ∃ done rest, l2 = done ++ r :: rest ∧
      h.unlinkFrom i r n l1.getLast? p = some (h.moveToFree i (l1 ++ done).getLast? r) := by
  induction l2 generalizing p n l1 with
  | nil => exact absurd hr not_mem_nil
  | cons a l2 ih =>
    obtain ⟨rfl, hrest⟩ := linked_cons.mp hl
    obtain ⟨n, rfl⟩ := Nat.exists_eq_succ_of_ne_zero (Nat.ne_of_gt (Nat.zero_lt_of_lt hn))
    rw [HcBlockRec.unlinkFrom]
    split
    next har =>
      subst har
      exact ⟨[], l2, rfl, by rw [append_nil]⟩
    next har =>
      have hr' : r ∈ l2 := (mem_cons.mp hr).resolve_left (Ne.symm har)
      obtain ⟨done, rest, rfl, hrun⟩ := ih (l1 ++ [a]) hrest (Nat.le_of_succ_le_succ hn) hr'
      rw [List.getLast?_concat] at hrun
      refine ⟨a :: done, rest, rfl, ?_⟩
      rw [hrun, append_assoc]
      rfl

/-- The fields `next` of records that are not in the chain do not change. -/
theorem moveToFree_next_of_notMem (hx : x ∉ l) (hxr : x ≠ r) :
    (h.moveToFree i l.getLast? r).next x = h.next x := by
  cases hlast : l.getLast? with
  | none => exact update_of_ne hxr ..
  | some b =>
    have hxb : x ≠ b := fun heq => hx (heq ▸ mem_of_getLast? hlast)
    exact (update_of_ne hxr ..).trans (update_of_ne hxb ..)

theorem moveToFree_next_self : (h.moveToFree i p r).next r = h.freechain := by
  cases p <;> exact update_self ..

theorem moveToFree_hashtab_of_ne {j : Nat} (hj : j ≠ i) :
    (h.moveToFree i p r).hashtab j = h.hashtab j := by
  cases p with
  | none => exact update_of_ne hj ..
  | some b => rfl

section Move

variable (h : HcBlockRec) (i : Nat) (p : Option RecPtr) (r : RecPtr)

theorem moveToFree_base : (h.moveToFree i p r).base = h.base := by
  cases p <;> rfl

theorem moveToFree_freedisp : (h.moveToFree i p r).freedisp = h.freedisp := by
  cases p <;> rfl

theorem moveToFree_freechain : (h.moveToFree i p r).freechain = some r := by
  cases p <;> rfl

theorem moveToFree_termRec : (h.moveToFree i p r).termRec = h.termRec := by
  cases p <;> rfl

theorem moveToFree_marked :
    (h.moveToFree i p r).marked = update h.marked r false := by
  cases p <;> rfl

end Move

/-- The chain without the record. -/
theorem moveToFree_chain (hl : Linked h.next (h.hashtab i) (l1 ++ r :: l2)) :
    Linked (h.moveToFree i l1.getLast? r).next ((h.moveToFree i l1.getLast? r).hashtab i)
      (l1 ++ l2) := by
  have hr : r ∉ l1 ++ l2 := (nodup_cons.mp (nodup_middle.mp hl.nodup)).1
  rcases eq_nil_or_concat l1 with rfl | ⟨l1, b, rfl⟩
  · have hrest := (linked_cons.mp hl).2
    show Linked (update h.next r h.freechain)
      (update h.hashtab i (h.next r) i) l2
    rw [update_self]
    exact hrest.update hr _
  · rw [concat_eq_append] at hl hr ⊢
    rw [List.getLast?_concat]
    rw [append_assoc] at hl hr ⊢
    exact (Linked.unlink hl).update hr _

/-- The record leaves its chain and is the first free one. -/
theorem AreaOK.moveToFree (hok : AreaOK h chains free) (hi : chains i = l1 ++ r :: l2) :
    AreaOK (h.moveToFree i l1.getLast? r) (update chains i (l1 ++ l2)) (r :: free) := by
  have hmem : r ∈ chains i := by
    rw [hi]
    exact mem_append_right _ mem_cons_self
  have hchain := hok.chain i
  rw [hi] at hchain
  have hr : r ∉ l1 ++ l2 := (nodup_cons.mp (nodup_middle.mp hchain.nodup)).1
  have hsub : ∀ x ∈ l1 ++ l2, x ∈ chains i := by
    intro x hx
    rw [hi]
    rcases mem_append.mp hx with hx | hx
    · exact mem_append_left _ hx
    · exact mem_append_right _ (mem_cons_of_mem r hx)
  have hother : ∀ {j}, j ≠ i → ∀ x ∈ chains j, x ∉ chains i := by
    intro j hj x hx hx'
    obtain ⟨c, hc, hcj⟩ := hok.contents j x hx
    obtain ⟨c', hc', hcj'⟩ := hok.contents i x hx'
    obtain rfl := some.inj (hc.symm.trans hc')
    exact hj (hcj.symm.trans hcj')
  have hsub1 : ∀ x ∈ l1, x ∈ chains i := fun x hx => hsub x (mem_append_left _ hx)
  have hmem' : ∀ j x, x ∈ update chains i (l1 ++ l2) j → x ∈ chains j ∧ x ≠ r := by
    intro j x hx
    rw [update_apply] at hx
    split at hx
    next hj => exact ⟨hj ▸ hsub x hx, ne_of_mem_of_not_mem hx hr⟩
    next hj =>
      refine ⟨hx, ?_⟩
      rintro rfl
      exact hother hj x hx hmem
  constructor
  case layout =>
    constructor
    case nodup => rw [moveToFree_base]; exact hok.layout.nodup
    case bound => rw [moveToFree_base]; exact hok.layout.bound
    case first => rw [moveToFree_base, moveToFree_freedisp]; exact hok.layout.first
    case place => rw [moveToFree_freedisp]; exact hok.layout.place
    case used =>
      rw [moveToFree_base, moveToFree_freedisp, moveToFree_termRec]
      exact hok.layout.used
  case chain =>
    intro j
    by_cases hj : j = i
    · subst hj
      rw [update_self]
      exact moveToFree_chain hchain
    · rw [update_of_ne hj, moveToFree_hashtab_of_ne hj]
      apply (hok.chain j).congr
      intro x hx
      have hxr : x ≠ r := fun heq => hother hj x hx (heq ▸ hmem)
      rw [moveToFree_next_of_notMem (fun hx' => hother hj x hx (hsub1 x hx')) hxr]
  case freeChain =>
    unfold HcBlockRec.FreeChain
    rw [moveToFree_freechain]
    refine linked_cons.mpr ⟨rfl, ?_⟩
    rw [moveToFree_next_self]
    apply Linked.congr hok.freeChain
    intro x hx
    have hxr : x ≠ r := fun heq => hok.disjoint i r hmem (heq ▸ hx)
    rw [moveToFree_next_of_notMem (fun hx' => hok.disjoint i x (hsub1 x hx') hx) hxr]
  case contents =>
    intro j x hx
    rw [moveToFree_termRec]
    exact hok.contents j x (hmem' j x hx).1
  case distinct =>
    intro j
    rw [moveToFree_termRec, update_apply]
    split
    next =>
      have hdistinct := hok.distinct i
      rw [hi] at hdistinct
      have hsublist : (l1 ++ l2).Sublist (l1 ++ r :: l2) :=
        (List.Sublist.refl l1).append (sublist_cons_self r l2)
      exact hdistinct.sublist (hsublist.map h.termRec)
    next => exact hok.distinct j
  case disjoint =>
    intro j x hx hxf
    obtain ⟨hxj, hxr⟩ := hmem' j x hx
    rcases mem_cons.mp hxf with heq | hxf
    · exact hxr heq
    · exact hok.disjoint j x hxj hxf
  case used =>
    intro x
    rw [moveToFree_termRec, hok.used x, mem_cons]
    constructor
    · rintro (hx | ⟨j, hx⟩)
      · exact Or.inl (Or.inr hx)
      · by_cases hxr : x = r
        · exact Or.inl (Or.inl hxr)
        · refine Or.inr ⟨j, ?_⟩
          rw [update_apply]
          split
          next hj =>
            rw [hj, hi] at hx
            rcases mem_append.mp hx with hx | hx
            · exact mem_append_left _ hx
            · exact mem_append_right _ ((mem_cons.mp hx).resolve_left hxr)
          next => exact hx
    · rintro ((rfl | hx) | ⟨j, hx⟩)
      · exact Or.inr ⟨i, hmem⟩
      · exact Or.inl hx
      · exact Or.inr ⟨j, (hmem' j x hx).1⟩

/-! ### The sweep -/

/-- What the sweep of some records does: those without a mark move from the chains to the free
ones, and the marks of all of them are cleared. -/
structure SweepSpec (h h₁ : HcBlockRec) (chains chains₁ : Nat → List RecPtr)
    (free free₁ rs : List RecPtr) : Prop where
  ok : AreaOK h₁ chains₁ free₁
  chains : ∀ x, (∃ j, x ∈ chains₁ j) ↔ (∃ j, x ∈ chains j) ∧ ¬ (x ∈ rs ∧ h.marked x = false)
  free : ∀ x, x ∈ free₁ ↔ x ∈ free ∨ (x ∈ rs ∧ h.marked x = false)
  cleared : ∀ x ∈ rs, h₁.marked x = false
  marked : ∀ x, x ∉ rs → h₁.marked x = h.marked x
  termRec : h₁.termRec = h.termRec
  base : h₁.base = h.base

/-- Records that can be swept: the free ones among them have a mark. -/
def Sweepable (h : HcBlockRec) (free rs : List RecPtr) : Prop :=
  ∀ x ∈ rs, (h.termRec x).isSome ∧ (h.marked x = false → x ∉ free)

theorem SweepSpec.refl (hok : AreaOK h chains free) : SweepSpec h h chains chains free free [] where
  ok := hok
  chains x := by simp
  free x := by simp
  cleared x hx := absurd hx not_mem_nil
  marked _ _ := rfl
  termRec := rfl
  base := rfl

theorem SweepSpec.trans (h12 : SweepSpec h h₁ chains chains₁ free free₁ rs1)
    (h23 : SweepSpec h₁ h2 chains₁ chains2 free₁ free2 rs2)
    (hdisjoint : ∀ x ∈ rs1, x ∉ rs2) :
    SweepSpec h h2 chains chains2 free free2 (rs1 ++ rs2) where
  ok := h23.ok
  chains x := by
    rw [h23.chains, h12.chains, mem_append]
    by_cases hx : x ∈ rs1
    · simp [hx, hdisjoint x hx]
    · simp [hx, h12.marked x hx]
  free x := by
    rw [h23.free, h12.free, mem_append]
    by_cases hx : x ∈ rs1
    · simp [hx, hdisjoint x hx]
    · simp [hx, h12.marked x hx]
  cleared x hx := by
    rcases mem_append.mp hx with hx | hx
    · rw [h23.marked x (hdisjoint x hx), h12.cleared x hx]
    · exact h23.cleared x hx
  marked x hx := by
    rw [mem_append, not_or] at hx
    rw [h23.marked x hx.2, h12.marked x hx.1]
  termRec := h23.termRec.trans h12.termRec
  base := h23.base.trans h12.base

/-- What is still to be swept can be swept. -/
theorem Sweepable.next (hs : Sweepable h free rs2)
    (h12 : SweepSpec h h₁ chains chains₁ free free₁ rs1) (hdisjoint : ∀ x ∈ rs1, x ∉ rs2) :
    Sweepable h₁ free₁ rs2 := by
  intro x hx
  obtain ⟨hused, hfree⟩ := hs x hx
  have hx1 : x ∉ rs1 := fun hx1 => hdisjoint x hx1 hx
  rw [h12.termRec, h12.marked x hx1]
  refine ⟨hused, fun hm hxf => ?_⟩
  rcases (h12.free x).mp hxf with hxf | ⟨hxr, -⟩
  · exact hfree hm hxf
  · exact hx1 hxr

/-- The invariant does not depend on the marks. -/
theorem AreaOK.setMarked (hok : AreaOK h chains free) (m : RecPtr → Bool) :
    AreaOK { h with marked := m } chains free where
  layout := ⟨hok.layout.nodup, hok.layout.bound, hok.layout.first, hok.layout.place,
    hok.layout.used⟩
  chain := hok.chain
  freeChain := hok.freeChain
  contents := hok.contents
  distinct := hok.distinct
  disjoint := hok.disjoint
  used := hok.used

theorem AreaOK.sweepRec (hok : AreaOK h chains free) (hs : Sweepable h free [r]) :
    ∃ h₁ chains₁ free₁, h.sweepRec r = some h₁ ∧
      SweepSpec h h₁ chains chains₁ free free₁ [r] := by
  obtain ⟨hused, hfree⟩ := hs r mem_cons_self
  unfold HcBlockRec.sweepRec HcBlockRec.freeUnmarked
  by_cases hm : h.marked r = true
  · -- a marked record stays
    refine ⟨{ h with marked := update h.marked r false }, chains, free, ?_, ?_⟩
    · rw [if_pos hm]
      rfl
    · constructor
      case ok => exact hok.setMarked _
      case chains =>
        intro x
        have hnot : ¬ (x ∈ [r] ∧ h.marked x = false) := by
          rintro ⟨hx, hxm⟩
          rw [mem_singleton.mp hx, hm] at hxm
          cases hxm
        exact ⟨fun hx => ⟨hx, hnot⟩, And.left⟩
      case free =>
        intro x
        refine ⟨Or.inl, ?_⟩
        rintro (hx | ⟨hx, hxm⟩)
        · exact hx
        · rw [mem_singleton.mp hx, hm] at hxm
          cases hxm
      case cleared =>
        intro x hx
        rw [mem_singleton.mp hx]
        exact update_self ..
      case marked =>
        intro x hx
        exact update_of_ne (fun heq => hx (mem_singleton.mpr heq)) ..
      case termRec => rfl
      case base => rfl
  · -- a record without a mark is in the chain of its contents
    have hm' : h.marked r = false := Bool.eq_false_iff.mpr hm
    obtain ⟨c, hc⟩ := isSome_iff_exists.mp hused
    have hchain : r ∈ chains (itHash itHashtabSize c) :=
      (hok.mem_chain_iff hc).mp (((hok.used r).mp hused).resolve_left (hfree hm'))
    obtain ⟨l1, l2, hsplit, hrun⟩ := unlinkFrom_eq (i := itHash itHashtabSize c) []
      (hok.chain _) (hok.chain_length_le _) hchain
    have hmove := hok.moveToFree hsplit
    rw [nil_append] at hrun
    refine ⟨{ h.moveToFree (itHash itHashtabSize c) l1.getLast? r with
      marked := update (update h.marked r false) r false },
      update chains (itHash itHashtabSize c) (l1 ++ l2), r :: free, ?_, ?_⟩
    · have hrun' : h.unlinkFrom (itHash itHashtabSize c) r h.numRecs none
          (h.hashtab (itHash itHashtabSize c)) = _ := hrun
      simp only [if_neg hm, hc, getD_some, hrun', map_some, moveToFree_marked]
    · constructor
      case ok => exact hmove.setMarked _
      case chains =>
        intro x
        constructor
        · rintro ⟨j, hx⟩
          have hxr : x ≠ r := by
            rintro rfl
            exact hmove.disjoint j x hx mem_cons_self
          refine ⟨?_, fun hxm => hxr (mem_singleton.mp hxm.1)⟩
          have hused' := (hmove.used x).mpr (Or.inr ⟨j, hx⟩)
          rw [moveToFree_termRec] at hused'
          rcases (hok.used x).mp hused' with hxf | hxc
          · exact absurd (mem_cons_of_mem r hxf) (hmove.disjoint j x hx)
          · exact hxc
        · rintro ⟨⟨j, hx⟩, hnot⟩
          have hxr : x ≠ r := by
            rintro rfl
            exact hnot ⟨mem_cons_self, hm'⟩
          have hused' := (hok.used x).mpr (Or.inr ⟨j, hx⟩)
          rw [← moveToFree_termRec h (itHash itHashtabSize c) l1.getLast? r] at hused'
          rcases (hmove.used x).mp hused' with hxf | hxc
          · rcases mem_cons.mp hxf with heq | hxf
            · exact absurd heq hxr
            · exact absurd hxf (hok.disjoint j x hx)
          · exact hxc
      case free =>
        intro x
        rw [mem_cons, mem_singleton]
        constructor
        · rintro (rfl | hx)
          · exact Or.inr ⟨rfl, hm'⟩
          · exact Or.inl hx
        · rintro (hx | ⟨rfl, -⟩)
          · exact Or.inr hx
          · exact Or.inl rfl
      case cleared =>
        intro x hx
        rw [mem_singleton.mp hx]
        exact update_self ..
      case marked =>
        intro x hx
        have hxr : x ≠ r := fun heq => hx (mem_singleton.mpr heq)
        exact (update_of_ne hxr ..).trans (update_of_ne hxr ..)
      case termRec => exact moveToFree_termRec ..
      case base => exact moveToFree_base ..

/-- The records of a block that are swept. -/
def blockRecs (termRec : RecPtr → Option (List Nat)) (block : Nat) : Nat → Nat → List RecPtr
  | 0, _ => []
  | n + 1, place =>
    if (termRec ⟨block, place⟩).isSome then ⟨block, place⟩ :: blockRecs termRec block n (place + 1)
    else []

theorem blockRecs_bound {t : RecPtr → Option (List Nat)} (hx : x ∈ blockRecs t block n place) :
    x.block = block ∧ place ≤ x.place ∧ (t x).isSome := by
  induction n generalizing place with
  | zero => exact absurd hx not_mem_nil
  | succ n ih =>
    rw [blockRecs] at hx
    split at hx
    next hused =>
      rcases mem_cons.mp hx with rfl | hx
      · exact ⟨rfl, Nat.le_refl _, hused⟩
      · obtain ⟨hblock, hplace, hx⟩ := ih hx
        exact ⟨hblock, by omega, hx⟩
    next => exact absurd hx not_mem_nil

/-- The sweep does not stop before a used record if the ones before it are used. -/
theorem mem_blockRecs {t : RecPtr → Option (List Nat)} (hblock : x.block = block)
    (hplace : place ≤ x.place) (hn : x.place < place + n)
    (hused : ∀ k ≤ x.place, (t ⟨block, k⟩).isSome) : x ∈ blockRecs t block n place := by
  induction n generalizing place with
  | zero => omega
  | succ n ih =>
    rw [blockRecs, if_pos (hused place hplace)]
    by_cases heq : x.place = place
    · exact mem_cons.mpr (Or.inl (RecPtr.ext hblock heq))
    · exact mem_cons_of_mem _ (ih (by omega) (by omega))

theorem AreaOK.sweepBlock (hok : AreaOK h chains free)
    (hs : Sweepable h free (blockRecs h.termRec block n place)) :
    ∃ h₁ chains₁ free₁, HcBlockRec.sweepBlock block n place h = some h₁ ∧
      SweepSpec h h₁ chains chains₁ free free₁ (blockRecs h.termRec block n place) := by
  induction n generalizing h chains free place with
  | zero => exact ⟨h, chains, free, rfl, .refl hok⟩
  | succ n ih =>
    rw [HcBlockRec.sweepBlock, blockRecs]
    rw [blockRecs] at hs
    split
    next hused =>
      rw [if_pos hused] at hs
      obtain ⟨h₁, chains₁, free₁, hrun, hspec⟩ := hok.sweepRec (r := ⟨block, place⟩)
        fun x hx => hs x (mem_singleton.mp hx ▸ mem_cons_self)
      have hdisjoint : ∀ x ∈ [RecPtr.mk block place],
        x ∉ blockRecs h.termRec block n (place + 1) := by
        intro x hx hx'
        rw [mem_singleton.mp hx] at hx'
        exact Nat.not_succ_le_self place (blockRecs_bound hx').2.1
      have hs1 : Sweepable h₁ free₁ (blockRecs h₁.termRec block n (place + 1)) := by
        rw [hspec.termRec]
        exact Sweepable.next (fun x hx => hs x (mem_cons_of_mem _ hx)) hspec hdisjoint
      obtain ⟨h2, chains2, free2, hrun2, hspec2⟩ := ih hspec.ok hs1
      rw [hspec.termRec] at hspec2
      refine ⟨h2, chains2, free2, ?_, hspec.trans hspec2 hdisjoint⟩
      simp only [hrun, bind_eq_bind, bind_some, hrun2]
    next => exact ⟨h, chains, free, rfl, .refl hok⟩

/-- All blocks are swept. -/
theorem AreaOK.sweepBlocks (hok : AreaOK h chains free) {blocks : List Nat} (hnodup : blocks.Nodup)
    (hs : Sweepable h free (blocks.flatMap fun b => blockRecs h.termRec b hcNumInBlock 0)) :
    ∃ h₁ chains₁ free₁,
      blocks.foldlM (fun h b => HcBlockRec.sweepBlock b hcNumInBlock 0 h) h = some h₁ ∧
      SweepSpec h h₁ chains chains₁ free free₁
        (blocks.flatMap fun b => blockRecs h.termRec b hcNumInBlock 0) := by
  induction blocks generalizing h chains free with
  | nil => exact ⟨h, chains, free, rfl, .refl hok⟩
  | cons b blocks ih =>
    obtain ⟨hb, hnodup⟩ := nodup_cons.mp hnodup
    rw [flatMap_cons] at hs ⊢
    obtain ⟨h₁, chains₁, free₁, hrun, hspec⟩ := hok.sweepBlock
      fun x hx => hs x (mem_append_left _ hx)
    have hdisjoint : ∀ x ∈ blockRecs h.termRec b hcNumInBlock 0,
        x ∉ blocks.flatMap fun b => blockRecs h.termRec b hcNumInBlock 0 := by
      intro x hx hx'
      obtain ⟨b', hb', hx'⟩ := mem_flatMap.mp hx'
      have heq := (blockRecs_bound hx).1.symm.trans (blockRecs_bound hx').1
      exact hb (heq ▸ hb')
    have hs1 : Sweepable h₁ free₁
        (blocks.flatMap fun b => blockRecs h₁.termRec b hcNumInBlock 0) := by
      rw [hspec.termRec]
      exact Sweepable.next (fun x hx => hs x (mem_append_right _ hx)) hspec hdisjoint
    obtain ⟨h2, chains2, free2, hrun2, hspec2⟩ := ih hspec.ok hnodup hs1
    rw [hspec.termRec] at hspec2
    refine ⟨h2, chains2, free2, ?_, hspec.trans hspec2 hdisjoint⟩
    rw [foldlM_cons, hrun]
    exact hrun2

/-! ### Reclamation -/

/-- What a reclamation does: the records with a mark stay where they are, the others are free, and
no mark is left. -/
structure ReclaimSpec (h h₁ : HcBlockRec) (marks : RecPtr → Bool) : Prop where
  interned : ∀ x, h₁.Interned x ↔ h.Interned x ∧ marks x = true
  contents : h₁.termRec = h.termRec
  freed : ∃ free free₁, h.FreeChain free ∧ h₁.FreeChain free₁ ∧ free₁.Nodup ∧
    ∀ x, x ∈ free₁ ↔ x ∈ free ∨ (h.Interned x ∧ marks x = false)
  cleared : ∀ x, h₁.marked x = false

/-- The swept records are those in use. -/
theorem Layout.mem_swept (hlayout : Layout h) :
    (x ∈ h.base.flatMap fun b => blockRecs h.termRec b hcNumInBlock 0) ↔ (h.termRec x).isSome := by
  constructor
  · intro hx
    obtain ⟨b, -, hx⟩ := mem_flatMap.mp hx
    exact (blockRecs_bound hx).2.2
  · intro hx
    obtain ⟨hblock, hplace, hlt⟩ := (hlayout.used x).mp hx
    refine mem_flatMap.mpr ⟨x.block, hblock, mem_blockRecs rfl (Nat.zero_le _) (by omega) ?_⟩
    intro k hk
    exact (hlayout.used ⟨x.block, k⟩).mpr
      ⟨hblock, Nat.lt_of_le_of_lt hk hplace, fun heq => Nat.lt_of_le_of_lt hk (hlt heq)⟩

theorem AreaOK.reclaimArea (hok : AreaOK h chains free) (hclear : ∀ x, h.marked x = false)
    {marks : RecPtr → Bool} (hmarks : ∀ x, marks x = true → h.Interned x) :
    ∃ h₁ chains₁ free₁, (h.setMarks marks).reclaimArea = some h₁ ∧ AreaOK h₁ chains₁ free₁ ∧
      ReclaimSpec h h₁ marks := by
  have hset : ∀ x, (h.setMarks marks).marked x = marks x := by
    intro x
    show (h.marked x || marks x) = marks x
    rw [hclear, Bool.false_or]
  have hmarksfree : ∀ x ∈ free, (h.setMarks marks).marked x = false := by
    intro x hx
    rw [hset]
    apply Bool.eq_false_iff.mpr
    intro hm
    obtain ⟨j, hj⟩ := hok.interned_iff.mp (hmarks x hm)
    exact hok.disjoint j x hj hx
  have hmark := markFreechain_eq (h := h.setMarks marks) hok.freeChain hok.free_length_le hmarksfree
  -- The state of the area when the sweep starts.
  let h0 : HcBlockRec :=
    { h.setMarks marks with marked := fun x => decide (x ∈ free) || (h.setMarks marks).marked x }
  have hok0 : AreaOK h0 chains free := hok.setMarked _
  have hmarked0 : ∀ x, h0.marked x = false ↔ x ∉ free ∧ marks x = false := by
    intro x
    show (decide (x ∈ free) || (h.setMarks marks).marked x) = false ↔ _
    rw [hset, Bool.or_eq_false_iff, decide_eq_false_iff_not]
  have hs : Sweepable h0 free (h0.base.flatMap fun b => blockRecs h0.termRec b hcNumInBlock 0) :=
    fun x hx => ⟨hok0.layout.mem_swept.mp hx, fun hm => ((hmarked0 x).mp hm).1⟩
  obtain ⟨h₁, chains₁, free₁, hrun, hspec⟩ := hok0.sweepBlocks hok0.layout.nodup hs
  refine ⟨h₁, chains₁, free₁, ?_, hspec.ok, ?_⟩
  · unfold HcBlockRec.reclaimArea
    rw [show (h.setMarks marks).numRecs = h.numRecs from rfl,
      show (h.setMarks marks).freechain = h.freechain from rfl, hmark]
    exact hrun
  · constructor
    case interned =>
      intro x
      rw [hspec.ok.interned_iff, hspec.chains, hok.interned_iff, hok0.layout.mem_swept, hmarked0]
      constructor
      · rintro ⟨⟨j, hj⟩, hnot⟩
        refine ⟨⟨j, hj⟩, ?_⟩
        by_contra hm
        exact hnot ⟨(hok0.used x).mpr (Or.inr ⟨j, hj⟩), hok.disjoint j x hj,
          Bool.eq_false_iff.mpr hm⟩
      · rintro ⟨hx, hm⟩
        refine ⟨hx, fun hc => ?_⟩
        rw [hm] at hc
        exact Bool.noConfusion hc.2.2
    case contents => exact hspec.termRec
    case freed =>
      refine ⟨free, free₁, hok.freeChain, hspec.ok.freeChain, Linked.nodup hspec.ok.freeChain, ?_⟩
      intro x
      rw [hspec.free, hok0.layout.mem_swept, hmarked0, hok.interned_iff]
      constructor
      · rintro (hx | ⟨hused, hfree, hm⟩)
        · exact Or.inl hx
        · exact Or.inr ⟨((hok0.used x).mp hused).resolve_left hfree, hm⟩
      · rintro (hx | ⟨⟨j, hj⟩, hm⟩)
        · exact Or.inl hx
        · exact Or.inr ⟨(hok0.used x).mpr (Or.inr ⟨j, hj⟩), hok.disjoint j x hj, hm⟩
    case cleared =>
      intro x
      by_cases hused : (h.termRec x).isSome
      · exact hspec.cleared x (hok0.layout.mem_swept.mpr hused)
      · rw [hspec.marked x fun hx => hused (hok0.layout.mem_swept.mp hx), hmarked0]
        constructor
        · exact fun hx => hused ((hok.used x).mpr (Or.inl hx))
        · apply Bool.eq_false_iff.mpr
          intro hm
          exact hused ((hok.used x).mpr (Or.inr (hok.interned_iff.mp (hmarks x hm))))

/-! ### Runs -/

/-- `reclaim_internstr_recs`, over the areas of all arities. -/
def reclaimInternstrRecs (areas : Nat → HcBlockRec) : Option (Nat → HcBlockRec) :=
  (List.range 400).foldlM
    (fun areas i => (areas i).reclaimArea.map (update areas i)) areas

inductive InternEvent where
  | insert (area : Nat) (termrec : List Nat)
  | reclaim (marks : Nat → RecPtr → Bool)

/-- Runs from areas without blocks. A garbage collection marks records that are interned. -/
def internSystem : System (Nat → HcBlockRec) InternEvent where
  init areas := ∀ a, (areas a).base = [] ∧ (∀ x, (areas a).marked x = false) ∧
    (∀ x, (areas a).termRec x = none) ∧ (∀ i, (areas a).hashtab i = none) ∧
    (areas a).freechain = none ∧ (areas a).freedisp = ⟨0, 0⟩
  step areas ev areas' := match ev with
    | .insert a termrec => a < 400 ∧ ∃ h r, (areas a).insertInternedRec termrec = some (h, r) ∧
        areas' = update areas a h
    | .reclaim marks => (∀ a x, marks a x = true → (areas a).Interned x) ∧
        reclaimInternstrRecs (fun a => (areas a).setMarks (marks a)) = some areas'

variable {areas areas' : Nat → HcBlockRec} {ev : InternEvent} {a : Nat}

/-- Every area keeps its records, and no mark is set between the collections. -/
structure AreasOK (areas : Nat → HcBlockRec) : Prop where
  area : ∀ a, ∃ chains free, AreaOK (areas a) chains free
  clear : ∀ a x, (areas a).marked x = false
  unused : ∀ a, 400 ≤ a → (areas a).base = []

theorem AreasOK.init (h : internSystem.init areas) : AreasOK areas := by
  constructor
  case area =>
    intro a
    obtain ⟨hbase, -, hunused, hhash, hfree, hdisp⟩ := h a
    refine ⟨fun _ => [], [], ?_⟩
    constructor
    case layout =>
      refine ⟨?_, ?_, fun hne => absurd hbase hne, ?_, fun x => ?_⟩
      · rw [hbase]
        exact nodup_nil
      · rw [hbase]
        exact fun b hb => absurd hb not_mem_nil
      · rw [hdisp]
        exact Nat.zero_le _
      · rw [hunused x, hbase]
        exact ⟨nofun, fun hx => absurd hx.1 not_mem_nil⟩
    case chain => exact fun i => linked_nil.mpr (hhash i)
    case freeChain => exact linked_nil.mpr hfree
    case contents => exact fun i x hx => absurd hx not_mem_nil
    case distinct => exact fun i => nodup_nil
    case disjoint => exact fun i x hx => absurd hx not_mem_nil
    case used =>
      intro x
      rw [hunused x]
      simp
  case clear => exact fun a => (h a).2.1
  case unused => exact fun a _ => (h a).1

/-- The areas are reclaimed one after the other. -/
theorem foldlM_areas {l : List Nat} (hl : l.Nodup) {res : Nat → HcBlockRec}
    (hres : ∀ i ∈ l, (areas i).reclaimArea = some (res i)) :
    l.foldlM (fun areas i => (areas i).reclaimArea.map (update areas i)) areas =
      some fun i => if i ∈ l then res i else areas i := by
  induction l generalizing areas with
  | nil => simp
  | cons j l ih =>
    obtain ⟨hj, hl⟩ := nodup_cons.mp hl
    have hres' : ∀ i ∈ l, (update areas j (res j) i).reclaimArea = some (res i) := by
      intro i hi
      rw [update_of_ne (ne_of_mem_of_not_mem hi hj)]
      exact hres i (mem_cons_of_mem j hi)
    rw [foldlM_cons, hres j mem_cons_self]
    refine (ih hl hres').trans ?_
    congr 1
    funext i
    by_cases hij : i = j
    · subst hij
      simp [hj]
    · simp [hij]

/-- An area without blocks has no interned record. -/
theorem AreasOK.not_interned (h : AreasOK areas) (ha : 400 ≤ a) : ¬ (areas a).Interned x := by
  obtain ⟨chains, free, hok⟩ := h.area a
  rw [hok.interned_iff]
  rintro ⟨i, hi⟩
  rw [hok.chains_nil (h.unused a ha)] at hi
  exact not_mem_nil hi

theorem AreasOK.reclaim (h : AreasOK areas) {marks : Nat → RecPtr → Bool}
    (hmarks : ∀ a x, marks a x = true → (areas a).Interned x) :
    ∃ areas', reclaimInternstrRecs (fun a => (areas a).setMarks (marks a)) = some areas' ∧
      AreasOK areas' ∧ ∀ a < 400, ReclaimSpec (areas a) (areas' a) (marks a) := by
  have harea : ∀ a, ∃ h₁, ((areas a).setMarks (marks a)).reclaimArea = some h₁ ∧
      (∃ chains₁ free₁, AreaOK h₁ chains₁ free₁) ∧ ReclaimSpec (areas a) h₁ (marks a) := by
    intro a
    obtain ⟨chains, free, hok⟩ := h.area a
    obtain ⟨h₁, chains₁, free₁, hrun, hok1, hspec⟩ := hok.reclaimArea (h.clear a) (hmarks a)
    exact ⟨h₁, hrun, ⟨chains₁, free₁, hok1⟩, hspec⟩
  choose res hrun hok hspec using harea
  have hfold := foldlM_areas (nodup_range (n := 400)) fun i _ => hrun i
  refine ⟨_, hfold, ?_, ?_⟩
  · constructor
    case area =>
      intro a
      simp only [mem_range]
      split
      next => exact hok a
      next =>
        obtain ⟨chains, free, hok⟩ := h.area a
        exact ⟨chains, free, hok.setMarked _⟩
    case clear =>
      intro a x
      simp only [mem_range]
      split
      next => exact (hspec a).cleared x
      next ha =>
        show ((areas a).marked x || marks a x) = false
        rw [h.clear a x, Bool.false_or]
        apply Bool.eq_false_iff.mpr
        exact fun hm => h.not_interned (Nat.le_of_not_lt ha) (hmarks a x hm)
    case unused =>
      intro a ha
      simp only [mem_range, if_neg (Nat.not_lt.mpr ha)]
      exact h.unused a ha
  · intro a ha
    simp only [mem_range, if_pos ha]
    exact hspec a

theorem AreasOK.insert (h : AreasOK areas) (ha : a < 400) (termrec : List Nat) :
    ∃ h₁ r, (areas a).insertInternedRec termrec = some (h₁, r) ∧
      AreasOK (update areas a h₁) ∧ InsertSpec (areas a) h₁ termrec r := by
  obtain ⟨chains, free, hok⟩ := h.area a
  obtain ⟨h₁, r, chains₁, free₁, hrun, hok1, hclear, hspec⟩ :=
    hok.insertInternedRec (h.clear a) termrec
  refine ⟨h₁, r, hrun, ?_, hspec⟩
  constructor
  case area =>
    intro b
    rw [update_apply]
    split
    next => exact ⟨chains₁, free₁, hok1⟩
    next => exact h.area b
  case clear =>
    intro b x
    rw [update_apply]
    split
    next => exact hclear x
    next => exact h.clear b x
  case unused =>
    intro b hb
    rw [update_of_ne (by omega)]
    exact h.unused b hb

theorem internSystem_ok : internSystem.Invariant AreasOK where
  init _ h := .init h
  step areas ev areas' h hstep := by
    cases ev with
    | insert a termrec =>
      obtain ⟨ha, h₁, r, hrun, rfl⟩ := hstep
      obtain ⟨h1', r', hrun', hok, -⟩ := h.insert ha termrec
      rw [hrun] at hrun'
      cases hrun'
      exact hok
    | reclaim marks =>
      obtain ⟨hmarks, hrun⟩ := hstep
      obtain ⟨areas1, hrun', hok, -⟩ := h.reclaim hmarks
      rw [hrun] at hrun'
      cases hrun'
      exact hok

/-- In every state of a run, no chain has two records with the same contents and no mark is set;
an insertion returns the record with the contents, which is taken off the free ones if it is new;
and a reclamation keeps the marked records, frees the others once and clears the marks. -/
theorem reachable_interns (h : internSystem.Reachable areas) (ha : a < 400) :
    (∀ i, ∃ chain, Linked (areas a).next ((areas a).hashtab i) chain ∧
      (chain.map (areas a).termRec).Nodup) ∧
    (∀ x, (areas a).marked x = false) ∧
    (∀ termrec, ∃ h₁ r, (areas a).insertInternedRec termrec = some (h₁, r) ∧
      InsertSpec (areas a) h₁ termrec r) ∧
    ∀ marks : Nat → RecPtr → Bool, (∀ a x, marks a x = true → (areas a).Interned x) →
      ∃ areas', reclaimInternstrRecs (fun a => (areas a).setMarks (marks a)) = some areas' ∧
        ReclaimSpec (areas a) (areas' a) (marks a) := by
  have hareas := internSystem_ok.holds h
  refine ⟨?_, hareas.clear a, ?_, ?_⟩
  · intro i
    obtain ⟨chains, free, hok⟩ := hareas.area a
    exact ⟨chains i, hok.chain i, hok.distinct i⟩
  · intro termrec
    obtain ⟨h₁, r, hrun, -, hspec⟩ := hareas.insert ha termrec
    exact ⟨h₁, r, hrun, hspec⟩
  · intro marks hmarks
    obtain ⟨areas', hrun, -, hspec⟩ := hareas.reclaim hmarks
    exact ⟨areas', hrun, hspec a ha⟩

/-- Areas without blocks. -/
def emptyAreas : Nat → HcBlockRec := fun _ =>
  ⟨[], fun _ => none, fun _ => false, fun _ => none, fun _ => none, none, ⟨0, 0⟩⟩

/-- A record of arity 1 is inserted, and can be found again or reclaimed. -/
theorem insertedOnce_interns : ∃ areas, internSystem.Reachable areas ∧
    (areas 1).termRec ⟨0, 0⟩ = some [8, 16] ∧
    (∀ x, (areas 1).marked x = false) ∧
    (∀ termrec, ∃ h₁ r, (areas 1).insertInternedRec termrec = some (h₁, r) ∧
      InsertSpec (areas 1) h₁ termrec r) ∧
    ∀ marks : Nat → RecPtr → Bool, (∀ a x, marks a x = true → (areas a).Interned x) →
      ∃ areas', reclaimInternstrRecs (fun a => (areas a).setMarks (marks a)) = some areas' ∧
        ReclaimSpec (areas 1) (areas' 1) (marks 1) := by
  have h0 : internSystem.Reachable emptyAreas :=
    .init fun _ => ⟨rfl, fun _ => rfl, fun _ => rfl, fun _ => rfl, rfl, rfl⟩
  have h₁ := h0.step (e := InternEvent.insert 1 [8, 16]) ⟨by decide, _, ⟨0, 0⟩, rfl, rfl⟩
  exact ⟨_, h₁, rfl, (reachable_interns h₁ (by decide)).2⟩

end XSBEngine.Interning
