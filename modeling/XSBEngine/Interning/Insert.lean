import Mathlib
import XSBEngine.Interning.Records

/-!
# Insertion of records

What the records of an area keep, and what `insert_interned_rec` does to them.
-/

namespace XSBEngine.Interning

open Function Library List

/-- Which records have been used: all those of the blocks, but in the first block only those up to
`freedisp`. -/
structure Layout (h : HcBlockRec) : Prop where
  nodup : h.base.Nodup
  bound : ∀ b ∈ h.base, b < h.base.length
  first : h.base ≠ [] → h.base.head? = some h.freedisp.block
  place : h.freedisp.place ≤ hcNumInBlock
  used : ∀ r, (h.termRec r).isSome ↔ r.block ∈ h.base ∧ r.place < hcNumInBlock ∧
    (r.block = h.freedisp.block → r.place < h.freedisp.place)

/-- The chains of the hash table and the free records: every used record is in one of them, and
no two records of the chains have the same contents. -/
structure AreaOK (h : HcBlockRec) (chains : Nat → List RecPtr) (free : List RecPtr) : Prop where
  layout : Layout h
  chain : ∀ i, Linked h.next (h.hashtab i) (chains i)
  freeChain : h.FreeChain free
  contents : ∀ i, ∀ r ∈ chains i, ∃ c, h.termRec r = some c ∧ itHash itHashtabSize c = i
  distinct : ∀ i, ((chains i).map h.termRec).Nodup
  disjoint : ∀ i, ∀ r ∈ chains i, r ∉ free
  used : ∀ r, (h.termRec r).isSome ↔ r ∈ free ∨ ∃ i, r ∈ chains i

variable {h h' : HcBlockRec} {chains : Nat → List RecPtr} {free l : List RecPtr} {r x : RecPtr}
  {i n : Nat} {termrec : List Nat} {p : Option RecPtr}

/-- A list of used records has at most as many as there are. -/
theorem Layout.length_le (hlayout : Layout h) (hnodup : l.Nodup)
    (hused : ∀ r ∈ l, (h.termRec r).isSome) : l.length ≤ h.numRecs := by
  have hsub : l ⊆ h.base.flatMap fun b => (List.range hcNumInBlock).map (RecPtr.mk b) := by
    intro r hr
    obtain ⟨hblock, hplace, -⟩ := (hlayout.used r).mp (hused r hr)
    exact mem_flatMap.mpr ⟨r.block, hblock,
      mem_map.mpr ⟨r.place, mem_range.mpr hplace, rfl⟩⟩
  have hlength := (subperm_of_subset hnodup hsub).length_le
  rwa [length_flatMap, map_congr_left (g := fun _ => hcNumInBlock) (by simp),
    map_const', sum_replicate_nat, Nat.mul_comm] at hlength

namespace AreaOK

theorem chain_length_le (h : AreaOK h' chains free) (i : Nat) :
    (chains i).length ≤ h'.numRecs :=
  h.layout.length_le (h.chain i).nodup fun r hr => (h.used r).mpr (Or.inr ⟨i, hr⟩)

theorem free_length_le (h : AreaOK h' chains free) : free.length ≤ h'.numRecs :=
  h.layout.length_le (Linked.nodup h.freeChain) fun r hr => (h.used r).mpr (Or.inl hr)

/-- The chain of a record is that of its contents. -/
theorem mem_chain_iff (h : AreaOK h' chains free) (hr : h'.termRec r = some termrec) :
    (∃ i, r ∈ chains i) ↔ r ∈ chains (itHash itHashtabSize termrec) := by
  constructor
  · rintro ⟨i, hi⟩
    obtain ⟨c, hc, rfl⟩ := h.contents i r hi
    rw [hr] at hc
    rwa [Option.some.inj hc]
  · exact fun hi => ⟨_, hi⟩

/-- Records of the chains with the same contents are the same. -/
theorem eq_of_contents (h : AreaOK h' chains free) {i j : Nat} (hr : r ∈ chains i)
    (hx : x ∈ chains j) (heq : h'.termRec r = h'.termRec x) : r = x := by
  obtain ⟨c, hc, rfl⟩ := h.contents i r hr
  obtain ⟨c', hc', rfl⟩ := h.contents j x hx
  rw [hc, hc'] at heq
  obtain rfl := Option.some.inj heq
  exact inj_on_of_nodup_map (h.distinct _) hr hx (hc.trans hc'.symm)

end AreaOK

/-- An area without blocks has no record. -/
theorem AreaOK.chains_nil (h : AreaOK h' chains free) (hbase : h'.base = []) (i : Nat) :
    chains i = [] := by
  apply eq_nil_iff_forall_not_mem.mpr
  intro x hx
  have hused := (h.layout.used x).mp ((h.used x).mpr (Or.inr ⟨i, hx⟩))
  rw [hbase] at hused
  exact not_mem_nil hused.1

/-! ### The search for a record -/

theorem chainHas_eq (hl : Linked h.next p l) (hn : l.length ≤ n) :
    h.chainHas r n p = some (decide (r ∈ l)) := by
  induction l generalizing p n with
  | nil =>
    rw [linked_nil.mp hl]
    cases n <;> simp [HcBlockRec.chainHas]
  | cons a l ih =>
    obtain ⟨rfl, hrest⟩ := linked_cons.mp hl
    obtain ⟨n, rfl⟩ := Nat.exists_eq_succ_of_ne_zero (Nat.ne_of_gt (Nat.zero_lt_of_lt hn))
    rw [HcBlockRec.chainHas]
    split
    next har => simp [har]
    next har =>
      rw [ih hrest (Nat.le_of_succ_le_succ hn)]
      simp [Ne.symm har]

/-- `is_interned_rec` finds the records of the chains. -/
theorem AreaOK.interned_iff (h : AreaOK h' chains free) :
    h'.Interned r ↔ ∃ i, r ∈ chains i := by
  unfold HcBlockRec.Interned HcBlockRec.isInternedRec
  split
  next hnil =>
    constructor
    · exact fun hfalse => Bool.noConfusion (Option.some.inj hfalse)
    · rintro ⟨i, hi⟩
      rw [h.chains_nil hnil i] at hi
      exact absurd hi not_mem_nil
  next =>
    rw [chainHas_eq (h.chain _) (h.chain_length_le _), Option.some.injEq, decide_eq_true_iff]
    cases hr : h'.termRec r with
    | none =>
      have hnot : ∀ i, r ∉ chains i := by
        intro i hi
        obtain ⟨c, hc, -⟩ := h.contents i r hi
        exact absurd (hr.symm.trans hc) (Option.some_ne_none c).symm
      exact ⟨fun hi => ⟨_, hi⟩, fun ⟨i, hi⟩ => absurd hi (hnot i)⟩
    | some termrec => exact (h.mem_chain_iff hr).symm

theorem search_found (prev : Option RecPtr) (hl : Linked h.next p l) (hn : l.length ≤ n)
    (hr : ∃ r ∈ l, h.termRec r = some termrec) :
    ∃ r prev', h.search termrec n prev p = some (some r, prev') ∧ r ∈ l ∧
      h.termRec r = some termrec := by
  induction l generalizing p n prev with
  | nil =>
    obtain ⟨r, hr, -⟩ := hr
    exact absurd hr not_mem_nil
  | cons a l ih =>
    obtain ⟨rfl, hrest⟩ := linked_cons.mp hl
    obtain ⟨n, rfl⟩ := Nat.exists_eq_succ_of_ne_zero (Nat.ne_of_gt (Nat.zero_lt_of_lt hn))
    rw [HcBlockRec.search]
    split
    next ha => exact ⟨a, prev, rfl, mem_cons_self, ha⟩
    next ha =>
      obtain ⟨r, hr, hc⟩ := hr
      have hr' : r ∈ l := (mem_cons.mp hr).resolve_left fun heq => ha (heq ▸ hc)
      obtain ⟨x, prev', hrun, hx, hxc⟩ := ih (some a) hrest (Nat.le_of_succ_le_succ hn)
        ⟨r, hr', hc⟩
      exact ⟨x, prev', hrun, mem_cons_of_mem a hx, hxc⟩

/-- A search that finds nothing ends at the last record. -/
theorem search_none (prev : Option RecPtr) (hl : Linked h.next p l) (hn : l.length ≤ n)
    (hr : ∀ r ∈ l, h.termRec r ≠ some termrec) :
    h.search termrec n prev p = some (none, l.getLast?.or prev) := by
  induction l generalizing p n prev with
  | nil =>
    rw [linked_nil.mp hl]
    cases n <;> rfl
  | cons a l ih =>
    obtain ⟨rfl, hrest⟩ := linked_cons.mp hl
    obtain ⟨n, rfl⟩ := Nat.exists_eq_succ_of_ne_zero (Nat.ne_of_gt (Nat.zero_lt_of_lt hn))
    rw [HcBlockRec.search, if_neg (hr a mem_cons_self),
      ih (some a) hrest (Nat.le_of_succ_le_succ hn) fun x hx => hr x (mem_cons_of_mem a hx)]
    cases l with
    | nil => rfl
    | cons b l => rw [List.getLast?_cons_cons, List.getLast?_cons]; rfl

/-! ### A record to fill -/

/-- What `insert_interned_rec` takes: the first of the free records, or one that was never used. -/
structure TakeSpec (h h₁ : HcBlockRec) (free free₁ : List RecPtr) (r : RecPtr) : Prop where
  next : h₁.next = h.next
  marked : h₁.marked = h.marked
  termRec : h₁.termRec = h.termRec
  hashtab : h₁.hashtab = h.hashtab
  freeChain : h₁.FreeChain free₁
  taken : free = r :: free₁ ∨ free = [] ∧ free₁ = [] ∧ h.termRec r = none
  layout : ∀ h₂ : HcBlockRec, h₂.base = h₁.base → h₂.freedisp = h₁.freedisp →
    (∀ x, (h₂.termRec x).isSome ↔ (h.termRec x).isSome ∨ x = r) → Layout h₂

/-- The first record that was never used. -/
theorem Layout.fresh (hlayout : Layout h) (hbase : h.base ≠ [])
    (hplace : h.freedisp.place < hcNumInBlock) : h.termRec h.freedisp = none ∧
    ∀ h2 : HcBlockRec, h2.base = h.base →
      h2.freedisp = ⟨h.freedisp.block, h.freedisp.place + 1⟩ →
      (∀ x, (h2.termRec x).isSome ↔ (h.termRec x).isSome ∨ x = h.freedisp) → Layout h2 := by
  have hmem : h.freedisp.block ∈ h.base := mem_of_head? (hlayout.first hbase)
  constructor
  · by_contra hsome
    have hused := (hlayout.used h.freedisp).mp (Option.isSome_iff_ne_none.mpr hsome)
    exact Nat.lt_irrefl _ (hused.2.2 rfl)
  · intro h2 hb hd hused
    constructor
    case nodup => rw [hb]; exact hlayout.nodup
    case bound => rw [hb]; exact hlayout.bound
    case first =>
      rw [hb, hd]
      exact hlayout.first
    case place =>
      rw [hd]
      exact hplace
    case used =>
      intro x
      rw [hused x, hlayout.used x, hb, hd]
      constructor
      · rintro (⟨hblock, hx, hlt⟩ | rfl)
        · exact ⟨hblock, hx, fun heq => Nat.lt_succ_of_lt (hlt heq)⟩
        · exact ⟨hmem, hplace, fun _ => Nat.lt_succ_self _⟩
      · rintro ⟨hblock, hx, hlt⟩
        by_cases heq : x = h.freedisp
        · exact Or.inr heq
        · refine Or.inl ⟨hblock, hx, fun hxb => ?_⟩
          apply Nat.lt_of_le_of_ne (Nat.lt_succ_iff.mp (hlt hxb))
          exact fun hxp => heq (RecPtr.ext hxb hxp)

/-- A new block. -/
theorem Layout.newBlock (hlayout : Layout h) (hplace : hcNumInBlock ≤ h.freedisp.place) :
    Layout { h with base := h.base.length :: h.base, freedisp := ⟨h.base.length, 0⟩ } where
  nodup := nodup_cons.mpr
    ⟨fun hmem => Nat.lt_irrefl _ (hlayout.bound _ hmem), hlayout.nodup⟩
  bound b hb := by
    rcases mem_cons.mp hb with rfl | hb
    · exact Nat.lt_succ_self _
    · exact Nat.lt_succ_of_lt (hlayout.bound b hb)
  first _ := rfl
  place := Nat.zero_le _
  used x := by
    rw [hlayout.used x]
    constructor
    · rintro ⟨hblock, hx, -⟩
      refine ⟨mem_cons_of_mem _ hblock, hx, fun heq => ?_⟩
      exact absurd (hlayout.bound _ hblock) (by rw [heq]; exact Nat.lt_irrefl _)
    · rintro ⟨hblock, hx, hlt⟩
      rcases mem_cons.mp hblock with heq | hblock
      · exact absurd (hlt heq) (Nat.not_lt_zero _)
      · exact ⟨hblock, hx, fun _ => Nat.lt_of_lt_of_le hx hplace⟩

theorem AreaOK.takeRec (h : AreaOK h' chains free) (hbase : h'.base ≠ [])
    (hmarked : ∀ x, h'.marked x = false) :
    ∃ h1 r free1, h'.takeRec = some (h1, r) ∧ TakeSpec h' h1 free free1 r := by
  unfold HcBlockRec.takeRec
  cases free with
  | nil =>
    rw [linked_nil.mp h.freeChain]
    simp only
    split
    next hplace =>
      have hnew := h.layout.newBlock hplace
      obtain ⟨hnone, hlayout⟩ := hnew.fresh (cons_ne_nil _ _) (Nat.zero_lt_succ 99)
      exact ⟨_, _, [], rfl, rfl, rfl, rfl, rfl, linked_nil.mpr rfl, Or.inr ⟨rfl, rfl, hnone⟩,
        hlayout⟩
    next hplace =>
      obtain ⟨hnone, hlayout⟩ := h.layout.fresh hbase (Nat.lt_of_not_le hplace)
      exact ⟨_, _, [], rfl, rfl, rfl, rfl, rfl, h.freeChain, Or.inr ⟨rfl, rfl, hnone⟩, hlayout⟩
  | cons r free1 =>
    obtain ⟨hhead, hrest⟩ := linked_cons.mp h.freeChain
    have hnext : h'.nextField r = some (h'.next r) := by
      rw [HcBlockRec.nextField, hmarked r]
      rfl
    rw [hhead]
    simp only [hnext, Option.map_some]
    refine ⟨_, r, free1, rfl, rfl, rfl, rfl, rfl, hrest, Or.inl rfl, ?_⟩
    intro h2 hb hd hused
    constructor
    case nodup => rw [hb]; exact h.layout.nodup
    case bound => rw [hb]; exact h.layout.bound
    case first => rw [hb, hd]; exact h.layout.first
    case place => rw [hd]; exact h.layout.place
    case used =>
      intro x
      rw [hused x, hb, hd]
      have hr : (h'.termRec r).isSome := (h.used r).mpr (Or.inl mem_cons_self)
      rw [← h.layout.used x]
      constructor
      · rintro (hx | rfl)
        · exact hx
        · exact hr
      · exact fun hx => Or.inl hx

/-! ### The new record in its chain -/

section Link

variable (h : HcBlockRec) (i : Nat) (prev : Option RecPtr) (r : RecPtr) (termrec : List Nat)

theorem link_base : (h.link i prev r termrec).base = h.base := by
  cases prev <;> rfl

theorem link_freedisp : (h.link i prev r termrec).freedisp = h.freedisp := by
  cases prev <;> rfl

theorem link_freechain : (h.link i prev r termrec).freechain = h.freechain := by
  cases prev <;> rfl

theorem link_termRec :
    (h.link i prev r termrec).termRec = update h.termRec r (some termrec) := by
  cases prev <;> rfl

theorem link_marked (hmarked : ∀ x, h.marked x = false) (x : RecPtr) :
    (h.link i prev r termrec).marked x = false := by
  cases prev <;> simp [HcBlockRec.link, update_apply, hmarked]

end Link

/-- The fields `next` of other records than those of the chain do not change. -/
theorem link_next_of_notMem (hx : x ∉ l) (hxr : x ≠ r) :
    (h.link i l.getLast? r termrec).next x = h.next x := by
  cases hlast : l.getLast? with
  | none => exact update_of_ne hxr ..
  | some b =>
    have hxb : x ≠ b := fun heq => hx (heq ▸ mem_of_getLast? hlast)
    exact (update_of_ne hxr ..).trans (update_of_ne hxb ..)

theorem link_hashtab_of_ne {j : Nat} (hj : j ≠ i) :
    (h.link i l.getLast? r termrec).hashtab j = h.hashtab j := by
  cases l.getLast? with
  | none => exact update_of_ne hj ..
  | some b => rfl

/-- The chain with the record at its end. -/
theorem link_chain (hl : Linked h.next (h.hashtab i) l) (hr : r ∉ l) :
    Linked (h.link i l.getLast? r termrec).next ((h.link i l.getLast? r termrec).hashtab i)
      (l ++ [r]) := by
  rcases eq_nil_or_concat l with rfl | ⟨l, b, rfl⟩
  · refine ⟨update_self .., ?_⟩
    exact update_self ..
  · rw [concat_eq_append] at hl hr ⊢
    rw [List.getLast?_concat]
    exact hl.concat hr

/-- The record that was taken is filled and linked. -/
theorem AreaOK.link (h : AreaOK h' chains free) {h1 : HcBlockRec} {free1 : List RecPtr}
    (htake : TakeSpec h' h1 free free1 r)
    (hnew : ∀ x ∈ chains (itHash itHashtabSize termrec), h'.termRec x ≠ some termrec) :
    AreaOK (h1.link (itHash itHashtabSize termrec)
        (chains (itHash itHashtabSize termrec)).getLast? r termrec)
      (update chains (itHash itHashtabSize termrec)
        (chains (itHash itHashtabSize termrec) ++ [r])) free1 ∧
    (∀ j, r ∉ chains j) ∧ r ∉ free1 := by
  have hchains : ∀ j, r ∉ chains j := by
    intro j hj
    rcases htake.taken with hfree | ⟨-, -, hnone⟩
    · exact h.disjoint j r hj (hfree ▸ mem_cons_self)
    · obtain ⟨c, hc, -⟩ := h.contents j r hj
      exact absurd (hnone.symm.trans hc) (Option.some_ne_none c).symm
  have hfree1 : r ∉ free1 := by
    rcases htake.taken with hfree | ⟨-, rfl, -⟩
    · have hnodup := Linked.nodup h.freeChain
      rw [hfree] at hnodup
      exact (nodup_cons.mp hnodup).1
    · exact not_mem_nil
  have hsub : ∀ x ∈ free1, x ∈ free := by
    intro x hx
    rcases htake.taken with hfree | ⟨-, rfl, -⟩
    · exact hfree ▸ mem_cons_of_mem r hx
    · exact absurd hx not_mem_nil
  have hsome : ∀ x, ((h1.link (itHash itHashtabSize termrec)
      (chains (itHash itHashtabSize termrec)).getLast? r termrec).termRec x).isSome ↔
      (h'.termRec x).isSome ∨ x = r := by
    intro x
    rw [link_termRec, htake.termRec, update_apply]
    split
    next hx => simp [hx]
    next hx => simp [hx]
  have hold : ∀ {j}, ∀ x ∈ chains j, (h1.link (itHash itHashtabSize termrec)
      (chains (itHash itHashtabSize termrec)).getLast? r termrec).termRec x = h'.termRec x := by
    intro j x hx
    rw [link_termRec, htake.termRec]
    exact update_of_ne (ne_of_mem_of_not_mem hx (hchains j)) ..
  have hother : ∀ {j}, j ≠ itHash itHashtabSize termrec → ∀ x ∈ chains j,
      x ∉ chains (itHash itHashtabSize termrec) := by
    intro j hj x hx hx'
    obtain ⟨c, hc, hcj⟩ := h.contents j x hx
    obtain ⟨c', hc', hcj'⟩ := h.contents _ x hx'
    obtain rfl := Option.some.inj (hc.symm.trans hc')
    exact hj (hcj.symm.trans hcj')
  refine ⟨?_, hchains, hfree1⟩
  constructor
  case layout => exact htake.layout _ (link_base ..) (link_freedisp ..) hsome
  case chain =>
    intro j
    by_cases hj : j = itHash itHashtabSize termrec
    · subst hj
      rw [update_self]
      apply link_chain _ (hchains _)
      rw [htake.next, htake.hashtab]
      exact h.chain _
    · rw [update_of_ne hj, link_hashtab_of_ne hj, htake.hashtab]
      apply (h.chain j).congr
      intro x hx
      rw [link_next_of_notMem (hother hj x hx) (ne_of_mem_of_not_mem hx (hchains j)), htake.next]
  case freeChain =>
    unfold HcBlockRec.FreeChain
    rw [link_freechain]
    apply Linked.congr htake.freeChain
    intro x hx
    exact (link_next_of_notMem (fun hx' => h.disjoint _ x hx' (hsub x hx))
      (ne_of_mem_of_not_mem hx hfree1)).symm
  case contents =>
    intro j x hx
    rw [update_apply] at hx
    split at hx
    next hj =>
      rcases mem_append.mp hx with hx | hx
      · rw [hold x hx, hj]
        exact h.contents _ x hx
      · rw [mem_singleton.mp hx, link_termRec]
        exact ⟨termrec, update_self .., hj.symm⟩
    next => rw [hold x hx]; exact h.contents j x hx
  case distinct =>
    intro j
    rw [update_apply]
    split
    next hj =>
      rw [map_append, map_congr_left hold, map_singleton, link_termRec,
        update_self]
      refine nodup_append.mpr ⟨h.distinct _, nodup_singleton _, ?_⟩
      intro a ha b hb
      obtain ⟨x, hx, rfl⟩ := mem_map.mp ha
      rw [mem_singleton.mp hb]
      exact hnew x hx
    next =>
      rw [map_congr_left hold]
      exact h.distinct j
  case disjoint =>
    intro j x hx hxf
    rw [update_apply] at hx
    split at hx
    next =>
      rcases mem_append.mp hx with hx | hx
      · exact h.disjoint _ x hx (hsub x hxf)
      · exact hfree1 (mem_singleton.mp hx ▸ hxf)
    next => exact h.disjoint j x hx (hsub x hxf)
  case used =>
    intro x
    rw [hsome x, h.used x]
    have hfree : x ∈ free ∨ x = r ↔ x ∈ free1 ∨ x = r := by
      rcases htake.taken with hfree | ⟨hfree, hfree1', -⟩
      · rw [hfree, mem_cons, or_comm (a := x = r), or_assoc, or_self]
      · rw [hfree, hfree1']
    have hchain : (∃ j, x ∈ update chains (itHash itHashtabSize termrec)
        (chains (itHash itHashtabSize termrec) ++ [r]) j) ↔ (∃ j, x ∈ chains j) ∨ x = r := by
      constructor
      · rintro ⟨j, hj⟩
        rw [update_apply] at hj
        split at hj
        next =>
          rcases mem_append.mp hj with hj | hj
          · exact Or.inl ⟨_, hj⟩
          · exact Or.inr (mem_singleton.mp hj)
        next => exact Or.inl ⟨j, hj⟩
      · rintro (⟨j, hj⟩ | rfl)
        · refine ⟨j, ?_⟩
          rw [update_apply]
          split
          next heq => exact mem_append_left _ (heq ▸ hj)
          next => exact hj
        · refine ⟨itHash itHashtabSize termrec, ?_⟩
          rw [update_self]
          exact mem_append_right _ mem_cons_self
    rw [hchain, or_right_comm, hfree, or_right_comm, or_assoc]

/-! ### Insertion -/

/-- What `insert_interned_rec` does: it returns the record with the contents if there is one, and
else one that was not in use, which leaves the free records for good. -/
structure InsertSpec (h h₁ : HcBlockRec) (termrec : List Nat) (r : RecPtr) : Prop where
  contents : h₁.termRec r = some termrec
  interned : ∀ x, h₁.Interned x ↔ h.Interned x ∨ x = r
  kept : ∀ x, h.Interned x → h₁.termRec x = h.termRec x
  old : ∀ x, h.Interned x → h.termRec x = some termrec → x = r ∧ h₁ = h
  new : (∀ x, h.Interned x → h.termRec x ≠ some termrec) → ¬ h.Interned r ∧
    ∃ free free₁, h.FreeChain free ∧ h₁.FreeChain free₁ ∧ r ∉ free₁ ∧
      (free = r :: free₁ ∨ free = [] ∧ free₁ = [] ∧ h.termRec r = none)

/-- The first block has no used record. -/
theorem AreaOK.firstBlock (h : AreaOK h' chains free) : AreaOK h'.firstBlock chains free := by
  unfold HcBlockRec.firstBlock
  split
  next hbase =>
    have hchains := h.chains_nil hbase
    have hunused : ∀ x, ¬ (h'.termRec x).isSome := by
      intro x hx
      have hused := (h.layout.used x).mp hx
      rw [hbase] at hused
      exact not_mem_nil hused.1
    have hfree : free = [] := by
      apply eq_nil_iff_forall_not_mem.mpr
      exact fun x hx => hunused x ((h.used x).mpr (Or.inl hx))
    constructor
    case layout =>
      refine ⟨nodup_singleton 0, fun b hb => ?_, fun _ => rfl, Nat.zero_le _, fun x => ?_⟩
      · rw [mem_singleton.mp hb]
        exact Nat.zero_lt_one
      · constructor
        · exact fun hx => absurd hx (hunused x)
        · rintro ⟨hblock, -, hlt⟩
          exact absurd (hlt (mem_singleton.mp hblock)) (Nat.not_lt_zero _)
    case chain =>
      intro i
      rw [hchains i]
      exact linked_nil.mpr rfl
    case freeChain =>
      rw [hfree]
      exact linked_nil.mpr rfl
    case contents => exact h.contents
    case distinct => exact h.distinct
    case disjoint => exact h.disjoint
    case used => exact h.used
  next => exact h

theorem firstBlock_base (h : HcBlockRec) : h.firstBlock.base ≠ [] := by
  unfold HcBlockRec.firstBlock
  split
  next => exact cons_ne_nil _ _
  next hbase => exact hbase

theorem firstBlock_marked (h : HcBlockRec) : h.firstBlock.marked = h.marked := by
  unfold HcBlockRec.firstBlock
  split <;> rfl

theorem firstBlock_termRec (h : HcBlockRec) : h.firstBlock.termRec = h.termRec := by
  unfold HcBlockRec.firstBlock
  split <;> rfl

/-- An area with a record has blocks. -/
theorem AreaOK.firstBlock_eq (h : AreaOK h' chains free) (hx : x ∈ chains i) :
    h'.firstBlock = h' := by
  apply if_neg
  intro hbase
  rw [h.chains_nil hbase i] at hx
  exact not_mem_nil hx

/-- An insertion returns, and the area with its further record is as before. -/
theorem AreaOK.insertInternedRec (h : AreaOK h' chains free) (hmarked : ∀ x, h'.marked x = false)
    (termrec : List Nat) :
    ∃ h1 r chains1 free1, h'.insertInternedRec termrec = some (h1, r) ∧ AreaOK h1 chains1 free1 ∧
      (∀ x, h1.marked x = false) ∧ InsertSpec h' h1 termrec r := by
  have hfirst := h.firstBlock
  have hinterned : ∀ x, h'.firstBlock.Interned x ↔ h'.Interned x := fun x =>
    hfirst.interned_iff.trans h.interned_iff.symm
  have hmarked' : ∀ x, h'.firstBlock.marked x = false := by
    rw [firstBlock_marked]
    exact hmarked
  unfold HcBlockRec.insertInternedRec
  by_cases hfound : ∃ r ∈ chains (itHash itHashtabSize termrec), h'.termRec r = some termrec
  · have hfound' := hfound
    rw [← firstBlock_termRec] at hfound'
    obtain ⟨r, prev, hrun, hr, hc⟩ := search_found
      (h'.firstBlock.hashtab (itHash itHashtabSize termrec)) (hfirst.chain _)
      (hfirst.chain_length_le _) hfound'
    have heq := h.firstBlock_eq hr
    refine ⟨h'.firstBlock, r, chains, free, ?_, hfirst, hmarked', ?_⟩
    · simp only [hrun, Option.bind_eq_bind, Option.bind_some]
    · rw [heq] at hc ⊢
      constructor
      case contents => exact hc
      case interned =>
        intro x
        constructor
        · exact Or.inl
        · rintro (hx | rfl)
          · exact hx
          · exact h.interned_iff.mpr ⟨_, hr⟩
      case kept => exact fun _ _ => rfl
      case old =>
        intro x hx hxc
        obtain ⟨j, hj⟩ := h.interned_iff.mp hx
        exact ⟨h.eq_of_contents hj hr (hxc.trans hc.symm), rfl⟩
      case new => exact fun hnew => absurd hc (hnew r (h.interned_iff.mpr ⟨_, hr⟩))
  · have hnone : ∀ r ∈ chains (itHash itHashtabSize termrec),
        h'.firstBlock.termRec r ≠ some termrec := by
      intro r hr hc
      rw [firstBlock_termRec] at hc
      exact hfound ⟨r, hr, hc⟩
    have hrun := search_none (h'.firstBlock.hashtab (itHash itHashtabSize termrec))
      (hfirst.chain _) (hfirst.chain_length_le _) hnone
    have hprev : ((chains (itHash itHashtabSize termrec)).getLast?.or
        (h'.firstBlock.hashtab (itHash itHashtabSize termrec))) =
        (chains (itHash itHashtabSize termrec)).getLast? := by
      rw [linked_head (hfirst.chain _)]
      cases chains (itHash itHashtabSize termrec) with
      | nil => rfl
      | cons a l => rw [List.getLast?_cons]; rfl
    rw [hprev] at hrun
    obtain ⟨h1, r, free1, htakerun, htake⟩ := hfirst.takeRec (firstBlock_base h') hmarked'
    obtain ⟨hok, hnotmem, hnotfree⟩ := hfirst.link htake hnone
    refine ⟨_, r, _, free1, ?_, hok, ?_, ?_⟩
    · simp only [hrun, Option.bind_eq_bind, Option.bind_some, htakerun]
    · apply link_marked
      rw [htake.marked]
      exact hmarked'
    · constructor
      case contents =>
        rw [link_termRec]
        exact update_self ..
      case interned =>
        intro x
        rw [hok.interned_iff, ← hinterned, hfirst.interned_iff]
        constructor
        · rintro ⟨j, hj⟩
          rw [update_apply] at hj
          split at hj
          next =>
            rcases mem_append.mp hj with hj | hj
            · exact Or.inl ⟨_, hj⟩
            · exact Or.inr (mem_singleton.mp hj)
          next => exact Or.inl ⟨j, hj⟩
        · rintro (⟨j, hj⟩ | rfl)
          · refine ⟨j, ?_⟩
            rw [update_apply]
            split
            next heq => exact mem_append_left _ (heq ▸ hj)
            next => exact hj
          · refine ⟨itHash itHashtabSize termrec, ?_⟩
            rw [update_self]
            exact mem_append_right _ mem_cons_self
      case kept =>
        intro x hx
        obtain ⟨j, hj⟩ := h.interned_iff.mp hx
        rw [link_termRec, htake.termRec, firstBlock_termRec]
        exact update_of_ne (ne_of_mem_of_not_mem hj (hnotmem j)) ..
      case old =>
        intro x hx hxc
        exact absurd ⟨x, (h.mem_chain_iff hxc).mp (h.interned_iff.mp hx), hxc⟩ hfound
      case new =>
        intro _
        constructor
        · intro hr
          obtain ⟨j, hj⟩ := h.interned_iff.mp hr
          exact hnotmem j hj
        · refine ⟨free, free1, h.freeChain, hok.freeChain, hnotfree, ?_⟩
          have htaken := htake.taken
          rwa [firstBlock_termRec] at htaken

end XSBEngine.Interning
