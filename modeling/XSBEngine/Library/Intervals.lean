import Mathlib

/-!
# Tilings by half-open intervals

The members of a set have intervals that are not empty and pairwise disjoint, and an interval is
their union.
-/

namespace XSBEngine.Library

open Set

variable {ι κ : Type*} [LinearOrder κ] {lo hi : ι → κ} {I J : Set ι} {a b k m : κ} {i j u v : ι}

/-- The intervals of the members of `I` are apart and cover `[a, b)`. -/
structure Tiles (lo hi : ι → κ) (I : Set ι) (a b : κ) : Prop where
  nonempty : ∀ i ∈ I, lo i < hi i
  disjoint : I.PairwiseDisjoint fun i => Ico (lo i) (hi i)
  cover : ⋃ i ∈ I, Ico (lo i) (hi i) = Ico a b

namespace Tiles

section

variable (h : Tiles lo hi I a b)
include h

theorem exists_of_mem (hk : k ∈ Ico a b) :
    ∃ i ∈ I, k ∈ Ico (lo i) (hi i) := by
  rw [← h.cover] at hk
  simpa only [mem_iUnion, exists_prop] using hk

section

variable (hi' : i ∈ I)
include hi'

theorem within : a ≤ lo i ∧ hi i ≤ b := by
  rw [← Ico_subset_Ico_iff (h.nonempty i hi'), ← h.cover]
  exact subset_biUnion_of_mem (u := fun i => Ico (lo i) (hi i)) hi'

theorem mem_of_mem (hk : k ∈ Ico (lo i) (hi i)) :
    k ∈ Ico a b := by
  obtain ⟨hlo, hhi⟩ := h.within hi'
  exact ⟨hlo.trans hk.1, hk.2.trans_le hhi⟩

/-- No point is in the intervals of two members. -/
theorem unique (hj : j ∈ I) (hk : k ∈ Ico (lo i) (hi i))
    (hk' : k ∈ Ico (lo j) (hi j)) : i = j := by
  by_contra hne
  exact disjoint_left.mp (h.disjoint hi' hj hne) hk hk'

/-- A member is found by an interval around a part of its own. -/
theorem unique_of_le (hj : j ∈ I) (hm : m < hi i)
    (him : lo i < m) (hlo : lo j ≤ lo i) (hhi : m ≤ hi j) : j = i :=
  h.unique hj hi' ⟨hlo, him.trans_le hhi⟩ ⟨le_refl _, him.trans hm⟩

/-- The member that comes first begins where the intervals begin. -/
theorem lo_eq (hleast : ∀ j ∈ I, lo i ≤ lo j) : lo i = a := by
  refine le_antisymm ?_ (h.within hi').1
  have hab : a < b := (h.within hi').1.trans_lt ((h.nonempty i hi').trans_le (h.within hi').2)
  obtain ⟨j, hj, hk⟩ := h.exists_of_mem ⟨le_refl a, hab⟩
  exact (hleast j hj).trans hk.1

/-- The member that comes last ends where the intervals end. -/
theorem hi_eq (hlast : ∀ j ∈ I, lo j ≤ lo i) : hi i = b := by
  obtain ⟨hlo, hhi⟩ := h.within hi'
  by_contra hne
  obtain ⟨j, hj, hk⟩ := h.exists_of_mem ⟨hlo.trans (h.nonempty i hi').le, lt_of_le_of_ne hhi hne⟩
  have heq : j = i := h.unique hj hi' ⟨hlast j hj, (h.nonempty i hi').trans hk.2⟩
    ⟨le_refl _, h.nonempty i hi'⟩
  rw [heq] at hk
  exact lt_irrefl _ hk.2

/-- The interval of one member is divided. -/
theorem divide (hm : lo i < m) (hm' : m < hi i)
    (hu : lo u = lo i ∧ hi u = m) (hv : lo v = m ∧ hi v = hi i)
    (hJ : ∀ j, j ∈ J ↔ j ∈ I ∧ j ≠ i ∨ j = u ∨ j = v) : Tiles lo hi J a b := by
  have hIu : Ico (lo u) (hi u) = Ico (lo i) m := by rw [hu.1, hu.2]
  have hIv : Ico (lo v) (hi v) = Ico m (hi i) := by rw [hv.1, hv.2]
  have hold : ∀ j ∈ I, j ≠ i → ∀ k ∈ Ico (lo j) (hi j), k ∉ Ico (lo i) (hi i) :=
    fun j hj hne k hk hk' => hne (h.unique hj hi' hk hk')
  have hsub : ∀ k, k ∈ Ico (lo u) (hi u) ∨ k ∈ Ico (lo v) (hi v) ↔ k ∈ Ico (lo i) (hi i) := by
    intro k
    rw [hIu, hIv, ← mem_union, Ico_union_Ico_eq_Ico hm.le hm'.le]
  have huv : ∀ k ∈ Ico (lo u) (hi u), k ∉ Ico (lo v) (hi v) := by
    intro k hk hk'
    rw [hIu] at hk
    rw [hIv] at hk'
    exact absurd hk.2 (not_lt.mpr hk'.1)
  refine ⟨fun j hj => ?_, fun j hj l hl hne => disjoint_left.mpr fun k hk hk' => ?_, ?_⟩
  · rcases (hJ j).mp hj with ⟨hj, -⟩ | rfl | rfl
    · exact h.nonempty j hj
    · rw [hu.1, hu.2]
      exact hm
    · rw [hv.1, hv.2]
      exact hm'
  · rcases (hJ j).mp hj with ⟨hj, hji⟩ | rfl | rfl <;>
      rcases (hJ l).mp hl with ⟨hl, hli⟩ | rfl | rfl
    · exact hne (h.unique hj hl hk hk')
    · exact hold j hj hji k hk ((hsub k).mp (.inl hk'))
    · exact hold j hj hji k hk ((hsub k).mp (.inr hk'))
    · exact hold l hl hli k hk' ((hsub k).mp (.inl hk))
    · exact hne rfl
    · exact huv k hk hk'
    · exact hold l hl hli k hk' ((hsub k).mp (.inr hk))
    · exact huv k hk' hk
    · exact hne rfl
  · rw [← h.cover]
    ext k
    simp only [mem_iUnion, exists_prop]
    constructor
    · rintro ⟨j, hj, hk⟩
      rcases (hJ j).mp hj with ⟨hj, -⟩ | rfl | rfl
      · exact ⟨j, hj, hk⟩
      · exact ⟨i, hi', (hsub k).mp (.inl hk)⟩
      · exact ⟨i, hi', (hsub k).mp (.inr hk)⟩
    · rintro ⟨j, hj, hk⟩
      by_cases hji : j = i
      · rw [hji] at hk
        rcases (hsub k).mpr hk with hk | hk
        · exact ⟨u, (hJ u).mpr (.inr (.inl rfl)), hk⟩
        · exact ⟨v, (hJ v).mpr (.inr (.inr rfl)), hk⟩
      · exact ⟨j, (hJ j).mpr (.inl ⟨hj, hji⟩), hk⟩

/-- The members that begin before `i` cover what is below it. -/
theorem below (hJ : ∀ j, j ∈ J ↔ j ∈ I ∧ lo j < lo i) :
    Tiles lo hi J a (lo i) := by
  have hend : ∀ j ∈ J, hi j ≤ lo i := by
    intro j hj
    obtain ⟨hj, hlt⟩ := (hJ j).mp hj
    by_contra hgt
    have heq : j = i := h.unique hj hi' ⟨hlt.le, not_le.mp hgt⟩ ⟨le_refl _, h.nonempty i hi'⟩
    rw [heq] at hlt
    exact lt_irrefl _ hlt
  have hsub : J ⊆ I := fun j hj => ((hJ j).mp hj).1
  refine ⟨fun j hj => h.nonempty j (hsub hj), h.disjoint.subset hsub, ?_⟩
  ext k
  simp only [mem_iUnion, exists_prop]
  constructor
  · rintro ⟨j, hj, hk⟩
    exact ⟨(h.within ((hJ j).mp hj).1).1.trans hk.1, hk.2.trans_le (hend j hj)⟩
  · rintro ⟨hk, hk'⟩
    obtain ⟨hlo, hhi⟩ := h.within hi'
    obtain ⟨j, hj, hkj⟩ := h.exists_of_mem
      ⟨hk, hk'.trans ((h.nonempty i hi').trans_le hhi)⟩
    exact ⟨j, (hJ j).mpr ⟨hj, hkj.1.trans_lt hk'⟩, hkj⟩

/-- The others cover what is above. -/
theorem above (hJ : ∀ j, j ∈ J ↔ j ∈ I ∧ lo i ≤ lo j) :
    Tiles lo hi J (lo i) b := by
  have hsub : J ⊆ I := fun j hj => ((hJ j).mp hj).1
  refine ⟨fun j hj => h.nonempty j (hsub hj), h.disjoint.subset hsub, ?_⟩
  ext k
  simp only [mem_iUnion, exists_prop]
  constructor
  · rintro ⟨j, hj, hk⟩
    obtain ⟨hj, hle⟩ := (hJ j).mp hj
    exact ⟨hle.trans hk.1, hk.2.trans_le (h.within hj).2⟩
  · rintro ⟨hk, hk'⟩
    obtain ⟨j, hj, hkj⟩ := h.exists_of_mem ⟨(h.within hi').1.trans hk, hk'⟩
    refine ⟨j, (hJ j).mpr ⟨hj, ?_⟩, hkj⟩
    by_contra hlt
    have heq : j = i := h.unique hj hi' ⟨(not_le.mp hlt).le, hk.trans_lt hkj.2⟩
      ⟨le_refl _, h.nonempty i hi'⟩
    rw [heq] at hlt
    exact hlt (le_refl _)

end

end

theorem single (lo hi : ι → κ) (hab : lo i < hi i) (hI : ∀ j, j ∈ I ↔ j = i) :
    Tiles lo hi I (lo i) (hi i) := by
  have hI' : I = {i} := Set.ext hI
  refine ⟨fun j hj => ?_, ?_, ?_⟩
  · rw [(hI j).mp hj]
    exact hab
  · rw [hI']
    exact pairwiseDisjoint_singleton _ _
  · rw [hI', biUnion_singleton]

theorem pair (lo hi : ι → κ) (hu : lo u < hi u) (hv : hi u = lo v) (hv' : lo v < hi v)
    (hI : ∀ j, j ∈ I ↔ j = u ∨ j = v) : Tiles lo hi I (lo u) (hi v) := by
  have hI' : I = {u, v} := Set.ext hI
  refine ⟨fun j hj => ?_, ?_, ?_⟩
  · rcases (hI j).mp hj with rfl | rfl
    · exact hu
    · exact hv'
  · have hapart : Disjoint (Ico (lo u) (hi u)) (Ico (lo v) (hi v)) :=
      disjoint_left.mpr fun k hk hk' => absurd (hk.2.trans_eq hv) (not_lt.mpr hk'.1)
    intro j hj l hl hne
    rcases (hI j).mp hj with rfl | rfl <;> rcases (hI l).mp hl with rfl | rfl
    · exact absurd rfl hne
    · exact hapart
    · exact hapart.symm
    · exact absurd rfl hne
  · rw [hI', biUnion_pair, hv, Ico_union_Ico_eq_Ico (hu.trans_eq hv).le hv'.le]

end Tiles

end XSBEngine.Library
