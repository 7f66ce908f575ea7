import Mathlib
import XSBEngine.Library.Comparisons

/-!
# Rearrangements of arrays

Arrays as functions on their indices: what exchanges of elements in a range do, and what it is for
a range to be in order.
-/

namespace XSBEngine.Library

open Function

variable {ι α : Type*} {S T : ι → Prop} {a b c : ι → α}

/-- The array with two elements exchanged. -/
def exchange [DecidableEq ι] (a : ι → α) (i j : ι) : ι → α :=
  update (update a i (a j)) j (a i)

section Exchange

variable [DecidableEq ι] {i j k : ι}

@[simp] theorem exchange_right : exchange a i j j = a i := update_self ..

@[simp] theorem exchange_left : exchange a i j i = a j := by
  by_cases hij : i = j
  · rw [← hij]
    exact exchange_right
  · rw [exchange, update_of_ne hij, update_self]

theorem exchange_of_ne (hi : k ≠ i) (hj : k ≠ j) : exchange a i j k = a k := by
  rw [exchange, update_of_ne hj, update_of_ne hi]

end Exchange

/-- The elements in a range are arranged in another way. -/
def Rearranged (S : ι → Prop) (a b : ι → α) : Prop :=
  ∃ σ : Equiv.Perm ι, (∀ i, ¬ S i → σ i = i) ∧ ∀ i, b i = a (σ i)

namespace Rearranged

theorem refl (S : ι → Prop) (a : ι → α) : Rearranged S a a := ⟨1, fun _ _ => rfl, fun _ => rfl⟩

theorem trans (h1 : Rearranged S a b) (h2 : Rearranged S b c) : Rearranged S a c := by
  obtain ⟨σ, hσ, hb⟩ := h1
  obtain ⟨τ, hτ, hc⟩ := h2
  refine ⟨σ * τ, fun i hi => ?_, fun i => ?_⟩
  · rw [Equiv.Perm.mul_apply, hτ i hi, hσ i hi]
  · rw [hc i, hb (τ i), Equiv.Perm.mul_apply]

theorem mono (h : Rearranged S a b) (hsub : ∀ i, S i → T i) : Rearranged T a b := by
  obtain ⟨σ, hσ, hb⟩ := h
  exact ⟨σ, fun i hi => hσ i fun hs => hi (hsub i hs), hb⟩

/-- What is outside of the range stays. -/
theorem outside (h : Rearranged S a b) {i : ι} (hi : ¬ S i) : b i = a i := by
  obtain ⟨σ, hσ, hb⟩ := h
  rw [hb i, hσ i hi]

/-- What holds of all elements in the range still does. -/
theorem forall_range (h : Rearranged S a b) {P : α → Prop} (ha : ∀ i, S i → P (a i)) :
    ∀ i, S i → P (b i) := by
  obtain ⟨σ, hσ, hb⟩ := h
  intro i hi
  rw [hb i]
  apply ha
  by_contra hout
  have heq : σ i = i := σ.injective (hσ (σ i) hout)
  exact hout (heq.symm ▸ hi)

theorem exchange [DecidableEq ι] (a : ι → α) {i j : ι} (hi : S i) (hj : S j) :
    Rearranged S a (exchange a i j) := by
  refine ⟨Equiv.swap i j, fun k hk => ?_, fun k => ?_⟩
  · apply Equiv.swap_apply_of_ne_of_ne
    · rintro rfl
      exact hk hi
    · rintro rfl
      exact hk hj
  · by_cases hkj : k = j
    · rw [hkj, exchange_right, Equiv.swap_apply_right]
    · by_cases hki : k = i
      · rw [hki, exchange_left, Equiv.swap_apply_left]
      · rw [exchange_of_ne hki hkj, Equiv.swap_apply_of_ne_of_ne hki hkj]

/-- The list of the elements is a permutation. -/
theorem map_perm (h : Rearranged S a b) {l : List ι} (hl : l.Nodup) (hmem : ∀ i, i ∈ l ↔ S i) :
    (l.map b).Perm (l.map a) := by
  obtain ⟨σ, hσ, hb⟩ := h
  have hrange : ∀ i, S (σ i) ↔ S i := by
    intro i
    constructor
    · intro hi
      by_contra hout
      exact hout (hσ i hout ▸ hi)
    · intro hi
      by_contra hout
      have heq : σ i = i := σ.injective (hσ (σ i) hout)
      exact hout (heq.symm ▸ hi)
  have hperm : (l.map σ).Perm l := by
    apply (List.perm_ext_iff_of_nodup (List.Nodup.map σ.injective hl) hl).mpr
    intro i
    rw [List.mem_map, hmem i]
    constructor
    · rintro ⟨j, hj, rfl⟩
      exact (hrange j).mpr ((hmem j).mp hj)
    · intro hi
      refine ⟨σ.symm i, ?_, σ.apply_symm_apply i⟩
      rw [hmem, ← hrange, σ.apply_symm_apply]
      exact hi
  have hmap : l.map b = (l.map σ).map a := by
    rw [List.map_map]
    exact List.map_congr_left fun i _ => hb i
  rw [hmap]
  exact hperm.map a

end Rearranged

/-! ### Order -/

/-- The elements from `low` to `high` are in ascending order. -/
def Ascends (c : α → α → Int) (a : Int → α) (low high : Int) : Prop :=
  ∀ i j, low ≤ i → i ≤ j → j ≤ high → c (a i) (a j) ≤ 0

namespace Ascends

variable {c : α → α → Int} {a b : Int → α} {low high l r : Int} {P : α → Prop} {pivot : α}

theorem congr (h : Ascends c a low high) (heq : ∀ i, low ≤ i → i ≤ high → b i = a i) :
    Ascends c b low high := by
  intro i j hi hij hj
  rw [heq i hi (by omega), heq j (by omega) hj]
  exact h i j hi hij hj

/-- A range with one element at most. -/
theorem short (hc : Compares c P) (ha : ∀ i, low ≤ i → i ≤ high → P (a i)) (hle : high ≤ low) :
    Ascends c a low high := by
  intro i j hi hij hj
  obtain rfl : i = j := by omega
  have hself := hc.swap (ha i hi hj) (ha i hi hj)
  omega

/-- Two ranges, one below and the other above a pivot, which cover everything but elements that
are both. -/
theorem join (hc : Compares c P) (hpivot : P pivot) (ha : ∀ i, low ≤ i → i ≤ high → P (a i))
    (hleft : Ascends c a low r) (hright : Ascends c a l high)
    (hbelow : ∀ i, low ≤ i → i < l → c (a i) pivot ≤ 0)
    (habove : ∀ i, r < i → i ≤ high → c pivot (a i) ≤ 0) : Ascends c a low high := by
  intro i j hi hij hj
  by_cases hjr : j ≤ r
  · exact hleft i j hi hij hjr
  by_cases hil : l ≤ i
  · exact hright i j hil hij hj
  apply hc.trans (ha i hi (by omega)) hpivot (ha j (by omega) hj)
  · exact hbelow i hi (by omega)
  · exact habove j (by omega) hj

end Ascends

end XSBEngine.Library
