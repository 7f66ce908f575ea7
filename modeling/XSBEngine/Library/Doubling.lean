import Mathlib

/-!
# Buffers that are doubled

The length of a buffer that is made twice as long whenever it does not hold what is written next.
-/

namespace XSBEngine.Library

/-- The length of a buffer of `first` bytes that has been doubled until it has `need` bytes. -/
def Doubled (first need len : Nat) : Prop :=
  ∃ k, len = first * 2 ^ k ∧ need ≤ len ∧ (k = 0 ∨ first * 2 ^ (k - 1) < need)

namespace Doubled

variable {first need need' len o : Nat}

theorem start (h : need ≤ first) : Doubled first need first := ⟨0, by simp, h, Or.inl rfl⟩

section

variable (h : Doubled first need len)
include h

/-- More bytes that the buffer still holds. -/
theorem mono (hle : need ≤ need') (hlen : need' ≤ len) :
    Doubled first need' len := by
  obtain ⟨k, heq, -, hmin⟩ := h
  refine ⟨k, heq, hlen, ?_⟩
  rcases hmin with hk | hlt
  · exact Or.inl hk
  · exact Or.inr (Nat.lt_of_lt_of_le hlt hle)

/-- More bytes than the buffer holds. -/
theorem double (hlt : len < need') (hle : need' ≤ len * 2) :
    Doubled first need' (len * 2) := by
  obtain ⟨k, heq, -, -⟩ := h
  refine ⟨k + 1, ?_, hle, Or.inr ?_⟩
  · rw [heq, Nat.pow_succ, Nat.mul_assoc]
  · rw [Nat.add_sub_cancel, ← heq]
    exact hlt

theorem need_le : need ≤ len := by
  obtain ⟨k, -, hle, -⟩ := h
  exact hle

/-- Text that needs no more room than `need` ends at the end of the buffer only if it fills one of
the lengths. -/
theorem full_iff (hle : o ≤ need) :
    o = len ↔ ∃ k, o = first * 2 ^ k ∧ need ≤ first * 2 ^ k := by
  obtain ⟨k, rfl, hneed, hmin⟩ := h
  constructor
  · intro heq
    exact ⟨k, heq, hneed⟩
  · rintro ⟨j, rfl, hj⟩
    have hneed_eq : need = first * 2 ^ j := by omega
    rw [hneed_eq] at hneed hmin
    have hle : first * 2 ^ k ≤ first * 2 ^ j := by
      rcases hmin with rfl | hlt
      · exact Nat.mul_le_mul_left _ (Nat.pow_le_pow_right (by decide) (Nat.zero_le j))
      · apply Nat.mul_le_mul_left
        apply Nat.pow_le_pow_right (by decide)
        by_contra hjk
        have := Nat.mul_le_mul_left first (Nat.pow_le_pow_right (n := 2) (by decide)
          (show j ≤ k - 1 by omega))
        omega
    exact Nat.le_antisymm hneed hle

end

end Doubled

end XSBEngine.Library
