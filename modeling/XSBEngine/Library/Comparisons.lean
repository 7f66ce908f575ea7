import XSBEngine.Library.Neighbours

/-!
# Comparisons by the sign of a number

Functions that return a number below, at or above 0 for what comes before, beside or behind, as
`qsort` expects them, and their lexicographic combinations.
-/

namespace XSBEngine.Library

variable {α β : Type*}

/-- The signs are those of a total preorder on the elements of a set. -/
structure Compares (c : α → α → Int) (S : α → Prop) : Prop where
  swap {a b : α} : S a → S b → (c a b < 0 ↔ 0 < c b a)
  trans {a b d : α} : S a → S b → S d → c a b ≤ 0 → c b d ≤ 0 → c a d ≤ 0

/-- The first comparison that is not 0. -/
def thenBy (c d : α → α → Int) (a b : α) : Int := if c a b ≠ 0 then c a b else d a b

namespace Compares

variable {c d : α → α → Int} {S T : α → Prop} {a b e : α}

theorem mono (h : Compares c S) (hsub : ∀ a, T a → S a) : Compares c T where
  swap ha hb := h.swap (hsub _ ha) (hsub _ hb)
  trans ha hb hd := h.trans (hsub _ ha) (hsub _ hb) (hsub _ hd)

theorem zero_swap (h : Compares c S) (ha : S a) (hb : S b) (heq : c a b = 0) : c b a = 0 := by
  have hab := h.swap ha hb
  have hba := h.swap hb ha
  omega

theorem nonneg_iff (h : Compares c S) (ha : S a) (hb : S b) : 0 ≤ c a b ↔ c b a ≤ 0 := by
  have hab := h.swap ha hb
  omega

theorem comap (f : β → α) {U : β → Prop} (h : Compares c S) (hmaps : ∀ x, U x → S (f x)) :
    Compares (fun x y => c (f x) (f y)) U where
  swap hx hy := h.swap (hmaps _ hx) (hmaps _ hy)
  trans hx hy hz := h.trans (hmaps _ hx) (hmaps _ hy) (hmaps _ hz)

/-- The other direction. -/
theorem neg (h : Compares c S) : Compares (fun a b => -c a b) S where
  swap {a b} ha hb := by
    have hba := h.swap hb ha
    show -c a b < 0 ↔ 0 < -c b a
    omega
  trans {a b e} ha hb he hab hbe := by
    have hab' := (h.nonneg_iff ha hb).mp (by omega)
    have hbe' := (h.nonneg_iff hb he).mp (by omega)
    have hae := (h.nonneg_iff ha he).mpr (h.trans he hb ha hbe' hab')
    show -c a e ≤ 0
    omega

/-- Where the first comparison ends in 0, so do both on the way. -/
theorem zero_trans (h : Compares c S) (ha : S a) (hb : S b) (he : S e) (hab : c a b ≤ 0)
    (hbe : c b e ≤ 0) (hae : c a e = 0) : c a b = 0 ∧ c b e = 0 := by
  have hea := h.zero_swap ha he hae
  have hba := h.trans hb he ha hbe (Int.le_of_eq hea)
  have heb := h.trans he ha hb (Int.le_of_eq hea) hab
  have hab' := (h.nonneg_iff ha hb).mpr hba
  have hbe' := (h.nonneg_iff hb he).mpr heb
  omega

/-- Lexicographic comparison. -/
theorem thenBy (h : Compares c S) (h' : Compares d S) : Compares (thenBy c d) S where
  swap {a b} ha hb := by
    have hab := h.swap ha hb
    have hba := h.swap hb ha
    have hd := h'.swap ha hb
    simp only [Library.thenBy]
    split
    · rw [if_pos (by omega)]
      exact hab
    · rw [if_neg (by omega)]
      exact hd
  trans {a b e} ha hb he hab hbe := by
    simp only [Library.thenBy] at hab hbe ⊢
    have hab' : c a b ≤ 0 := by
      split at hab
      · exact hab
      · omega
    have hbe' : c b e ≤ 0 := by
      split at hbe
      · exact hbe
      · omega
    have hae := h.trans ha hb he hab' hbe'
    split
    · exact hae
    · next hzero =>
      obtain ⟨hab0, hbe0⟩ := h.zero_trans ha hb he hab' hbe' (by omega)
      rw [if_neg (by omega)] at hab hbe
      exact h'.trans ha hb he hab hbe

/-- The preorder of a comparison on a list. -/
theorem preorders {l : List α} (h : Compares c (· ∈ l)) :
    Preorders (fun a b => c a b ≤ 0) l where
  trans a ha b hb d hd := h.trans ha hb hd
  total a ha b hb := by
    have hab := h.swap ha hb
    omega

end Compares

end XSBEngine.Library
