import XSBEngine.Terms.Walker

/-!
# The symbols of a term as a code

While the enumerator array has at most `0x20000` cells, a symbol tells how many cells a walker
pushes for it, so that the symbols of one term are never a proper prefix of those of another.
-/

namespace XSBEngine.Terms

open StackTraversal XSBEngine.Tries Machine

theorem isNewTrieAttv_iff (f : Symbol) : isNewTrieAttv f = f.val.testBit 17 := by
  rw [isNewTrieAttv, show newTrieAttvTag = 2 ^ 17 from rfl, Nat.and_two_pow]
  cases f.val.testBit 17 <;> rfl

/-! ### Steps of a walker -/

variable {σ ρ : Type} {k : Walker σ ρ} {s s' : Reader σ} {c : Cell} {push : List Cell}
  {a : Symbol} {n : Nat} {m : Machine}

theorem Walker.step_emit (h : k.step n s c = some (.emit a push s')) :
    ∃ cell v limits, deref s.machine.mem n c = some cell ∧
      visit k.arity k.move k.byAddr s.machine s.ctr cell = some v ∧
      a = v.symbol ∧ push = v.push ∧ s' = ⟨v.machine, v.ctr, cell.isConst, limits⟩ := by
  unfold Walker.step at h
  split at h
  next => cases h
  next cell hd =>
    split at h
    next => cases h
    next => cases h
    next limits _ =>
      split at h
      next => cases h
      next v hv =>
        cases h
        exact ⟨cell, v, limits, hd, hv, rfl, rfl, rfl⟩

end XSBEngine.Terms
