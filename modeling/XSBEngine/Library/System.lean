import Mathlib

/-!
# Transition systems

States, labelled steps and the states that can be reached, with the rule that an invariant holds
in all of them.
-/

namespace XSBEngine.Library

/-- A transition system with labelled steps. -/
structure System (σ ε : Type*) where
  init : σ → Prop
  step : σ → ε → σ → Prop

namespace System

variable {σ ε : Type*} {S : System σ ε} {I J : σ → Prop} {s s' : σ} {e : ε}

/-- The states that runs reach. -/
inductive Reachable (S : System σ ε) : σ → Prop where
  | init {s : σ} : S.init s → Reachable S s
  | step {s s' : σ} {e : ε} : Reachable S s → S.step s e s' → Reachable S s'

/-- The system with those steps only that meet a condition. -/
def restrict (S : System σ ε) (ok : σ → ε → Prop) : System σ ε where
  init := S.init
  step s e s' := ok s e ∧ S.step s e s'

/-- An invariant holds at the start and is kept by the steps. -/
structure Invariant (S : System σ ε) (I : σ → Prop) : Prop where
  init : ∀ s, S.init s → I s
  step : ∀ s e s', I s → S.step s e s' → I s'

theorem Invariant.holds (h : S.Invariant I) (hs : S.Reachable s) : I s := by
  induction hs with
  | init hi => exact h.init _ hi
  | step _ hstep ih => exact h.step _ _ _ ih hstep

/-- An invariant proved with the help of another one. -/
theorem Invariant.and (h : S.Invariant I) (hinit : ∀ s, S.init s → J s)
    (hstep : ∀ s e s', I s → J s → S.step s e s' → J s') : S.Invariant fun s => I s ∧ J s where
  init s hs := ⟨h.init s hs, hinit s hs⟩
  step s e s' hs hstep' := ⟨h.step s e s' hs.1 hstep', hstep s e s' hs.1 hs.2 hstep'⟩

/-- What is reached under a condition is reached without it. -/
theorem Reachable.of_restrict {ok : σ → ε → Prop} (h : (S.restrict ok).Reachable s) :
    S.Reachable s := by
  induction h with
  | init hi => exact .init hi
  | step _ hstep ih => exact ih.step hstep.2

end System

end XSBEngine.Library
