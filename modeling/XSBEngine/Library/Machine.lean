import Mathlib

/-!
# Machines

A step function with errors that runs until it halts, what its runs keep, and that a run ends if
each step makes a number smaller.
-/

namespace XSBEngine.Library

/-- A machine that is run until it halts or fails. -/
structure Machine (σ ε : Type*) where
  halted : σ → Bool
  step : σ → Except ε σ

namespace Machine

variable {σ ε : Type*} {M : Machine σ ε} {I : σ → Prop} {s s' s'' : σ} {n : Nat}

/-- At most the given number of steps. -/
def run (M : Machine σ ε) : Nat → σ → Except ε σ
  | 0, s => .ok s
  | n + 1, s => if M.halted s then .ok s else M.step s >>= M.run n

/-- The states that a run goes through. -/
inductive Reaches (M : Machine σ ε) : σ → σ → Prop where
  | refl (s : σ) : Reaches M s s
  | step {s s' s'' : σ} : M.halted s = false → M.step s = .ok s' → Reaches M s' s'' →
      Reaches M s s''

/-- A run ends in a state that satisfies `P`, or with an error that satisfies `Q`. -/
def Ends (M : Machine σ ε) (s : σ) (P : σ → Prop) (Q : ε → Prop) : Prop :=
  ∃ n, (∃ s', M.run n s = .ok s' ∧ M.halted s' ∧ P s') ∨ ∃ e, M.run n s = .error e ∧ Q e

theorem run_halted (h : M.halted s) (n : Nat) : M.run n s = .ok s := by
  cases n with
  | zero => rfl
  | succ n => rw [run, if_pos h]

theorem run_succ (h : M.halted s = false) (n : Nat) :
    M.run (n + 1) s = M.step s >>= M.run n := by
  rw [run, h]
  rfl

/-- What a run ends in is one of the states it goes through. -/
theorem reaches_of_run (h : M.run n s = .ok s') : M.Reaches s s' := by
  induction n generalizing s with
  | zero =>
    obtain rfl := Except.ok.inj h
    exact .refl s
  | succ n ih =>
    cases hhalted : M.halted s with
    | true =>
      rw [run_halted hhalted] at h
      obtain rfl := Except.ok.inj h
      exact .refl s
    | false =>
      rw [run_succ hhalted] at h
      cases hstep : M.step s with
      | error e =>
        rw [hstep] at h
        cases h
      | ok s₁ =>
        rw [hstep] at h
        exact .step hhalted hstep (ih h)

/-- What each step keeps holds in all states of a run. -/
theorem Reaches.invariant (h : M.Reaches s s') (hs : I s)
    (hstep : ∀ s s', I s → M.halted s = false → M.step s = .ok s' → I s') : I s' := by
  induction h with
  | refl s => exact hs
  | step hhalted hs' _ ih => exact ih (hstep _ _ hs hhalted hs')

theorem Reaches.trans (h : M.Reaches s s') (h' : M.Reaches s' s'') : M.Reaches s s'' := by
  induction h with
  | refl s => exact h'
  | step hhalted hs _ ih => exact .step hhalted hs (ih h')

/-- A run comes to its end from each of its states. -/
theorem Reaches.join (h : M.Reaches s s') (h' : M.Reaches s s'') (hhalted : M.halted s'') :
    M.Reaches s' s'' := by
  induction h with
  | refl s => exact h'
  | step hs heq _ ih =>
    cases h' with
    | refl _ => cases hs.symm.trans hhalted
    | step _ heq' hrest =>
      obtain rfl := Except.ok.inj (heq.symm.trans heq')
      exact ih hrest

variable {P : σ → Prop} {Q : ε → Prop}

/-- A run ends if each step makes smaller the number that an invariant gives to a state. -/
theorem ends_of_measure {J : σ → Nat → Prop} (hstep : ∀ s n, J s n → M.halted s = false →
      (∃ s' n', M.step s = .ok s' ∧ J s' n' ∧ n' < n) ∨ ∃ e, M.step s = .error e ∧ Q e)
    (hhalted : ∀ s n, J s n → M.halted s → P s) (hs : J s n) : M.Ends s P Q := by
  induction n using Nat.strongRecOn generalizing s with
  | ind n ih =>
    cases hh : M.halted s with
    | true => exact ⟨0, Or.inl ⟨s, rfl, hh, hhalted s n hs hh⟩⟩
    | false =>
      rcases hstep s n hs hh with ⟨s', n', heq, hs', hlt⟩ | ⟨e, heq, he⟩
      · obtain ⟨k, hk⟩ := ih n' hlt hs'
        refine ⟨k + 1, ?_⟩
        rw [run_succ hh, heq]
        exact hk
      · refine ⟨1, Or.inr ⟨e, ?_, he⟩⟩
        rw [run_succ hh, heq]
        rfl

/-- The end of a run does not depend on where it is started. -/
theorem Ends.of_step (hhalted : M.halted s = false)
    (hstep : M.step s = .ok s') (h : M.Ends s' P Q) : M.Ends s P Q := by
  obtain ⟨k, hk⟩ := h
  refine ⟨k + 1, ?_⟩
  rw [run_succ hhalted, hstep]
  exact hk

theorem Ends.step (h : M.Ends s P Q) (hhalted : M.halted s = false)
    (hstep : M.step s = .ok s') : M.Ends s' P Q := by
  obtain ⟨k, hk⟩ := h
  cases k with
  | zero =>
    rcases hk with ⟨s₁, heq, hs1, -⟩ | ⟨e, heq, -⟩
    · obtain rfl := Except.ok.inj heq
      cases hhalted.symm.trans hs1
    · cases heq
  | succ k =>
    rw [run_succ hhalted, hstep] at hk
    exact ⟨k, hk⟩

theorem Ends.reaches (h : M.Ends s P Q) (hr : M.Reaches s s') :
    M.Ends s' P Q := by
  induction hr with
  | refl s => exact h
  | step hhalted hstep _ ih => exact ih (h.step hhalted hstep)

/-- A run that comes to a halted state ends in it. -/
theorem Reaches.ends (h : M.Reaches s s') (hhalted : M.halted s')
    (hs : P s') : M.Ends s P Q := by
  induction h with
  | refl s => exact ⟨0, Or.inl ⟨s, rfl, hhalted, hs⟩⟩
  | step h hstep _ ih => exact (ih hhalted hs).of_step h hstep

/-- A run ends in the halted state that it comes to. -/
theorem Ends.of_halted (h : M.Ends s P Q) (hhalted : M.halted s) :
    P s := by
  obtain ⟨n, ⟨s', heq, -, hs'⟩ | ⟨e, heq, -⟩⟩ := h
  · rw [run_halted hhalted] at heq
    obtain rfl := Except.ok.inj heq
    exact hs'
  · rw [run_halted hhalted] at heq
    cases heq

/-- From a halted state no other is reached. -/
theorem Reaches.eq_of_halted (h : M.Reaches s s') (hhalted : M.halted s) : s' = s := by
  cases h with
  | refl _ => rfl
  | step h _ _ => cases h.symm.trans hhalted

/-- A step that fails ends the run with its error. -/
theorem Ends.of_error {e : ε} (h : M.Ends s P Q)
    (hhalted : M.halted s = false) (hstep : M.step s = .error e) : Q e := by
  obtain ⟨k, hk⟩ := h
  cases k with
  | zero =>
    rcases hk with ⟨s₁, heq, hs1, -⟩ | ⟨e', heq, -⟩
    · obtain rfl := Except.ok.inj heq
      cases hhalted.symm.trans hs1
    · cases heq
  | succ k =>
    rw [run_succ hhalted, hstep] at hk
    rcases hk with ⟨s₁, heq, -⟩ | ⟨e', heq, he⟩
    · cases heq
    · obtain rfl := Except.error.inj heq
      exact he

/-- A run ends if each step goes down in a well-founded order. -/
theorem ends_of_wellFounded {α : Type*} {r : α → α → Prop} (hwf : WellFounded r) (rank : σ → α)
    (hstep : ∀ s, I s → M.halted s = false →
      (∃ s', M.step s = .ok s' ∧ I s' ∧ r (rank s') (rank s)) ∨ ∃ e, M.step s = .error e ∧ Q e)
    (hhalted : ∀ s, I s → M.halted s → P s) (hs : I s) : M.Ends s P Q := by
  induction hx : rank s using hwf.induction generalizing s with
  | h x ih =>
    cases hh : M.halted s with
    | true => exact ⟨0, Or.inl ⟨s, rfl, hh, hhalted s hs hh⟩⟩
    | false =>
      rcases hstep s hs hh with ⟨s', heq, hs', hlt⟩ | ⟨e, heq, he⟩
      · rw [hx] at hlt
        exact (ih _ hlt hs' rfl).of_step hh heq
      · refine ⟨1, Or.inr ⟨e, ?_, he⟩⟩
        rw [run_succ hh, heq]
        rfl

/-- A run that comes back to the same state does not end. -/
theorem not_ends_of_step_self (hhalted : M.halted s = false)
    (hstep : M.step s = .ok s) : ¬ M.Ends s P Q := by
  have hrun : ∀ n, M.run n s = .ok s := by
    intro n
    induction n with
    | zero => rfl
    | succ n ih =>
      rw [run_succ hhalted, hstep]
      exact ih
  rintro ⟨n, ⟨s', heq, hs', -⟩ | ⟨e, heq, -⟩⟩
  · rw [hrun n] at heq
    obtain rfl := Except.ok.inj heq
    cases hhalted.symm.trans hs'
  · rw [hrun n] at heq
    cases heq

end Machine

end XSBEngine.Library
