import Mathlib

/-!
# Traversals with an explicit stack

A traversal pops a cell, emits a symbol for it and pushes the cells below it, until the stack is
empty or a step aborts. A step may need fuel of its own. What a consumer of the symbols computes
along the way is its fold over the symbols emitted.
-/

namespace StackTraversal

open Option

/-- What a step does with the top of the stack. -/
inductive Step (S C A R : Type*) where
  | emit (symbol : A) (push : List C) (state : S)
  | abort (reason : R)

/-- How a traversal ends. -/
inductive End (S R : Type*) where
  | done (state : S)
  | abort (state : S) (reason : R)

/-- The symbols emitted and the end. -/
structure Output (S A R : Type*) where
  symbols : List A
  last : End S R

variable {S C A R B : Type*}

/-- Symbols emitted earlier. -/
def Output.prepend (l : List A) (o : Output S A R) : Output S A R := ⟨l ++ o.symbols, o.last⟩

/-- The traversal on its own. The first argument bounds the steps. -/
def scan (step : Nat → S → C → Option (Step S C A R)) : Nat → S → List C → Option (Output S A R)
  | 0, _, _ => none
  | _ + 1, s, [] => some ⟨[], .done s⟩
  | fuel + 1, s, c :: cs =>
    match step fuel s c with
    | none => none
    | some (.abort r) => some ⟨[], .abort s r⟩
    | some (.emit a push s') => (scan step fuel s' (push ++ cs)).map (Output.prepend [a])

/-- The traversal with a consumer. -/
def run (step : Nat → S → C → Option (Step S C A R)) (consume : B → A → B) :
    Nat → B → S → List C → Option (B × End S R)
  | 0, _, _, _ => none
  | _ + 1, b, s, [] => some (b, .done s)
  | fuel + 1, b, s, c :: cs =>
    match step fuel s c with
    | none => none
    | some (.abort r) => some (b, .abort s r)
    | some (.emit a push s') => run step consume fuel (consume b a) s' (push ++ cs)

variable {step : Nat → S → C → Option (Step S C A R)} {s s' s'' : S} {c : C}
  {cs cs' cs'' : List C} {l l' : List A} {o : Output S A R} {fuel n : Nat}

/-- The consumer folds over the symbols emitted. -/
theorem run_eq (consume : B → A → B) (fuel : Nat) (b : B) (s : S) (cs : List C) :
    run step consume fuel b s cs =
      (scan step fuel s cs).map fun o => (o.symbols.foldl consume b, o.last) := by
  induction fuel generalizing b s cs with
  | zero => rfl
  | succ fuel ih =>
    cases cs with
    | nil => rfl
    | cons c cs =>
      simp only [run, scan]
      cases step fuel s c with
      | none => rfl
      | some x =>
        cases x with
        | abort r => rfl
        | emit a push s' =>
          simp only
          rw [ih, map_map]
          rfl

/-- More fuel does not change a step. -/
def Lawful (step : Nat → S → C → Option (Step S C A R)) : Prop :=
  ∀ n k s c x, step n s c = some x → n ≤ k → step k s c = some x

/-- The steps that lead from one state and stack to another, with the symbols emitted. -/
inductive Reads (step : Nat → S → C → Option (Step S C A R)) :
    S → List C → List A → S → List C → Prop where
  | refl (s : S) (cs : List C) : Reads step s cs [] s cs
  | head {n : Nat} {s s' s'' : S} {c : C} {cs cs'' push : List C} {a : A} {l : List A} :
      step n s c = some (.emit a push s') → Reads step s' (push ++ cs) l s'' cs'' →
      Reads step s (c :: cs) (a :: l) s'' cs''

theorem Reads.trans (h : Reads step s cs l s' cs') (h' : Reads step s' cs' l' s'' cs'') :
    Reads step s cs (l ++ l') s'' cs'' := by
  induction h with
  | refl s cs => exact h'
  | head hs _ ih => exact .head hs (ih h')

/-- What every step preserves. -/
theorem Reads.invariant (h : Reads step s cs l s' cs') {P : S → Prop}
    (hstep : ∀ n s c a push s', step n s c = some (.emit a push s') → P s → P s') (hp : P s) :
    P s' := by
  induction h with
  | refl => exact hp
  | head hs _ ih => exact ih (hstep _ _ _ _ _ _ hs hp)

/-- A traversal that aborts has read a part of its stack. -/
theorem reads_of_scan_abort {r : R} (h : scan step fuel s cs = some ⟨l, .abort s' r⟩) :
    ∃ cs', Reads step s cs l s' cs' := by
  induction fuel generalizing s cs l with
  | zero => cases h
  | succ fuel ih =>
    cases cs with
    | nil => cases h
    | cons c cs =>
      simp only [scan] at h
      split at h
      next => cases h
      next => cases h; exact ⟨c :: cs, .refl _ _⟩
      next a push s₁ hs =>
        obtain ⟨⟨l₁, e⟩, ho, he⟩ := map_eq_some_iff.mp h
        cases he
        obtain ⟨cs', hr⟩ := ih ho
        exact ⟨cs', .head hs hr⟩

section Lawful

variable (hstep : Lawful step)
include hstep

theorem scan_mono {k : Nat} (h : scan step n s cs = some o) (hle : n ≤ k) :
    scan step k s cs = some o := by
  induction n generalizing k s cs o with
  | zero => cases h
  | succ n ih =>
    obtain ⟨k, rfl⟩ : ∃ j, k = j + 1 := ⟨k - 1, by omega⟩
    have hnk : n ≤ k := Nat.le_of_succ_le_succ hle
    cases cs with
    | nil => exact h
    | cons c cs =>
      simp only [scan] at h ⊢
      split at h
      next => cases h
      next r hs =>
        rw [hstep n k s c _ hs hnk]
        exact h
      next a push s₁ hs =>
        obtain ⟨o1, ho, rfl⟩ := map_eq_some_iff.mp h
        rw [hstep n k s c _ hs hnk]
        simp only
        rw [ih ho hnk]
        rfl

/-- With enough fuel a traversal passes through the states it reads. -/
theorem Reads.scan_eq (h : Reads step s cs l s' cs') :
    ∃ n k, ∀ fuel, n ≤ fuel →
      scan step (fuel + k) s cs = (scan step fuel s' cs').map (Output.prepend l) := by
  induction h with
  | refl s cs =>
    refine ⟨0, 0, fun fuel _ => ?_⟩
    rw [show Output.prepend ([] : List A) = (id : Output S A R → Output S A R) from rfl,
      map_id]
    rfl
  | @head n1 s s' s'' c cs cs'' push a l hs _ ih =>
    obtain ⟨n, k, ih⟩ := ih
    refine ⟨max n n1, k + 1, fun fuel hf => ?_⟩
    have hn1 : step (fuel + k) s c = some (.emit a push s') :=
      hstep n1 (fuel + k) s c _ hs (by omega)
    rw [← Nat.add_assoc, scan, hn1]
    simp only
    rw [ih fuel (by omega), map_map]
    rfl

/-- A traversal that ends passes through the states it reads. -/
theorem Reads.of_scan (h : Reads step s cs l s' cs') (hscan : scan step fuel s cs = some o) :
    ∃ fuel' o', scan step fuel' s' cs' = some o' ∧ o = o'.prepend l := by
  obtain ⟨n, k, hn⟩ := h.scan_eq hstep
  have hmono := scan_mono hstep hscan (Nat.le_add_left fuel (n + k))
  have heq := hn (n + fuel) (Nat.le_add_right n fuel)
  rw [show n + fuel + k = n + k + fuel by omega, hmono] at heq
  obtain ⟨o', ho', he⟩ := map_eq_some_iff.mp heq.symm
  exact ⟨n + fuel, o', ho', he.symm⟩

/-- A stack that has been read is done. -/
theorem Reads.done (h : Reads step s cs l s' []) :
    ∃ n, ∀ fuel, n ≤ fuel → scan step fuel s cs = some ⟨l, .done s'⟩ := by
  obtain ⟨n, k, hn⟩ := h.scan_eq hstep
  have heq := hn (n + 1) (Nat.le_succ n)
  refine ⟨n + 1 + k, fun fuel hf => scan_mono hstep ?_ hf⟩
  rw [heq]
  simp [scan, Output.prepend]

/-- Two traversals of one stack agree. -/
theorem scan_unique {fuel' : Nat} {o' : Output S A R} (h : scan step fuel s cs = some o)
    (h' : scan step fuel' s cs = some o') : o = o' := by
  have h₁ := scan_mono hstep h (Nat.le_max_left fuel fuel')
  have h₂ := scan_mono hstep h' (Nat.le_max_right fuel fuel')
  rw [h₁] at h₂
  exact some.inj h₂

end Lawful

/-- A step that never emits. -/
theorem not_done_of_blocked (hblocked : ∀ n a push s₁, step n s c ≠ some (.emit a push s₁))
    (h : scan step fuel s (c :: cs) = some ⟨l, .done s'⟩) : False := by
  cases fuel with
  | zero => cases h
  | succ fuel =>
    simp only [scan] at h
    split at h
    next => cases h
    next => cases h
    next a push s₁ hs => exact hblocked _ _ _ _ hs

/-! ### Complete readings -/

end StackTraversal
