import XSBEngine.Library.Matching

/-!
# Subsumption

Terms with variables, their instances, and the order from an instance to what it is an instance of.
-/

namespace Subsumption

open XSBEngine.Library

/-- A term. -/
inductive Term (F : Type*)
  | var (n : Nat)
  | app (f : F) (args : List (Term F))

variable {F : Type*}

section DecEq

variable [DecidableEq F]

mutual

def Term.decEq : (t u : Term F) → Decidable (t = u)
  | .var n, .var m => decidable_of_iff (n = m) (by rw [Term.var.injEq])
  | .app f ts, .app g us =>
    let _ := decEqAll ts us
    decidable_of_iff (f = g ∧ ts = us) (by rw [Term.app.injEq])
  | .var _, .app _ _ => .isFalse nofun
  | .app _ _, .var _ => .isFalse nofun

def decEqAll : (ts us : List (Term F)) → Decidable (ts = us)
  | [], [] => .isTrue rfl
  | t :: ts, u :: us =>
    let _ := Term.decEq t u
    let _ := decEqAll ts us
    decidable_of_iff (t = u ∧ ts = us) (by rw [List.cons.injEq])
  | [], _ :: _ => .isFalse nofun
  | _ :: _, [] => .isFalse nofun

end

instance : DecidableEq (Term F) := Term.decEq

end DecEq

mutual

/-- Replace the variables by terms. -/
def Term.subst (θ : Nat → Term F) : Term F → Term F
  | .var n => θ n
  | .app f args => .app f (substAll θ args)

def substAll (θ : Nat → Term F) : List (Term F) → List (Term F)
  | [] => []
  | t :: ts => t.subst θ :: substAll θ ts

end

mutual

/-- A term without variables. -/
def Term.ground : Term F → Bool
  | .var _ => false
  | .app _ args => groundAll args

def groundAll : List (Term F) → Bool
  | [] => true
  | t :: ts => t.ground && groundAll ts

end

variable {θ : Nat → Term F} {t : Term F} {ts us vs : List (Term F)}

mutual

theorem Term.subst_var : ∀ t : Term F, t.subst .var = t
  | .var n => rfl
  | .app f args => by rw [Term.subst, substAll_var]

theorem substAll_var : ∀ ts : List (Term F), substAll .var ts = ts
  | [] => rfl
  | t :: ts => by rw [substAll, Term.subst_var, substAll_var]

end

mutual

theorem Term.subst_subst (θ η : Nat → Term F) :
    ∀ t : Term F, (t.subst θ).subst η = t.subst fun n => (θ n).subst η
  | .var n => rfl
  | .app f args => by rw [Term.subst, Term.subst, Term.subst, substAll_substAll]

theorem substAll_substAll (θ η : Nat → Term F) :
    ∀ ts : List (Term F), substAll η (substAll θ ts) = substAll (fun n => (θ n).subst η) ts
  | [] => rfl
  | t :: ts => by rw [substAll, substAll, substAll, Term.subst_subst, substAll_substAll]

end

mutual

theorem Term.subst_ground (θ : Nat → Term F) : ∀ t : Term F, t.ground = true → t.subst θ = t
  | .var n, h => by cases h
  | .app f args, h => by
    rw [Term.ground] at h
    rw [Term.subst, substAll_ground θ args h]

theorem substAll_ground (θ : Nat → Term F) :
    ∀ ts : List (Term F), groundAll ts = true → substAll θ ts = ts
  | [], _ => rfl
  | t :: ts, h => by
    rw [groundAll, Bool.and_eq_true] at h
    rw [substAll, Term.subst_ground θ t h.1, substAll_ground θ ts h.2]

end

theorem substAll_length (θ : Nat → Term F) (ts : List (Term F)) :
    (substAll θ ts).length = ts.length := by
  induction ts with
  | nil => rfl
  | cons t ts ih => rw [substAll, List.length_cons, List.length_cons, ih]

/-! ### The order -/

/-- A tuple of terms is an instance of another one. -/
def Instance (ts us : List (Term F)) : Prop := ∃ θ, substAll θ us = ts

/-- Two tuples of terms are instances of each other. -/
def Variant (ts us : List (Term F)) : Prop := Instance ts us ∧ Instance us ts

theorem Instance.refl (ts : List (Term F)) : Instance ts ts := ⟨.var, substAll_var ts⟩

theorem Instance.trans (h : Instance ts us) (h' : Instance us vs) : Instance ts vs := by
  obtain ⟨θ, rfl⟩ := h
  obtain ⟨η, rfl⟩ := h'
  exact ⟨_, (substAll_substAll η θ vs).symm⟩

/-- A tuple without variables has no other instance. -/
theorem Instance.eq_of_ground (h : Instance ts us) (hus : groundAll us = true) : ts = us := by
  obtain ⟨θ, rfl⟩ := h
  exact substAll_ground θ us hus

theorem Variant.refl (ts : List (Term F)) : Variant ts ts := ⟨.refl ts, .refl ts⟩

theorem Variant.symm (h : Variant ts us) : Variant us ts := ⟨h.2, h.1⟩

theorem Variant.trans (h : Variant ts us) (h' : Variant us vs) : Variant ts vs :=
  ⟨h.1.trans h'.1, h'.2.trans h.2⟩

/-! ### The test -/

section Test

variable [DecidableEq F]

/-- A symbol with its arguments. -/
def symbol (f : F) (n : Nat) : Symbol (Term F) where
  arity := n
  build := .app f
  args t :=
    match t with
    | .var _ => none
    | .app g ts => if g = f ∧ ts.length = n then some ts else none
  args_eq t ts := by
    cases t with
    | var m => simp
    | app g us =>
      simp only
      split
      next h =>
        rw [Option.some_inj, h.1, Term.app.injEq]
        constructor
        · rintro rfl
          exact ⟨h.2, rfl, rfl⟩
        · exact fun h => h.2.2.symm
      next h =>
        rw [Term.app.injEq]
        constructor
        · nofun
        · rintro ⟨hlen, rfl, rfl⟩
          exact absurd ⟨rfl, hlen⟩ h

mutual

/-- A term with variables, to be matched with terms that are taken as they are. -/
def Term.pattern : Term F → Pattern (Term F)
  | .var n => .var n
  | .app f args => .app (symbol f args.length) (patternAll args)

def patternAll : List (Term F) → List (Pattern (Term F))
  | [] => []
  | t :: ts => t.pattern :: patternAll ts

end

mutual

theorem Term.pattern_inst : ∀ t u : Term F, t.pattern.Inst θ u ↔ t.subst θ = u
  | .var n, u => by rw [Term.pattern, Pattern.Inst, Term.subst]
  | .app f args, .var m => by
    rw [Term.pattern, Pattern.Inst, Term.subst]
    simp [symbol]
  | .app f args, .app g us => by
    rw [Term.pattern, Pattern.Inst, Term.subst, Term.app.injEq]
    simp only [symbol]
    by_cases h : g = f ∧ us.length = args.length
    · rw [if_pos h]
      simp only [patternAll_inst args us, h.1, true_and]
    · rw [if_neg h]
      simp only [false_iff]
      rintro ⟨rfl, rfl⟩
      exact h ⟨rfl, substAll_length θ args⟩

theorem patternAll_inst :
    ∀ ts us : List (Term F), InstAll θ (patternAll ts) us ↔ substAll θ ts = us
  | [], [] => by simp only [patternAll, InstAll, substAll]
  | t :: ts, u :: us => by
    rw [patternAll, InstAll, substAll, List.cons.injEq, Term.pattern_inst t u,
      patternAll_inst ts us]
  | [], _ :: _ => by simp [patternAll, InstAll, substAll]
  | _ :: _, [] => by simp [patternAll, InstAll, substAll]

end

/-- Whether the general terms have the specific ones as an instance, without binding variables. -/
def subsumesChk (general specific : List (Term F)) : Bool :=
  (unifyAll (patternAll general) specific fun _ => none).isSome

theorem subsumesChk_iff : subsumesChk us ts = true ↔ Instance ts us := by
  rw [subsumesChk, unifyAll_isSome_iff (.var 0)]
  constructor
  · rintro ⟨θ, -, h⟩
    exact ⟨θ, (patternAll_inst us ts).mp h⟩
  · rintro ⟨θ, h⟩
    exact ⟨θ, extends_none, (patternAll_inst us ts).mpr h⟩

/-- Whether the terms are variants. -/
def isVariant (ts us : List (Term F)) : Bool := subsumesChk us ts && subsumesChk ts us

theorem isVariant_iff : isVariant ts us = true ↔ Variant ts us := by
  rw [isVariant, Bool.and_eq_true, subsumesChk_iff, subsumesChk_iff]
  rfl

end Test

end Subsumption
