import Mathlib

/-!
# Matching with ground terms

Terms with variables are unified with ground terms. Ground terms are elements of any type, where a
symbol tells how terms with it are built and what their arguments are.
-/

namespace XSBEngine.Library

open Function Option

variable {κ : Type*}

/-- A symbol with its arity. -/
structure Symbol (κ : Type*) where
  arity : Nat
  build : List κ → κ
  args : κ → Option (List κ)
  args_eq : ∀ v vs, args v = some vs ↔ vs.length = arity ∧ build vs = v

/-- A term: a variable, a ground term, or a symbol with terms. -/
inductive Pattern (κ : Type*)
  | var (n : Nat)
  | term (v : κ)
  | app (f : Symbol κ) (ps : List (Pattern κ))

/-- The bindings of variables. -/
abbrev Bindings (κ : Type*) := Nat → Option κ

section Unify

variable [DecidableEq κ]

mutual

/-- The bindings after a term has been unified with a ground term. -/
def Pattern.unify : Pattern κ → κ → Bindings κ → Option (Bindings κ)
  | .var n, v, σ =>
    match σ n with
    | none => some (update σ n (some v))
    | some w => if w = v then some σ else none
  | .term w, v, σ => if w = v then some σ else none
  | .app f ps, v, σ =>
    match f.args v with
    | none => none
    | some vs => unifyAll ps vs σ

def unifyAll : List (Pattern κ) → List κ → Bindings κ → Option (Bindings κ)
  | [], [], σ => some σ
  | p :: ps, v :: vs, σ =>
    match p.unify v σ with
    | none => none
    | some τ => unifyAll ps vs τ
  | [], _ :: _, _ => none
  | _ :: _, [], _ => none

end

end Unify

mutual

/-- The ground term that a term has become, if it has. -/
def Pattern.value (σ : Bindings κ) : Pattern κ → Option κ
  | .var n => σ n
  | .term v => some v
  | .app f ps =>
    match valueAll σ ps with
    | none => none
    | some vs => if vs.length = f.arity then some (f.build vs) else none

def valueAll (σ : Bindings κ) : List (Pattern κ) → Option (List κ)
  | [] => some []
  | p :: ps =>
    match p.value σ, valueAll σ ps with
    | some v, some vs => some (v :: vs)
    | _, _ => none

end

/-! ### Instances -/

mutual

/-- The ground term is the instance of a term by an assignment. -/
def Pattern.Inst (θ : Nat → κ) : Pattern κ → κ → Prop
  | .var n, v => θ n = v
  | .term w, v => w = v
  | .app f ps, v =>
    match f.args v with
    | none => False
    | some vs => InstAll θ ps vs

def InstAll (θ : Nat → κ) : List (Pattern κ) → List κ → Prop
  | [], [] => True
  | p :: ps, v :: vs => p.Inst θ v ∧ InstAll θ ps vs
  | [], _ :: _ => False
  | _ :: _, [] => False

end

/-- The assignment agrees with bindings. -/
def Extends (σ : Bindings κ) (θ : Nat → κ) : Prop := ∀ n v, σ n = some v → θ n = v

variable {σ τ : Bindings κ} {θ : Nat → κ} {p : Pattern κ} {ps : List (Pattern κ)} {v w : κ}
  {vs ws : List κ}

theorem extends_none : Extends (fun _ => none) θ := nofun

/-- Any bindings have an assignment that agrees with them. -/
theorem exists_extends (d : κ) (σ : Bindings κ) : ∃ θ, Extends σ θ := by
  refine ⟨fun n => (σ n).getD d, fun n v hv => ?_⟩
  show (σ n).getD d = v
  rw [hv, getD_some]

mutual

/-- A term has one instance by an assignment. -/
theorem Pattern.Inst.unique : ∀ {p : Pattern κ} {v w : κ}, p.Inst θ v → p.Inst θ w → v = w
  | .var n, v, w, hv, hw => by
    rw [Pattern.Inst] at hv hw
    exact hv.symm.trans hw
  | .term u, v, w, hv, hw => by
    rw [Pattern.Inst] at hv hw
    exact hv.symm.trans hw
  | .app f ps, v, w, hv, hw => by
    rw [Pattern.Inst] at hv hw
    cases hfv : f.args v with
    | none => rw [hfv] at hv; exact hv.elim
    | some vs =>
      cases hfw : f.args w with
      | none => rw [hfw] at hw; exact hw.elim
      | some ws =>
        rw [hfv] at hv
        rw [hfw] at hw
        rw [← ((f.args_eq v vs).mp hfv).2, ← ((f.args_eq w ws).mp hfw).2,
          @InstAll.unique ps _ _ hv hw]

theorem InstAll.unique : ∀ {ps : List (Pattern κ)} {vs ws : List κ},
    InstAll θ ps vs → InstAll θ ps ws → vs = ws
  | [], [], [], _, _ => rfl
  | p :: ps, v :: vs, w :: ws, hv, hw => by
    rw [InstAll] at hv hw
    rw [Pattern.Inst.unique hv.1 hw.1, InstAll.unique hv.2 hw.2]
  | [], [], _ :: _, _, hw => by rw [InstAll] at hw; exact hw.elim
  | [], _ :: _, _, hv, _ => by rw [InstAll] at hv; exact hv.elim
  | _ :: _, [], _, hv, _ => by rw [InstAll] at hv; exact hv.elim
  | _ :: _, _ :: _, [], _, hw => by rw [InstAll] at hw; exact hw.elim

end

section Spec

variable [DecidableEq κ]

mutual

/-- Unification finds the least bindings that make the ground term an instance. -/
theorem Pattern.unify_spec : ∀ (p : Pattern κ) (v : κ) (σ : Bindings κ),
    match p.unify v σ with
    | none => ∀ θ, Extends σ θ → ¬p.Inst θ v
    | some τ => ∀ θ, Extends τ θ ↔ Extends σ θ ∧ p.Inst θ v
  | .var n, v, σ => by
    rw [Pattern.unify]
    cases hn : σ n with
    | none =>
      intro θ
      simp only [Pattern.Inst]
      constructor
      · intro h
        refine ⟨fun m w hm => h m w ?_, h n v (update_self ..)⟩
        rw [update_of_ne, hm]
        rintro rfl
        rw [hn] at hm
        cases hm
      · rintro ⟨h, rfl⟩ m w hm
        by_cases hmn : m = n
        · rw [hmn, update_self] at hm
          rw [hmn]
          exact some.inj hm
        · rw [update_of_ne hmn] at hm
          exact h m w hm
    | some w =>
      simp only [Pattern.Inst]
      split
      next hnone =>
        split at hnone
        next => cases hnone
        next hne =>
          intro θ h he
          exact hne ((h n w hn).symm.trans he)
      next τ hsome =>
        split at hsome
        next heq =>
          cases hsome
          intro θ
          exact ⟨fun h => ⟨h, (h n w hn).trans heq⟩, fun h => h.1⟩
        next => cases hsome
  | .term w, v, σ => by
    rw [Pattern.unify]
    simp only [Pattern.Inst]
    split
    next hnone =>
      split at hnone
      next => cases hnone
      next hne => exact fun _ _ he => hne he
    next τ hsome =>
      split at hsome
      next heq =>
        cases hsome
        exact fun θ => ⟨fun h => ⟨h, heq⟩, fun h => h.1⟩
      next => cases hsome
  | .app f ps, v, σ => by
    rw [Pattern.unify]
    simp only [Pattern.Inst]
    cases hf : f.args v with
    | none => exact fun _ _ h => h
    | some vs => exact unifyAll_spec ps vs σ

theorem unifyAll_spec : ∀ (ps : List (Pattern κ)) (vs : List κ) (σ : Bindings κ),
    match unifyAll ps vs σ with
    | none => ∀ θ, Extends σ θ → ¬InstAll θ ps vs
    | some τ => ∀ θ, Extends τ θ ↔ Extends σ θ ∧ InstAll θ ps vs
  | [], [], σ => by
    rw [unifyAll]
    simp only [InstAll, and_true, implies_true]
  | p :: ps, v :: vs, σ => by
    rw [unifyAll]
    have hp := Pattern.unify_spec p v σ
    cases hone : p.unify v σ with
    | none =>
      rw [hone] at hp
      intro θ h hall
      rw [InstAll] at hall
      exact hp θ h hall.1
    | some τ =>
      rw [hone] at hp
      have hps := unifyAll_spec ps vs τ
      cases hall : unifyAll ps vs τ with
      | none =>
        rw [hall] at hps
        simp only [hall]
        intro θ h hinst
        rw [InstAll] at hinst
        exact hps θ ((hp θ).mpr ⟨h, hinst.1⟩) hinst.2
      | some υ =>
        rw [hall] at hps
        simp only [hall]
        intro θ
        rw [hps θ, hp θ, InstAll, and_assoc]
  | [], _ :: _, σ => by
    rw [unifyAll]
    intro θ _ h
    rw [InstAll] at h
    exact h
  | _ :: _, [], σ => by
    rw [unifyAll]
    intro θ _ h
    rw [InstAll] at h
    exact h

end

theorem unify_some (h : p.unify v σ = some τ) : Extends τ θ ↔ Extends σ θ ∧ p.Inst θ v := by
  have hspec := p.unify_spec v σ
  rw [h] at hspec
  exact hspec θ

/-- Terms unify where there is an instance. -/
theorem unify_isSome_iff (d : κ) :
    (p.unify v σ).isSome = true ↔ ∃ θ, Extends σ θ ∧ p.Inst θ v := by
  have hspec := p.unify_spec v σ
  cases h : p.unify v σ with
  | none =>
    rw [h] at hspec
    simp only [isSome_none, Bool.false_eq_true, false_iff, not_exists, not_and]
    exact hspec
  | some τ =>
    rw [h] at hspec
    obtain ⟨θ, hθ⟩ := exists_extends d τ
    simp only [isSome_some, true_iff]
    exact ⟨θ, (hspec θ).mp hθ⟩

theorem unifyAll_isSome_iff (d : κ) :
    (unifyAll ps vs σ).isSome = true ↔ ∃ θ, Extends σ θ ∧ InstAll θ ps vs := by
  have hspec := unifyAll_spec ps vs σ
  cases h : unifyAll ps vs σ with
  | none =>
    rw [h] at hspec
    simp only [isSome_none, Bool.false_eq_true, false_iff, not_exists, not_and]
    exact hspec
  | some τ =>
    rw [h] at hspec
    obtain ⟨θ, hθ⟩ := exists_extends d τ
    simp only [isSome_some, true_iff]
    exact ⟨θ, (hspec θ).mp hθ⟩

end Spec

mutual

/-- A term that has become ground has no other instance. -/
theorem Pattern.value_spec : ∀ {p : Pattern κ} {v : κ}, p.value σ = some v → Extends σ θ →
    ∀ w, p.Inst θ w ↔ w = v
  | .var n, v, h, hθ, w => by
    rw [Pattern.value] at h
    rw [Pattern.Inst, hθ n v h]
    exact eq_comm
  | .term u, v, h, _, w => by
    rw [Pattern.value] at h
    rw [Pattern.Inst, some.inj h]
    exact eq_comm
  | .app f ps, v, h, hθ, w => by
    rw [Pattern.value] at h
    cases hall : valueAll σ ps with
    | none => rw [hall] at h; cases h
    | some vs =>
      rw [hall] at h
      have hlen : vs.length = f.arity := by
        by_contra hne
        simp only [if_neg hne] at h
        cases h
      simp only [if_pos hlen] at h
      cases h
      rw [Pattern.Inst]
      constructor
      · intro hinst
        cases hf : f.args w with
        | none => rw [hf] at hinst; exact hinst.elim
        | some ws =>
          rw [hf] at hinst
          rw [← ((f.args_eq w ws).mp hf).2, (valueAll_spec hall hθ ws).mp hinst]
      · rintro rfl
        rw [(f.args_eq _ vs).mpr ⟨hlen, rfl⟩]
        exact (valueAll_spec hall hθ vs).mpr rfl

theorem valueAll_spec : ∀ {ps : List (Pattern κ)} {vs : List κ}, valueAll σ ps = some vs →
    Extends σ θ → ∀ ws, InstAll θ ps ws ↔ ws = vs
  | [], vs, h, _, ws => by
    rw [valueAll] at h
    cases h
    cases ws with
    | nil => simp only [InstAll]
    | cons w ws => simp only [InstAll, reduceCtorEq]
  | p :: ps, vs, h, hθ, ws => by
    rw [valueAll] at h
    cases hp : p.value σ with
    | none => rw [hp] at h; cases h
    | some v =>
      cases hps : valueAll σ ps with
      | none => rw [hp, hps] at h; cases h
      | some us =>
        rw [hp, hps] at h
        cases h
        cases ws with
        | nil => simp only [InstAll, reduceCtorEq]
        | cons w ws =>
          rw [InstAll, Pattern.value_spec hp hθ w, valueAll_spec hps hθ ws, List.cons.injEq]

end

end XSBEngine.Library
