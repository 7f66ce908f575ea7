import Mathlib
import XSBEngine.Library.Tuple

/-!
# Unification in infinite trees

Trees with function symbols at their nodes, which may be infinite, the trees of the terms of a
tuple, and what is known of two tuples that have the same trees for some values of their variables.
Function symbols may also agree without being equal.
-/

namespace PrefixTerms

variable {F V W : Type*}

/-- A tree: the function symbol at each position. -/
abbrev Tree (F : Type*) := List Nat → Option F

namespace Tuple

/-- The tree of each term of a tuple, for the trees of the variables. -/
def tree (σ : V → Tree F) : Tuple F V → Nat → Tree F
  | nil, _, _ => none
  | var v _, 0, p => σ v p
  | var _ rest, i + 1, p => rest.tree σ i p
  | app f _ _, 0, [] => some f
  | app _ args _, 0, i :: p => args.tree σ i p
  | app _ _ rest, i + 1, p => rest.tree σ i p

/-- The term of a tuple at an index, as a tuple. -/
def nth : Tuple F V → Nat → Tuple F V
  | nil, _ => nil
  | var v _, 0 => var v nil
  | app f args _, 0 => app f args nil
  | var _ rest, i + 1 => rest.nth i
  | app _ _ rest, i + 1 => rest.nth i

end Tuple

/-- Two tuples without common variables have solutions in the trees, with function symbols that
agree. -/
def Unifies (r : F → F → Prop) (t : Tuple F V) (t' : Tuple F W) : Prop :=
  ∃ (σ : V → Tree F) (τ : W → Tree F), ∀ i p, Option.Rel r (t.tree σ i p) (t'.tree τ i p)

/-- At positions that both tuples have, the function symbols agree or one has a variable there or
above. -/
inductive Compatible (r : F → F → Prop) : Tuple F V → Tuple F W → Prop where
  | nil : Compatible r .nil .nil
  | vars {v : V} {w : W} {t : Tuple F V} {t' : Tuple F W} :
      Compatible r t t' → Compatible r (.var v t) (.var w t')
  | left {v : V} {f : F} {t : Tuple F V} {args t' : Tuple F W} :
      Compatible r t t' → Compatible r (.var v t) (.app f args t')
  | right {w : W} {f : F} {args t : Tuple F V} {t' : Tuple F W} :
      Compatible r t t' → Compatible r (.app f args t) (.var w t')
  | app {f f' : F} {args t : Tuple F V} {args' t' : Tuple F W} :
      r f f' → Compatible r args args' → Compatible r t t' →
      Compatible r (.app f args t) (.app f' args' t')

/-- Symbols that agree, up to a variable in one of two prefix notations. -/
inductive AgreeToVar (r : F → F → Prop) : List (F ⊕ V) → List (F ⊕ W) → Prop where
  | nil : AgreeToVar r [] []
  | left {v : V} {l : List (F ⊕ V)} {l' : List (F ⊕ W)} : AgreeToVar r (.inr v :: l) l'
  | right {w : W} {l : List (F ⊕ V)} {l' : List (F ⊕ W)} : AgreeToVar r l (.inr w :: l')
  | cons {f f' : F} {l : List (F ⊕ V)} {l' : List (F ⊕ W)} :
      r f f' → AgreeToVar r l l' → AgreeToVar r (.inl f :: l) (.inl f' :: l')

variable {r : F → F → Prop} {t : Tuple F V} {t' : Tuple F W}

theorem Unifies.refl (hr : ∀ f, r f f) (t : Tuple F V) : Unifies r t t := by
  refine ⟨fun _ _ => none, fun _ _ => none, fun i p => ?_⟩
  cases t.tree (fun _ _ => none) i p with
  | none => exact .none
  | some f => exact .some (hr f)

theorem Unifies.compatible {rank : F → Nat} (hrank : ∀ f f', r f f' → rank f = rank f')
    (h : Unifies r t t') (ht : t.Ranked rank) (ht' : t'.Ranked rank)
    (hlen : t.length = t'.length) : Compatible r t t' := by
  obtain ⟨σ, τ, h⟩ := h
  induction t generalizing t' with
  | nil =>
    cases t' with
    | nil => exact .nil
    | var w rest | app f args rest => simp [Tuple.length] at hlen
  | var v rest ih =>
    cases t' with
    | nil => simp [Tuple.length] at hlen
    | var w rest' => exact .vars (ih ht ht' (Nat.succ.inj hlen) fun i p => h (i + 1) p)
    | app f args rest' =>
      exact .left (ih ht ht'.2.2 (Nat.succ.inj hlen) fun i p => h (i + 1) p)
  | app f args rest ihargs ih =>
    cases t' with
    | nil => simp [Tuple.length] at hlen
    | var w rest' =>
      exact .right (ih ht.2.2 ht' (Nat.succ.inj hlen) fun i p => h (i + 1) p)
    | app f' args' rest' =>
      have hroot : r f f' := by
        cases h 0 [] with
        | some hf => exact hf
      have hargslen : args.length = args'.length := by
        rw [ht.1, ht'.1, hrank f f' hroot]
      apply Compatible.app hroot
      · exact ihargs ht.2.1 ht'.2.1 hargslen fun i p => h 0 (i :: p)
      · exact ih ht.2.2 ht'.2.2 (Nat.succ.inj hlen) fun i p => h (i + 1) p

theorem Compatible.nth (h : Compatible r t t') (i : Nat) : Compatible r (t.nth i) (t'.nth i) := by
  induction h generalizing i with
  | nil => exact .nil
  | vars _ ih =>
    cases i with
    | zero => exact .vars .nil
    | succ i => exact ih i
  | left _ ih =>
    cases i with
    | zero => exact .left .nil
    | succ i => exact ih i
  | right _ ih =>
    cases i with
    | zero => exact .right .nil
    | succ i => exact ih i
  | app hf hargs _ _ ih =>
    cases i with
    | zero => exact .app hf hargs .nil
    | succ i => exact ih i

theorem Compatible.tokens {l : List (F ⊕ V)} {l' : List (F ⊕ W)} (h : Compatible r t t')
    (hl : AgreeToVar r l l') : AgreeToVar r (t.tokens ++ l) (t'.tokens ++ l') := by
  induction h generalizing l l' with
  | nil => exact hl
  | vars | left => exact .left
  | right => exact .right
  | app hf _ _ ihargs ih =>
    simp only [Tuple.tokens, List.cons_append, List.append_assoc]
    exact .cons hf (ihargs (ih hl))

end PrefixTerms
