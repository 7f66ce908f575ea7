import Mathlib

/-!
# Tuples of first-order terms

Terms with variables in `V` and function symbols in `F`, their prefix notation, and variants.
A tuple of terms is built from its first term and the rest, so that one structural induction
covers a term, its arguments and its neighbours.
-/

namespace PrefixTerms

open List

variable {F V W : Type*}

/-- A tuple of terms. -/
inductive Tuple (F V : Type*) where
  | nil
  | var (v : V) (rest : Tuple F V)
  | app (f : F) (args rest : Tuple F V)

namespace Tuple

/-- Number of terms in a tuple. -/
def length : Tuple F V → Nat
  | nil => 0
  | var _ rest => rest.length + 1
  | app _ _ rest => rest.length + 1

/-- The terms of a tuple and those of another one. -/
def append : Tuple F V → Tuple F V → Tuple F V
  | nil, t => t
  | var v rest, t => var v (rest.append t)
  | app f args rest, t => app f args (rest.append t)

/-- Prefix notation. -/
def tokens : Tuple F V → List (F ⊕ V)
  | nil => []
  | var v rest => .inr v :: rest.tokens
  | app f args rest => .inl f :: (args.tokens ++ rest.tokens)

/-- Variables in the order of their occurrences. -/
def vars : Tuple F V → List V
  | nil => []
  | var v rest => v :: rest.vars
  | app _ args rest => args.vars ++ rest.vars

/-- Rename the variables. -/
def rename (σ : V → W) : Tuple F V → Tuple F W
  | nil => nil
  | var v rest => var (σ v) (rest.rename σ)
  | app f args rest => app f (args.rename σ) (rest.rename σ)

/-- Replace the function symbols. -/
def relabel {G : Type*} (φ : F → G) : Tuple F V → Tuple G V
  | nil => nil
  | var v rest => var v (rest.relabel φ)
  | app f args rest => app (φ f) (args.relabel φ) (rest.relabel φ)

/-- Every symbol has as many arguments as its rank. -/
def Ranked (rank : F → Nat) : Tuple F V → Prop
  | nil => True
  | var _ rest => rest.Ranked rank
  | app f args rest => args.length = rank f ∧ args.Ranked rank ∧ rest.Ranked rank

@[simp] theorem vars_append (t t' : Tuple F V) : (t.append t').vars = t.vars ++ t'.vars := by
  induction t with
  | nil => rfl
  | var v rest ih => exact congrArg (v :: ·) ih
  | app f args rest _ ih => exact (congrArg (args.vars ++ ·) ih).trans (append_assoc ..).symm

@[simp] theorem tokens_append (t t' : Tuple F V) :
    (t.append t').tokens = t.tokens ++ t'.tokens := by
  induction t with
  | nil => rfl
  | var v rest ih => exact congrArg (.inr v :: ·) ih
  | app f args rest _ ih =>
    exact congrArg (.inl f :: ·) ((congrArg (args.tokens ++ ·) ih).trans (append_assoc ..).symm)

@[simp] theorem length_rename (σ : V → W) (t : Tuple F V) :
    (t.rename σ).length = t.length := by
  induction t with
  | nil => rfl
  | var v rest ih | app f args rest _ ih => exact congrArg Nat.succ ih

@[simp] theorem tokens_rename (σ : V → W) (t : Tuple F V) :
    (t.rename σ).tokens = t.tokens.map (Sum.map id σ) := by
  induction t with
  | nil => rfl
  | var v rest ih => exact congrArg (.inr (σ v) :: ·) ih
  | app f args rest ihargs ih =>
    show _ = Sum.inl f :: (args.tokens ++ rest.tokens).map _
    rw [map_append, ← ihargs, ← ih]
    rfl

@[simp] theorem length_relabel {G : Type*} (φ : F → G) (t : Tuple F V) :
    (t.relabel φ).length = t.length := by
  induction t with
  | nil => rfl
  | var v rest ih | app f args rest _ ih => exact congrArg Nat.succ ih

@[simp] theorem tokens_relabel {G : Type*} (φ : F → G) (t : Tuple F V) :
    (t.relabel φ).tokens = t.tokens.map (Sum.map φ id) := by
  induction t with
  | nil => rfl
  | var v rest ih => exact congrArg (.inr v :: ·) ih
  | app f args rest ihargs ih =>
    show _ = Sum.inl (φ f) :: (args.tokens ++ rest.tokens).map _
    rw [map_append, ← ihargs, ← ih]
    rfl

variable {rank : F → Nat} {t : Tuple F V}

theorem Ranked.relabel {G : Type*} {rank' : G → Nat} {φ : F → G}
    (hφ : ∀ f, rank' (φ f) = rank f) (h : t.Ranked rank) :
    (t.relabel φ).Ranked rank' := by
  induction t with
  | nil => trivial
  | var v rest ih => exact ih h
  | app f args rest ihargs ih =>
    obtain ⟨hlen, hargs, hrest⟩ := h
    exact ⟨by rw [length_relabel, hlen, hφ], ihargs hargs, ih hrest⟩

theorem Ranked.rename (h : t.Ranked rank) (σ : V → W) :
    (t.rename σ).Ranked rank := by
  induction t with
  | nil => trivial
  | var v rest ih => exact ih h
  | app f args rest ihargs ih =>
    obtain ⟨hlen, hargs, hrest⟩ := h
    exact ⟨by rw [length_rename]; exact hlen, ihargs hargs, ih hrest⟩

theorem mem_vars (t : Tuple F V) (v : V) : v ∈ t.vars ↔ .inr v ∈ t.tokens := by
  induction t with
  | nil => simp [vars, tokens]
  | var w rest ih => simp [vars, tokens, ih]
  | app f args rest ihargs ih => simp [vars, tokens, ihargs, ih]

/-- Prefix notation is uniquely readable. -/
theorem tokens_append_inj {t' : Tuple F V} {l l' : List (F ⊕ V)}
    (ht : t.Ranked rank) (ht' : t'.Ranked rank) (hlen : t.length = t'.length)
    (h : t.tokens ++ l = t'.tokens ++ l') : t = t' ∧ l = l' := by
  induction t generalizing t' l l' with
  | nil =>
    cases t' with
    | nil => exact ⟨rfl, h⟩
    | var v rest | app f args rest => simp [length] at hlen
  | var v rest ih =>
    cases t' with
    | nil => simp [length] at hlen
    | var v' rest' =>
      simp only [tokens, cons_append, List.cons.injEq, Sum.inr.injEq] at h
      obtain ⟨rfl, hrest⟩ := h
      have hranked : rest'.Ranked rank := ht'
      obtain ⟨rfl, rfl⟩ := ih ht hranked (Nat.succ.inj hlen) hrest
      exact ⟨rfl, rfl⟩
    | app f args rest => simp [tokens] at h
  | app f args rest ihargs ih =>
    cases t' with
    | nil => simp [length] at hlen
    | var v rest => simp [tokens] at h
    | app f' args' rest' =>
      simp only [tokens, cons_append, append_assoc, List.cons.injEq,
        Sum.inl.injEq] at h
      obtain ⟨rfl, hargs⟩ := h
      obtain ⟨rfl, hrest⟩ := ihargs ht.2.1 ht'.2.1 (ht.1.trans ht'.1.symm) hargs
      obtain ⟨rfl, rfl⟩ := ih ht.2.2 ht'.2.2 (Nat.succ.inj hlen) hrest
      exact ⟨rfl, rfl⟩

theorem tokens_inj {t' : Tuple F V} (ht : t.Ranked rank)
    (ht' : t'.Ranked rank) (hlen : t.length = t'.length) (h : t.tokens = t'.tokens) : t = t' :=
  (tokens_append_inj ht ht' hlen (congrArg (· ++ []) h)).1

end Tuple

/-! ### Variants -/

/-- Two tuples are variants when each is a renaming of the other. -/
def Variant (t : Tuple F V) (t' : Tuple F W) : Prop :=
  ∃ (σ : V → W) (τ : W → V), t.rename σ = t' ∧ t'.rename τ = t

/-- The same for prefix notation. -/
def TokenVariant (l : List (F ⊕ V)) (l' : List (F ⊕ W)) : Prop :=
  ∃ (σ : V → W) (τ : W → V), l.map (Sum.map id σ) = l' ∧ l'.map (Sum.map id τ) = l

theorem Variant.refl (t : Tuple F V) : Variant t t := by
  have hid : t.rename id = t := by
    induction t with
    | nil => rfl
    | var v rest ih => exact congrArg (Tuple.var v) ih
    | app f args rest ihargs ih => exact congrArg₂ (Tuple.app f) ihargs ih
  exact ⟨id, id, hid, hid⟩

theorem Variant.symm {t : Tuple F V} {t' : Tuple F W} (h : Variant t t') : Variant t' t := by
  obtain ⟨σ, τ, hσ, hτ⟩ := h
  exact ⟨τ, σ, hτ, hσ⟩

/-- Well-ranked tuples of one length are variants when their prefix notations are. -/
theorem variant_iff {rank : F → Nat} {t : Tuple F V} {t' : Tuple F W} (ht : t.Ranked rank)
    (ht' : t'.Ranked rank) (hlen : t.length = t'.length) :
    Variant t t' ↔ TokenVariant t.tokens t'.tokens := by
  constructor
  · rintro ⟨σ, τ, rfl, hτ⟩
    refine ⟨σ, τ, (Tuple.tokens_rename σ t).symm, ?_⟩
    rw [← Tuple.tokens_rename, hτ]
  · rintro ⟨σ, τ, hσ, hτ⟩
    refine ⟨σ, τ, ?_, ?_⟩
    · apply Tuple.tokens_inj (ht.rename σ) ht'
      · rw [Tuple.length_rename, hlen]
      · rw [Tuple.tokens_rename, hσ]
    · apply Tuple.tokens_inj (ht'.rename τ) ht
      · rw [Tuple.length_rename, hlen]
      · rw [Tuple.tokens_rename, hτ]

theorem TokenVariant.symm {l : List (F ⊕ V)} {l' : List (F ⊕ W)} (h : TokenVariant l l') :
    TokenVariant l' l := by
  obtain ⟨σ, τ, hσ, hτ⟩ := h
  exact ⟨τ, σ, hτ, hσ⟩

theorem TokenVariant.trans {U : Type*} {l : List (F ⊕ V)} {l' : List (F ⊕ W)}
    {l'' : List (F ⊕ U)} (h : TokenVariant l l') (h' : TokenVariant l' l'') :
    TokenVariant l l'' := by
  obtain ⟨σ, τ, hσ, hτ⟩ := h
  obtain ⟨σ', τ', hσ', hτ'⟩ := h'
  refine ⟨σ' ∘ σ, τ ∘ τ', ?_, ?_⟩
  · rw [← hσ', ← hσ, map_map, Sum.map_comp_map, Function.comp_id]
  · rw [← hτ, ← hτ', map_map, Sum.map_comp_map, Function.comp_id]

end PrefixTerms
