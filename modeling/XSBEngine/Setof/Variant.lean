import Mathlib
import XSBEngine.Library.Tuple

/-!
# Variants

Unification, and `variant/2` with its numbering of variables, `XSB/syslib/subsumes.P:110–142`.
-/

namespace XSBEngine.Setof

open Function List PrefixTerms

variable {F : Type*}

/-- The bindings of variables, each to a single term. A variable is given by its address. -/
abbrev Bindings (F : Type*) := Nat → Tuple F Nat

/-- Terms with the values of their variables. -/
def subst (σ : Bindings F) : Tuple F Nat → Tuple F Nat
  | .nil => .nil
  | .var v rest => (σ v).append (subst σ rest)
  | .app f args rest => .app f (subst σ args) (subst σ rest)

/-- No variable is bound. -/
def unbound : Bindings F := fun v => .var v .nil

/-- A variable is bound. -/
def Bindings.bind (σ : Bindings F) (v : Nat) (t : Tuple F Nat) : Bindings F :=
  fun w => subst (update unbound v t) (σ w)

/-- The first of some terms, dereferenced, and the others. -/
def first (σ : Bindings F) : Tuple F Nat → Option (Tuple F Nat × Tuple F Nat)
  | .nil => none
  | .var v rest => some (σ v, rest)
  | .app f args rest => some (.app f args .nil, rest)

section

variable [DecidableEq F]

/-- Unification of some terms with others. Of two variables the younger one is bound. The first
argument bounds the number of pairs. -/
def unify : Nat → Tuple F Nat → Tuple F Nat → Bindings F → Option (Bindings F)
  | 0, _, _, _ => none
  | n + 1, t, t', σ =>
    match first σ t, first σ t' with
    | none, none => some σ
    | some (.var v _, rest), some (.var w _, rest') =>
      unify n rest rest' (if v = w then σ else σ.bind (max v w) (.var (min v w) .nil))
    | some (.var v _, rest), some (.app f args _, rest') =>
      unify n rest rest' (σ.bind v (subst σ (.app f args .nil)))
    | some (.app f args _, rest), some (.var w _, rest') =>
      unify n rest rest' (σ.bind w (subst σ (.app f args .nil)))
    | some (.app f args _, rest), some (.app g args' _, rest') =>
      if f = g then unify n (args.append rest) (args'.append rest') σ else none
    | _, _ => none

/-- The symbols of terms: which ones are functors of structures, `'$VAR'`, and the integers that
number variables. -/
structure Symbols (F : Type*) where
  isStr : F → Bool
  varName : F
  int : Nat → F
  isStr_varName : isStr varName = true
  isStr_int : ∀ i, isStr (int i) = false

/-- `term_type` agrees, and so do the arities of structures and the symbols of other terms. -/
def Symbols.sameType (S : Symbols F) (f : F) (args : Tuple F Nat) (g : F) (args' : Tuple F Nat) :
    Bool :=
  if S.isStr f && S.isStr g then args.length == args'.length else f == g

/-- A term that is not a variable agrees with `'$VAR'(i)`. The name of its functor is not read. -/
def Symbols.isNumbered (S : Symbols F) (i : Nat) (g : F) (args : Tuple F Nat) : Bool :=
  S.isStr g && match args with
    | .app c .nil .nil => c == S.int i
    | _ => false

/-- `variant1`. A variable that has been met is `'$VAR'(i)`, where `i` is its number. -/
def variant1 (S : Symbols F) : Tuple F Nat → Tuple F Nat → (Nat → Option Nat) → Nat →
    Option ((Nat → Option Nat) × Nat)
  | .nil, .nil, num, i => some (num, i)
  | .var v rest, .var w rest', num, i =>
    match num v, num w with
    | none, none =>
      variant1 S rest rest' (update (update num v (some i)) w (some i)) (i + 1)
    | some a, some b => if a = b then variant1 S rest rest' num i else none
    | _, _ => none
  | .var v rest, .app g args' rest', num, i =>
    match num v with
    | some a => if S.isNumbered a g args' then variant1 S rest rest' num i else none
    | none => none
  | .app f args rest, .var w rest', num, i =>
    match num w with
    | some a => if S.isNumbered a f args then variant1 S rest rest' num i else none
    | none => none
  | .app f args rest, .app g args' rest', num, i =>
    if S.sameType f args g args' then
      (variant1 S args args' num i).bind fun r => variant1 S rest rest' r.1 r.2
    else none
  | _, _, _, _ => none

/-- `variant`, of terms whose variables are unbound. -/
def variant (S : Symbols F) (fuel : Nat) (x y : Tuple F Nat) : Bool :=
  (unify fuel x y unbound).isSome && (variant1 S x y (fun _ => none) 0).isSome

end

/-! ### Bindings -/

variable {σ σ' : Bindings F} {t t' x y : Tuple F Nat} {n v w : Nat} {ρ : Nat → Nat}

/-- The values of variables outside of a set are the variables, and the others stay in it. -/
def Within (E : Set Nat) (σ : Bindings F) : Prop :=
  ∀ v, (v ∉ E → σ v = .var v .nil) ∧ (v ∈ E → ∀ w ∈ (σ v).vars, w ∈ E)

theorem append_nil (t : Tuple F Nat) : t.append .nil = t := by
  induction t with
  | nil => rfl
  | var v rest ih | app f args rest _ ih => rw [Tuple.append, ih]

theorem rename_append (ρ : Nat → Nat) (t t' : Tuple F Nat) :
    (t.append t').rename ρ = (t.rename ρ).append (t'.rename ρ) := by
  induction t with
  | nil => rfl
  | var v rest ih | app f args rest _ ih => simp [Tuple.append, Tuple.rename, ih]

/-- Terms whose variables are renamed. -/
theorem subst_rename (h : ∀ v ∈ t.vars, σ v = .var (ρ v) .nil) : subst σ t = t.rename ρ := by
  induction t with
  | nil => rfl
  | var v rest ih =>
    rw [Tuple.vars, forall_mem_cons] at h
    rw [subst, h.1, ih h.2]
    rfl
  | app f args rest ihargs ih =>
    rw [Tuple.vars, forall_mem_append] at h
    rw [subst, ihargs h.1, ih h.2]
    rfl

theorem rename_id (t : Tuple F Nat) : t.rename id = t := by
  induction t with
  | nil => rfl
  | var v rest ih => rw [Tuple.rename, ih, id]
  | app f args rest ihargs ih => rw [Tuple.rename, ihargs, ih]

theorem rename_congr (ρ ρ' : Nat → Nat) (h : ∀ v ∈ t.vars, ρ v = ρ' v) :
    t.rename ρ = t.rename ρ' := by
  have hself : subst (fun v => .var (ρ v) .nil) t = t.rename ρ := subst_rename fun _ _ => rfl
  rw [← hself]
  exact subst_rename fun v hv => by rw [h v hv]

theorem subst_self (h : ∀ v ∈ t.vars, σ v = .var v .nil) : subst σ t = t := by
  have hid : subst σ t = t.rename id := subst_rename h
  rw [hid, rename_id]

theorem mem_vars_subst (h : w ∈ (subst σ t).vars) : ∃ v ∈ t.vars, w ∈ (σ v).vars := by
  induction t with
  | nil => exact absurd h not_mem_nil
  | var v rest ih =>
    rw [subst, Tuple.vars_append, mem_append] at h
    rcases h with h | h
    · exact ⟨v, mem_cons_self, h⟩
    · obtain ⟨u, hu, hw⟩ := ih h
      exact ⟨u, mem_cons_of_mem v hu, hw⟩
  | app f args rest ihargs ih =>
    rw [subst, Tuple.vars, mem_append] at h
    rcases h with h | h
    · obtain ⟨u, hu, hw⟩ := ihargs h
      exact ⟨u, mem_append_left _ hu, hw⟩
    · obtain ⟨u, hu, hw⟩ := ih h
      exact ⟨u, mem_append_right _ hu, hw⟩

theorem within_unbound (E : Set Nat) : Within E (unbound : Bindings F) := by
  intro v
  refine ⟨fun _ => rfl, fun hv w hw => ?_⟩
  rw [mem_singleton.mp hw]
  exact hv

namespace Within

variable {E E' : Set Nat}

theorem mono (h : Within E σ) (hE : E ⊆ E') : Within E' σ := by
  intro v
  refine ⟨fun hv => (h v).1 fun hE' => hv (hE hE'), fun hv w hw => ?_⟩
  by_cases hvE : v ∈ E
  · exact hE ((h v).2 hvE w hw)
  · rw [(h v).1 hvE] at hw
    rw [mem_singleton.mp hw]
    exact hv

theorem subst (h : Within E σ) (ht : ∀ v ∈ t.vars, v ∈ E) :
    ∀ w ∈ (subst σ t).vars, w ∈ E := by
  intro w hw
  obtain ⟨v, hv, hw⟩ := mem_vars_subst hw
  exact (h v).2 (ht v hv) w hw

theorem bind (h : Within E σ) (hv : v ∈ E) (ht : ∀ w ∈ t.vars, w ∈ E) :
    Within E (σ.bind v t) := by
  have hsingle : Within E (update unbound v t) := by
    intro w
    by_cases hwv : w = v
    · subst hwv
      rw [update_self]
      exact ⟨fun hw => absurd hv hw, fun _ => ht⟩
    · rw [update_of_ne hwv]
      exact within_unbound E w
  intro w
  constructor
  · intro hw
    rw [Bindings.bind, (h w).1 hw]
    show (update unbound v t w).append .nil = _
    rw [append_nil]
    exact (hsingle w).1 hw
  · intro hw
    exact hsingle.subst ((h w).2 hw)

/-- Where the first of some terms comes from. -/
theorem first (h : Within E σ) (ht : ∀ v ∈ t.vars, v ∈ E) (hfirst : first σ t = some (x, y)) :
    (∀ v ∈ x.vars, v ∈ E) ∧ ∀ v ∈ y.vars, v ∈ E := by
  cases t with
  | nil => cases hfirst
  | var v rest =>
    cases hfirst
    rw [Tuple.vars, forall_mem_cons] at ht
    exact ⟨(h v).2 ht.1, ht.2⟩
  | app f args rest =>
    cases hfirst
    rw [Tuple.vars, forall_mem_append] at ht
    refine ⟨?_, ht.2⟩
    rw [Tuple.vars, Tuple.vars, List.append_nil]
    exact ht.1

end Within

/-! ### Unification -/

section

variable [DecidableEq F] {E A : Set Nat}

/-- Unification binds variables of the terms only. -/
theorem unify_within (h : Within E σ) (ht : ∀ v ∈ t.vars, v ∈ E) (ht' : ∀ v ∈ t'.vars, v ∈ E)
    (hrun : unify n t t' σ = some σ') : Within E σ' := by
  induction n generalizing t t' σ with
  | zero => cases hrun
  | succ n ih =>
    rw [unify] at hrun
    split at hrun
    next =>
      cases hrun
      exact h
    next v r rest w r' rest' h1 h2 =>
      have hv := h.first ht h1
      have hw := h.first ht' h2
      simp only [Tuple.vars, forall_mem_cons] at hv hw
      refine ih ?_ hv.2 hw.2 hrun
      split
      next => exact h
      next =>
        apply h.bind
        · rcases max_choice v w with hm | hm
          · rw [hm]
            exact hv.1.1
          · rw [hm]
            exact hw.1.1
        · intro u hu
          rw [mem_singleton.mp hu]
          rcases min_choice v w with hm | hm
          · rw [hm]
            exact hv.1.1
          · rw [hm]
            exact hw.1.1
    next v r rest f args r' rest' h1 h2 =>
      have hv := h.first ht h1
      have hw := h.first ht' h2
      simp only [Tuple.vars, forall_mem_cons, forall_mem_append] at hv hw
      refine ih (h.bind hv.1.1 (h.subst ?_)) hv.2 hw.2 hrun
      rw [Tuple.vars, Tuple.vars, List.append_nil]
      exact hw.1.1
    next f args r rest w r' rest' h1 h2 =>
      have hv := h.first ht h1
      have hw := h.first ht' h2
      simp only [Tuple.vars, forall_mem_cons, forall_mem_append] at hv hw
      refine ih (h.bind hw.1.1 (h.subst ?_)) hv.2 hw.2 hrun
      rw [Tuple.vars, Tuple.vars, List.append_nil]
      exact hv.1.1
    next f args r rest g args' r' rest' h1 h2 =>
      have hv := h.first ht h1
      have hw := h.first ht' h2
      simp only [Tuple.vars, forall_mem_append] at hv hw
      split at hrun
      next =>
        refine ih h ?_ ?_ hrun
        · rw [Tuple.vars_append, forall_mem_append]
          exact ⟨hv.1.1, hv.2⟩
        · rw [Tuple.vars_append, forall_mem_append]
          exact ⟨hw.1.1, hw.2⟩
      next => cases hrun
    next => cases hrun

/-- A renaming of the variables in `A` to older ones that are not in `A`. -/
structure Renames (A : Set Nat) (ρ : Nat → Nat) : Prop where
  older : ∀ v ∈ A, ρ v < v
  outside : ∀ v ∈ A, ρ v ∉ A
  inj : ∀ v ∈ A, ∀ w ∈ A, ρ v = ρ w → v = w

/-- The variables in `A` have been renamed, or are unbound, and the others are unbound. -/
def Renaming (A : Set Nat) (ρ : Nat → Nat) (σ : Bindings F) : Prop :=
  ∀ v ∈ A, (σ v = .var v .nil ∨ σ v = .var (ρ v) .nil) ∧ σ (ρ v) = .var (ρ v) .nil

omit [DecidableEq F] in
/-- The value of a variable that was bound to a variable. -/
theorem bind_var {u : Nat} (h : σ w = .var u .nil) :
    (σ.bind v t) w = if u = v then t else .var u .nil := by
  rw [Bindings.bind, h]
  show (update unbound v t u).append .nil = _
  rw [append_nil, update_apply]
  rfl

omit [DecidableEq F] in
theorem Renaming.bind (hσ : Renaming A ρ σ) (hρ : Renames A ρ) (hv : v ∈ A) :
    Renaming A ρ (σ.bind v (.var (ρ v) .nil)) := by
  intro u hu
  obtain ⟨hself, himage⟩ := hσ u hu
  have hne : ∀ w ∈ A, ρ w ≠ v := fun w hw heq => hρ.outside w hw (heq ▸ hv)
  refine ⟨?_, ?_⟩
  · rcases hself with hself | hself
    · rw [bind_var hself]
      split
      next heq => exact .inr (by rw [heq])
      next => exact .inl rfl
    · rw [bind_var hself, if_neg (hne u hu)]
      exact .inr rfl
  · rw [bind_var himage, if_neg (hne u hu)]

/-- A term is unified with a renaming of it: its variables are renamed, and nothing else changes. -/
theorem unify_rename (hρ : Renames A ρ) (hσ : Renaming A ρ σ) (ht : ∀ v ∈ t.vars, v ∈ A)
    (hn : t.tokens.length < n) :
    ∃ σ', unify n t (t.rename ρ) σ = some σ' ∧ Renaming A ρ σ' ∧
      (∀ v ∈ t.vars, σ' v = .var (ρ v) .nil) ∧
      ∀ w, (∀ v ∈ t.vars, v ∉ (σ w).vars) → σ' w = σ w := by
  induction n generalizing t σ with
  | zero => exact absurd hn (Nat.not_lt_zero _)
  | succ n ih =>
    cases t with
    | nil => exact ⟨σ, rfl, hσ, by simp [Tuple.vars], fun _ _ => rfl⟩
    | var v rest =>
      rw [Tuple.vars, forall_mem_cons] at ht
      rw [Tuple.tokens, length_cons] at hn
      obtain ⟨hv, hρv⟩ := hσ v ht.1
      rcases hv with hv | hv
      · have hne : v ≠ ρ v := (hρ.older v ht.1).ne'
        have hmax : max v (ρ v) = v := max_eq_left (hρ.older v ht.1).le
        have hmin : min v (ρ v) = ρ v := min_eq_right (hρ.older v ht.1).le
        have hstep : unify (n + 1) (.var v rest) ((Tuple.var v rest).rename ρ) σ =
            unify n rest (rest.rename ρ) (σ.bind v (.var (ρ v) .nil)) := by
          rw [Tuple.rename, unify, first, first, hv, hρv]
          simp only [if_neg hne, hmax, hmin]
        obtain ⟨σ', hrun, hσ', hbound, hsame⟩ := ih (hσ.bind hρ ht.1) ht.2 (by omega)
        refine ⟨σ', hstep.trans hrun, hσ', ?_, ?_⟩
        · rw [Tuple.vars, forall_mem_cons]
          refine ⟨?_, hbound⟩
          have hbind : (σ.bind v (.var (ρ v) .nil)) v = .var (ρ v) .nil := by
            rw [bind_var hv, if_pos rfl]
          rw [hsame v, hbind]
          intro u hu hmem
          rw [hbind] at hmem
          rw [mem_singleton.mp hmem] at hu
          exact hρ.outside v ht.1 (ht.2 _ hu)
        · intro w hw
          rw [Tuple.vars, forall_mem_cons] at hw
          have hbind : (σ.bind v (.var (ρ v) .nil)) w = σ w := by
            apply subst_self
            intro u hu
            have hne : u ≠ v := by
              rintro rfl
              exact hw.1 hu
            rw [update_of_ne hne]
            rfl
          rw [hsame w, hbind]
          rw [hbind]
          exact hw.2
      · have hstep : unify (n + 1) (.var v rest) ((Tuple.var v rest).rename ρ) σ =
            unify n rest (rest.rename ρ) σ := by
          rw [Tuple.rename, unify, first, first, hv, hρv]
          simp only [if_pos]
        obtain ⟨σ', hrun, hσ', hbound, hsame⟩ := ih hσ ht.2 (by omega)
        refine ⟨σ', hstep.trans hrun, hσ', ?_, ?_⟩
        · rw [Tuple.vars, forall_mem_cons]
          refine ⟨?_, hbound⟩
          rw [hsame v, hv]
          intro u hu hmem
          rw [hv] at hmem
          rw [mem_singleton.mp hmem] at hu
          exact hρ.outside v ht.1 (ht.2 _ hu)
        · intro w hw
          exact hsame w fun u hu => hw u (mem_cons_of_mem v hu)
    | app f args rest =>
      rw [Tuple.tokens, length_cons, length_append] at hn
      have hstep : unify (n + 1) (.app f args rest) ((Tuple.app f args rest).rename ρ) σ =
          unify n (args.append rest) ((args.append rest).rename ρ) σ := by
        rw [Tuple.rename, unify, first, first, rename_append]
        simp only [if_pos]
      obtain ⟨σ', hrun, hσ', hbound, hsame⟩ := ih (t := args.append rest) hσ
        (by rwa [Tuple.vars_append]) (by rw [Tuple.tokens_append, length_append]; omega)
      rw [Tuple.vars_append] at hbound hsame
      exact ⟨σ', hstep.trans hrun, hσ', hbound, hsame⟩

/-! ### The check -/

/-- The numbers of variables and of those they are renamed to agree. -/
theorem variant1_rename (S : Symbols F) (hρ : Renames A ρ) (ht : ∀ v ∈ t.vars, v ∈ A)
    (num : Nat → Option Nat) (hnum : ∀ v ∈ A, num (ρ v) = num v) (i : Nat) :
    ∃ num' i', variant1 S t (t.rename ρ) num i = some (num', i') ∧
      ∀ v ∈ A, num' (ρ v) = num' v := by
  induction t generalizing num i with
  | nil => exact ⟨num, i, rfl, hnum⟩
  | var v rest ih =>
    rw [Tuple.vars, forall_mem_cons] at ht
    have hv := hnum v ht.1
    rw [Tuple.rename, variant1, hv]
    cases hnv : num v with
    | none =>
      apply ih ht.2
      intro u hu
      have huv : u ≠ ρ v := by
        rintro rfl
        exact hρ.outside v ht.1 hu
      have hρu : ρ u ≠ v := by
        rintro rfl
        exact hρ.outside u hu ht.1
      by_cases heq : u = v
      · rw [heq, update_self, update_of_ne (heq ▸ huv), update_self]
      · have hne : ρ u ≠ ρ v := fun h => heq (hρ.inj u hu v ht.1 h)
        rw [update_of_ne hne, update_of_ne hρu, update_of_ne huv,
          update_of_ne heq, hnum u hu]
    | some a =>
      simp only [if_pos]
      exact ih ht.2 num hnum i
  | app f args rest ihargs ih =>
    rw [Tuple.vars, forall_mem_append] at ht
    have htype : S.sameType f args f (args.rename ρ) = true := by
      rw [Symbols.sameType, Tuple.length_rename]
      split <;> exact beq_self_eq_true _
    obtain ⟨num1, i1, hrun1, hnum1⟩ := ihargs ht.1 num hnum i
    obtain ⟨num2, i2, hrun2, hnum2⟩ := ih ht.2 num1 hnum1 i1
    refine ⟨num2, i2, ?_, hnum2⟩
    rw [Tuple.rename, variant1, if_pos htype, hrun1]
    exact hrun2

omit [DecidableEq F] in
theorem renaming_unbound (A : Set Nat) (ρ : Nat → Nat) : Renaming A ρ (unbound : Bindings F) :=
  fun _ _ => ⟨.inl rfl, rfl⟩

/-- A term is a variant of what it is renamed to. -/
theorem variant_rename (S : Symbols F) (hρ : Renames A ρ) (ht : ∀ v ∈ t.vars, v ∈ A)
    (hn : t.tokens.length < n) : variant S n t (t.rename ρ) = true := by
  obtain ⟨σ', hunify, -⟩ := unify_rename hρ (renaming_unbound A ρ) ht hn
  obtain ⟨num, i, hrun, -⟩ := variant1_rename S hρ ht (fun _ => none) (fun _ _ => rfl) 0
  rw [variant, hunify, hrun]
  rfl

omit [DecidableEq F] in
theorem vars_rename (ρ : Nat → Nat) (t : Tuple F Nat) : (t.rename ρ).vars = t.vars.map ρ := by
  induction t with
  | nil => rfl
  | var v rest ih => rw [Tuple.rename, Tuple.vars, Tuple.vars, ih, map_cons]
  | app f args rest ihargs ih =>
    rw [Tuple.rename, Tuple.vars, Tuple.vars, ihargs, ih, map_append]

omit [DecidableEq F] in
/-- A term that is a variant of an older one is renamed to it. -/
theorem renames_of_variant (h : Variant t t') (hold : ∀ v ∈ t.vars, ∀ w ∈ t'.vars, w < v) :
    ∃ ρ, t.rename ρ = t' ∧ Renames {v | v ∈ t.vars} ρ := by
  obtain ⟨ρ, τ, hρ, hτ⟩ := h
  have himage : ∀ v ∈ t.vars, ρ v ∈ t'.vars := by
    intro v hv
    rw [← hρ, vars_rename]
    exact mem_map_of_mem hv
  have hback : ∀ v ∈ t.vars, τ (ρ v) = v := by
    have hvars : (t.vars.map ρ).map τ = t.vars := by
      rw [← vars_rename, ← vars_rename, hρ, hτ]
    rw [map_map] at hvars
    exact map_inj_left.mp (hvars.trans (map_id _).symm)
  refine ⟨ρ, hρ, fun v hv => hold v hv _ (himage v hv), ?_, ?_⟩
  · intro v hv hmem
    exact (hold _ hmem _ (himage v hv)).false
  · intro v hv w hw heq
    rw [← hback v hv, heq, hback w hw]

end

end XSBEngine.Setof
