import Mathlib
import XSBEngine.Library.Numbering

/-!
# Numbering with a table that grows

`expand_varenumerators` doubles the enumerator array without moving the variables that point
into the old one: the numbering forgets them. Occurrences of one variable in different epochs
are therefore different variables of the numbered term.
-/

namespace XSBEngine.Terms

open List PrefixTerms

/-- The numbering so far: the size of the array, the variables numbered, each with the epoch
in which it got its number, and the number of times the array has grown. -/
structure Numbering (V : Type*) where
  size : Nat
  seen : List (V × Nat)
  epoch : Nat

variable {F V : Type*}

namespace Numbering

/-- Numbers fit in the array, and no variable has been numbered in a later epoch. -/
structure WF (g : Numbering V) : Prop where
  pos : 0 < g.size
  fits : g.seen.length ≤ g.size
  nodup : g.seen.Nodup
  epoch : ∀ p ∈ g.seen, p.2 ≤ g.epoch

/-- The numbering before the first variable. -/
def start (size : Nat) : Numbering V := ⟨size, [], 0⟩

theorem start_wf {size : Nat} (h : 0 < size) : (start size : Numbering V).WF :=
  ⟨h, Nat.zero_le _, nodup_nil, by simp [start]⟩

variable {g : Numbering V}

theorem WF.later_not_mem (h : g.WF) (v : V) : (v, g.epoch + 1) ∉ g.seen :=
  fun hm => Nat.not_succ_le_self _ (h.epoch _ hm)

/-- Naming every occurrence by one epoch gives a variant. -/
theorem tokenVariant_tag (e : Nat) (l : List (F ⊕ V)) :
    TokenVariant (l.map (Sum.map id fun v => (v, e))) l := by
  refine ⟨Prod.fst, fun v => (v, e), ?_, rfl⟩
  rw [map_map, map_eq_self_iff]
  intro x _
  cases x <;> rfl

variable [DecidableEq V]

/-- A variable that points into the present array. -/
def Known (g : Numbering V) (v : V) : Prop := (v, g.epoch) ∈ g.seen

instance (g : Numbering V) (v : V) : Decidable (g.Known v) :=
  inferInstanceAs (Decidable ((v, g.epoch) ∈ g.seen))

/-- The numbering after an occurrence of a variable. -/
def next (g : Numbering V) (v : V) : Numbering V :=
  if g.Known v then g
  else if g.seen.length < g.size then { g with seen := g.seen ++ [(v, g.epoch)] }
  else ⟨2 * g.size, g.seen ++ [(v, g.epoch + 1)], g.epoch + 1⟩

/-- The numbering after a notation has been read. -/
def after (g : Numbering V) : List (F ⊕ V) → Numbering V
  | [] => g
  | .inl _ :: l => g.after l
  | .inr v :: l => (g.next v).after l

/-- Each occurrence of a variable with the epoch it is recognised in. -/
def split (g : Numbering V) : List (F ⊕ V) → List (F ⊕ V × Nat)
  | [] => []
  | .inl f :: l => .inl f :: g.split l
  | .inr v :: l => .inr (v, (g.next v).epoch) :: (g.next v).split l

/-- The same for terms, with the numbering afterwards. -/
def splitTuple (g : Numbering V) : Tuple F V → Tuple F (V × Nat) × Numbering V
  | .nil => (.nil, g)
  | .var v rest => (.var (v, (g.next v).epoch) ((g.next v).splitTuple rest).1,
      ((g.next v).splitTuple rest).2)
  | .app f args rest =>
    (.app f (g.splitTuple args).1 ((g.splitTuple args).2.splitTuple rest).1,
      ((g.splitTuple args).2.splitTuple rest).2)

theorem after_append (g : Numbering V) (l l' : List (F ⊕ V)) :
    g.after (l ++ l') = (g.after l).after l' := by
  induction l generalizing g with
  | nil => rfl
  | cons x l ih =>
    cases x with
    | inl f => exact ih g
    | inr v => exact ih (g.next v)

theorem split_append (g : Numbering V) (l l' : List (F ⊕ V)) :
    g.split (l ++ l') = g.split l ++ (g.after l).split l' := by
  induction l generalizing g with
  | nil => rfl
  | cons x l ih =>
    cases x with
    | inl f => exact congrArg (Sum.inl f :: ·) (ih g)
    | inr v => exact congrArg (_ :: ·) (ih (g.next v))

theorem splitTuple_tokens (g : Numbering V) (t : Tuple F V) :
    (g.splitTuple t).1.tokens = g.split t.tokens ∧ (g.splitTuple t).2 = g.after t.tokens := by
  induction t generalizing g with
  | nil => exact ⟨rfl, rfl⟩
  | var v rest ih =>
    obtain ⟨h₁, h₂⟩ := ih (g.next v)
    exact ⟨congrArg (_ :: ·) h₁, h₂⟩
  | app f args rest ihargs ih =>
    obtain ⟨h₁, h₂⟩ := ihargs g
    obtain ⟨h3, h4⟩ := ih (g.after args.tokens)
    simp only [splitTuple, Tuple.tokens, split, after]
    rw [h₂, h3, h₁, h4, split_append, after_append]
    exact ⟨rfl, rfl⟩

theorem length_splitTuple (g : Numbering V) (t : Tuple F V) :
    (g.splitTuple t).1.length = t.length := by
  induction t generalizing g with
  | nil => rfl
  | var v rest ih => exact congrArg (· + 1) (ih (g.next v))
  | app f args rest _ ih => exact congrArg (· + 1) (ih _)

theorem ranked_splitTuple {rank : F → Nat} (g : Numbering V) {t : Tuple F V}
    (h : t.Ranked rank) : (g.splitTuple t).1.Ranked rank := by
  induction t generalizing g with
  | nil => trivial
  | var v rest ih => exact ih (g.next v) h
  | app f args rest ihargs ih =>
    obtain ⟨hlen, hargs, hrest⟩ := h
    exact ⟨(length_splitTuple g args).trans hlen, ihargs g hargs, ih _ hrest⟩

/-! ### One occurrence -/

theorem next_of_known {v : V} (h : g.Known v) : g.next v = g := if_pos h

theorem next_of_fits {v : V} (h : ¬ g.Known v) (hlt : g.seen.length < g.size) :
    g.next v = { g with seen := g.seen ++ [(v, g.epoch)] } := by
  rw [next, if_neg h, if_pos hlt]

theorem next_of_full {v : V} (h : ¬ g.Known v)
    (hge : ¬ g.seen.length < g.size) :
    g.next v = ⟨2 * g.size, g.seen ++ [(v, g.epoch + 1)], g.epoch + 1⟩ := by
  rw [next, if_neg h, if_neg hge]

/-- An occurrence records the variable under its name in its epoch. -/
theorem WF.next_seen (h : g.WF) (v : V) :
    (g.next v).seen = see g.seen (v, (g.next v).epoch) := by
  by_cases hk : g.Known v
  · rw [next_of_known hk, see_of_mem hk]
  by_cases hlt : g.seen.length < g.size
  · rw [next_of_fits hk hlt, see_of_not_mem hk]
  · rw [next_of_full hk hlt, see_of_not_mem (h.later_not_mem v)]

theorem WF.next (h : g.WF) (v : V) : (g.next v).WF := by
  have hpos := h.pos
  have hfits := h.fits
  have hnodup : (g.next v).seen.Nodup := by
    rw [h.next_seen]
    exact nodup_see h.nodup _
  by_cases hk : g.Known v
  · rw [next_of_known hk]
    exact h
  by_cases hlt : g.seen.length < g.size
  · rw [next_of_fits hk hlt] at hnodup ⊢
    refine ⟨hpos, ?_, hnodup, ?_⟩
    · simp only [length_append, length_singleton]
      omega
    · intro p hp
      rcases mem_append.mp hp with hp | hp
      · exact h.epoch p hp
      · rw [mem_singleton.mp hp]
  · rw [next_of_full hk hlt] at hnodup ⊢
    refine ⟨Nat.mul_pos Nat.two_pos hpos, ?_, hnodup, ?_⟩
    · simp only [length_append, length_singleton]
      omega
    · intro p hp
      rcases mem_append.mp hp with hp | hp
      · exact Nat.le_succ_of_le (h.epoch p hp)
      · rw [mem_singleton.mp hp]

theorem WF.after (h : g.WF) (l : List (F ⊕ V)) : (g.after l).WF := by
  induction l generalizing g with
  | nil => exact h
  | cons x l ih =>
    cases x with
    | inl f => exact ih h
    | inr v => exact ih (h.next v)

/-- The variables numbered are those of the split notation. -/
theorem WF.after_seen (h : g.WF) (l : List (F ⊕ V)) :
    (g.after l).seen = seenAfter g.seen (g.split l) := by
  induction l generalizing g with
  | nil => rfl
  | cons x l ih =>
    cases x with
    | inl f => exact ih h
    | inr v =>
      simp only [Numbering.after, split, seenAfter]
      rw [ih (h.next v), h.next_seen]

/-! ### Without growth -/

/-- A notation with few variables is numbered in one epoch. -/
theorem split_of_fits (h : g.WF) {seen : List V}
    (hseen : g.seen = seen.map fun v => (v, g.epoch)) {l : List (F ⊕ V)}
    (hlen : (seenAfter seen l).length ≤ g.size) :
    g.split l = l.map (Sum.map id fun v => (v, g.epoch)) := by
  induction l generalizing g seen with
  | nil => rfl
  | cons x l ih =>
    cases x with
    | inl f => exact congrArg (Sum.inl f :: ·) (ih h hseen hlen)
    | inr v =>
      have hknown : g.Known v ↔ v ∈ seen := by
        rw [Known, hseen]
        simp
      have hlt : v ∉ seen → g.seen.length < g.size := by
        intro hv
        have hle := (prefix_seenAfter (see seen v) l).length_le
        rw [see_of_not_mem hv, length_append, length_singleton] at hle
        rw [hseen, length_map]
        simp only [seenAfter, see_of_not_mem hv] at hlen
        omega
      have hsize : (g.next v).size = g.size ∧ (g.next v).epoch = g.epoch ∧
          (g.next v).seen = (see seen v).map fun v => (v, g.epoch) := by
        by_cases hv : v ∈ seen
        · rw [next_of_known (hknown.mpr hv), see_of_mem hv]
          exact ⟨rfl, rfl, hseen⟩
        · rw [next_of_fits (fun hk => hv (hknown.mp hk)) (hlt hv), see_of_not_mem hv, hseen]
          simp
      obtain ⟨hsz, hep, hsn⟩ := hsize
      have hrest := ih (h.next v) (by rw [hsn, hep]) (by rw [hsz]; exact hlen)
      simp only [split, map_cons, Sum.map_inr]
      rw [hrest, hep]

theorem split_fst (g : Numbering V) (l : List (F ⊕ V)) :
    (g.split l).map (Sum.map id Prod.fst) = l := by
  induction l generalizing g with
  | nil => rfl
  | cons x l ih =>
    cases x with
    | inl f => exact congrArg (Sum.inl f :: ·) (ih g)
    | inr v => exact congrArg (Sum.inr v :: ·) (ih (g.next v))

theorem length_seenAfter_split (g : Numbering V) (l : List (F ⊕ V)) :
    (seenAfter [] l).length ≤ (seenAfter [] (g.split l)).length := by
  have hsub : seenAfter [] l ⊆ (seenAfter [] (g.split l)).map Prod.fst := by
    intro v hv
    have hl : .inr v ∈ l := (mem_seenAfter_iff.mp hv).resolve_left not_mem_nil
    rw [← split_fst g l] at hl
    obtain ⟨x, hx, he⟩ := mem_map.mp hl
    cases x with
    | inl f => cases he
    | inr p =>
      cases he
      exact mem_map_of_mem (mem_seenAfter [] hx)
  have hle := (subperm_of_subset (nodup_seenAfter nodup_nil l) hsub).length_le
  rwa [length_map] at hle

/-- The numbers of a later notation, in an array that holds the variables of an earlier one. -/
theorem numberFrom_split_eq_iff [Inhabited V] {g' : Numbering V} {l l' : List (F ⊕ V)}
    (h : g.WF) (h' : g'.WF) (hg : g.seen = []) (hg' : g'.seen = [])
    (hsize : (g.after l).size ≤ g'.size) :
    numberFrom [] (g.split l) = numberFrom [] (g'.split l') ↔ TokenVariant (g.split l) l' := by
  have hlen : (seenAfter [] (g.split l)).length ≤ g'.size := by
    rw [← hg, ← h.after_seen]
    exact (h.after l).fits.trans hsize
  have one : (seenAfter [] l').length ≤ g'.size →
      g'.split l' = l'.map (Sum.map id fun v ↦ (v, g'.epoch)) := split_of_fits h' (by rw [hg']; rfl)
  constructor
  · intro heq
    have hle := length_seenAfter_eq rfl heq
    have hle' := length_seenAfter_split g' l'
    rw [one (by omega), numberFrom_eq_iff] at heq
    exact heq.trans (tokenVariant_tag _ l')
  · intro hv
    have hnum : numberFrom [] (g.split l) = numberFrom [] l' := numberFrom_eq_iff.mpr hv
    have hle : (seenAfter [] (g.split l)).length = (seenAfter [] l').length :=
      length_seenAfter_eq (by rfl) hnum
    rw [one (by omega), numberFrom_eq_iff]
    exact hv.trans (tokenVariant_tag _ l').symm

/-! ### Variables met in two epochs -/

/-- A variable occurs before and after the array grows. -/
def Recurs (g : Numbering V) (l : List (F ⊕ V)) : Prop :=
  ∃ v e e', e ≠ e' ∧ .inr (v, e) ∈ g.split l ∧ .inr (v, e') ∈ g.split l

/-- Splitting gives a variant exactly when no variable is met in two epochs. -/
theorem split_variant_iff (g : Numbering V) (l : List (F ⊕ V)) :
    TokenVariant (g.split l) l ↔ ¬ g.Recurs l := by
  constructor
  · rintro ⟨σ, τ, -, hτ⟩ ⟨v, e, e', hne, he, he'⟩
    have hself : (g.split l).map (Sum.map id (τ ∘ Prod.fst)) = g.split l := by
      calc (g.split l).map (Sum.map id (τ ∘ Prod.fst))
          = ((g.split l).map (Sum.map id Prod.fst)).map (Sum.map id τ) := by
            rw [map_map, Sum.map_comp_map]
            rfl
        _ = g.split l := by rw [split_fst, hτ]
    rw [map_eq_self_iff] at hself
    have h₁ : τ v = (v, e) := Sum.inr.inj (hself _ he)
    have h₂ : τ v = (v, e') := Sum.inr.inj (hself _ he')
    rw [h₁] at h₂
    exact hne (Prod.mk.inj h₂).2
  · intro h
    classical
    let τ : V → V × Nat := fun v =>
      if hv : ∃ e, .inr (v, e) ∈ g.split l then (v, hv.choose) else (v, 0)
    refine ⟨Prod.fst, τ, split_fst g l, ?_⟩
    calc l.map (Sum.map id τ)
        = (g.split l).map (Sum.map id (τ ∘ Prod.fst)) := by
          conv_lhs => rw [← split_fst g l]
          rw [map_map, Sum.map_comp_map]
          rfl
      _ = g.split l := by
          rw [map_eq_self_iff]
          intro x hx
          cases x with
          | inl f => rfl
          | inr p =>
            obtain ⟨v, e⟩ := p
            have hv : ∃ e, .inr (v, e) ∈ g.split l := ⟨e, hx⟩
            have he : hv.choose = e := by
              by_contra hne
              exact h ⟨v, _, e, hne, hv.choose_spec, hx⟩
            simp only [Sum.map_inr, Function.comp_apply, τ]
            rw [dif_pos hv, he]

end Numbering

end XSBEngine.Terms
