import Mathlib
import XSBEngine.Library.Tuple

/-!
# Numbering variables by first occurrence

The variables of a term in prefix notation are numbered in the order in which they are met.
Two notations get the same numbers exactly when they are variants.
-/

namespace PrefixTerms

open List

variable {F V W : Type*} [DecidableEq V] [DecidableEq W]

/-- Record a variable that is not yet known. -/
def see (seen : List V) (v : V) : List V :=
  if v ∈ seen then seen else seen ++ [v]

/-- The number of a variable: its place in the list. -/
def indexIn (seen : List V) (v : V) : Nat := seen.idxOf v

/-- Replace each variable by its number. -/
def numberFrom (seen : List V) : List (F ⊕ V) → List (F ⊕ Nat)
  | [] => []
  | .inl f :: l => .inl f :: numberFrom seen l
  | .inr v :: l => .inr (indexIn (see seen v) v) :: numberFrom (see seen v) l

/-- The variables known after a notation has been read. -/
def seenAfter (seen : List V) : List (F ⊕ V) → List V
  | [] => seen
  | .inl _ :: l => seenAfter seen l
  | .inr v :: l => seenAfter (see seen v) l

variable {seen : List V} {v : V} {l : List (F ⊕ V)} {l' : List (F ⊕ W)}

theorem see_of_mem (h : v ∈ seen) : see seen v = seen := if_pos h

theorem see_of_not_mem (h : v ∉ seen) : see seen v = seen ++ [v] :=
  if_neg h

theorem mem_see (seen : List V) (v : V) : v ∈ see seen v := by
  unfold see
  split
  next h => exact h
  next => simp

theorem prefix_see (seen : List V) (v : V) : seen <+: see seen v := by
  unfold see
  split
  · exact prefix_refl _
  · exact prefix_append ..

theorem nodup_see (h : seen.Nodup) (v : V) : (see seen v).Nodup := by
  unfold see
  split
  next => exact h
  next hv =>
    rw [nodup_append_comm]
    exact nodup_cons.mpr ⟨hv, h⟩

theorem prefix_seenAfter (seen : List V) (l : List (F ⊕ V)) : seen <+: seenAfter seen l := by
  induction l generalizing seen with
  | nil => exact prefix_refl _
  | cons x l ih =>
    cases x with
    | inl f => exact ih seen
    | inr v => exact (prefix_see seen v).trans (ih (see seen v))

theorem mem_seenAfter (seen : List V) (h : .inr v ∈ l) :
    v ∈ seenAfter seen l := by
  induction l generalizing seen with
  | nil => simp at h
  | cons x l ih =>
    cases x with
    | inl f =>
      have hl : .inr v ∈ l := by simpa using h
      exact ih seen hl
    | inr w =>
      rcases mem_cons.mp h with he | hl
      · cases he
        exact (prefix_seenAfter _ l).subset (mem_see seen v)
      · exact ih (see seen w) hl

theorem mem_seenAfter_iff :
    v ∈ seenAfter seen l ↔ v ∈ seen ∨ .inr v ∈ l := by
  constructor
  · intro h
    induction l generalizing seen with
    | nil => exact .inl h
    | cons x l ih =>
      cases x with
      | inl f => exact (ih h).imp_right (mem_cons_of_mem _)
      | inr w =>
        rcases ih h with hs | hl
        · unfold see at hs
          split at hs
          next => exact .inl hs
          next =>
            rcases mem_append.mp hs with hs | hs
            · exact .inl hs
            · rw [mem_singleton.mp hs]
              exact .inr mem_cons_self
        · exact .inr (mem_cons_of_mem _ hl)
  · rintro (hs | hl)
    · exact (prefix_seenAfter seen l).subset hs
    · exact mem_seenAfter seen hl

theorem nodup_seenAfter (h : seen.Nodup) (l : List (F ⊕ V)) :
    (seenAfter seen l).Nodup := by
  induction l generalizing seen with
  | nil => exact h
  | cons x l ih =>
    cases x with
    | inl f => exact ih h
    | inr v => exact ih (nodup_see h v)

theorem indexIn_lt {l : List V} (h : v ∈ l) : indexIn l v < l.length :=
  idxOf_lt_length_of_mem h

theorem indexIn_append_of_mem {l l' : List V} (h : v ∈ l) :
    indexIn (l ++ l') v = indexIn l v :=
  idxOf_append_of_mem h

theorem indexIn_append_self {l : List V} (h : v ∉ l) :
    indexIn (l ++ [v]) v = l.length := by
  rw [indexIn, idxOf_append_of_notMem h]
  simp

theorem indexIn_of_prefix {l l' : List V} (h : l <+: l') (hv : v ∈ l) :
    indexIn l' v = indexIn l v := by
  obtain ⟨r, rfl⟩ := h
  exact indexIn_append_of_mem hv

/-- The numbers are positions in the final list. -/
theorem numberFrom_eq_map (seen : List V) (l : List (F ⊕ V)) :
    numberFrom seen l = l.map (Sum.map id fun v => indexIn (seenAfter seen l) v) := by
  induction l generalizing seen with
  | nil => rfl
  | cons x l ih =>
    cases x with
    | inl f =>
      simp only [numberFrom, seenAfter, map_cons, Sum.map_inl, id]
      rw [ih]
    | inr v =>
      simp only [numberFrom, seenAfter, map_cons, Sum.map_inr]
      rw [ih, indexIn_of_prefix (prefix_seenAfter _ l) (mem_see seen v)]

theorem map_eq_self_iff {α : Type*} {f : α → α} {l : List α} :
    l.map f = l ↔ ∀ x ∈ l, f x = x := by
  constructor
  · intro h
    exact map_inj_left.mp (h.trans (map_id l).symm)
  · intro h
    exact (map_congr_left h).trans (map_id l)

/-- The variables can be read off the numbers. -/
theorem numberFrom_restore [Inhabited V] (seen : List V) (l : List (F ⊕ V)) :
    (numberFrom seen l).map (Sum.map id fun i => (seenAfter seen l).getD i default) = l := by
  rw [numberFrom_eq_map, map_map, map_eq_self_iff]
  intro x hx
  cases x with
  | inl f => rfl
  | inr v =>
    have hlt := indexIn_lt (mem_seenAfter seen hx)
    simp only [Function.comp_apply, Sum.map_inr]
    rw [getD_eq_getElem _ _ hlt]
    exact congrArg Sum.inr (getElem_idxOf hlt)

theorem see_map {σ : V → W}
    (hσ : ∀ u ∈ seen, σ u = σ v → u = v) : see (seen.map σ) (σ v) = (see seen v).map σ := by
  by_cases h : v ∈ seen
  · rw [see_of_mem h, see_of_mem (mem_map_of_mem h)]
  · rw [see_of_not_mem h, see_of_not_mem, map_append, map_singleton]
    intro hm
    obtain ⟨u, hu, he⟩ := mem_map.mp hm
    exact h (hσ u hu he ▸ hu)

theorem indexIn_map {σ : V → W} {l : List V}
    (hσ : ∀ u ∈ l, σ u = σ v → u = v) : indexIn (l.map σ) (σ v) = indexIn l v := by
  unfold indexIn
  induction l with
  | nil => rfl
  | cons u l ih =>
    have hl : ∀ x ∈ l, σ x = σ v → x = v := fun x hx => hσ x (mem_cons_of_mem u hx)
    by_cases h : u = v
    · rw [map_cons, h, idxOf_cons_self, idxOf_cons_self]
    · have h' : σ u ≠ σ v := fun he => h (hσ u mem_cons_self he)
      rw [map_cons, idxOf_cons_ne _ h', idxOf_cons_ne _ h, ih hl]

/-- Numbers do not depend on the names of the variables. -/
theorem numberFrom_map {σ : V → W} (seen : List V) (l : List (F ⊕ V))
    (hσ : ∀ u v, (u ∈ seen ∨ .inr u ∈ l) → .inr v ∈ l → σ u = σ v → u = v) :
    numberFrom (seen.map σ) (l.map (Sum.map id σ)) = numberFrom seen l := by
  induction l generalizing seen with
  | nil => rfl
  | cons x l ih =>
    cases x with
    | inl f =>
      have hl : ∀ u v, (u ∈ seen ∨ .inr u ∈ l) → .inr v ∈ l → σ u = σ v → u = v :=
        fun u v hu hv => hσ u v (hu.imp_right (mem_cons_of_mem _))
          (mem_cons_of_mem _ hv)
      simp only [map_cons, Sum.map_inl, id, numberFrom]
      rw [ih seen hl]
    | inr w =>
      have hw : ∀ u ∈ seen, σ u = σ w → u = w :=
        fun u hu => hσ u w (.inl hu) mem_cons_self
      have hsee : ∀ u ∈ see seen w, σ u = σ w → u = w := by
        intro u hu he
        unfold see at hu
        split at hu
        next => exact hw u hu he
        next =>
          rcases mem_append.mp hu with hu | hu
          · exact hw u hu he
          · exact mem_singleton.mp hu
      have hl : ∀ u v, (u ∈ see seen w ∨ .inr u ∈ l) → .inr v ∈ l → σ u = σ v → u = v := by
        intro u v hu hv he
        apply hσ u v ?_ (mem_cons_of_mem _ hv) he
        rcases hu with hu | hu
        · unfold see at hu
          split at hu
          next => exact .inl hu
          next =>
            rcases mem_append.mp hu with hu | hu
            · exact .inl hu
            · rw [mem_singleton.mp hu]
              exact .inr mem_cons_self
        · exact .inr (mem_cons_of_mem _ hu)
      simp only [map_cons, Sum.map_inr, numberFrom]
      rw [see_map hw, ih (see seen w) hl, indexIn_map hsee]

theorem length_see (seen : List V) (v : V) :
    (see seen v).length = max seen.length (indexIn (see seen v) v + 1) := by
  by_cases hv : v ∈ seen
  · have := indexIn_lt hv
    rw [see_of_mem hv]
    omega
  · rw [see_of_not_mem hv, indexIn_append_self hv]
    simp

/-- The numbers tell how many variables there are. -/
theorem length_seenAfter_eq {seen' : List W}
    (hlen : seen.length = seen'.length)
    (h : numberFrom seen l = numberFrom seen' l') :
    (seenAfter seen l).length = (seenAfter seen' l').length := by
  induction l generalizing seen seen' l' with
  | nil =>
    cases l' with
    | nil => exact hlen
    | cons y l' => cases y <;> simp [numberFrom] at h
  | cons x l ih =>
    cases l' with
    | nil => cases x <;> simp [numberFrom] at h
    | cons y l' =>
      cases x with
      | inl f =>
        cases y with
        | inl f' =>
          simp only [numberFrom, List.cons.injEq] at h
          simp only [seenAfter]
          exact ih hlen h.2
        | inr w => simp [numberFrom] at h
      | inr v =>
        cases y with
        | inl f' => simp [numberFrom] at h
        | inr w =>
          simp only [numberFrom, List.cons.injEq, Sum.inr.injEq] at h
          simp only [seenAfter]
          apply ih ?_ h.2
          rw [length_see, length_see, hlen, h.1]

theorem rename_of_numberFrom_eq [Inhabited W]
    (h : numberFrom [] l = numberFrom [] l') : ∃ σ : V → W, l.map (Sum.map id σ) = l' := by
  refine ⟨fun v => (seenAfter [] l').getD (indexIn (seenAfter [] l) v) default, ?_⟩
  calc l.map (Sum.map id fun v => (seenAfter [] l').getD (indexIn (seenAfter [] l) v) default)
      = (numberFrom [] l).map (Sum.map id fun i => (seenAfter [] l').getD i default) := by
        rw [numberFrom_eq_map, map_map, Sum.map_comp_map]
        rfl
    _ = (numberFrom [] l').map (Sum.map id fun i => (seenAfter [] l').getD i default) := by
        rw [h]
    _ = l' := numberFrom_restore [] l'

/-- Two notations have the same numbers exactly when they are variants. -/
theorem numberFrom_eq_iff [Inhabited V] [Inhabited W] :
    numberFrom [] l = numberFrom [] l' ↔ TokenVariant l l' := by
  constructor
  · intro h
    obtain ⟨σ, hσ⟩ := rename_of_numberFrom_eq h
    obtain ⟨τ, hτ⟩ := rename_of_numberFrom_eq h.symm
    exact ⟨σ, τ, hσ, hτ⟩
  · rintro ⟨σ, τ, rfl, hτ⟩
    have hinv : ∀ v, .inr v ∈ l → τ (σ v) = v := by
      intro v hv
      rw [map_map, map_eq_self_iff] at hτ
      simpa using hτ _ hv
    symm
    apply numberFrom_map []
    intro u v hu hv he
    have hu' : .inr u ∈ l := hu.resolve_left not_mem_nil
    rw [← hinv u hu', he, hinv v hv]

end PrefixTerms
