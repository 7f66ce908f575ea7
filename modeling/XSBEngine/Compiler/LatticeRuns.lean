import Mathlib
import XSBEngine.Compiler.LatticeAggr

/-!
# Runs of calls with lattice aggregation

Which value the answer for a most general tuple has after any sequence of derivations.
-/

namespace XSBEngine.Compiler

open List Subsumption

variable {F L : Type*} [DecidableEq F] [DecidableEq L]
  {answers : List (Return F L)} {ds : List (Return F L)} {d a : Return F L}
  {vars us : List (Term F)} {call : AggrCall F L} {v w : L} {o : Option L}

/-! ### Filters -/

section Lists

variable {α : Type*} {p q : α → Bool} {l : List α}

theorem filter_eraseP_disjoint (h : ∀ a ∈ l, p a = true → q a = false) :
    (l.eraseP p).filter q = l.filter q := by
  induction l with
  | nil => rfl
  | cons a l ih =>
    rw [eraseP_cons]
    cases hp : p a with
    | true =>
      rw [cond_true, filter_cons, h a mem_cons_self hp]
      rfl
    | false =>
      rw [cond_false, filter_cons, filter_cons,
        ih fun b hb => h b (mem_cons_of_mem a hb)]

theorem filter_eraseP_agree (h : ∀ a ∈ l, p a = q a) :
    (l.eraseP p).filter q = (l.filter q).tail := by
  induction l with
  | nil => rfl
  | cons a l ih =>
    have hih := ih fun b hb => h b (mem_cons_of_mem a hb)
    rw [eraseP_cons, filter_cons, ← h a mem_cons_self]
    cases hp : p a with
    | true => rfl
    | false =>
      rw [cond_false, filter_cons, ← h a mem_cons_self, hp]
      exact hih

end Lists

namespace AggrCall

/-! ### Answers -/

theorem mem_addAnswer (h : a ∈ addAnswer answers d) : a ∈ answers ∨ a = d := by
  rw [addAnswer] at h
  split at h
  next => exact .inl h
  next => simpa using h

/-- The answers for a tuple. -/
abbrev answersFor (answers : List (Return F L)) (vars : List (Term F)) : List (Return F L) :=
  answers.filter fun a => isVariant a.vars vars

theorem answersFor_addAnswer_other (h : ¬Variant us vars) :
    answersFor (addAnswer answers ⟨us, v⟩) vars = answersFor answers vars := by
  rw [addAnswer]
  split
  next => rfl
  next =>
    have hd : isVariant us vars = false := by rwa [← Bool.not_eq_true, isVariant_iff]
    rw [answersFor, filter_append, filter_cons, hd]
    exact append_nil _

theorem answersFor_addAnswer_new (h : answersFor answers vars = []) (hus : Variant us vars) :
    answersFor (addAnswer answers ⟨us, v⟩) vars = [⟨us, v⟩] := by
  have hne : ∀ a ∈ answers, isVariant a.vars us = false := by
    intro a ha
    have hvar := filter_eq_nil_iff.mp h a ha
    rw [isVariant_iff] at hvar
    rw [← Bool.not_eq_true, isVariant_iff]
    exact fun hau => hvar (hau.trans hus)
  rw [addAnswer, if_neg]
  · rw [answersFor, filter_append, ← answersFor, h, filter_cons, isVariant_iff.mpr hus]
    rfl
  · rw [any_eq_true]
    rintro ⟨a, ha, hvar⟩
    rw [hne a ha] at hvar
    cases hvar

/-! ### One derivation -/

variable [SemilatticeSup L]

/-- Derivations for other tuples leave the answers for a tuple as they are. -/
theorem groundPath_other (hg : ∀ a ∈ answers, groundAll a.vars = true) (h : ¬Variant d.vars vars) :
    answersFor (groundPath answers d.vars d.value) vars = answersFor answers vars := by
  rw [groundPath]
  split
  next leaf _ =>
    simp only
    split
    next => rfl
    next =>
      rw [answersFor_addAnswer_other h]
      refine filter_eraseP_disjoint fun a ha hsub => ?_
      rw [← Bool.not_eq_true, isVariant_iff]
      intro hvar
      have heq := (subsumesChk_iff.mp hsub).eq_of_ground (hg a ha)
      exact h (heq ▸ hvar)
  next => exact answersFor_addAnswer_other h

theorem subsumptionPath_other (hmost : Instance vars d.vars → Instance d.vars vars)
    (h : ¬Variant d.vars vars) :
    answersFor (subsumptionPath answers d.vars d.value) vars = answersFor answers vars := by
  rw [subsumptionPath]
  split
  next => rfl
  next =>
    rw [answersFor_addAnswer_other h, answersFor, filter_filter]
    refine filter_congr fun a _ => ?_
    cases hvar : isVariant a.vars vars with
    | false => rfl
    | true =>
      rw [isVariant_iff] at hvar
      have hsub : subsumesChk d.vars a.vars = false := by
        rw [← Bool.not_eq_true, subsumesChk_iff]
        intro hinst
        have hT := hvar.2.trans hinst
        exact h ⟨hmost hT, hT⟩
      rw [hsub]
      rfl

/-- The value of the answer for a tuple after one more derivation for it. -/
def joined (yy : Bool) (o : Option L) (v : L) : L :=
  match o with
  | none => v
  | some w => if w ⊔ v = w then w else if yy then v else w ⊔ v

theorem groundPath_same (hg : ∀ a ∈ answers, groundAll a.vars = true)
    (h : Variant d.vars vars) (ho : (answersFor answers vars).map Return.value = o.toList) :
    (answersFor (groundPath answers d.vars d.value) vars).map Return.value =
      [joined false o d.value] := by
  have hagree : ∀ a ∈ answers, subsumesChk a.vars d.vars = isVariant a.vars vars := by
    intro a ha
    rw [Bool.eq_iff_iff, subsumesChk_iff, isVariant_iff]
    constructor
    · intro hinst
      rwa [← hinst.eq_of_ground (hg a ha)]
    · exact fun hvar => (h.trans hvar.symm).1
  have hfind : answers.find? (fun leaf => subsumesChk leaf.vars d.vars) =
      (answersFor answers vars).head? := by
    rw [← List.head?_filter, answersFor, filter_congr hagree]
  rw [groundPath, hfind]
  cases o with
  | none =>
    have hnil := map_eq_nil_iff.mp ho
    rw [hnil]
    simp only [List.head?_nil]
    rw [answersFor_addAnswer_new hnil h]
    rfl
  | some w =>
    obtain ⟨leaf, hleaf, rfl⟩ := map_eq_singleton_iff.mp ho
    rw [hleaf]
    simp only [List.head?_cons, joined]
    split
    next => rw [hleaf]; rfl
    next =>
      rw [answersFor_addAnswer_new _ h]
      · rfl
      · rw [answersFor, filter_eraseP_agree hagree, ← answersFor, hleaf]
        rfl

theorem subsumptionPath_same (hmost : ∀ a ∈ answers, Instance vars a.vars → Instance a.vars vars)
    (h : Variant d.vars vars) (ho : (answersFor answers vars).map Return.value = o.toList) :
    (answersFor (subsumptionPath answers d.vars d.value) vars).map Return.value =
      [joined true o d.value] := by
  have hagree : ∀ a ∈ answers, subsumesChk a.vars d.vars = isVariant a.vars vars := by
    intro a ha
    rw [Bool.eq_iff_iff, subsumesChk_iff, isVariant_iff]
    constructor
    · intro hinst
      have hT := h.2.trans hinst
      exact ⟨hmost a ha hT, hT⟩
    · exact fun hvar => (h.trans hvar.symm).1
  have hany : (answers.any fun leaf =>
      subsumesChk leaf.vars d.vars && leaf.value ⊔ d.value = leaf.value) =
      (answersFor answers vars).any fun leaf => leaf.value ⊔ d.value = leaf.value := by
    rw [answersFor, ← filter_congr hagree, any_filter]
  have hkept : answersFor (answers.filter fun leaf =>
      !(subsumesChk d.vars leaf.vars && leaf.value ⊔ d.value ≠ leaf.value)) vars =
      (answersFor answers vars).filter fun leaf => leaf.value ⊔ d.value = leaf.value := by
    rw [answersFor, answersFor, filter_filter, filter_filter]
    refine filter_congr fun a _ => ?_
    cases hvar : isVariant a.vars vars with
    | false => rw [Bool.false_and, Bool.and_false]
    | true =>
      have hsub : subsumesChk d.vars a.vars = true :=
        subsumesChk_iff.mpr ((isVariant_iff.mp hvar).trans h.symm).1
      rw [hsub, Bool.true_and, Bool.true_and, Bool.and_true, decide_not, Bool.not_not]
  rw [subsumptionPath, hany]
  cases o with
  | none =>
    have hnil := map_eq_nil_iff.mp ho
    rw [hnil] at hkept ⊢
    rw [any_nil, if_neg Bool.false_ne_true, answersFor_addAnswer_new hkept h]
    rfl
  | some w =>
    obtain ⟨leaf, hleaf, rfl⟩ := map_eq_singleton_iff.mp ho
    rw [hleaf, filter_cons] at hkept
    rw [hleaf, any_cons, any_nil, Bool.or_false, joined]
    by_cases hle : leaf.value ⊔ d.value = leaf.value
    · rw [if_pos (decide_eq_true hle), if_pos hle, hleaf]
      rfl
    · rw [if_neg (decide_eq_true_iff.not.mpr hle), if_neg hle, answersFor_addAnswer_new _ h]
      · rfl
      · rw [hkept, if_neg (decide_eq_true_iff.not.mpr hle)]
        rfl

/-! ### All derivations -/

/-- Whether variables have been seen, and the value of the answer for a tuple. -/
def follow (vars : List (Term F)) : Bool × Option L → Return F L → Bool × Option L := fun s d =>
  let yy := s.1 || !groundAll d.vars
  (yy, if isVariant d.vars vars then some (joined yy s.2 d.value) else s.2)

/-- No derived tuple is strictly more general. -/
def NoneAbove (ds : List (Return F L)) (vars : List (Term F)) : Prop :=
  ∀ d ∈ ds, Instance vars d.vars → Instance d.vars vars

/-- What holds between derivations. -/
structure Follows (ds : List (Return F L)) (call : AggrCall F L) : Prop where
  derived : ∀ a ∈ call.answers, ∃ d ∈ ds, a.vars = d.vars
  ground : call.yy = false → ∀ d ∈ ds, groundAll d.vars = true
  value : ∀ vars, NoneAbove ds vars → ∃ o, ds.foldl (follow vars) (false, none) = (call.yy, o) ∧
    (answersFor call.answers vars).map Return.value = o.toList

theorem Follows.nil : Follows ([] : List (Return F L)) ⟨[], false⟩ where
  derived := nofun
  ground := nofun
  value _ _ := ⟨none, rfl, rfl⟩

theorem Follows.perm (h : Follows ds call) (hp : answers.Perm call.answers) :
    Follows ds ⟨answers, call.yy⟩ where
  derived a ha := h.derived a (hp.mem_iff.mp ha)
  ground := h.ground
  value vars hvars := by
    obtain ⟨o, ho, hvalue⟩ := h.value vars hvars
    refine ⟨o, ho, ?_⟩
    have hmap := (hp.filter fun a => isVariant a.vars vars).map Return.value
    rw [← answersFor, ← answersFor, hvalue] at hmap
    cases o with
    | none => exact hmap.eq_nil
    | some w => exact hmap.eq_singleton

theorem mem_derive (h : a ∈ (call.derive d).answers) : a ∈ call.answers ∨ a.vars = d.vars := by
  rw [derive] at h
  split at h
  next =>
    simp only [groundPath] at h
    split at h
    next =>
      split at h
      next => exact .inl h
      next =>
        rcases mem_addAnswer h with h | rfl
        · exact .inl (mem_of_mem_eraseP h)
        · exact .inr rfl
    next =>
      rcases mem_addAnswer h with h | rfl
      · exact .inl h
      · exact .inr rfl
  next =>
    simp only [subsumptionPath] at h
    split at h
    next => exact .inl h
    next =>
      rcases mem_addAnswer h with h | rfl
      · exact .inl (mem_filter.mp h).1
      · exact .inr rfl

theorem Follows.derive_value (h : Follows ds call) (hvars : NoneAbove ds vars)
    (hd : Instance vars d.vars → Instance d.vars vars)
    (ho : (answersFor call.answers vars).map Return.value = o.toList) :
    follow vars (call.yy, o) d = ((call.derive d).yy, (follow vars (call.yy, o) d).2) ∧
      (answersFor (call.derive d).answers vars).map Return.value =
        (follow vars (call.yy, o) d).2.toList := by
  rw [derive]
  split
  next hcond =>
    rw [Bool.and_eq_true, Bool.not_eq_true'] at hcond
    have hg : ∀ a ∈ call.answers, groundAll a.vars = true := by
      intro a ha
      obtain ⟨e, he, heq⟩ := h.derived a ha
      rw [heq]
      exact h.ground hcond.1 e he
    simp only [follow, hcond.1, hcond.2, Bool.not_true, Bool.or_false, true_and]
    split
    next hvar => exact groundPath_same hg (isVariant_iff.mp hvar) ho
    next hvar => rw [groundPath_other hg (isVariant_iff.not.mp hvar), ho]
  next hcond =>
    have hyy : (call.yy || !groundAll d.vars) = true := by
      revert hcond
      cases call.yy <;> cases groundAll d.vars <;> simp
    simp only [follow, hyy, true_and]
    split
    next hvar =>
      refine subsumptionPath_same (fun a ha => ?_) (isVariant_iff.mp hvar) ho
      obtain ⟨e, he, heq⟩ := h.derived a ha
      rw [heq]
      exact hvars e he
    next hvar => rw [subsumptionPath_other hd (isVariant_iff.not.mp hvar), ho]

theorem Follows.derive (h : Follows ds call) (d : Return F L) :
    Follows (ds ++ [d]) (call.derive d) where
  derived a ha := by
    rcases mem_derive ha with ha | ha
    · obtain ⟨e, he, heq⟩ := h.derived a ha
      exact ⟨e, mem_append_left _ he, heq⟩
    · exact ⟨d, mem_append_right _ mem_cons_self, ha⟩
  ground hyy := by
    rw [AggrCall.derive] at hyy
    split at hyy
    next hcond =>
      rw [Bool.and_eq_true, Bool.not_eq_true'] at hcond
      intro e he
      rcases mem_append.mp he with he | he
      · exact h.ground hcond.1 e he
      · rw [mem_singleton.mp he]
        exact hcond.2
    next => cases hyy
  value vars hvars := by
    obtain ⟨o, ho, hvalue⟩ := h.value vars fun e he => hvars e (mem_append_left _ he)
    obtain ⟨hyy, hnew⟩ := h.derive_value (fun e he => hvars e (mem_append_left _ he))
      (hvars d (mem_append_right _ mem_cons_self)) hvalue
    rw [foldl_append, ho]
    exact ⟨_, hyy, hnew⟩

theorem Run.follows (h : Run ds call) : Follows ds call := by
  induction h with
  | nil => exact .nil
  | derive d _ ih => exact ih.derive d
  | perm _ hp ih => exact ih.perm hp

/-! ### The value of an answer -/

theorem joined_false_le (u : L) : joined false o v ≤ u ↔ (∀ x ∈ o, x ≤ u) ∧ v ≤ u := by
  cases o with
  | none => simp [joined]
  | some w =>
    rw [joined]
    split
    next h =>
      have hv : v ≤ w := sup_eq_left.mp h
      simp only [Option.mem_some_iff, forall_eq']
      exact ⟨fun hw => ⟨hw, hv.trans hw⟩, fun hw => hw.1⟩
    next => simp

/-- Without variables the value is the join of the values. -/
theorem foldl_ground (vars : List (Term F)) (hg : ∀ d ∈ ds, groundAll d.vars = true)
    (o : Option L) :
    ∃ o', ds.foldl (follow vars) (false, o) = (false, o') ∧
      (o' = none ↔ o = none ∧ valuesFor ds vars = []) ∧
      ∀ u, (∀ x ∈ o', x ≤ u) ↔ (∀ x ∈ o, x ≤ u) ∧ ∀ x ∈ valuesFor ds vars, x ≤ u := by
  induction ds generalizing o with
  | nil => exact ⟨o, rfl, by simp [valuesFor], by simp [valuesFor]⟩
  | cons d ds ih =>
    have hd := hg d mem_cons_self
    obtain ⟨o', ho', hnone, hle⟩ := ih (fun e he => hg e (mem_cons_of_mem d he))
      (if isVariant d.vars vars then some (joined false o d.value) else o)
    refine ⟨o', ?_, ?_, fun u => ?_⟩
    · rw [foldl_cons, follow, hd]
      exact ho'
    · rw [hnone, valuesFor_cons]
      split <;> simp
    · rw [hle, valuesFor_cons]
      split
      next => simp [joined_false_le, and_assoc]
      next => rw [nil_append]

theorem joined_true_mem : joined true o v ∈ o.toList ++ [v] := by
  cases o with
  | none => exact mem_cons_self
  | some w =>
    rw [joined]
    split
    next => exact mem_cons_self
    next => exact mem_cons_of_mem w mem_cons_self

theorem joined_true_eq {u : L} (hu : u ∈ o.toList ++ [v]) (hle : ∀ x ∈ o.toList ++ [v], x ≤ u) :
    joined true o v = u := by
  cases o with
  | none => exact (mem_singleton.mp hu).symm
  | some w =>
    have hw : w ≤ u := hle w mem_cons_self
    have hv : v ≤ u := hle v (mem_cons_of_mem w mem_cons_self)
    rw [joined]
    rcases mem_cons.mp hu with rfl | hu
    · rw [if_pos (sup_eq_left.mpr hv)]
    · have huv : u = v := mem_singleton.mp hu
      split
      next h => exact le_antisymm hw (huv ▸ sup_eq_left.mp h)
      next => exact huv.symm

/-- With variables the value is one of the values, and the greatest of them if there is one. -/
theorem foldl_later (vars : List (Term F)) (ds : List (Return F L)) (o : Option L) :
    ∃ o', ds.foldl (follow vars) (true, o) = (true, o') ∧
      (∀ x ∈ o', x ∈ o.toList ++ valuesFor ds vars) ∧
      ∀ u ∈ o.toList ++ valuesFor ds vars, (∀ x ∈ o.toList ++ valuesFor ds vars, x ≤ u) →
        o' = some u := by
  induction ds generalizing o with
  | nil =>
    refine ⟨o, rfl, fun x hx => ?_, fun u hu _ => ?_⟩
    · simpa [valuesFor] using hx
    · simpa [valuesFor] using hu
  | cons d ds ih =>
    obtain ⟨o', ho', hmem, hgreatest⟩ :=
      ih (if isVariant d.vars vars then some (joined true o d.value) else o)
    refine ⟨o', ho', ?_⟩
    rw [valuesFor_cons]
    cases hvar : isVariant d.vars vars with
    | false =>
      rw [hvar] at hmem hgreatest
      exact ⟨hmem, hgreatest⟩
    | true =>
      rw [hvar, if_pos rfl, Option.toList_some] at hmem hgreatest
      rw [if_pos rfl, ← append_assoc]
      constructor
      · intro x hx
        rcases mem_append.mp (hmem x hx) with h | h
        · rw [mem_singleton.mp h]
          exact mem_append_left _ joined_true_mem
        · exact mem_append_right _ h
      · intro u hu hle
        have hle1 : ∀ x ∈ o.toList ++ [d.value], x ≤ u := fun x hx =>
          hle x (mem_append_left _ hx)
        refine hgreatest u ?_ fun x hx => ?_
        · rcases mem_append.mp hu with h | h
          · rw [joined_true_eq h hle1]
            exact mem_append_left _ mem_cons_self
          · exact mem_append_right _ h
        · rcases mem_append.mp hx with h | h
          · rw [mem_singleton.mp h]
            exact hle1 _ joined_true_mem
          · exact hle x (mem_append_right _ h)

theorem foldl_laterDerivations (ds : List (Return F L)) (o : Option L) :
    ((laterDerivations ds).foldl (follow vars) (false, o)).2 =
      ((laterDerivations ds).foldl (follow vars) (true, o)).2 := by
  have hhead := List.head?_dropWhile_not (fun d : Return F L => groundAll d.vars) ds
  rw [laterDerivations]
  cases h : ds.dropWhile fun d => groundAll d.vars with
  | nil => rfl
  | cons d rest =>
    rw [h] at hhead
    simp only [List.head?_cons] at hhead
    simp only [foldl_cons, follow, hhead, Bool.not_false, Bool.or_true]

/-- The value of the answer for a tuple is the join exactly if the join is kept. -/
theorem value_iff (hne : valuesFor ds vars ≠ []) :
    (∃ w, (ds.foldl (follow vars) (false, none)).2 = some w ∧ IsJoin (valuesFor ds vars) w) ↔
      JoinKept ds vars := by
  have hground : ∀ d ∈ groundDerivations ds, groundAll d.vars = true :=
    fun _ hd => mem_takeWhile_imp (p := fun d : Return F L => groundAll d.vars) hd
  obtain ⟨o, ho, hnone, hle⟩ := foldl_ground vars hground none
  obtain ⟨o', ho', hmem, hgreatest⟩ := foldl_later vars (laterDerivations ds) o
  have hsplit : groundDerivations ds ++ laterDerivations ds = ds := takeWhile_append_dropWhile
  have hvalues : valuesFor (groundDerivations ds) vars ++ valuesFor (laterDerivations ds) vars =
      valuesFor ds vars := by rw [← valuesFor_append, hsplit]
  have hfold : (ds.foldl (follow vars) (false, none)).2 = o' := by
    rw [← hsplit, foldl_append, ho, foldl_laterDerivations, ho']
  have hjoin : ∀ w ∈ o, IsJoin (valuesFor (groundDerivations ds) vars) w := by
    intro w hw
    rw [IsJoin, isLUB_iff_le_iff]
    intro u
    have hu := hle u
    rw [Option.mem_def.mp hw] at hu
    simpa [mem_upperBounds] using hu
  rw [hfold]
  constructor
  · rintro ⟨w, rfl, hw⟩
    refine ⟨w, hw, ?_⟩
    rcases mem_append.mp (hmem w rfl) with h | h
    · exact .inl (hjoin w (Option.mem_toList.mp h))
    · exact .inr h
  · rintro ⟨w, hw, hkept⟩
    have hbound : ∀ x ∈ o.toList ++ valuesFor (laterDerivations ds) vars, x ≤ w := by
      intro x hx
      rcases mem_append.mp hx with h | h
      · refine (hjoin x (Option.mem_toList.mp h)).2 fun y hy => hw.1 ?_
        show y ∈ valuesFor ds vars
        rw [← hvalues]
        exact mem_append_left _ hy
      · refine hw.1 ?_
        show x ∈ valuesFor ds vars
        rw [← hvalues]
        exact mem_append_right _ h
    refine ⟨w, hgreatest w ?_ hbound, hw⟩
    rcases hkept with h | h
    · cases o with
      | some w' =>
        rw [IsLUB.unique h (hjoin w' rfl)]
        exact mem_append_left _ mem_cons_self
      | none =>
        -- no value before variables have been seen: the join is below every value
        have hnil := (hnone.mp rfl).2
        rw [hnil, nil_append] at hvalues
        obtain ⟨x, hx⟩ := exists_mem_of_ne_nil _ hne
        have hxw : x = w := by
          refine le_antisymm (hw.1 hx) (h.2 fun y hy => ?_)
          rw [hnil] at hy
          cases hy
        rw [← hxw, Option.toList_none, nil_append, hvalues]
        exact hx
    · exact mem_append_right _ h

theorem joinedAnswer_iff (hrun : Run ds call) (h : MostGeneral ds vars) :
    JoinedAnswer ds call.answers vars ↔ JoinKept ds vars := by
  obtain ⟨o, ho, hvalue⟩ := hrun.follows.value vars h.2
  rw [← value_iff (valuesFor_ne_nil h), ho]
  constructor
  · rintro ⟨a, ha, hjoin⟩
    rw [show answersFor call.answers vars = [a] from ha] at hvalue
    cases o with
    | none => cases hvalue
    | some w =>
      have haw : a.value = w := singleton_inj.mp hvalue
      exact ⟨w, rfl, haw ▸ hjoin⟩
  · rintro ⟨w, rfl, hjoin⟩
    obtain ⟨a, ha, rfl⟩ := map_eq_singleton_iff.mp hvalue
    exact ⟨a, ha, hjoin⟩

/-- A call has one answer with the join of the values for every most general tuple exactly if the
joins are kept. -/
theorem lattice_answers_iff (ds : List (Return F L)) (call : AggrCall F L) (hrun : Run ds call) :
    (∀ vars, MostGeneral ds vars → JoinedAnswer ds call.answers vars) ↔
      ∀ vars, MostGeneral ds vars → JoinKept ds vars := by
  refine forall_congr' fun vars => forall_congr' fun h => ?_
  exact joinedAnswer_iff hrun h

/-- Joins are kept in a total order. -/
theorem joinKept_of_linear {L : Type*} [LinearOrder L] {ds : List (Return F L)}
    (h : MostGeneral ds vars) : JoinKept ds vars := by
  have hsplit : groundDerivations ds ++ laterDerivations ds = ds := takeWhile_append_dropWhile
  have hvalues : valuesFor (groundDerivations ds) vars ++ valuesFor (laterDerivations ds) vars =
      valuesFor ds vars := by rw [← valuesFor_append, hsplit]
  have hpos : 0 < (valuesFor ds vars).length := length_pos_of_ne_nil (valuesFor_ne_nil h)
  have hmem := maximum_of_length_pos_mem hpos
  have hgreatest : ∀ x ∈ valuesFor ds vars, x ≤ maximum_of_length_pos hpos :=
    fun x hx => le_maximum_of_length_pos_of_mem hx hpos
  refine ⟨maximum_of_length_pos hpos, ⟨hgreatest, fun u hu => hu hmem⟩, ?_⟩
  generalize maximum_of_length_pos hpos = m at hmem hgreatest
  rw [← hvalues] at hmem hgreatest
  rcases mem_append.mp hmem with hm | hm
  · exact .inl ⟨fun x hx => hgreatest x (mem_append_left _ hx), fun u hu => hu hm⟩
  · exact .inr hm

/-- Two joins are made without variables, and a greater value is found with variables. -/
def growing : List (Return String Nat) :=
  [⟨[.app "a" []], 2⟩, ⟨[.app "a" []], 1⟩, ⟨[.var 0], 1⟩, ⟨[.app "a" []], 3⟩, ⟨[.var 0], 4⟩]

theorem growing_mostGeneral : MostGeneral growing [.var 0] := by
  refine ⟨⟨⟨[.var 0], 1⟩, by decide, .refl _, .refl _⟩, fun d hd _ => ?_⟩
  have hvars : ∀ d ∈ growing, d.vars = [.app "a" []] ∨ d.vars = [.var 0] := by decide
  rcases hvars d hd with h | h <;> rw [h]
  · exact ⟨fun _ => .app "a" [], rfl⟩
  · exact .refl _

theorem lattice_answers_growing :
    JoinedAnswer growing (growing.foldl derive ⟨[], false⟩).answers [.var 0] :=
  (lattice_answers_iff growing (growing.foldl derive ⟨[], false⟩)
    (((((Run.nil.derive ⟨[.app "a" []], 2⟩).derive ⟨[.app "a" []], 1⟩).derive
      ⟨[.var 0], 1⟩).derive ⟨[.app "a" []], 3⟩).derive ⟨[.var 0], 4⟩)).mpr
    (fun _ => joinKept_of_linear) [.var 0] growing_mostGeneral

/-- Values for a tuple with a variable that are not comparable. -/
def incomparable : List (Return String (Nat × Nat)) := [⟨[.var 0], (1, 0)⟩, ⟨[.var 0], (0, 1)⟩]

/-- The second value replaces the first one. -/
theorem lattice_answers_incomparable :
    Run incomparable (incomparable.foldl derive ⟨[], false⟩) ∧ MostGeneral incomparable [.var 0] ∧
      ¬JoinedAnswer incomparable (incomparable.foldl derive ⟨[], false⟩).answers [.var 0] := by
  have hanswers : (incomparable.foldl derive ⟨[], false⟩).answers.filter
      (fun a => isVariant a.vars [.var 0]) = [⟨[.var 0], (0, 1)⟩] := by decide
  refine ⟨(Run.nil.derive ⟨[.var 0], (1, 0)⟩).derive ⟨[.var 0], (0, 1)⟩, ⟨?_, ?_⟩, ?_⟩
  · exact ⟨⟨[.var 0], (1, 0)⟩, mem_cons_self, .refl _⟩
  · intro d hd _
    have hvars : d.vars = [.var 0] := by
      rcases mem_cons.mp hd with rfl | hd
      · rfl
      · rw [mem_singleton.mp hd]
    rw [hvars]
    exact .refl _
  · rintro ⟨a, ha, hjoin⟩
    rw [hanswers] at ha
    obtain rfl := singleton_inj.mp ha
    have hle := hjoin.1 (show ((1, 0) : Nat × Nat) ∈ valuesFor incomparable [.var 0] by decide)
    exact absurd hle (by decide)

end AggrCall

end XSBEngine.Compiler
